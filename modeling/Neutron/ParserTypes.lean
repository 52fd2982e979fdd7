import Neutron.ParserTokens

/-!
# Parsing type annotations

A type that does not parse is no annotation rather than an error, so these parsers fail without a
message; the caller decides what it means. A type inside a type is read by `self`, which
`typeLevel` unrolls.
-/

namespace Neutron.Source
open CursorParser

section
variable {ε ε' α : Type}

/-- `.ok()?`: an error becomes an absent result. -/
def orNone (p : Parser ε α) : Parser Unit α := do
  match ← attempt p with
  | .ok a => return a
  | .error _ => fail ()

/-- `.ok_or_else(..)?`: an absent result becomes an error at the cursor. -/
def orError (message : String) (p : Parser Unit α) : Parser ParseError α := do
  match ← attempt p with
  | .ok a => return a
  | .error _ => errorHere message

/-- An absent result is `none`. -/
def optional (p : Parser Unit α) : Parser ε (Option α) := do
  match ← attempt p with
  | .ok a => return some a
  | .error _ => return none

end

namespace TypeAnnotation

def fromToken (t : Token) : Option TypeAnnotation :=
  match t.kind with
  | .typeInt => some .int
  | .typeFloat => some .float
  | .typeString => some .string
  | .typeBool => some .bool
  | .typeArray => some (.array none)
  | .typeObject => some .object
  | .typeAny => some .any
  | .typePointer => some .pointer
  | .typeSlice => some (.slice none)
  | .identifier _ => some (.named t)
  | _ => none

def label : TypeAnnotation → String
  | int => "int"
  | float => "float"
  | string => "string"
  | bool => "bool"
  | array _ => "array"
  | object => "object"
  | option _ => "option"
  | result _ _ => "result"
  | view _ _ => "view"
  | shared _ => "shared"
  | any => "any"
  | pointer => "pointer"
  | slice _ => "slice"
  | own _ => "own"
  | ref _ mutable => if mutable then "&mut" else "&"
  | rawPointer _ mutable => if mutable then "*mut" else "*const"
  | named _ => "named type"
  | implTrait _ => "impl trait"
  | dyn _ => "dyn trait"
  | tuple _ => "tuple"
  | chan _ => "chan"

end TypeAnnotation

def typeSource : TypeAnnotation → String
  | .named token => token.lexeme
  | .int => "int"
  | .float => "float"
  | .string => "string"
  | .bool => "bool"
  | .array (some inner) => "array[" ++ typeSource inner ++ "]"
  | .option inner => "option[" ++ typeSource inner ++ "]"
  | .result ok err => "result[" ++ typeSource ok ++ "," ++ typeSource err ++ "]"
  | .slice (some inner) => "slice[" ++ typeSource inner ++ "]"
  | .shared inner => "shared " ++ typeSource inner
  | .own inner => "own " ++ typeSource inner
  | .view inner mutable => "view " ++ (if mutable then "mut " else "") ++ typeSource inner
  | ann => ann.label

def mangleAppliedType (base : String) (arguments : List TypeAnnotation) : String :=
  base ++ "<" ++ String.intercalate "," (arguments.map typeSource) ++ ">"

section Types
variable (self : Bool → Parser Unit TypeAnnotation)

def parseTypeArgumentsWith : Parser ParseError (List TypeAnnotation) := do
  let _ ← expect .less "expected `<` before type arguments"
  let arguments ← separated .comma (orError "expected type argument" (self true))
  let _ ← expect .greater "expected `>` after type arguments"
  return arguments

/-- A bracketed element type, which `array` and `slice` may have. -/
def parseElementType (message : String) : Parser Unit (Option TypeAnnotation) := do
  match ← consume .leftBracket with
  | some _ =>
    let element ← self true
    let _ ← orNone (expect .rightBracket message)
    return some element
  | none => return none

/-- The types that a type keyword begins. -/
def parseKeywordType : Parser Unit TypeAnnotation := do
  let token ← advance
  match token.kind with
  | .typeArray =>
    let element ← parseElementType self "expected ']' after array element type"
    return .array element
  | .typeSlice =>
    let element ← parseElementType self "expected ']' after slice element type"
    return .slice element
  | .typeOption =>
    let _ ← orNone (expect .leftBracket "expected '[' after 'option'")
    let inner ← self true
    let _ ← orNone (expect .rightBracket "expected ']' after option type")
    return .option inner
  | .typeResult =>
    let _ ← orNone (expect .leftBracket "expected '[' after 'result'")
    let ok ← self true
    let _ ← orNone (expect .comma "expected ',' between result ok and err types")
    let err ← self true
    let _ ← orNone (expect .rightBracket "expected ']' after result type")
    return .result ok err
  | _ =>
    match TypeAnnotation.fromToken token with
    | some ann => return ann
    | none => fail ()

def parseChanType : Parser Unit TypeAnnotation := do
  let _ ← advance
  let _ ← orNone (expect .leftBracket "expected '[' after 'chan'")
  let element ← self true
  let _ ← orNone (expect .rightBracket "expected ']' after chan element type")
  return .chan element

/-- `dyn Trait`, where `dyn` is not a keyword. -/
def parseDynType : Parser Unit TypeAnnotation := do
  let _ ← advance
  let traitName ← advance
  if ← check .less then
    let arguments ← orNone (parseTypeArgumentsWith self)
    return .dyn ⟨.identifier (mangleAppliedType traitName.lexeme arguments), traitName.span⟩
  else return .dyn traitName

def parseNamedType : Parser Unit TypeAnnotation := do
  let token ← advance
  if ← check .less then
    let arguments ← orNone (parseTypeArgumentsWith self)
    return .named ⟨.identifier (mangleAppliedType token.lexeme arguments), token.span⟩
  else
    match ← consume .colon with
    | some _ =>
      let _ ← orNone (expect .colon "expected second `:` in associated type")
      let associated ← orNone (expectIdent "expected associated type name")
      return .named ⟨.identifier (token.lexeme ++ "::" ++ associated.lexeme), token.span⟩
    | none =>
      match TypeAnnotation.fromToken token with
      | some ann => return ann
      | none => fail ()

/-- The types that begin with a type keyword, `chan` or a name. -/
def parseSimpleType (allowNamed : Bool) : Parser Unit TypeAnnotation := do
  if ← kindIs TokenKind.isTypeKeyword then parseKeywordType self
  else if ← check .chan then parseChanType self
  else if ← look fun rest => allowNamed && kindAt rest 0 == .identifier "dyn" &&
      isIdent (kindAt rest 1) then parseDynType self
  else if ← kindIs fun kind => allowNamed && isIdent kind then parseNamedType self
  else fail ()

/-- `(T1, T2, ...)`; nothing when no comma follows the first type. -/
def parseTupleType : Parser Unit (Option TypeAnnotation) := do
  let _ ← advance
  match ← optional (self true) with
  | some first =>
    if ← check .comma then
      let types ← loop (fun types => do
        match ← consume .comma with
        | some _ =>
          if ← check .rightParen then return .inr types
          else
            match ← optional (self true) with
            | some ty => return .inl (types ++ [ty])
            | none => return .inl types
        | none => return .inr types) [first]
      let _ ← orNone (expect .rightParen "expected ')' after tuple type")
      return some (.tuple types)
    else return none
  | none => return none

def parseRawPointerType : Parser Unit TypeAnnotation := do
  let _ ← advance
  match ← consume .mut with
  | some _ =>
    let inner ← self true
    return .rawPointer inner true
  | none =>
    let qualifier ← orNone (expectIdent "expected `const` or `mut` after `*`")
    if qualifier.lexeme = "const" then
      let inner ← self true
      return .rawPointer inner false
    else fail ()

def parseTypeAnnotationWith (allowNamed : Bool) : Parser Unit TypeAnnotation := do
  match ← look fun rest => kindAt rest 0 with
  | .own =>
    let _ ← advance
    let inner ← self true
    return .own inner
  | .ampersand =>
    let _ ← advance
    let mutable ← consume .mut
    let inner ← self true
    return .ref inner mutable.isSome
  | .star => parseRawPointerType self
  | .view =>
    let _ ← advance
    let mutable ← consume .mut
    let inner ← self true
    return .view inner mutable.isSome
  | .shared =>
    let _ ← advance
    let inner ← self true
    return .shared inner
  | .leftParen =>
    if ← look fun rest => kindAt rest 1 != .rightParen then
      orRewind (parseTupleType self) (parseSimpleType self allowNamed)
    else parseSimpleType self allowNamed
  | _ => parseSimpleType self allowNamed

end Types

/-- Types nested at most `n` deep. -/
def typeLevel : ℕ → Bool → Parser Unit TypeAnnotation
  | 0 => fun _ => exhausted
  | n + 1 => parseTypeAnnotationWith (typeLevel n)

def parseTypeAnnotation (allowNamed : Bool) : Parser Unit TypeAnnotation :=
  fun ts pos => typeLevel (ts.length + 1) allowNamed ts pos

def parseTypeArguments : Parser ParseError (List TypeAnnotation) :=
  parseTypeArgumentsWith parseTypeAnnotation

/-- Annotations stand before names, so a named type counts only when a name can follow it. -/
def parseDeclarationTypeAnnotation : Parser Unit TypeAnnotation := do
  let namedType ← look fun rest => isIdent (kindAt rest 0) && (isIdent (kindAt rest 1) ||
    kindAt rest 1 == .less || (kindAt rest 1 == .colon && kindAt rest 2 == .colon &&
      isIdent (kindAt rest 3) && isIdent (kindAt rest 4)))
  parseTypeAnnotation namedType

def parseMethodName : Parser ParseError Token := do
  let t ← peek
  if isIdent t.kind then advance
  else if isOperatorToken t.kind then
    let _ ← advance
    return ⟨.identifier (operatorTokenLexeme t.kind), t.span⟩
  else errorHere "expected method name"

/-- Trait names joined by `+`. -/
def parseBounds (message : String) : Parser ParseError (List Token) :=
  separated .plus (expectIdent message)

def parseGenericParam : Parser ParseError GenericParam := do
  let name ← expectIdent "expected generic parameter name"
  match ← consume .colon with
  | some _ =>
    let bounds ← parseBounds "expected trait name after `:`"
    return ⟨name, bounds⟩
  | none => return ⟨name, []⟩

def parseGenericParams : Parser ParseError (List GenericParam) := do
  match ← consume .less with
  | none => return []
  | some _ =>
    let params ← separated .comma parseGenericParam
    let _ ← expect .greater "expected `>` after generic parameters"
    return params

/-- The bounds of a `where` clause are added to those of the parameters they name. -/
def parseWhereBounds (genericParams : List GenericParam) : Parser ParseError (List GenericParam) := do
  if ← checkIdent "where" then
    let _ ← advance
    loop (fun params => do
      let parameter ← expectIdent "expected generic parameter after `where`"
      let _ ← expect .colon "expected `:` after generic parameter"
      match params.findIdx? fun generic => generic.name.lexeme == parameter.lexeme with
      | none =>
        fail ⟨"`" ++ parameter.lexeme ++ "` is not a generic parameter of this declaration",
          parameter.span⟩
      | some i =>
        let bounds ← parseBounds "expected trait name in `where` clause"
        let params := params.modify i fun generic =>
          { generic with bounds := generic.bounds ++ bounds }
        match ← consume .comma with
        | some _ => return .inl params
        | none => return .inr params) genericParams
  else return genericParams

def parseReturnType : Parser ParseError (Option ReturnType) := do
  match ← consume .returnArrow with
  | some _ =>
    let arrow ← peek
    if ← check .impl then
      let _ ← advance
      let name ← expectIdent "expected trait name after `impl`"
      return some ⟨.implTrait name, arrow.span⟩
    else
      let ty ← orError "expected return type" ( parseTypeAnnotation true)
      return some ⟨ty, arrow.span⟩
  | none => return none

def parseParam : Parser ParseError FunctionParam := do
  let ann ← optional parseDeclarationTypeAnnotation
  let name ← expectIdent "expected parameter name"
  return ⟨name, ann⟩

def parseFunctionSignature :
    Parser ParseError (List FunctionParam × Option ReturnType) := do
  let _ ← expect .leftParen "expected '(' after function name"
  let params ← unlessClosed .rightParen (separated .comma parseParam)
  let _ ← expect .rightParen "expected ')'"
  let returnType ← parseReturnType
  return (params, returnType)

end Neutron.Source
