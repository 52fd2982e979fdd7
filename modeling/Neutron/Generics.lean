import Mathlib.Data.List.Dedup
import Neutron.Fuelled
import Neutron.TypeNames

/-!
# Lowering of traits and generics

`prepare_program` replaces the applications of generic classes and enums and the calls of generic
functions by specialised copies, expands type aliases and merges trait implementations into their
classes. The pass calls itself through types, statements and expressions and through the bodies
it specialises, so each of its functions takes the recursive calls as an argument and `lower`
ties them together for an amount of fuel. A hash map is a list of entries with distinct keys.
-/

namespace Neutron.Generics
open Syntax TypeNames Fuelled

abbrev Map (α β : Type) := List (α × β)

def put {α β : Type} [DecidableEq α] (key : α) (value : β) (map : Map α β) : Map α β :=
  (key, value) :: map.filter (·.1 ≠ key)

abbrev Subst := Map Name TypeAnnotation

/-- The messages of the pass, with the names they are about. -/
inductive TypeError where
  | implTraitInTrait (method : Name)
  | duplicateAssociatedType (name traitName : Name)
  | duplicateTrait (name : Name)
  | duplicateClass (name : Name)
  | duplicateTypeAlias (name : Name)
  | duplicateFunction (name : Name)
  | unknownSupertrait (name parent : Name)
  | inheritsFromItself (name : Name)
  | unknownBound (bound : Name)
  | unknownTrait (name : Name)
  | unknownType (name : Name)
  | duplicateImplementation (traitName typeName : Name)
  | noSuchAssociatedType (traitName name : Name)
  | genericBinding
  | duplicateBinding (name : Name)
  | notAMember
  | missingAssociatedType (traitName name : Name)
  | methodMismatch (method ancestor : Name)
  | missingMethod (ancestor method : Name)
  | projectionOfNoParameter (parameter : Name)
  | notAGenericParameter (parameter : Name)
  | undefinedAssociatedType (parameter name : Name)
  | ambiguousAssociatedType (parameter name : Name)
  | aliasArguments (base : Name) (expected found : ℕ)
  | cyclicAlias (name : Name)
  | unknownGenericType (base : Name)
  | classArguments (base : Name) (expected found : ℕ)
  | enumArguments (base : Name) (expected found : ℕ)
  | boundNotMet (type bound : Name)
  | cannotInferArgument
  | conflictingTypes
  | cannotInferParameter (name : Name)
  | implReturnAssociatedTypes (traitName : Name)
  | implReturnOfMain (traitName : Name)
  | implReturnWithoutValue (function traitName : Name)
  | implReturnUnknown (traitName : Name)
  | implReturnNotAClass (traitName : Name)
  | implReturnNotImplemented (type traitName : Name)
  | implReturnAmbiguous (traitName first second : Name)

structure FunctionTemplate where
  generics : List GenericParam
  params : List FunctionParam
  returnType : Option TypeAnnotation
  body : List Stmt

structure ClassTemplate where
  generics : List GenericParam
  parent : Option Name
  body : List Stmt

structure EnumTemplate where
  generics : List GenericParam
  members : List EnumMember

structure AliasTemplate where
  generics : List GenericParam
  target : TypeAnnotation

/-- The part of `Context` that is fixed while types and bodies are lowered. -/
structure Decls where
  traits : Map Name (List Stmt)
  traitParents : Map Name (List Name)
  traitAssociatedTypes : Map Name (List Name)
  implementations : List (Name × Name)
  associatedTypeBindings : Map (Name × Name × Name) TypeAnnotation
  classTemplates : Map Name ClassTemplate
  enumTemplates : Map Name EnumTemplate
  aliases : Map Name AliasTemplate
  templates : Map Name FunctionTemplate

/-- The part of `Context` that grows, and `env`, the types of the variables of the body at hand. -/
structure Work where
  classes : List Name
  classSpecializations : List Name
  enumSpecializations : List Name
  resolvingAliases : List Name
  specializations : Map (Name × Name) Name
  specializationReturns : Map Name TypeAnnotation
  generated : List Stmt
  generatedClasses : List Stmt
  errors : List TypeError
  env : Subst

abbrev Gen := Fuelled Work

def error (e : TypeError) : Gen Unit := modify fun w => { w with errors := w.errors ++ [e] }

def bindEnv (name : Name) (ty : TypeAnnotation) : Gen Unit :=
  modify fun w => { w with env := put name ty w.env }

/-- A body of its own, with an environment of its own. -/
def withEnv {α : Type} (env : Subst) (p : Gen α) : Gen α :=
  bracket (fun w => { w with env := env }) (fun before w => { w with env := before.env }) p

def whileResolving {α : Type} (name : Name) (p : Gen α) : Gen α :=
  bracket (fun w => { w with resolvingAliases := name :: w.resolvingAliases })
    (fun _ w => { w with resolvingAliases := w.resolvingAliases.filter (· ≠ name) }) p

/-! ### Types and their names -/

/-- `type_key`. -/
def typeKey : TypeAnnotation → Name
  | .named lexeme => lexeme
  | ty => String.ofList (ty.label.map fun c => if c = ' ' ∨ c = '[' ∨ c = ']' then '_' else c)

/-- `format_key`: the keys of the types, in the order of the names. -/
def formatKey (σ : Subst) : Name :=
  String.ofList (List.intercalate ['_']
    ((σ.mergeSort fun a b => a.1 ≤ b.1).map fun entry => (typeKey entry.2).toList))

def typeAnnotationName : TypeAnnotation → Name
  | .named lexeme => lexeme
  | ty => String.ofList ty.label

mutual
/-- `substitute_type`: a name is replaced as a whole, so nothing inside an applied name is. -/
def substituteType (σ : Subst) : TypeAnnotation → TypeAnnotation
  | .named lexeme => (σ.lookup lexeme).getD (.named lexeme)
  | .array inner => .array (substituteOption σ inner)
  | .option inner => .option (substituteType σ inner)
  | .view inner mutable => .view (substituteType σ inner) mutable
  | .shared inner => .shared (substituteType σ inner)
  | .slice inner => .slice (substituteOption σ inner)
  | .own inner => .own (substituteType σ inner)
  | .ref inner mutable => .ref (substituteType σ inner) mutable
  | .rawPointer inner mutable => .rawPointer (substituteType σ inner) mutable
  | other => other
def substituteOption (σ : Subst) : Option TypeAnnotation → Option TypeAnnotation
  | none => none
  | some ty => some (substituteType σ ty)
end

def substituteParam (σ : Subst) (param : FunctionParam) : FunctionParam :=
  ⟨param.name, substituteOption σ param.ann⟩

mutual
/-- `substitute_stmt_types`: only functions, variables and blocks. -/
def substituteStmtTypes (σ : Subst) : Stmt → Stmt
  | .function false name generics params returnType body =>
    .function false name generics (params.map (substituteParam σ)) (substituteOption σ returnType)
      (substituteStmtsTypes σ body)
  | .var name ann initializer isStatic isConst view =>
    .var name (substituteOption σ ann) initializer isStatic isConst view
  | .block statements => .block (substituteStmtsTypes σ statements)
  | other => other
def substituteStmtsTypes (σ : Subst) : List Stmt → List Stmt
  | [] => []
  | s :: rest => substituteStmtTypes σ s :: substituteStmtsTypes σ rest
end

/-- The arguments of an applied name, bound to the parameters of its template. -/
def bindArguments (generics : List GenericParam) (sources : List Text) : Subst :=
  (generics.zip sources).foldl
    (fun σ entry => put entry.1.name (parseTypeSource entry.2) σ) []

/-- `str::split_once("::")`. -/
def splitOnce : Text → Option (Text × Text)
  | [] => none
  | ':' :: ':' :: rest => some ([], rest)
  | c :: rest => (splitOnce rest).map fun parts => (c :: parts.1, parts.2)

/-! ### Inferred types -/

/-- The type of a literal, by its source text. -/
def literalType (text : String) : TypeAnnotation :=
  match text.toList with
  | [] => .any
  | '"' :: _ => .string
  | c :: rest =>
    if c.isDigit then if '.' ∈ rest then .float else .int
    else if text = "true" ∨ text = "false" then .bool
    else .any

def isApplied (name : Name) : Bool := (splitAppliedName name.toList).isSome

section
variable (d : Decls) (w : Work)

def namesClass (name : Name) : Bool :=
  name ∈ w.classes || (d.classTemplates.lookup name).isSome || isApplied name

mutual
/-- `infer_expr_type`. -/
def inferExprType : Expr → Option TypeAnnotation
  | .operator (.literal text) _ => some (literalType text)
  | .var name =>
    (w.env.lookup name).or (if namesClass d w name then some (.named name) else none)
  | .operator .call operands => inferCallType operands
  | .operator .grouping operands => inferGroupedType operands
  | _ => none
def inferGroupedType : List Expr → Option TypeAnnotation
  | [e] => inferExprType e
  | _ => none
def inferCallType : List Expr → Option TypeAnnotation
  | .var name :: _ =>
    if namesClass d w name then some (.named name) else w.specializationReturns.lookup name
  | _ => none
end

mutual
/-- Whether `infer_expr_type` takes the name of a specialised function, which ends in `>` if the
last type argument does, for an applied type. -/
def misreads : Expr → Bool
  | .operator .call operands => misreadsCall operands
  | .operator .grouping operands => misreadsGrouped operands
  | _ => false
def misreadsGrouped : List Expr → Bool
  | [e] => misreads e
  | _ => false
def misreadsCall : List Expr → Bool
  | .var name :: _ =>
    w.specializations.any (·.2 = name) && name ∉ w.classes &&
      (d.classTemplates.lookup name).isNone && isApplied name
  | _ => false
end

end

/-- The type of an expression; a name that is misread raises the alarm. -/
def infer (d : Decls) (e : Expr) : Gen (Option TypeAnnotation) :=
  ⟨fun w => ⟨misreads d w e, some (inferExprType d w e, w)⟩⟩

/-- `unify`. `equal` compares two types together with the spans of their tokens, which the tree
does not have. -/
def unify (equal : TypeAnnotation → TypeAnnotation → Bool) (generics : List Name) :
    TypeAnnotation → TypeAnnotation → Subst → Option Subst
  | .named lexeme, actual, σ =>
    if lexeme ∈ generics then
      match σ.lookup lexeme with
      | some previous => if equal previous actual then some σ else none
      | none => some (put lexeme actual σ)
    else some σ
  | .array (some pattern), .array (some actual), σ => unify equal generics pattern actual σ
  | .option pattern, .option actual, σ => unify equal generics pattern actual σ
  | .shared pattern, .shared actual, σ => unify equal generics pattern actual σ
  | .own pattern, .own actual, σ => unify equal generics pattern actual σ
  | .slice (some pattern), .slice (some actual), σ => unify equal generics pattern actual σ
  | .view pattern mutable, .view actual mutable', σ =>
    if mutable = mutable' then unify equal generics pattern actual σ else none
  | .ref pattern mutable, .ref actual mutable', σ =>
    if mutable = mutable' then unify equal generics pattern actual σ else none
  | .rawPointer pattern mutable, .rawPointer actual mutable', σ =>
    if mutable = mutable' then unify equal generics pattern actual σ else none
  | .view pattern _, actual, σ => unify equal generics pattern actual σ
  | _, _, σ => some σ

/-! ### Bounds and projections -/

/-- The first bound the arguments do not meet. -/
def violation (d : Decls) (generics : List GenericParam) (σ : Subst) :
    Option ( TypeAnnotation × Name) :=
  (generics.flatMap fun param =>
    match σ.lookup param.name with
    | none => []
    | some actual =>
      (param.bounds.filter fun bound => (bound, typeKey actual) ∉ d.implementations).map
        fun bound => (actual, bound)).head?

def validateBounds (d : Decls) (generics : List GenericParam) (σ : Subst) : Gen Bool :=
  match violation d generics σ with
  | none => pure true
  | some (actual, bound) => do
    error (.boundNotMet (typeAnnotationName actual) bound)
    pure false

/-- The recursive calls of the pass. -/
structure Calls where
  normalizeType : TypeAnnotation → Gen TypeAnnotation
  transformStmt : Stmt → Gen Stmt
  transformExpr : Expr → Gen Expr
  resolveAssociatedType : Subst → List GenericParam → TypeAnnotation → Gen TypeAnnotation

section
variable (equal : TypeAnnotation → TypeAnnotation → Bool) (d : Decls) (calls : Calls)

def resolveProjection (σ : Subst) (generics : List GenericParam) (token : Name) :
    Gen TypeAnnotation :=
  match splitOnce token.toList with
  | none => pure (.named token)
  | some (parameter, associatedName) =>
    let parameter := String.ofList parameter
    let associatedName := String.ofList associatedName
    match σ.lookup parameter, generics.find? (·.name = parameter) with
    | none, _ => do
      error (.projectionOfNoParameter parameter)
      pure .any
    | some _, none => do
      error (.notAGenericParameter parameter)
      pure .any
    | some actual, some generic =>
      match generic.bounds.filterMap fun bound =>
        d.associatedTypeBindings.lookup (bound, typeKey actual, associatedName) with
      | [binding] => pure (substituteType σ binding)
      | [] => do
        error (.undefinedAssociatedType parameter associatedName)
        pure .any
      | _ => do
        error (.ambiguousAssociatedType parameter associatedName)
        pure .any

def resolveAssociatedType (σ : Subst) (generics : List GenericParam) (ann : TypeAnnotation) :
    Gen TypeAnnotation :=
  let inside := calls.resolveAssociatedType σ generics
  match substituteType σ ann with
  | .named token => resolveProjection d σ generics token
  | .array inner => do pure (.array (← eachOption inside inner))
  | .option inner => do pure (.option (← inside inner))
  | .view inner mutable => do pure (.view (← inside inner) mutable)
  | .shared inner => do pure (.shared (← inside inner))
  | .slice inner => do pure (.slice (← eachOption inside inner))
  | .own inner => do pure (.own (← inside inner))
  | .ref inner mutable => do pure (.ref (← inside inner) mutable)
  | .rawPointer inner mutable => do pure (.rawPointer (← inside inner) mutable)
  | other => pure other

/-- The associated types the bounds of a parameter give it. -/
def associatedNames (param : GenericParam) : List Name :=
  (param.bounds.flatMap fun bound => (d.traitAssociatedTypes.lookup bound).getD []).dedup

def projections (generics : List GenericParam) (σ : Subst) : List Name :=
  (generics.filter fun param => (σ.lookup param.name).isSome).flatMap fun param =>
    (associatedNames d param).map fun name => param.name ++ "::" ++ name

/-- `specialization_substitutions`: the substitution with the projections `T::Item` added. -/
def specializationSubstitutions (generics : List GenericParam) (σ : Subst) : Gen Subst := do
  let names := projections d generics σ
  let types ← each (fun name => calls.resolveAssociatedType σ generics (.named name)) names
  pure ((names.zip types).foldl (fun resolved entry => put entry.1 entry.2 resolved) σ)

/-! ### Types -/

/-- The base and the arguments of a name, none if it is not applied. -/
def splitName (name : Name) : Name × List Text :=
  match splitAppliedName name.toList with
  | none => (name, [])
  | some (base, sources) => (String.ofList base, sources)

def expandAlias (token : Name) : Gen (Option TypeAnnotation) :=
  let (base, sources) := splitName token
  match d.aliases.lookup base with
  | none => pure none
  | some template =>
    if template.generics.length ≠ sources.length then do
      error (.aliasArguments base template.generics.length sources.length)
      pure (some .any)
    else do
      let w ← get
      if token ∈ w.resolvingAliases then do
        error (.cyclicAlias token)
        pure (some .any)
      else
        let σ := bindArguments template.generics sources
        let expanded ← whileResolving token do
          if ← validateBounds d template.generics σ then do
            let σ ← specializationSubstitutions d calls template.generics σ
            calls.normalizeType (substituteType σ template.target)
          else pure .any
        pure (some expanded)

def ensureClassSpecialization (name : Name) : Gen Unit :=
  match splitAppliedName name.toList with
  | none => pure ()
  | some (base, sources) => do
    let base := String.ofList base
    let w ← get
    if name ∈ w.classSpecializations then pure ()
    else
      match d.classTemplates.lookup base with
      | none =>
        if (d.enumTemplates.lookup base).isSome then pure () else error (.unknownGenericType base)
      | some template =>
        if template.generics.length ≠ sources.length then
          error (.classArguments base template.generics.length sources.length)
        else do
          let σ := bindArguments template.generics sources
          if ← validateBounds d template.generics σ then do
            let σ ← specializationSubstitutions d calls template.generics σ
            modify fun w => { w with classSpecializations := name :: w.classSpecializations }
            let body ← withEnv [] (each calls.transformStmt (substituteStmtsTypes σ template.body))
            let parent := template.parent.map fun parent =>
              ((σ.lookup parent).map typeAnnotationName).getD parent
            modify fun w => { w with
              classes := name :: w.classes
              generatedClasses := w.generatedClasses ++ [.classDecl name [] parent body] }
          else pure ()

def substituteMember (σ : Subst) : EnumMember → EnumMember
  | .mk name value dataTypes => .mk name value (dataTypes.map (substituteType σ))

def ensureEnumSpecialization (name : Name) : Gen Unit :=
  match splitAppliedName name.toList with
  | none => pure ()
  | some (base, sources) => do
    let base := String.ofList base
    let w ← get
    if name ∈ w.enumSpecializations then pure ()
    else
      match d.enumTemplates.lookup base with
      | none => pure ()
      | some template =>
        if template.generics.length ≠ sources.length then
          error (.enumArguments base template.generics.length sources.length)
        else do
          let σ := bindArguments template.generics sources
          if ← validateBounds d template.generics σ then do
            let σ ← specializationSubstitutions d calls template.generics σ
            modify fun w => { w with
              enumSpecializations := name :: w.enumSpecializations
              generated := w.generated ++
                [.enumDecl name [] (template.members.map (substituteMember σ))] }
          else pure ()

def normalizeType : TypeAnnotation → Gen TypeAnnotation
  | .array inner => do pure (.array (← eachOption calls.normalizeType inner))
  | .option inner => do pure (.option (← calls.normalizeType inner))
  | .view inner mutable => do pure (.view (← calls.normalizeType inner) mutable)
  | .shared inner => do pure (.shared (← calls.normalizeType inner))
  | .slice inner => do pure (.slice (← eachOption calls.normalizeType inner))
  | .own inner => do pure (.own (← calls.normalizeType inner))
  | .ref inner mutable => do pure (.ref (← calls.normalizeType inner) mutable)
  | .rawPointer inner mutable => do pure (.rawPointer (← calls.normalizeType inner) mutable)
  | .named token => do
    match ← expandAlias d calls token with
    | some expanded => pure expanded
    | none => do
      ensureClassSpecialization d calls token
      ensureEnumSpecialization d calls token
      pure (.named token)
  | other => pure other

/-! ### Calls of generic functions -/

/-- The first loop of `infer_substitutions`. -/
def inferArguments (generics : List Name) : List (FunctionParam × Expr) → Subst → Gen (Option Subst)
  | [], σ => pure (some σ)
  | (param, argument) :: rest, σ =>
    match param.ann with
    | none => inferArguments generics rest σ
    | some ann => do
      match ← infer d argument with
      | none => do
        error .cannotInferArgument
        pure none
      | some actual =>
        match unify equal generics ann actual σ with
        | none => do
          error .conflictingTypes
          pure none
        | some σ => inferArguments generics rest σ

/-- The second loop: every parameter has a type that meets its bounds. -/
def checkInferred (σ : Subst) : List GenericParam → Option TypeError
  | [] => none
  | generic :: rest =>
    match σ.lookup generic.name with
    | none => some (.cannotInferParameter generic.name)
    | some actual =>
      match generic.bounds.find? fun bound => (bound, typeKey actual) ∉ d.implementations with
      | some bound => some (.boundNotMet (typeAnnotationName actual) bound)
      | none => checkInferred σ rest

def inferSubstitutions (template : FunctionTemplate) (arguments : List Expr) :
    Gen (Option Subst) := do
  match ← inferArguments equal d (template.generics.map GenericParam.name)
    (template.params.zip arguments) [] with
  | none => pure none
  | some σ =>
    match checkInferred d σ template.generics with
    | some e => do
      error e
      pure none
    | none => pure (some σ)

def mangle (name key : Name) : Name := "__generic_" ++ name ++ "_" ++ key

/-- The types the parameters of a function give its variables. -/
def paramEnv (params : List FunctionParam) : Subst :=
  params.foldl (fun env param => param.ann.elim env fun ty => put param.name ty env) []

def specialize (name : Name) (template : FunctionTemplate) (σ : Subst) : Gen Name := do
  let key := formatKey σ
  let w ← get
  match w.specializations.lookup (name, key) with
  | some existing => pure existing
  | none => do
    let mangled := mangle name key
    modify fun w => { w with specializations := put (name, key) mangled w.specializations }
    let σ ← specializationSubstitutions d calls template.generics σ
    let params := template.params.map (substituteParam σ)
    let returnType := substituteOption σ template.returnType
    modify fun w => { w with
      specializationReturns :=
        returnType.elim w.specializationReturns fun ty => put mangled ty w.specializationReturns }
    let body ← withEnv (paramEnv params)
      (each calls.transformStmt (substituteStmtsTypes σ template.body))
    modify fun w => { w with
      generated := w.generated ++ [.function false mangled [] params returnType body] }
    pure mangled

/-! ### Expressions -/

/-- The operators whose operands `transform_expr` does not visit. -/
def leavesOperands : Operator → Bool
  | .literal _ => true
  | .this => true
  | .propagate => true
  | .tupleLiteral => true
  | .tupleIndex _ => true
  | .chanSend => true
  | .close => true
  | _ => false

def transformCallee (arguments : List Expr) : Expr → Gen Expr
  | .var name =>
    match d.templates.lookup name with
    | some template => do
      match ← inferSubstitutions equal d template arguments with
      | some σ => do pure (.var (← specialize d calls name template σ))
      | none => pure (.var name)
    | none => do
      ensureClassSpecialization d calls name
      pure (.var name)
  | other => calls.transformExpr other

/-- `transform_expr`. Lambdas, `async` blocks and receives stay as they are. -/
def transformExpr : Expr → Gen Expr
  | .operator .call (callee :: arguments) => do
    let arguments ← each calls.transformExpr arguments
    let callee ← transformCallee equal d calls arguments callee
    pure (.operator .call (callee :: arguments))
  | .operator form operands =>
    if leavesOperands form then pure (.operator form operands)
    else do pure (.operator form (← each calls.transformExpr operands))
  | .assign name value => do pure (.assign name (← calls.transformExpr value))
  | .structLiteral className keys fields update => do
    let fields ← each calls.transformExpr fields
    let update ← eachOption calls.transformExpr update
    pure (.structLiteral className keys fields update)
  | other => pure other

/-! ### Statements -/

mutual
/-- `collect_returns_from_stmt`. -/
def collectReturns : Stmt → List Expr
  | .ret (some value) => [value]
  | .block statements => collectReturnsAll statements
  | .ifThen _ thenBranch elifs elseBranch =>
    collectReturns thenBranch ++ collectReturnsElifs elifs ++ collectReturnsOption elseBranch
  | .while _ body => collectReturns body
  | .doWhile body _ => collectReturns body
  | .for _ _ _ body => collectReturns body
  | .each .forIn _ _ _ body => collectReturns body
  | .each .forAwait _ _ _ body => collectReturns body
  | .within _ body => collectReturns body
  | .match _ cases defaultCase => collectReturnsCases cases ++ collectReturnsOption defaultCase
  | .tryCatch body none last => collectReturns body ++ collectReturnsOption last
  | .tryCatch body (some (.mk _ handler)) last =>
    collectReturns body ++ collectReturns handler ++ collectReturnsOption last
  | .retry _ body none => collectReturns body
  | .retry _ body (some (.mk _ handler)) => collectReturns body ++ collectReturns handler
  | _ => []
def collectReturnsAll : List Stmt → List Expr
  | [] => []
  | s :: rest => collectReturns s ++ collectReturnsAll rest
def collectReturnsOption : Option Stmt → List Expr
  | none => []
  | some s => collectReturns s
def collectReturnsElifs : List ElifBranch → List Expr
  | [] => []
  | .mk _ body :: rest => collectReturns body ++ collectReturnsElifs rest
def collectReturnsCases : List MatchCase → List Expr
  | [] => []
  | .mk _ _ _ _ body :: rest => collectReturns body ++ collectReturnsCases rest
end

/-- The loop of `resolve_impl_trait_return` over the returned expressions. -/
def concreteReturn (traitName : Name) : List Expr → Option Name → Gen (Option Name)
  | [], concrete => pure concrete
  | e :: rest, concrete => do
    match ← infer d e with
    | none => do
      error (.implReturnUnknown traitName)
      concreteReturn traitName rest concrete
    | some (.named token) =>
      if (traitName, token) ∉ d.implementations then do
        error (.implReturnNotImplemented token traitName)
        concreteReturn traitName rest concrete
      else
        match concrete with
        | some existing =>
          if existing ≠ token then do
            error (.implReturnAmbiguous traitName existing token)
            concreteReturn traitName rest concrete
          else concreteReturn traitName rest (some token)
        | none => concreteReturn traitName rest (some token)
    | some _ => do
      error (.implReturnNotAClass traitName)
      concreteReturn traitName rest concrete

def resolveImplTraitReturn (function traitName : Name) (body : List Stmt) : Gen TypeAnnotation :=
  if (d.traits.lookup traitName).isNone then do
    error (.unknownTrait traitName)
    pure .any
  else if ((d.traitAssociatedTypes.lookup traitName).getD []) ≠ [] then do
    error (.implReturnAssociatedTypes traitName)
    pure .any
  else if function = "main" then do
    error (.implReturnOfMain traitName)
    pure .any
  else
    match collectReturnsAll body with
    | [] => do
      error (.implReturnWithoutValue function traitName)
      pure .any
    | returns => do
      match ← concreteReturn d traitName returns none with
      | some token => pure (.named token)
      | none => pure .any

/-- A parameter, whose type its body then knows. -/
def transformParam (param : FunctionParam) : Gen FunctionParam := do
  let ann ← eachOption (fun ty => calls.normalizeType (substituteType [] ty)) param.ann
  match ann with
  | some ty => bindEnv param.name ty
  | none => pure ()
  pure ⟨param.name, ann⟩

def transformReturnType (function : Name) (body : List Stmt) : TypeAnnotation → Gen TypeAnnotation
  | .implTrait traitName => do
    calls.normalizeType (← resolveImplTraitReturn d function traitName body)
  | ty => calls.normalizeType ty

def transformElif : ElifBranch → Gen ElifBranch
  | .mk condition body => do
    let condition ← calls.transformExpr condition
    let body ← calls.transformStmt body
    pure (.mk condition body)

def transformCase : MatchCase → Gen MatchCase
  | .mk value variant binding guard body => do
    let value ← calls.transformExpr value
    let guard ← eachOption calls.transformExpr guard
    let body ← calls.transformStmt body
    pure (.mk value variant binding guard body)

def transformCatch : CatchClause → Gen CatchClause
  | .mk x body => do pure (.mk x (← calls.transformStmt body))

/-- What a declaration without a type lets the body know of its variable. -/
def bindInitializer (name : Name) : Option Expr → Gen Unit
  | none => pure ()
  | some e => do
    match ← infer d e with
    | some ty => bindEnv name ty
    | none => pure ()

/-- `transform_stmt`. Async functions, tests, `go`, loops over channels and nested declarations
of other kinds stay as they are. -/
def transformStmt : Stmt → Gen Stmt
  | .function false name generics params returnType body => do
    let params ← each (transformParam calls) params
    let body ← each calls.transformStmt body
    let returnType ← eachOption (transformReturnType d calls name body) returnType
    pure (.function false name generics params returnType body)
  | .var name ann initializer isStatic isConst view => do
    let initializer ← eachOption calls.transformExpr initializer
    let ann ← eachOption (fun ty => calls.normalizeType (substituteType [] ty)) ann
    match ann with
    | some ty => bindEnv name ty
    | none => bindInitializer d name initializer
    pure (.var name ann initializer isStatic isConst view)
  | .expression e => do pure (.expression (← calls.transformExpr e))
  | .say e => do pure (.say (← calls.transformExpr e))
  | .ret value => do pure (.ret (← eachOption calls.transformExpr value))
  | .block statements => do pure (.block (← each calls.transformStmt statements))
  | .ifThen condition thenBranch elifs elseBranch => do
    let condition ← calls.transformExpr condition
    let thenBranch ← calls.transformStmt thenBranch
    let elifs ← each (transformElif calls) elifs
    let elseBranch ← eachOption calls.transformStmt elseBranch
    pure (.ifThen condition thenBranch elifs elseBranch)
  | .while condition body => do
    let condition ← calls.transformExpr condition
    let body ← calls.transformStmt body
    pure (.while condition body)
  | .doWhile body condition => do
    let body ← calls.transformStmt body
    let condition ← calls.transformExpr condition
    pure (.doWhile body condition)
  | .for init condition update body => do
    let init ← eachOption calls.transformStmt init
    let condition ← eachOption calls.transformExpr condition
    let update ← eachOption calls.transformExpr update
    let body ← calls.transformStmt body
    pure (.for init condition update body)
  | .each form x source site body =>
    if form = .chanRecvFor then pure (.each form x source site body)
    else do
      let source ← calls.transformExpr source
      let body ← calls.transformStmt body
      pure (.each form x source site body)
  | .classDecl name generics parent body => do
    pure (.classDecl name generics parent (← each calls.transformStmt body))
  | .match scrutinee cases defaultCase => do
    let scrutinee ← calls.transformExpr scrutinee
    let cases ← each (transformCase calls) cases
    let defaultCase ← eachOption calls.transformStmt defaultCase
    pure (.match scrutinee cases defaultCase)
  | .tryCatch body handler last => do
    let body ← calls.transformStmt body
    let handler ← eachOption (transformCatch calls) handler
    let last ← eachOption calls.transformStmt last
    pure (.tryCatch body handler last)
  | .throw value => do pure (.throw (← calls.transformExpr value))
  | .retry count body handler => do
    let count ← calls.transformExpr count
    let body ← calls.transformStmt body
    let handler ← eachOption (transformCatch calls) handler
    pure (.retry count body handler)
  | .within form body => do pure (.within form (← calls.transformStmt body))
  | .destructure names keys initializer => do
    pure (.destructure names keys (← calls.transformExpr initializer))
  | other => pure other

end

/-- The pass with an amount of fuel for its recursive calls. -/
def lower (equal : TypeAnnotation → TypeAnnotation → Bool) (d : Decls) : ℕ → Calls
  | 0 => ⟨fun _ => exhausted, fun _ => exhausted, fun _ => exhausted, fun _ _ _ => exhausted⟩
  | n + 1 =>
    { normalizeType := normalizeType d (lower equal d n)
      transformStmt := transformStmt d (lower equal d n)
      transformExpr := transformExpr equal d (lower equal d n)
      resolveAssociatedType := resolveAssociatedType d (lower equal d n) }

end Neutron.Generics
