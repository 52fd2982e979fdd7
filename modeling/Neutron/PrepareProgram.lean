import Neutron.Generics

/-!
# The generics pass on a program

`prepare_program` collects the declarations, checks the traits, registers the implementations one
after the other and then lowers the statements that are left.
-/

namespace Neutron.Generics
open Syntax TypeNames Fuelled

/-! ### Declarations -/

mutual
/-- The walk of `declaration_mentions_impl_trait` through an annotation. -/
def mentionsImplTrait : TypeAnnotation → Bool
  | .implTrait _ => true
  | .array inner => optionMentionsImplTrait inner
  | .slice inner => optionMentionsImplTrait inner
  | .option inner => mentionsImplTrait inner
  | .view inner _ => mentionsImplTrait inner
  | .shared inner => mentionsImplTrait inner
  | .own inner => mentionsImplTrait inner
  | .ref inner _ => mentionsImplTrait inner
  | .rawPointer inner _ => mentionsImplTrait inner
  | _ => false
def optionMentionsImplTrait : Option TypeAnnotation → Bool
  | none => false
  | some ty => mentionsImplTrait ty
end

def declarationMentionsImplTrait : Stmt → Bool
  | .function false _ _ params returnType _ =>
    params.any (fun param => optionMentionsImplTrait param.ann) ||
      optionMentionsImplTrait returnType
  | _ => false

def functionName : Stmt → Option Name
  | .function false name _ _ _ _ => some name
  | _ => none

/-- The names that stand in a list before. -/
def repeated : List Name → List Name → List Name
  | _, [] => []
  | seen, name :: rest => if name ∈ seen then name :: repeated seen rest else repeated (name :: seen) rest

structure Collected where
  decls : Decls
  classes : List Name
  errors : List TypeError

def Collected.empty : Collected := ⟨⟨[], [], [], [], [], [], [], [], []⟩, [], []⟩

/-- The error of a second declaration. -/
def ifPresent {α : Type} (previous : Option α) (e : TypeError) : List TypeError :=
  if previous.isSome then [e] else []

/-- One declaration of the first loop. -/
def collectStmt (c : Collected) : Stmt → Collected
  | .traitDecl name parents associatedTypes methods =>
    { c with
      decls := { c.decls with
        traits := put name methods c.decls.traits
        traitParents := put name parents c.decls.traitParents
        traitAssociatedTypes := put name associatedTypes.dedup c.decls.traitAssociatedTypes }
      errors := c.errors ++
        ((methods.filter declarationMentionsImplTrait).map fun method =>
          .implTraitInTrait ((functionName method).getD "?")) ++
        ((repeated [] associatedTypes).map fun repeat' => .duplicateAssociatedType repeat' name) ++
        ifPresent (c.decls.traits.lookup name) (.duplicateTrait name) }
  | .classDecl name generics parent body =>
    if generics = [] then { c with classes := name :: c.classes }
    else
      { c with
        decls := { c.decls with
          classTemplates := put name ⟨generics, parent, body⟩ c.decls.classTemplates }
        errors := c.errors ++ ifPresent (c.decls.classTemplates.lookup name) (.duplicateClass name) }
  | .enumDecl name generics members =>
    if generics = [] then c
    else
      { c with decls := { c.decls with
          enumTemplates := put name ⟨generics, members⟩ c.decls.enumTemplates } }
  | .typeAlias name generics target =>
    { c with
      decls := { c.decls with aliases := put name ⟨generics, target⟩ c.decls.aliases }
      errors := c.errors ++ ifPresent (c.decls.aliases.lookup name) (.duplicateTypeAlias name) }
  | .function false name generics params returnType body =>
    if generics = [] then c
    else
      { c with
        decls := { c.decls with
          templates := put name ⟨generics, params, returnType, body⟩ c.decls.templates }
        errors := c.errors ++ ifPresent (c.decls.templates.lookup name) (.duplicateFunction name) }
  | _ => c

def collect (statements : List Stmt) : Collected := statements.foldl collectStmt .empty

/-- The bounds of all templates name traits. -/
def unknownBounds (d : Decls) : List TypeError :=
  ((d.templates.map fun entry => entry.2.generics) ++
      (d.classTemplates.map fun entry => entry.2.generics) ++
      (d.enumTemplates.map fun entry => entry.2.generics) ++
      d.aliases.map fun entry => entry.2.generics).flatten.flatMap fun generic =>
    (generic.bounds.filter fun bound => (d.traits.lookup bound).isNone).map .unknownBound

/-! ### Supertraits -/

/-- The loop of `trait_ancestors`: breadth first, each trait once and never `name` itself. -/
def ancestorsLoop (d : Decls) (name : Name) : ℕ → List Name → List Name → Option (List Name)
  | 0, _, _ => none
  | _ + 1, [], ancestors => some ancestors
  | n + 1, current :: queue, ancestors =>
    if current = name ∨ current ∈ ancestors then ancestorsLoop d name n queue ancestors
    else ancestorsLoop d name n (queue ++ (d.traitParents.lookup current).getD [])
      (ancestors ++ [current])

def traitAncestors (d : Decls) (n : ℕ) (name : Name) : Option (List Name) :=
  ancestorsLoop d name n ((d.traitParents.lookup name).getD []) []

/-- The loop of `validate_supertraits`: whether `name` is among its own ancestors. -/
def reachesItself (d : Decls) (name : Name) : ℕ → List Name → List Name → Option Bool
  | 0, _, _ => none
  | _ + 1, [], _ => some false
  | n + 1, current :: queue, visited =>
    if current = name then some true
    else if current ∈ visited then reachesItself d name n queue visited
    else reachesItself d name n (queue ++ (d.traitParents.lookup current).getD [])
      (visited ++ [current])

def validateSupertrait (d : Decls) (n : ℕ) (entry : Name × List Name) : Gen Unit := do
  let unknown := entry.2.filter fun parent => (d.traits.lookup parent).isNone
  modify fun w => { w with
    errors := w.errors ++ unknown.map fun parent => .unknownSupertrait entry.1 parent }
  if ← ofOption (reachesItself d entry.1 n entry.2 []) then error (.inheritsFromItself entry.1)
  else pure ()

/-! ### Implementations -/

mutual
def sameType : TypeAnnotation → TypeAnnotation → Bool
  | .named left, .named right => left = right
  | .array left, .array right => sameOption left right
  | .slice left, .slice right => sameOption left right
  | .option left, .option right => sameType left right
  | .shared left, .shared right => sameType left right
  | .own left, .own right => sameType left right
  | .view left leftMut, .view right rightMut => leftMut = rightMut && sameType left right
  | .ref left leftMut, .ref right rightMut => leftMut = rightMut && sameType left right
  | .rawPointer left leftMut, .rawPointer right rightMut =>
    leftMut = rightMut && sameType left right
  | .dyn left, .dyn right => left = right
  | .implTrait left, .implTrait right => left = right
  -- of the other constructors only the constructor counts
  | .int, .int => true
  | .float, .float => true
  | .string, .string => true
  | .bool, .bool => true
  | .object, .object => true
  | .result _ _, .result _ _ => true
  | .any, .any => true
  | .pointer, .pointer => true
  | .tuple _, .tuple _ => true
  | .chan _, .chan _ => true
  | _, _ => false
def sameOption : Option TypeAnnotation → Option TypeAnnotation → Bool
  | none, none => true
  | some left, some right => sameType left right
  | _, _ => false
end

def sameSignature : Stmt → Stmt → Bool
  | .function false _ _ leftParams leftReturn _, .function false _ _ rightParams rightReturn _ =>
    leftParams.length = rightParams.length &&
      (leftParams.zip rightParams).all (fun pair => sameOption pair.1.ann pair.2.ann) &&
      sameOption leftReturn rightReturn
  | _, _ => false

def hasBody : Stmt → Bool
  | .function false _ _ _ _ body => !body.isEmpty
  | _ => false

/-- What the associated types of an implementation are bound to so far. -/
structure Bindings where
  decls : Decls
  bound : List Name
  substitution : Subst

section
variable (equal : TypeAnnotation → TypeAnnotation → Bool) (n : ℕ)

/-- The traits of the chain that declare an associated type. -/
def declaring (d : Decls) (chain : List Name) (name : Name) : List Name :=
  chain.filter fun ancestor => name ∈ (d.traitAssociatedTypes.lookup ancestor).getD []

/-- One member of an implementation in the loop over its associated types. -/
def bindMember (traitName typeName : Name) (chain : List Name) (b : Bindings) : Stmt → Gen Bindings
  | .typeAlias name generics target =>
    if declaring b.decls chain name = [] then do
      error (.noSuchAssociatedType traitName name)
      pure b
    else if generics ≠ [] then do
      error .genericBinding
      pure b
    else if name ∈ b.bound then do
      error (.duplicateBinding name)
      pure b
    else do
      let target ← (lower equal b.decls n).normalizeType target
      let bindings := (declaring b.decls chain name).foldl
        (fun bindings ancestor => put (ancestor, typeName, name) target bindings)
        b.decls.associatedTypeBindings
      pure
        { decls := { b.decls with associatedTypeBindings := bindings }
          bound := name :: b.bound
          substitution := put ("Self::" ++ name) target (put name target b.substitution) }
  | .function false _ _ _ _ _ => pure b
  | _ => do
    error .notAMember
    pure b

def bindMembers (traitName typeName : Name) (chain : List Name) : List Stmt → Bindings → Gen Bindings
  | [], b => pure b
  | member :: rest, b => do
    bindMembers traitName typeName chain rest (← bindMember equal n traitName typeName chain b member)

/-- A method of the chain: the default it gives the class, or an error. -/
def requireMethod (body : List Stmt) (σ : Subst) (ancestor : Name) (method : Stmt) :
    List Stmt × List TypeError :=
  match functionName method with
  | none => ([], [])
  | some required =>
    match body.find? fun candidate => functionName candidate = some required with
    | some candidate =>
      if sameSignature (substituteStmtTypes σ method) candidate then ([], [])
      else ([], [.methodMismatch required ancestor])
    | none =>
      if hasBody method then ([substituteStmtTypes σ method], [])
      else ([], [.missingMethod ancestor required])

def requireMethods (d : Decls) (chain : List Name) (body : List Stmt) (σ : Subst) :
    List (List Stmt × List TypeError) :=
  chain.flatMap fun ancestor =>
    ((d.traits.lookup ancestor).getD []).map (requireMethod body σ ancestor)

/-- The implementations registered so far, and the methods they give the classes. -/
structure Registered where
  decls : Decls
  methods : Map Name (List Stmt)

local instance lawfulPair : LawfulBEq (Name × Name) := inferInstance

def registerImpl (r : Registered) (traitName typeName : Name) (body : List Stmt) :
    Gen Registered := do
  let w ← get
  if (r.decls.traits.lookup traitName).isNone then do
    error (.unknownTrait traitName)
    pure r
  else if typeName ∉ w.classes then do
    error (.unknownType typeName)
    pure r
  else if (traitName, typeName) ∈ r.decls.implementations then do
    error (.duplicateImplementation traitName typeName)
    pure r
  else do
    let d := { r.decls with implementations := (traitName, typeName) :: r.decls.implementations }
    let chain := traitName :: (← ofOption (traitAncestors d n traitName))
    let declared := (chain.flatMap fun t => (d.traitAssociatedTypes.lookup t).getD []).dedup
    let b ← bindMembers equal n traitName typeName chain body ⟨d, [], []⟩
    let missing := (declared.filter (· ∉ b.bound)).map (.missingAssociatedType traitName)
    let required := requireMethods b.decls chain body b.substitution
    modify fun w => { w with errors := w.errors ++ missing ++ required.flatMap (·.2) }
    -- the ancestors are implemented implicitly
    let implementations := chain.map (fun ancestor => (ancestor, typeName)) ++ b.decls.implementations
    let methods := body.filter (fun member => (functionName member).isSome) ++ required.flatMap (·.1)
    pure
      { decls := { b.decls with implementations := implementations }
        methods := put typeName ((r.methods.lookup typeName).getD [] ++ methods) r.methods }

def registerImpls : List Stmt → Registered → Gen Registered
  | [], r => pure r
  | .implDecl traitName typeName body :: rest, r => do
    registerImpls rest (← registerImpl equal n r traitName typeName body)
  | _ :: rest, r => registerImpls rest r

/-! ### Output -/

/-- The statements of the output; a class takes in the methods of its implementations. -/
def prepareStmt (r : Registered) : Stmt → Gen (Option Stmt)
  | .traitDecl _ _ _ _ => pure none
  | .implDecl _ _ _ => pure none
  | .typeAlias _ _ _ => pure none
  | .function false name generics params returnType body =>
    if generics ≠ [] then pure none
    else do
      pure (some (← withEnv [] ((lower equal r.decls n).transformStmt
        (.function false name generics params returnType body))))
  | .enumDecl name generics members =>
    if generics ≠ [] then pure none
    else do
      pure (some (← withEnv [] ((lower equal r.decls n).transformStmt
        (.enumDecl name generics members))))
  | .classDecl name generics parent body =>
    if generics ≠ [] then pure none
    else do
      let merged := body ++ (r.methods.lookup name).getD []
      let merged ← withEnv [] (each (lower equal r.decls n).transformStmt merged)
      pure (some (.classDecl name generics parent merged))
  | other => do pure (some (← withEnv [] ((lower equal r.decls n).transformStmt other)))

/-- A slot of a vtable. -/
structure TraitMethodInfo where
  name : Name
  params : List (Option TypeAnnotation)
  returnType : Option TypeAnnotation

/-- The slots of some methods, each name once. -/
def slots : List Name → List Stmt → List TraitMethodInfo
  | _, [] => []
  | seen, .function false name _ params returnType _ :: rest =>
    if name ∈ seen then slots seen rest
    else ⟨name, params.map FunctionParam.ann, returnType⟩ :: slots (name :: seen) rest
  | seen, _ :: rest => slots seen rest

/-- `record_trait_object_tables`, for one trait. -/
def traitObjectTable (d : Decls) (entry : Name × List Stmt) :
    Gen (Option (Name × List TraitMethodInfo)) :=
  if ((d.traitAssociatedTypes.lookup entry.1).getD []) ≠ [] then pure none
  else do
    let ancestors ← ofOption (traitAncestors d n entry.1)
    let methods := (ancestors.flatMap fun t => (d.traits.lookup t).getD []) ++ entry.2
    pure (some (entry.1, slots [] methods))

/-- The prepared program, with the tables the code generator takes over. -/
structure Prepared where
  program : Program
  traitObjectTables : Map Name (List TraitMethodInfo)
  implementations : List (Name × Name)

def start (c : Collected) : Work := ⟨c.classes, [], [], [], [], [], [], [], c.errors, []⟩

def prepare (statements : List Stmt) : Gen (Except (List TypeError) Prepared) := do
  let d := (collect statements).decls
  let _ ← each (validateSupertrait d n) d.traitParents
  let w ← get
  if ¬ w.errors.isEmpty then pure (.error w.errors)
  else do
    modify fun w => { w with errors := w.errors ++ unknownBounds d }
    let r ← registerImpls equal n statements ⟨d, []⟩
    let w ← get
    if ¬ w.errors.isEmpty then pure (.error w.errors)
    else do
      let output ← each (prepareStmt equal n r) statements
      let tables ← each (traitObjectTable n r.decls) r.decls.traits
      let w ← get
      if ¬ w.errors.isEmpty then pure (.error w.errors)
      else
        pure (.ok
          { program := ⟨w.generatedClasses ++ output.reduceOption ++ w.generated⟩
            traitObjectTables := tables.reduceOption
            implementations := r.decls.implementations })

/-- `prepare_program` with an amount of fuel. -/
def prepareProgram (program : Program) : Run Work (Except (List TypeError) Prepared) :=
  (prepare equal n program.statements).run (start (collect program.statements))

end

end Neutron.Generics
