import Mathlib.Data.List.Basic

/-!
# Assignability of types

The relation of the type checker, arm by arm, and what it lets through. Two types are walked together from the
assigned value inwards. The assignment converts the value at its head only, so a conversion that the relation
allows further in reads one type as another.
-/

namespace Neutron.Types

inductive Ty where
  | int
  | float
  | string
  | bool
  | void
  | nil
  | array (element : Ty)
  | option (inner : Ty)
  | result (ok err : Ty)
  | object
  | function (params : List Ty) (returnType : Ty)
  | class (name : String)
  | view (inner : Ty) (mutable : Bool)
  | shared (inner : Ty)
  | any
  | pointer
  | slice (inner : Ty)
  | own (inner : Ty)
  | ref (inner : Ty) (mutable : Bool)
  | rawPointer (inner : Ty) (mutable : Bool)
  | dyn (traitName : String)
  | tuple (elems : List Ty)
  | chan (inner : Ty)
deriving Inhabited

mutual

def Ty.viewable : Ty → Bool
  | .int | .float | .bool | .void | .nil | .view _ _ => false
  | .tuple elems => anyViewable elems
  | _ => true

def anyViewable : List Ty → Bool
  | [] => false
  | e :: es => e.viewable || anyViewable es

end

def Ty.isAny : Ty → Bool
  | .any => true
  | _ => false

mutual

def Ty.isAssignableFrom (self other : Ty) : Bool :=
  match self, other with
  | .shared a, .shared b => a.isAssignableFrom b
  -- A view is not viewable: the guard of the next arm fails and the view is read through.
  | .shared a, .view t2 _ => (Ty.shared a).isAssignableFrom t2
  | .shared a, other => other.viewable && a.isAssignableFrom other
  | .view t1 _, .shared inner => t1.isAssignableFrom inner
  | _, .shared _ => false
  | .dyn _, _ => false
  | _, .dyn _ => false
  | .any, _ => true
  | _, .any => true
  | .int, .int => true
  | .pointer, .pointer => true
  | .slice a, .slice b => a.isAssignableFrom b || b.isAny
  | .own a, .own b => a.isAssignableFrom b
  | .ref a am, .ref b bm => (!am || bm) && a.isAssignableFrom b
  | .rawPointer a am, .rawPointer b bm => (!am || bm) && a.isAssignableFrom b
  | .float, .int => true
  | .float, .float => true
  | .string, .string => true
  | .string, .object => true
  | .bool, .bool => true
  | .nil, .nil => true
  | .void, .void => true
  | .array a, .array b => a.isAssignableFrom b
  | .option a, .option b => a.isAssignableFrom b
  | .option _, .nil => true
  -- Where the guard of the wrapping arm fails, a view is still read through.
  | .option a, .view t2 m => a.isAssignableFrom (.view t2 m) || (Ty.option a).isAssignableFrom t2
  | .option a, b => a.isAssignableFrom b
  | .result aOk aErr, .result bOk bErr => aOk.isAssignableFrom bOk && aErr.isAssignableFrom bErr
  | .object, .object => true
  | .function p1 r1, .function p2 r2 =>
    p1.length == p2.length && allAssignable p1 p2 && r1.isAssignableFrom r2
  | .class a, .class b => a == b
  | .tuple a, .tuple b => a.length == b.length && allAssignable a b
  | .chan a, .chan b => a.isAssignableFrom b
  | .view t1 mut1, .view t2 mut2 => (!mut1 || mut2) && t1.isAssignableFrom t2
  | .view t1 _, other => t1.isAssignableFrom other
  | t, .view t2 _ => t.isAssignableFrom t2
  | _, _ => false
termination_by sizeOf self + sizeOf other

def allAssignable (p1 p2 : List Ty) : Bool :=
  match p1, p2 with
  | a :: p1, b :: p2 => a.isAssignableFrom b && allAssignable p1 p2
  | _, _ => true
termination_by sizeOf p1 + sizeOf p2

end

mutual

/-- A property of a type and of every type inside it. -/
def Ty.all (p : Ty → Bool) (self : Ty) : Bool :=
  p self && match self with
  | .array t | .option t | .view t _ | .shared t | .slice t | .own t | .ref t _ | .rawPointer t _ | .chan t => t.all p
  | .result ok err => ok.all p && err.all p
  | .function params returnType => everyTy p params && returnType.all p
  | .tuple elems => everyTy p elems
  | _ => true

def everyTy (p : Ty → Bool) : List Ty → Bool
  | [] => true
  | t :: ts => t.all p && everyTy p ts

end

def Ty.anyFree (t : Ty) : Bool :=
  t.all fun u => !u.isAny

def Ty.isView : Ty → Bool
  | .view _ _ => true
  | _ => false

def Ty.isShared : Ty → Bool
  | .shared _ => true
  | _ => false

/-- An option or the empty one. -/
def Ty.isOptional : Ty → Bool
  | .option _ => true
  | .nil => true
  | _ => false

/-- The types without components that accept themselves. -/
def Ty.isPlain : Ty → Bool
  | .int | .float | .string | .bool | .void | .nil | .object | .class _ | .pointer => true
  | _ => false

inductive Accepts : Ty → Ty → Prop
  | plain {t : Ty} (h : t.isPlain = true) : Accepts t t
  | widen : Accepts .float .int
  | text : Accepts .string .object
  | shared {a b : Ty} (h : a.isAssignableFrom b = true) : Accepts (.shared a) (.shared b)
  | adopt {a s : Ty} (hshared : s.isShared = false) (hview : s.isView = false) (h : a.isAssignableFrom s = true) :
      Accepts (.shared a) s
  | borrow {t a : Ty} (m : Bool) (h : t.isAssignableFrom a = true) : Accepts (.view t m) (.shared a)
  | slice {a b : Ty} (h : a.isAssignableFrom b = true) : Accepts (.slice a) (.slice b)
  | own {a b : Ty} (h : a.isAssignableFrom b = true) : Accepts (.own a) (.own b)
  | ref {a b : Ty} {m n : Bool} (hmut : m = true → n = true) (h : a.isAssignableFrom b = true) :
      Accepts (.ref a m) (.ref b n)
  | rawPointer {a b : Ty} {m n : Bool} (hmut : m = true → n = true) (h : a.isAssignableFrom b = true) :
      Accepts (.rawPointer a m) (.rawPointer b n)
  | array {a b : Ty} (h : a.isAssignableFrom b = true) : Accepts (.array a) (.array b)
  | option {a b : Ty} (h : a.isAssignableFrom b = true) : Accepts (.option a) (.option b)
  | empty (a : Ty) : Accepts (.option a) .nil
  | wrap {a s : Ty} (hoptional : s.isOptional = false) (hshared : s.isShared = false)
      (h : a.isAssignableFrom s = true) : Accepts (.option a) s
  | result {a b c d : Ty} (hok : a.isAssignableFrom b = true) (herr : c.isAssignableFrom d = true) :
      Accepts (.result a c) (.result b d)
  | function {ps qs : List Ty} {r u : Ty} (hlength : ps.length = qs.length) (hparams : allAssignable ps qs = true)
      (h : r.isAssignableFrom u = true) : Accepts (.function ps r) (.function qs u)
  | tuple {ts ss : List Ty} (hlength : ts.length = ss.length) (h : allAssignable ts ss = true) :
      Accepts (.tuple ts) (.tuple ss)
  | chan {a b : Ty} (h : a.isAssignableFrom b = true) : Accepts (.chan a) (.chan b)
  | views {t s : Ty} {m n : Bool} (hmut : m = true → n = true) (h : t.isAssignableFrom s = true) :
      Accepts (.view t m) (.view s n)
  | lend {t s : Ty} (m : Bool) (hview : s.isView = false) (hshared : s.isShared = false)
      (h : t.isAssignableFrom s = true) : Accepts (.view t m) s
  | readThrough {t s : Ty} (m : Bool) (hview : t.isView = false) (h : t.isAssignableFrom s = true) :
      Accepts t (.view s m)

theorem isShared_eq_false {s : Ty} (h : ∀ b, s = .shared b → False) : s.isShared = false := by
  cases s with
  | shared b => exact (h b rfl).elim
  | _ => rfl

theorem isView_eq_false {s : Ty} (h : ∀ t m, s = .view t m → False) : s.isView = false := by
  cases s with
  | view t m => exact (h t m rfl).elim
  | _ => rfl

theorem isOptional_eq_false {s : Ty} (hoption : ∀ b, s = .option b → False) (hnil : s = .nil → False) :
    s.isOptional = false := by
  cases s with
  | option b => exact (hoption b rfl).elim
  | nil => exact (hnil rfl).elim
  | _ => rfl

theorem isAny_eq_false {inner : Ty} (h : (Ty.slice inner).anyFree = true) : inner.isAny = false := by
  cases inner with
  | any => simp [Ty.anyFree, Ty.all, Ty.isAny] at h
  | _ => rfl

theorem mutable_or_of {m n : Bool} (hmut : m = true → n = true) (hno : m = false → n = true → False) :
    (!n || m) = true := by
  cases m with
  | true => exact Bool.or_true _
  | false =>
    cases n with
    | true => exact (hno rfl rfl).elim
    | false => rfl

theorem mutable_of_or {m n : Bool} (h : (!m || n) = true) : m = true → n = true := by
  intro hm
  simpa only [hm, Bool.not_true, Bool.false_or] using h

variable {t s : Ty}

/-- What the code checks where it accepts a type. -/
theorem accepts_of (ht : t.anyFree = true) (hs : s.anyFree = true)
    (h : t.isAssignableFrom s = true) : Accepts t s := by
  rw [Ty.isAssignableFrom.eq_def] at h
  split at h
  · exact .shared h
  · exact .readThrough _ rfl h
  · next hshared hview =>
    exact .adopt (isShared_eq_false hshared) (isView_eq_false hview) (Bool.and_eq_true_iff.mp h).2
  · exact .borrow _ h
  · cases h
  · cases h
  · cases h
  · cases ht
  · cases hs
  · exact .plain rfl
  · exact .plain rfl
  · rw [isAny_eq_false hs, Bool.or_false] at h
    exact .slice h
  · exact .own h
  · exact .ref (mutable_of_or (Bool.and_eq_true_iff.mp h).1) (Bool.and_eq_true_iff.mp h).2
  · exact .rawPointer (mutable_of_or (Bool.and_eq_true_iff.mp h).1) (Bool.and_eq_true_iff.mp h).2
  · exact .widen
  · exact .plain rfl
  · exact .plain rfl
  · exact .text
  · exact .plain rfl
  · exact .plain rfl
  · exact .plain rfl
  · exact .array h
  · exact .option h
  · exact .empty _
  · rcases Bool.or_eq_true_iff.mp h with h | h
    · exact .wrap rfl rfl h
    · exact .readThrough _ rfl h
  · next hshared _ _ hoption hnil _ =>
    exact .wrap (isOptional_eq_false hoption hnil) (isShared_eq_false hshared) h
  · obtain ⟨hok, herr⟩ := Bool.and_eq_true_iff.mp h
    exact .result hok herr
  · exact .plain rfl
  · obtain ⟨h, hreturn⟩ := Bool.and_eq_true_iff.mp h
    obtain ⟨hlength, hparams⟩ := Bool.and_eq_true_iff.mp h
    exact .function (beq_iff_eq.mp hlength) hparams hreturn
  · rw [beq_iff_eq] at h
    subst h
    exact .plain rfl
  · obtain ⟨hlength, h⟩ := Bool.and_eq_true_iff.mp h
    exact .tuple (beq_iff_eq.mp hlength) h
  · exact .chan h
  · exact .views (mutable_of_or (Bool.and_eq_true_iff.mp h).1) (Bool.and_eq_true_iff.mp h).2
  · next hshared _ _ hview => exact .lend _ (isView_eq_false hview) (isShared_eq_false hshared) h
  · next hview => exact .readThrough _ (isView_eq_false hview) h
  · cases h

theorem allAssignable_mem {ps qs : List Ty} (h : allAssignable ps qs = true) {p q : Ty} (hpq : (p, q) ∈ ps.zip qs) :
    p.isAssignableFrom q = true := by
  induction ps generalizing qs with
  | nil => cases hpq
  | cons p' ps ih =>
    cases qs with
    | nil => cases hpq
    | cons q' qs =>
      rw [allAssignable, Bool.and_eq_true] at h
      rw [List.zip_cons_cons, List.mem_cons, Prod.mk.injEq] at hpq
      rcases hpq with ⟨rfl, rfl⟩ | hpq
      · exact h.1
      · exact ih h.2 hpq

theorem allAssignable_of {ps qs : List Ty} (h : ∀ p q, (p, q) ∈ ps.zip qs → p.isAssignableFrom q = true) :
    allAssignable ps qs = true := by
  induction ps generalizing qs with
  | nil => rw [allAssignable]; simp
  | cons p ps ih =>
    cases qs with
    | nil => rw [allAssignable]; simp
    | cons q qs =>
      rw [allAssignable, h p q (List.mem_cons_self ..), Bool.true_and]
      exact ih fun p' q' hpq => h p' q' (List.mem_cons_of_mem _ hpq)

theorem everyTy_mem {p : Ty → Bool} {ts : List Ty} (h : everyTy p ts = true) {t : Ty} (ht : t ∈ ts) :
    t.all p = true := by
  induction ts with
  | nil => cases ht
  | cons t' ts ih =>
    rw [everyTy, Bool.and_eq_true] at h
    rcases List.mem_cons.mp ht with rfl | ht
    · exact h.1
    · exact ih h.2 ht

/-- What a value of a type is in the generated code. Integers and registry handles are words; the cells of
options and the boxes of shared values, which an assignment makes, are told apart from other words. Each field
of a record is a component of its own. -/
inductive Machine where
  | word
  | null
  | cell
  | box
  | double
  | bit
  | byte
  | address
  | record (arity : ℕ)
deriving DecidableEq

def Ty.machine : Ty → Machine
  | .float => .double
  | .bool => .bit
  | .void => .byte
  | .nil => .null
  | .option _ => .cell
  | .shared _ => .box
  | .view inner _ => inner.machine
  | .function _ _ | .class _ | .own _ | .ref _ _ | .rawPointer _ _ | .dyn _ => .address
  | .tuple elems => .record elems.length
  | _ => .word

/-- The empty option is the null word. -/
def Machine.Reads (target source : Machine) : Prop :=
  target = source ∨ (target = .cell ∧ source = .null)

/-- The components that stand in the same place of two types. -/
inductive Component : Ty → Ty → Ty → Ty → Prop
  | array (a b : Ty) : Component (.array a) (.array b) a b
  | option (a b : Ty) : Component (.option a) (.option b) a b
  | ok (a b c d : Ty) : Component (.result a c) (.result b d) a b
  | err (a b c d : Ty) : Component (.result a c) (.result b d) c d
  | param {ps qs : List Ty} (r u : Ty) {p q : Ty} (h : (p, q) ∈ ps.zip qs) :
      Component (.function ps r) (.function qs u) p q
  | returned (ps qs : List Ty) (r u : Ty) : Component (.function ps r) (.function qs u) r u
  | shared (a b : Ty) : Component (.shared a) (.shared b) a b
  | slice (a b : Ty) : Component (.slice a) (.slice b) a b
  | own (a b : Ty) : Component (.own a) (.own b) a b
  | ref (a b : Ty) (m n : Bool) : Component (.ref a m) (.ref b n) a b
  | rawPointer (a b : Ty) (m n : Bool) : Component (.rawPointer a m) (.rawPointer b n) a b
  | member {ts ss : List Ty} {a b : Ty} (h : (a, b) ∈ ts.zip ss) : Component (.tuple ts) (.tuple ss) a b
  | chan (a b : Ty) : Component (.chan a) (.chan b) a b

/-- One step into a target and the type assigned to it. The flag tells that the value is the assigned one, which
the assignment still converts. Views are looked through on both sides. -/
inductive Step : Bool → Ty → Ty → Bool → Ty → Ty → Prop
  | component (c : Bool) {t s a b : Ty} (h : Component t s a b) : Step c t s false a b
  | views (c : Bool) (t s : Ty) (m n : Bool) : Step c (.view t m) (.view s n) c t s
  | lend (c : Bool) (t : Ty) {s : Ty} (m : Bool) (hview : s.isView = false) (hshared : s.isShared = false) :
      Step c (.view t m) s c t s
  | readThrough (c : Bool) {t : Ty} (s : Ty) (m : Bool) (hview : t.isView = false) : Step c t (.view s m) c t s
  | box (a : Ty) {s : Ty} (hoptional : s.isOptional = false) (hview : s.isView = false) :
      Step true (.option a) s false a s
  | adopt (a : Ty) {s : Ty} (hshared : s.isShared = false) (hview : s.isView = false) :
      Step true (.shared a) s false a s
  | borrow (c : Bool) (t s : Ty) (m : Bool) : Step c (.view t m) (.shared s) false t s

inductive Reached : Bool → Ty → Ty → Bool → Ty → Ty → Prop
  | here (c : Bool) (t s : Ty) : Reached c t s c t s
  | step {c d e : Bool} {t s a b x y : Ty} (h : Step c t s d a b) (hr : Reached d a b e x y) : Reached c t s e x y

def Everywhere (R : Bool → Ty → Ty → Prop) (c : Bool) (t s : Ty) : Prop :=
  ∀ d a b, Reached c t s d a b → R d a b

def Somewhere (R : Ty → Ty → Prop) (t s : Ty) : Prop :=
  ∃ d a b, Reached false t s d a b ∧ R a b

/-- Where the assignment converts the value: an integer is widened, a value is boxed into an option or a shared
value, and a shared value is borrowed from. -/
def Ty.converts : Ty → Ty → Bool
  | .float, .int => true
  | .option _, s => !s.isOptional && !s.isView
  | .shared _, s => !s.isShared && !s.isView
  | .view _ _, .shared _ => true
  | _, _ => false

/-- A mutable reference to a type or a mutable view of it. -/
def Ty.MutatesAt (t a : Ty) : Prop :=
  t = .ref a true ∨ t = .view a true

/-- What the assignment must keep where it meets two types. -/
structure Faithful (c : Bool) (t s : Ty) : Prop where
  machine : c = false ∨ (t.isView = false ∧ s.isView = false ∧ t.converts s = false) → t.machine.Reads s.machine
  pointee : ∀ d a b, Step c t s d a b → t.MutatesAt a → a = b
  params : ∀ ps r qs u, t = .function ps r → s = .function qs u → ∀ p q, (p, q) ∈ ps.zip qs →
    q.isAssignableFrom p = true

/-- A value of the second type, assigned to the first, is read as what it is wherever the two types meet. -/
def Sound (t s : Ty) : Prop :=
  Everywhere Faithful true t s

/-- Accepted in one direction only, though nothing is converted. The last is a shared scalar read out of a view,
which the view does not accept back. -/
inductive OneWay : Ty → Ty → Prop
  | text : OneWay .string .object
  | empty (a : Ty) : OneWay (.option a) .nil
  | ref (a b : Ty) : OneWay (.ref a false) (.ref b true)
  | rawPointer (a b : Ty) : OneWay (.rawPointer a false) (.rawPointer b true)
  | view (a b : Ty) : OneWay (.view a false) (.view b true)
  | sharedOfView {a : Ty} (b : Ty) (m : Bool) (h : a.viewable = false ∨ a.isShared = true) :
      OneWay (.shared a) (.view b m)

/-- Accepted and not the same. -/
inductive Loose : Ty → Ty → Prop
  | converted {t s : Ty} (h : t.converts s = true) : Loose t s
  | oneWay {t s : Ty} (h : OneWay t s) : Loose t s
  | otherWay {t s : Ty} (h : OneWay s t) : Loose t s
  | viewed {t s : Ty} (h : t.isView ≠ s.isView) : Loose t s

/-- The places where the relation is too wide: a conversion below the assigned value, a mutable reference or
view whose pointee is not the same, a parameter accepted in one direction only. -/
inductive Misfit : Bool → Ty → Ty → Prop
  | converted {t s : Ty} (h : t.converts s = true) : Misfit false t s
  | pointee {c d : Bool} {t s a b : Ty} (h : Step c t s d a b) (hmut : t.MutatesAt a) (hloose : Somewhere Loose a b) :
      Misfit c t s
  | param (c : Bool) {ps qs : List Ty} (r u : Ty) {p q : Ty} (hpq : (p, q) ∈ ps.zip qs)
      (honeWay : Somewhere OneWay p q) : Misfit c (.function ps r) (.function qs u)

variable {R : Bool → Ty → Ty → Prop}

theorem Everywhere.here {c : Bool} (h : Everywhere R c t s) : R c t s :=
  h c t s (.here c t s)

theorem Everywhere.step {c d : Bool} {t s a b : Ty} (h : Everywhere R c t s)
    (hstep : Step c t s d a b) : Everywhere R d a b :=
  fun e x y hr => h e x y (.step hstep hr)

theorem everywhere_of {c : Bool} (hhere : R c t s)
    (hstep : ∀ d a b, Step c t s d a b → Everywhere R d a b) : Everywhere R c t s := by
  intro e x y hr
  cases hr with
  | here => exact hhere
  | step h hr => exact hstep _ _ _ h _ _ _ hr

theorem mem_zip_swap {ps qs : List Ty} {p q : Ty} (hpq : (p, q) ∈ ps.zip qs) : (q, p) ∈ qs.zip ps := by
  obtain ⟨i, hi, hget⟩ := List.mem_iff_getElem.mp hpq
  rw [List.getElem_zip, Prod.mk.injEq] at hget
  rw [List.length_zip] at hi
  apply List.mem_iff_getElem.mpr
  exact ⟨i, by rw [List.length_zip]; omega, by rw [List.getElem_zip, hget.1, hget.2]⟩

theorem Component.symm {t s a b : Ty} (h : Component t s a b) : Component s t b a := by
  cases h with
  | param r u h => exact .param u r (mem_zip_swap h)
  | member h => exact .member (mem_zip_swap h)
  | @returned ps qs r u => exact .returned qs ps b a
  | _ => constructor

theorem Component.accepted {t s a b : Ty} (h : Component t s a b) (hs : s.anyFree = true)
    (hacc : t.isAssignableFrom s = true) : a.isAssignableFrom b = true := by
  cases h with
  | param r u h =>
    simp only [Ty.isAssignableFrom, Bool.and_eq_true] at hacc
    exact allAssignable_mem hacc.1.2 h
  | member h =>
    simp only [Ty.isAssignableFrom, Bool.and_eq_true] at hacc
    exact allAssignable_mem hacc.2 h
  | slice =>
    rw [Ty.isAssignableFrom, isAny_eq_false hs, Bool.or_false] at hacc
    exact hacc
  | _ =>
    simp only [Ty.isAssignableFrom, Bool.and_eq_true] at hacc
    first
    | exact hacc
    | exact hacc.1
    | exact hacc.2

theorem Component.all {P : Ty → Bool} {t s a b : Ty} (h : Component t s a b) (ht : t.all P = true)
    (hs : s.all P = true) : a.all P = true ∧ b.all P = true := by
  cases h with
  | param r u h =>
    simp only [Ty.all, Bool.and_eq_true] at ht hs
    exact ⟨everyTy_mem ht.2.1 (List.of_mem_zip h).1, everyTy_mem hs.2.1 (List.of_mem_zip h).2⟩
  | member h =>
    simp only [Ty.all, Bool.and_eq_true] at ht hs
    exact ⟨everyTy_mem ht.2 (List.of_mem_zip h).1, everyTy_mem hs.2 (List.of_mem_zip h).2⟩
  | _ =>
    simp only [Ty.all, Bool.and_eq_true] at ht hs
    simp [ht, hs]

theorem Component.anyFree {t s a b : Ty} (h : Component t s a b) (ht : t.anyFree = true) (hs : s.anyFree = true) :
    a.anyFree = true ∧ b.anyFree = true :=
  h.all ht hs

theorem Component.sizeOf_lt {t s a b : Ty} (h : Component t s a b) : sizeOf a < sizeOf t ∧ sizeOf b < sizeOf s := by
  cases h with
  | param r u h =>
    have hp := List.sizeOf_lt_of_mem (List.of_mem_zip h).1
    have hq := List.sizeOf_lt_of_mem (List.of_mem_zip h).2
    simp only [Ty.function.sizeOf_spec]
    omega
  | member h =>
    have hp := List.sizeOf_lt_of_mem (List.of_mem_zip h).1
    have hq := List.sizeOf_lt_of_mem (List.of_mem_zip h).2
    simp only [Ty.tuple.sizeOf_spec]
    omega
  | _ =>
    constructor <;> simp <;> omega

theorem Step.anyFree {c d : Bool} {t s a b : Ty} (h : Step c t s d a b) (ht : t.anyFree = true)
    (hs : s.anyFree = true) : a.anyFree = true ∧ b.anyFree = true := by
  cases h with
  | component c h => exact h.anyFree ht hs
  | _ => exact ⟨ht, hs⟩

theorem Step.sizeOf_lt {c d : Bool} {t s a b : Ty} (h : Step c t s d a b) :
    sizeOf a + sizeOf b < sizeOf t + sizeOf s := by
  cases h with
  | component c h =>
    have hlt := h.sizeOf_lt
    omega
  | _ =>
    simp
    try omega

/-- How many options stand over one another, through views and shared values. -/
def Ty.optionDepth : Ty → ℕ
  | .option a => a.optionDepth + 1
  | .shared a => a.optionDepth
  | .view a _ => a.optionDepth
  | _ => 0

theorem pair_induction {P : Ty → Ty → Prop}
    (h : ∀ t s, (∀ a b, sizeOf a + sizeOf b < sizeOf t + sizeOf s → P a b) → P t s) (t s : Ty) : P t s := by
  induction hn : sizeOf t + sizeOf s using Nat.strongRecOn generalizing t s with
  | _ n ih =>
    subst hn
    exact h t s fun a b hlt => ih _ hlt a b rfl

theorem optionDepth_le (ht : t.anyFree = true) (hs : s.anyFree = true)
    (hacc : t.isAssignableFrom s = true) : s.optionDepth ≤ t.optionDepth := by
  induction t, s using pair_induction with
  | _ t s ih =>
    cases accepts_of ht hs hacc with
    | plain => exact Nat.le_refl _
    | @shared a b h => exact ih a b (by simp only [Ty.shared.sizeOf_spec]; omega) ht hs h
    | @adopt a _ _ _ h => exact ih a s (by simp) ht hs h
    | @borrow t a _ h => exact ih t a (by simp only [Ty.view.sizeOf_spec, Ty.shared.sizeOf_spec]; omega) ht hs h
    | @option a b h =>
      exact Nat.succ_le_succ (ih a b (by simp only [Ty.option.sizeOf_spec]; omega) ht hs h)
    | @wrap a _ _ _ h => exact Nat.le_succ_of_le (ih a s (by simp) ht hs h)
    | @views t s _ _ _ h => exact ih t s (by simp only [Ty.view.sizeOf_spec]; omega) ht hs h
    | @lend t _ _ _ _ h => exact ih t s (by simp only [Ty.view.sizeOf_spec]; omega) ht hs h
    | @readThrough _ s _ _ h => exact ih t s (by simp only [Ty.view.sizeOf_spec]; omega) ht hs h
    | _ => exact Nat.zero_le _

theorem Everywhere.mono {R R' : Bool → Ty → Ty → Prop} {c : Bool} (h : Everywhere R c t s)
    (hmono : ∀ d a b, R d a b → R' d a b) : Everywhere R' c t s :=
  fun d a b hr => hmono d a b (h d a b hr)

/-- No place at or inside two types is of a kind. -/
def Nowhere (R : Ty → Ty → Prop) : Ty → Ty → Prop :=
  Everywhere (fun _ a b => ¬ R a b) false

theorem somewhere_of_not_nowhere {R : Ty → Ty → Prop} (h : ¬ Nowhere R t s) : Somewhere R t s := by
  by_contra hno
  apply h
  intro d a b hr hR
  exact hno ⟨d, a, b, hr, hR⟩

/-- A target with more options over one another than its source converts or is the empty option somewhere. -/
theorem not_nowhere_of_optionDepth_lt (hlt : s.optionDepth < t.optionDepth)
    (hconverts : Nowhere (fun a b => a.converts b = true) t s) : ¬ Nowhere OneWay t s := by
  induction t, s using pair_induction with
  | _ t s ih =>
    intro honeWay
    have hno : ¬ t.converts s = true := hconverts.here
    have next {a b : Ty} (hstep : Step false t s false a b) (hlt : b.optionDepth < a.optionDepth) : False :=
      ih a b hstep.sizeOf_lt hlt (hconverts.step hstep) (honeWay.step hstep)
    cases t with
    | option a =>
      cases s with
      | option b => exact next (.component _ (.option a b)) (Nat.lt_of_succ_lt_succ hlt)
      | nil => exact honeWay.here (.empty a)
      | view b m => exact next (.readThrough _ b m rfl) hlt
      | _ => exact hno rfl
    | shared a =>
      cases s with
      | shared b => exact next (.component _ (.shared a b)) hlt
      | view b m => exact next (.readThrough _ b m rfl) hlt
      | _ => exact hno rfl
    | view a m =>
      cases s with
      | view b n => exact next (.views _ a b m n) hlt
      | shared b => exact hno rfl
      | _ => exact next (.lend _ a m rfl rfl) hlt
    | _ => exact absurd hlt (Nat.not_lt_zero _)

theorem not_accepts_dyn (t : Ty) (name : String) : t.isAssignableFrom (.dyn name) = false := by
  cases t with
  | shared a => simp [Ty.isAssignableFrom, not_accepts_dyn a name]
  | _ => simp [Ty.isAssignableFrom]

theorem accepts_lend {m : Bool} (hview : s.isView = false) (hshared : s.isShared = false)
    (h : t.isAssignableFrom s = true) : (Ty.view t m).isAssignableFrom s = true := by
  cases s with
  | view => cases hview
  | shared => cases hshared
  | dyn name => simp [not_accepts_dyn] at h
  | _ => simp [Ty.isAssignableFrom, h]

theorem accepts_readThrough {m : Bool} (hview : t.isView = false) (h : t.isAssignableFrom s = true) :
    t.isAssignableFrom (.view s m) = true := by
  cases t with
  | view => cases hview
  | dyn name => cases s <;> simp [Ty.isAssignableFrom] at h
  | _ => simp [Ty.isAssignableFrom, h]

theorem accepts_adopt (hviewable : s.viewable = true) (hshared : s.isShared = false)
    (h : t.isAssignableFrom s = true) : (Ty.shared t).isAssignableFrom s = true := by
  cases s with
  | shared => cases hshared
  | view => cases hviewable
  | _ => simp [Ty.isAssignableFrom, hviewable, h]

/-- Off the places where only one direction is accepted the relation is symmetric. -/
theorem isAssignableFrom_symm (ht : t.anyFree = true) (hs : s.anyFree = true)
    (hacc : t.isAssignableFrom s = true) (hconverts : Nowhere (fun a b => a.converts b = true) t s)
    (honeWay : Nowhere OneWay t s) : s.isAssignableFrom t = true := by
  induction t, s using pair_induction with
  | _ t s ih =>
    have hno : ¬ t.converts s = true := hconverts.here
    have next {a b : Ty} (hstep : Step false t s false a b) (hab : a.isAssignableFrom b = true) :
        b.isAssignableFrom a = true :=
      ih a b hstep.sizeOf_lt (hstep.anyFree ht hs).1 (hstep.anyFree ht hs).2 hab (hconverts.step hstep)
        (honeWay.step hstep)
    have inside {a b : Ty} (h : Component t s a b) : b.isAssignableFrom a = true :=
      next (.component _ h) (h.accepted hs hacc)
    cases accepts_of ht hs hacc with
    | plain => exact hacc
    | widen => exact (hno rfl).elim
    | text => exact (honeWay.here .text).elim
    | @shared a b =>
      rw [Ty.isAssignableFrom]
      exact inside (.shared a b)
    | adopt hshared hview => exact (hno (by simp [Ty.converts, hshared, hview])).elim
    | borrow => exact (hno rfl).elim
    | @slice a b => rw [Ty.isAssignableFrom, inside (.slice a b), Bool.true_or]
    | @own a b =>
      rw [Ty.isAssignableFrom]
      exact inside (.own a b)
    | @ref a b m n hmut =>
      have hmn := mutable_or_of hmut fun hm hn => honeWay.here (by rw [hm, hn]; exact .ref a b)
      rw [Ty.isAssignableFrom, inside (.ref a b m n), hmn, Bool.true_and]
    | @rawPointer a b m n hmut =>
      have hmn := mutable_or_of hmut fun hm hn => honeWay.here (by rw [hm, hn]; exact .rawPointer a b)
      rw [Ty.isAssignableFrom, inside (.rawPointer a b m n), hmn, Bool.true_and]
    | @array a b =>
      rw [Ty.isAssignableFrom]
      exact inside (.array a b)
    | @option a b =>
      rw [Ty.isAssignableFrom]
      exact inside (.option a b)
    | empty a => exact (honeWay.here (.empty a)).elim
    | @wrap a _ hoptional hshared hwrap =>
      cases s with
      | view b m =>
        have hdepth := optionDepth_le (t := a) ht hs hwrap
        exact absurd honeWay (not_nowhere_of_optionDepth_lt (Nat.lt_succ_of_le hdepth) hconverts)
      | _ => exact (hno (by simp [Ty.converts, hoptional, Ty.isView])).elim
    | @result a b c d => rw [Ty.isAssignableFrom, inside (.ok a b c d), inside (.err a b c d), Bool.true_and]
    | @function ps qs r u hlength =>
      have hparams := allAssignable_of fun q p hqp => inside (.param r u (mem_zip_swap hqp))
      rw [Ty.isAssignableFrom, inside (.returned ps qs r u), hparams, hlength]
      simp
    | @tuple ts ss hlength =>
      have hmembers := allAssignable_of fun b a hba => inside (.member (mem_zip_swap hba))
      rw [Ty.isAssignableFrom, hmembers, hlength]
      simp
    | @chan a b =>
      rw [Ty.isAssignableFrom]
      exact inside (.chan a b)
    | @views t s m n hmut hview =>
      have hmn := mutable_or_of hmut fun hm hn => honeWay.here (by rw [hm, hn]; exact .view t s)
      rw [Ty.isAssignableFrom, next (.views _ t s m n) hview, hmn, Bool.true_and]
    | @lend t _ m hview hshared hlend => exact accepts_readThrough hview (next (.lend _ t m hview hshared) hlend)
    | @readThrough _ s m hview hread =>
      have hback := next (.readThrough _ s m hview) hread
      cases t with
      | view => cases hview
      | shared a =>
        have hread : ¬ (Ty.shared a).converts s = true := (hconverts.step (.readThrough _ s m hview)).here
        have hviewable : a.viewable = true := by
          rw [← Bool.not_eq_false]
          exact fun hscalar => honeWay.here (.sharedOfView s m (.inl hscalar))
        have hshared : a.isShared = false := by
          rw [← Bool.not_eq_true]
          exact fun htwice => honeWay.here (.sharedOfView s m (.inr htwice))
        rw [Ty.isAssignableFrom]
        cases s with
        | shared b =>
          rw [Ty.isAssignableFrom] at hback
          exact accepts_adopt hviewable hshared hback
        | view b n =>
          rw [Ty.isAssignableFrom] at hback
          apply accepts_lend _ hshared hback
          cases a with
          | view => cases hviewable
          | _ => rfl
        | _ => exact (hread rfl).elim
      | _ => exact accepts_lend rfl rfl hback

end Neutron.Types
