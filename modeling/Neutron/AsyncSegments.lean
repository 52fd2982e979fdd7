import Neutron.Syntax

/-!
# Segments of an async body

`build_async_layout` numbers the suspensions of an async body, awaits and channel operations in
tables of their own, and merges the tables into one order; `emit_async_segment` cuts the body
at that order. A statement's own effect is a parameter here: what is proved is which statement
runs when, and that polling the machine follows the source, whose statements, nested blocks and
waits are stated on their own.
-/

namespace Neutron.AsyncSegments
open Syntax

/-! ### The layout -/

/-- `flatten_top_level_blocks`. -/
def flattenTopLevelBlocks : List Stmt → List Stmt
  | [] => []
  | .block statements :: rest =>
    flattenTopLevelBlocks statements ++ flattenTopLevelBlocks rest
  | s :: rest => s :: flattenTopLevelBlocks rest

inductive ChanOpKind where
  | send
  | recv
  | loop
  deriving DecidableEq, Repr

/-- A suspension, by its index in the table of awaits or of channel operations. -/
inductive SuspKind where
  | await (index : ℕ)
  | chan (index : ℕ)
  deriving DecidableEq, Repr

/-- `is_await_statement`. -/
def isAwait : Stmt → Bool
  | .expression (.operator .await _) => true
  | .var _ _ (some (.operator .await _)) _ _ _ => true
  | .ret (some (.operator .await _)) => true
  | _ => false

/-- The operation `chan_target_ty` finds. -/
def chanOp : Stmt → Option ChanOpKind
  | .expression (.operator .chanSend _) => some .send
  | .each .chanRecvFor _ _ _ _ => some .loop
  | .expression (.chanRecv _ _ _) => some .recv
  | _ => none

/-- What the loop over the statements of the body collects. -/
structure Scan where
  awaitInfos : List ℕ
  awaitStateIndex : List ℕ
  chanInfos : List (ℕ × ChanOpKind)
  suspensionPoints : ℕ

def Scan.step (scan : Scan) (index : ℕ) (s : Stmt) : Scan :=
  if isAwait s then
    { scan with
      awaitInfos := scan.awaitInfos ++ [index]
      awaitStateIndex := scan.awaitStateIndex ++ [scan.suspensionPoints]
      suspensionPoints := scan.suspensionPoints + 1 }
  else
    match chanOp s with
    | some op =>
      { scan with
        chanInfos := scan.chanInfos ++ [(index, op)]
        suspensionPoints := scan.suspensionPoints + 1 }
    | none => scan

def Scan.body : List Stmt → ℕ → Scan → Scan
  | [], _, scan => scan
  | s :: rest, index, scan => Scan.body rest (index + 1) (scan.step index s)

/-- The merge of the two tables from the entries `ai` and `ci` on, with the length of the order
so far: the order, and the state indices of the channel operations. -/
def mergeOrder : List ℕ → List (ℕ × ChanOpKind) → ℕ → ℕ → ℕ → List SuspKind × List ℕ
  | [], [], _, _, _ => ([], [])
  | _ :: awaits, [], ai, ci, position =>
    let rest := mergeOrder awaits [] (ai + 1) ci (position + 1)
    (.await ai :: rest.1, rest.2)
  | [], _ :: chans, ai, ci, position =>
    let rest := mergeOrder [] chans ai (ci + 1) (position + 1)
    (.chan ci :: rest.1, position :: rest.2)
  | a :: awaits, c :: chans, ai, ci, position =>
    if a ≤ c.1 then
      let rest := mergeOrder awaits (c :: chans) (ai + 1) ci (position + 1)
      (.await ai :: rest.1, rest.2)
    else
      let rest := mergeOrder (a :: awaits) chans ai (ci + 1) (position + 1)
      (.chan ci :: rest.1, position :: rest.2)
termination_by awaits chans => awaits.length + chans.length

structure Layout where
  awaitInfos : List ℕ
  chanInfos : List (ℕ × ChanOpKind)
  awaitStateIndex : List ℕ
  chanStateIndex : List ℕ
  suspensionCount : ℕ
  suspOrder : List SuspKind

def buildAsyncLayout (body : List Stmt) : Layout :=
  let scan := Scan.body body 0 ⟨[], [], [], 0⟩
  let order := mergeOrder scan.awaitInfos scan.chanInfos 0 0 0
  { awaitInfos := scan.awaitInfos
    chanInfos := scan.chanInfos
    awaitStateIndex := scan.awaitStateIndex
    chanStateIndex := order.2
    suspensionCount := scan.suspensionPoints
    suspOrder := order.1 }

namespace Layout
variable (l : Layout)

/-- `susp_stmt_idx`; an index outside its table is a panic. -/
def suspStmtIdx : SuspKind → Option ℕ
  | .await i => l.awaitInfos[i]?
  | .chan i => (l.chanInfos[i]?).map Prod.fst

/-- The channel operation of a suspension; an await has none. -/
def operation : SuspKind → Option ChanOpKind
  | .await _ => none
  | .chan i => (l.chanInfos[i]?).map Prod.snd

/-- The state `emit_await_suspend` and `emit_chan_suspend` store. -/
def storedState : SuspKind → Option ℕ
  | .await i => (l.awaitStateIndex[i]?).map (· + 1)
  | .chan i => (l.chanStateIndex[i]?).map (· + 1)

/-- Where a segment ends: at its suspension, or at the end of the body. -/
def segmentEnd (length k : ℕ) : Option ℕ :=
  match l.suspOrder[k]? with
  | some kind => l.suspStmtIdx kind
  | none => some length

/-- Where a segment starts: right after the suspension before it. -/
def segmentStart : ℕ → Option ℕ
  | 0 => some 0
  | k + 1 => do
    let previous ← l.suspOrder[k]?
    let index ← l.suspStmtIdx previous
    some (index + 1)

/-- The indices of the statements a segment emits, then that of its suspension. -/
def emitted (length k : ℕ) : Option (List ℕ) := do
  let start ← l.segmentStart k
  let stop ← l.segmentEnd length k
  let statements := List.range' start (stop - start)
  match l.suspOrder[k]? with
  | some _ => some (statements ++ [stop])
  | none => some statements

end Layout

/-! ### What the machine and the source do -/

/-- The effects of statements on a state: `exec` runs one and says whether it leaves the
function, `start` begins the operation of a suspension, `settle` takes the result of an await
and `receive` that of a receive; `arrived` is `ntask_chan_recv_ok`. -/
structure Actions (σ : Type) where
  exec : Stmt → σ → σ × Bool
  start : Stmt → σ → σ
  settle : Stmt → σ → σ
  receive : Stmt → σ → σ
  arrived : σ → Bool

/-- How a resumed suspension goes on. -/
inductive Resumed where
  | next
  | again
  | left
  deriving DecidableEq

section
variable {σ : Type} (acts : Actions σ)

/-- The statements of a segment, in order, up to one that leaves. -/
def execAll : List Stmt → σ → σ × Bool
  | [], x => (x, false)
  | s :: rest, x =>
    let (x', left) := acts.exec s x
    if left then (x', true) else execAll rest x'

/-- `emit_await_resume`: a returned await leaves. -/
def resumeAwait (s : Stmt) (x : σ) : σ × Resumed :=
  match s with
  | .ret _ => (acts.settle s x, .left)
  | _ => (acts.settle s x, .next)

/-- `emit_chan_resume`. A loop runs its body on a value and suspends on the next receive. -/
def resumeChan (op : ChanOpKind) (s : Stmt) (x : σ) : σ × Resumed :=
  match op with
  | .send => (x, .next)
  | .recv => (acts.receive s x, .next)
  | .loop =>
    let received := acts.receive s x
    if acts.arrived received then
      match s with
      | .each _ _ _ _ body =>
        let (x', left) := acts.exec body received
        if left then (x', .left) else (acts.start s x', .again)
      | _ => (acts.start s received, .again)
    else (received, .next)

/-- The resumption of the suspension a segment follows. -/
def Layout.resume (l : Layout) (body : List Stmt) (kind : SuspKind) (x : σ) :
    Option (σ × Resumed) :=
  match kind with
  | .await i => do
    let index ← l.awaitInfos[i]?
    let s ← body[index]?
    some (resumeAwait acts s x)
  | .chan i => do
    let (index, op) ← l.chanInfos[i]?
    let s ← body[index]?
    some (resumeChan acts op s x)

/-- The statements of segment `k`, then its suspension. The result is the state stored before
suspending, or nothing when the future is done. -/
def Layout.segment (l : Layout) (body : List Stmt) (k : ℕ) (x : σ) : Option (σ × Option ℕ) := do
  let start ← l.segmentStart k
  let stop ← l.segmentEnd body.length k
  let (x', left) := execAll acts ((body.take stop).drop start) x
  if left then some (x', none)
  else
    match l.suspOrder[k]? with
    | none => some (x', none)
    | some kind => do
      let index ← l.suspStmtIdx kind
      let s ← body[index]?
      let stored ← l.storedState kind
      some (acts.start s x', some stored)

/-- One poll, by the stored state: a state past the segments is done. -/
def Layout.poll (l : Layout) (body : List Stmt) (state : ℕ) (x : σ) : Option (σ × Option ℕ) :=
  if l.suspensionCount < state then some (x, none)
  else
    match state with
    | 0 => l.segment acts body 0 x
    | k + 1 => do
      let previous ← l.suspOrder[k]?
      let (x', resumed) ← l.resume acts body previous x
      match resumed with
      | .left => some (x', none)
      | .again => do
        let stored ← l.storedState previous
        some (x', some stored)
      | .next => l.segment acts body (k + 1) x'

/-- The future after `n` polls, `others n` being what happens before the poll. -/
def Layout.machine (l : Layout) (body : List Stmt) (others : ℕ → σ → σ) (x : σ) :
    ℕ → Option (σ × Option ℕ)
  | 0 => some (x, some 0)
  | n + 1 => do
    match ← l.machine body others x n with
    | (x', none) => some (x', none)
    | (x', some state) => l.poll acts body state (others n x')

/-- What a statement waits for: the await or the channel operation it consists of. -/
def waitsFor : Stmt → Option (Option ChanOpKind)
  | .expression (.operator .await _) => some none
  | .var _ _ (some (.operator .await _)) _ _ _ => some none
  | .ret (some (.operator .await _)) => some none
  | .expression (.operator .chanSend _) => some (some .send)
  | .expression (.chanRecv _ _ _) => some (some .recv)
  | .each .chanRecvFor _ _ _ _ => some (some .loop)
  | _ => none

/-- The end of a wait: a returned await leaves the function, and the loop over a channel runs its body on
what it received and waits again. -/
def finish (s : Stmt) (x : σ) : σ × Resumed :=
  match s with
  | .ret _ => (acts.settle s x, .left)
  | .expression (.operator .chanSend _) => (x, .next)
  | .expression (.chanRecv _ _ _) => (acts.receive s x, .next)
  | .each .chanRecvFor _ _ _ body =>
    let received := acts.receive s x
    if acts.arrived received then
      let (x', left) := acts.exec body received
      if left then (x', .left) else (acts.start s x', .again)
    else (received, .next)
  | _ => (acts.settle s x, .next)

/-- Where the source stands between two polls: at its start, or at a statement that waits, with what
follows it. -/
inductive Place where
  | entry
  | parked (s : Stmt) (rest : List Stmt)

/-- The source up to its next wait: a block runs its statements, then what follows it. -/
def sourceFrom : List Stmt → σ → σ × Option Place
  | [], x => (x, none)
  | .block inner :: rest, x => sourceFrom (inner ++ rest) x
  | s :: rest, x =>
    if (waitsFor s).isSome then (acts.start s x, some (.parked s rest))
    else
      let (x', left) := acts.exec s x
      if left then (x', none) else sourceFrom rest x'
termination_by stmts => sizeOf stmts
decreasing_by
  · have happend : ∀ a b : List Stmt, sizeOf (a ++ b) ≤ sizeOf a + sizeOf b := by
      intro a b
      induction a with
      | nil => simp
      | cons s a ih =>
        simp only [List.cons_append, List.cons.sizeOf_spec]
        omega
    have hsize := happend inner rest
    simp only [List.cons.sizeOf_spec, Stmt.block.sizeOf_spec]
    omega
  · simp only [List.cons.sizeOf_spec]
    omega

def sourceRound (source₀ : List Stmt) (place : Place) (x : σ) : σ × Option Place :=
  match place with
  | .entry => sourceFrom acts source₀ x
  | .parked s rest =>
    match finish acts s x with
    | (x', .left) => (x', none)
    | (x', .again) => (x', some (.parked s rest))
    | (x', .next) => sourceFrom acts rest x'

/-- The source after `n` polls. -/
def source (source₀ : List Stmt) (others : ℕ → σ → σ) (x : σ) : ℕ → σ × Option Place
  | 0 => (x, some .entry)
  | n + 1 =>
    match source source₀ others x n with
    | (x', none) => (x', none)
    | (x', some place) => sourceRound acts source₀ place (others n x')

end

/-! ### The flattened body -/

/-- A body without its top-level blocks, at any nesting. -/
inductive Flattened : List Stmt → List Stmt → Prop
  | nil : Flattened [] []
  | block {inner rest a b : List Stmt} (hinner : Flattened inner a) (hrest : Flattened rest b) :
    Flattened (.block inner :: rest) (a ++ b)
  | stmt {s : Stmt} {rest b : List Stmt} (hs : ∀ inner, s ≠ .block inner) (hrest : Flattened rest b) :
    Flattened (s :: rest) (s :: b)

theorem flattened_flatten (stmts : List Stmt) : Flattened stmts (flattenTopLevelBlocks stmts) := by
  fun_induction flattenTopLevelBlocks stmts with
  | case1 => exact .nil
  | case2 statements rest ih₁ ih₂ => exact .block ih₁ ih₂
  | case3 s rest hs ih => exact .stmt (fun inner h => hs inner h) ih

theorem flatten_cons {s : Stmt} (hs : ∀ inner, s ≠ .block inner) (rest : List Stmt) :
    flattenTopLevelBlocks (s :: rest) = s :: flattenTopLevelBlocks rest := by
  rw [flattenTopLevelBlocks]
  exact hs

theorem flatten_append (a b : List Stmt) :
    flattenTopLevelBlocks (a ++ b) = flattenTopLevelBlocks a ++ flattenTopLevelBlocks b := by
  fun_induction flattenTopLevelBlocks a with
  | case1 => rfl
  | case2 statements rest _ ih => rw [List.cons_append, flattenTopLevelBlocks, ih, List.append_assoc]
  | case3 s rest hs ih =>
    rw [List.cons_append, List.cons_append, ← ih]
    exact flatten_cons hs _

section
variable {σ : Type} (acts : Actions σ)

/-- Where the flattened source stands between two polls. -/
inductive FlatPlace where
  | entry
  | parked (index : ℕ)

def suspends (s : Stmt) : Bool := isAwait s || (chanOp s).isSome

/-- The source from a statement on, up to the next suspension. -/
def flatFrom : List Stmt → ℕ → σ → σ × Option FlatPlace
  | [], _, x => (x, none)
  | s :: rest, index, x =>
    if suspends s then (acts.start s x, some (.parked index))
    else
      let (x', left) := acts.exec s x
      if left then (x', none) else flatFrom rest (index + 1) x'

/-- The completion of a suspended statement of the source. -/
def complete (s : Stmt) (x : σ) : σ × Resumed :=
  if isAwait s then resumeAwait acts s x
  else
    match chanOp s with
    | some op => resumeChan acts op s x
    | none => (x, .next)

def flatRound (body : List Stmt) (place : FlatPlace) (x : σ) : σ × Option FlatPlace :=
  match place with
  | .entry => flatFrom acts body 0 x
  | .parked index =>
    match body[index]? with
    | none => (x, none)
    | some s =>
      match complete acts s x with
      | (x', .left) => (x', none)
      | (x', .again) => (x', some (.parked index))
      | (x', .next) => flatFrom acts (body.drop (index + 1)) (index + 1) x'

def flatRun (body : List Stmt) (others : ℕ → σ → σ) (x : σ) : ℕ → σ × Option FlatPlace
  | 0 => (x, some .entry)
  | n + 1 =>
    match flatRun body others x n with
    | (x', none) => (x', none)
    | (x', some place) => flatRound acts body place (others n x')

end

/-! ### The numbering -/

/-- The suspensions of a body with their indices, in order; an await carries no operation. -/
def marks : List Stmt → ℕ → List (ℕ × Option ChanOpKind)
  | [], _ => []
  | s :: rest, index =>
    if isAwait s then (index, none) :: marks rest (index + 1)
    else
      match chanOp s with
      | some op => (index, some op) :: marks rest (index + 1)
      | none => marks rest (index + 1)

def awaits : List (ℕ × Option ChanOpKind) → List ℕ
  | [] => []
  | (index, none) :: rest => index :: awaits rest
  | (_, some _) :: rest => awaits rest

def chans : List (ℕ × Option ChanOpKind) → List (ℕ × ChanOpKind)
  | [] => []
  | (_, none) :: rest => chans rest
  | (index, some op) :: rest => (index, op) :: chans rest

/-- The positions of the awaits among the suspensions. -/
def awaitStates : List (ℕ × Option ChanOpKind) → ℕ → List ℕ
  | [], _ => []
  | (_, none) :: rest, position => position :: awaitStates rest (position + 1)
  | (_, some _) :: rest, position => awaitStates rest (position + 1)

def chanStates : List (ℕ × Option ChanOpKind) → ℕ → List ℕ
  | [], _ => []
  | (_, none) :: rest, position => chanStates rest (position + 1)
  | (_, some _) :: rest, position => position :: chanStates rest (position + 1)

def order : List (ℕ × Option ChanOpKind) → ℕ → ℕ → List SuspKind
  | [], _, _ => []
  | (_, none) :: rest, ai, ci => .await ai :: order rest (ai + 1) ci
  | (_, some _) :: rest, ai, ci => .chan ci :: order rest ai (ci + 1)

theorem marks_cons (s : Stmt) (rest : List Stmt) (index : ℕ) :
    marks (s :: rest) index = (if isAwait s then [(index, none)]
      else (chanOp s).toList.map fun op => (index, some op)) ++ marks rest (index + 1) := by
  rw [marks]
  split
  · rfl
  · cases chanOp s with
    | none => rfl
    | some op => rfl

variable {stmts : List Stmt}

theorem le_of_mem_marks {index : ℕ} {m : ℕ × Option ChanOpKind}
    (h : m ∈ marks stmts index) : index ≤ m.1 ∧ m.1 < index + stmts.length := by
  induction stmts generalizing index with
  | nil => simp [marks] at h
  | cons s rest ih =>
    rw [marks_cons, List.mem_append] at h
    rw [List.length_cons]
    rcases h with h | h
    · have hm : m.1 = index := by
        split at h
        · simp only [List.mem_singleton] at h
          rw [h]
        · obtain ⟨op, _, rfl⟩ := List.mem_map.mp h
          rfl
      omega
    · have := ih h
      omega

theorem pairwise_marks (stmts : List Stmt) (index : ℕ) :
    (marks stmts index).Pairwise (·.1 < ·.1) := by
  induction stmts generalizing index with
  | nil => exact .nil
  | cons s rest ih =>
    have hlater : ∀ m ∈ marks rest (index + 1), index < m.1 :=
      fun m hm => (le_of_mem_marks hm).1
    rw [marks]
    split
    · exact .cons hlater (ih _)
    · cases chanOp s with
      | none => exact ih _
      | some op => exact .cons hlater (ih _)

theorem scan_body (stmts : List Stmt) (index : ℕ) (scan : Scan) :
    Scan.body stmts index scan =
      { awaitInfos := scan.awaitInfos ++ awaits (marks stmts index)
        awaitStateIndex :=
          scan.awaitStateIndex ++ awaitStates (marks stmts index) scan.suspensionPoints
        chanInfos := scan.chanInfos ++ chans (marks stmts index)
        suspensionPoints := scan.suspensionPoints + (marks stmts index).length } := by
  induction stmts generalizing index scan with
  | nil => simp [Scan.body, marks, awaits, awaitStates, chans]
  | cons s rest ih =>
    rw [Scan.body, ih, Scan.step, marks]
    split
    · simp [awaits, awaitStates, chans, Nat.add_assoc, Nat.add_comm]
    · cases chanOp s with
      | none => rfl
      | some op => simp [awaits, awaitStates, chans, Nat.add_assoc, Nat.add_comm]

variable {ms : List (ℕ × Option ChanOpKind)}

theorem mem_of_mem_awaits {index : ℕ} (h : index ∈ awaits ms) : (index, none) ∈ ms := by
  induction ms with
  | nil => simp [awaits] at h
  | cons m rest ih =>
    obtain ⟨first, kind⟩ := m
    cases kind with
    | none =>
      rcases List.mem_cons.mp h with rfl | h
      · exact List.mem_cons_self
      · exact List.mem_cons_of_mem _ (ih h)
    | some op => exact List.mem_cons_of_mem _ (ih h)

theorem mem_of_mem_chans {c : ℕ × ChanOpKind} (h : c ∈ chans ms) : (c.1, some c.2) ∈ ms := by
  induction ms with
  | nil => simp [chans] at h
  | cons m rest ih =>
    obtain ⟨first, kind⟩ := m
    cases kind with
    | none => exact List.mem_cons_of_mem _ (ih h)
    | some op =>
      rcases List.mem_cons.mp h with rfl | h
      · exact List.mem_cons_self
      · exact List.mem_cons_of_mem _ (ih h)

/-- Merging the two tables restores the order of the suspensions. -/
theorem mergeOrder_marks (ms : List (ℕ × Option ChanOpKind)) (h : ms.Pairwise (·.1 < ·.1))
    (ai ci position : ℕ) : mergeOrder (awaits ms) (chans ms) ai ci position =
      (order ms ai ci, chanStates ms position) := by
  induction ms generalizing ai ci position with
  | nil => rw [awaits, chans, mergeOrder, order, chanStates]
  | cons m rest ih =>
    obtain ⟨hfirst, hrest⟩ := List.pairwise_cons.mp h
    obtain ⟨index, kind⟩ := m
    have hawaits : ∀ a ∈ awaits rest, index < a := fun a ha => hfirst _ (mem_of_mem_awaits ha)
    have hchans : ∀ c ∈ chans rest, index < c.1 := fun c hc => hfirst _ (mem_of_mem_chans hc)
    cases kind with
    | none =>
      have hnext := ih hrest (ai + 1) ci (position + 1)
      rw [awaits, chans, order, chanStates]
      cases hc : chans rest with
      | nil =>
        rw [hc] at hnext
        rw [mergeOrder, hnext]
      | cons c later =>
        have hle : index ≤ c.1 := Nat.le_of_lt (hchans c (by rw [hc]; exact List.mem_cons_self))
        rw [hc] at hnext
        rw [mergeOrder, if_pos hle, hnext]
    | some op =>
      have hnext := ih hrest ai (ci + 1) (position + 1)
      rw [awaits, chans, order, chanStates]
      cases ha : awaits rest with
      | nil =>
        rw [ha] at hnext
        rw [mergeOrder, hnext]
      | cons a later =>
        have hlt : index < a := hawaits a (by rw [ha]; exact List.mem_cons_self)
        rw [ha] at hnext
        rw [mergeOrder, if_neg (by dsimp only; omega), hnext]

theorem layout_eq (body : List Stmt) : buildAsyncLayout body =
    { awaitInfos := awaits (marks body 0)
      chanInfos := chans (marks body 0)
      awaitStateIndex := awaitStates (marks body 0) 0
      chanStateIndex := chanStates (marks body 0) 0
      suspensionCount := (marks body 0).length
      suspOrder := order (marks body 0) 0 0 } := by
  simp [buildAsyncLayout, scan_body, mergeOrder_marks _ (pairwise_marks body 0)]

variable {kind : Option ChanOpKind}

/-- The entry of the order for a suspension, with how many awaits and channel operations stand
before it. -/
theorem order_getElem {k index : ℕ} (h : ms[k]? = some (index, kind)) (ai ci position : ℕ) : match kind with
    | none => ∃ i, (order ms ai ci)[k]? = some (.await (ai + i)) ∧ (awaits ms)[i]? = some index ∧
        (awaitStates ms position)[i]? = some (position + k)
    | some op => ∃ i, (order ms ai ci)[k]? = some (.chan (ci + i)) ∧
        (chans ms)[i]? = some (index, op) ∧ (chanStates ms position)[i]? = some (position + k) := by
  induction ms generalizing k ai ci position with
  | nil => simp at h
  | cons m rest ih =>
    obtain ⟨first, firstKind⟩ := m
    cases k with
    | zero =>
      obtain ⟨rfl, rfl⟩ := Prod.mk.inj (Option.some.inj h)
      cases firstKind with
      | none => exact ⟨0, rfl, rfl, rfl⟩
      | some op => exact ⟨0, rfl, rfl, rfl⟩
    | succ k =>
      rw [List.getElem?_cons_succ] at h
      have hshift : position + 1 + k = position + (k + 1) := by omega
      cases firstKind with
      | none =>
        have hrest := ih h (ai + 1) ci (position + 1)
        cases kind with
        | none =>
          obtain ⟨i, hi, hindex, hstate⟩ := hrest
          refine ⟨i + 1, ?_, hindex, by rw [← hshift]; exact hstate⟩
          rw [← Nat.add_assoc, Nat.add_right_comm]
          exact hi
        | some op =>
          obtain ⟨i, hi, hindex, hstate⟩ := hrest
          exact ⟨i, hi, hindex, by rw [← hshift]; exact hstate⟩
      | some firstOp =>
        have hrest := ih h ai (ci + 1) (position + 1)
        cases kind with
        | none =>
          obtain ⟨i, hi, hindex, hstate⟩ := hrest
          exact ⟨i, hi, hindex, by rw [← hshift]; exact hstate⟩
        | some op =>
          obtain ⟨i, hi, hindex, hstate⟩ := hrest
          refine ⟨i + 1, ?_, hindex, by rw [← hshift]; exact hstate⟩
          rw [← Nat.add_assoc, Nat.add_right_comm]
          exact hi

theorem order_of_awaitStates {i state : ℕ} {position : ℕ}
    (h : (awaitStates ms position)[i]? = some state) (ai ci : ℕ) :
    ∃ k, state = position + k ∧ (order ms ai ci)[k]? = some (.await (ai + i)) := by
  induction ms generalizing i position ai ci with
  | nil => simp [awaitStates] at h
  | cons m rest ih =>
    obtain ⟨index, kind⟩ := m
    cases kind with
    | none =>
      cases i with
      | zero => exact ⟨0, (Option.some.inj h).symm, rfl⟩
      | succ i =>
        obtain ⟨k, hk, horder⟩ := ih h (ai + 1) ci
        refine ⟨k + 1, by omega, ?_⟩
        rw [← Nat.add_assoc, Nat.add_right_comm]
        exact horder
    | some op =>
      obtain ⟨k, hk, horder⟩ := ih h ai (ci + 1)
      exact ⟨k + 1, by omega, horder⟩

theorem order_of_chanStates {i state : ℕ} {position : ℕ}
    (h : (chanStates ms position)[i]? = some state) (ai ci : ℕ) :
    ∃ k, state = position + k ∧ (order ms ai ci)[k]? = some (.chan (ci + i)) := by
  induction ms generalizing i position ai ci with
  | nil => simp [chanStates] at h
  | cons m rest ih =>
    obtain ⟨index, kind⟩ := m
    cases kind with
    | none =>
      obtain ⟨k, hk, horder⟩ := ih h (ai + 1) ci
      exact ⟨k + 1, by omega, horder⟩
    | some op =>
      cases i with
      | zero => exact ⟨0, (Option.some.inj h).symm, rfl⟩
      | succ i =>
        obtain ⟨k, hk, horder⟩ := ih h ai (ci + 1)
        refine ⟨k + 1, by omega, ?_⟩
        rw [← Nat.add_assoc, Nat.add_right_comm]
        exact horder

theorem length_order (ms : List (ℕ × Option ChanOpKind)) (ai ci : ℕ) :
    (order ms ai ci).length = ms.length := by
  induction ms generalizing ai ci with
  | nil => rfl
  | cons m rest ih =>
    obtain ⟨index, kind⟩ := m
    cases kind with
    | none => simp [order, ih]
    | some op => simp [order, ih]

/-- The statement is a suspension of the kind its mark gives. -/
def HasKind (s : Stmt) : Option ChanOpKind → Prop
  | none => isAwait s = true
  | some op => isAwait s = false ∧ chanOp s = some op

theorem marks_stmt {first index : ℕ} (h : (index, kind) ∈ marks stmts first) :
    ∃ s, stmts[index - first]? = some s ∧ HasKind s kind := by
  induction stmts generalizing first with
  | nil => simp [marks] at h
  | cons s rest ih =>
    have hlater (hmem : (index, kind) ∈ marks rest (first + 1)) : ∃ s',
        (s :: rest)[index - first]? = some s' ∧ HasKind s' kind := by
      obtain ⟨s', hs', hkind⟩ := ih hmem
      have hle : first + 1 ≤ index := (le_of_mem_marks hmem).1
      have hsub : index - first = index - (first + 1) + 1 := by omega
      exact ⟨s', by rw [hsub, List.getElem?_cons_succ]; exact hs', hkind⟩
    rw [marks] at h
    split at h
    · rename_i hawait
      rcases List.mem_cons.mp h with heq | h
      · obtain ⟨rfl, rfl⟩ := Prod.mk.inj heq
        exact ⟨s, by simp, hawait⟩
      · exact hlater h
    · rename_i hawait
      cases hop : chanOp s with
      | none =>
        rw [hop] at h
        exact hlater h
      | some op =>
        rw [hop] at h
        rcases List.mem_cons.mp h with heq | h
        · obtain ⟨rfl, rfl⟩ := Prod.mk.inj heq
          exact ⟨s, by simp, by simpa using hawait, hop⟩
        · exact hlater h

/-- What the tables hold for a suspension. -/
theorem layout_numbered (body : List Stmt) {k index : ℕ}
    (h : (marks body 0)[k]? = some (index, kind)) : ∃ susp s,
      (buildAsyncLayout body).suspOrder[k]? = some susp ∧
      (buildAsyncLayout body).suspStmtIdx susp = some index ∧
      (buildAsyncLayout body).storedState susp = some (k + 1) ∧
      body[index]? = some s ∧ suspends s = true ∧ (buildAsyncLayout body).operation susp = kind ∧
      ∀ {σ : Type} (acts : Actions σ) (x : σ),
        (buildAsyncLayout body).resume acts body susp x = some (complete acts s x) := by
  obtain ⟨s, hs, hkind⟩ := marks_stmt (List.mem_of_getElem? h)
  rw [Nat.sub_zero] at hs
  rw [layout_eq]
  have hentry := order_getElem h 0 0 0
  cases kind with
  | none =>
    obtain ⟨i, hi, hindex, hstate⟩ := hentry
    rw [Nat.zero_add] at hi hstate
    refine ⟨.await i, s, hi, hindex, by simp [Layout.storedState, hstate], hs,
      by simp [suspends, show isAwait s = true from hkind], rfl, ?_⟩
    intro σ acts x
    simp [Layout.resume, complete, hindex, hs, show isAwait s = true from hkind]
  | some op =>
    obtain ⟨i, hi, hindex, hstate⟩ := hentry
    rw [Nat.zero_add] at hi hstate
    refine ⟨.chan i, s, hi, by simp [Layout.suspStmtIdx, hindex],
      by simp [Layout.storedState, hstate], hs, by simp [suspends, hkind.2],
      by simp [Layout.operation, hindex], ?_⟩
    intro σ acts x
    simp [Layout.resume, complete, hindex, hs, hkind.1, hkind.2]

theorem layout_suspOrder_none (body : List Stmt) {k : ℕ} (h : (marks body 0)[k]? = none) :
    (buildAsyncLayout body).suspOrder[k]? = none := by
  rw [List.getElem?_eq_none_iff] at h ⊢
  rw [layout_eq]
  simpa [length_order] using h

/-! ### The partition -/

/-- A range from `start` on, cut after each of the given points. -/
def cuts : List ℕ → ℕ → ℕ → List (List ℕ)
  | [], start, stop => [List.range' start (stop - start)]
  | p :: points, start, stop =>
    (List.range' start (p - start) ++ [p]) :: cuts points (p + 1) stop

theorem flatten_cuts {points : List ℕ} (hsorted : points.Pairwise (· < ·)) {start stop : ℕ}
    (hfirst : ∀ p ∈ points, start ≤ p) (hlast : ∀ p ∈ points, p < stop) :
    (cuts points start stop).flatten = List.range' start (stop - start) := by
  induction points generalizing start with
  | nil => simp [cuts]
  | cons p points ih =>
    obtain ⟨hlater, hrest⟩ := List.pairwise_cons.mp hsorted
    have hp : start ≤ p := hfirst p List.mem_cons_self
    have hstop : p < stop := hlast p List.mem_cons_self
    have hafter : ∀ q ∈ points, p + 1 ≤ q := hlater
    have htail := ih hrest hafter fun q hq => hlast q (List.mem_cons_of_mem _ hq)
    have hlength : stop - start = (p - start) + (1 + (stop - (p + 1))) := by omega
    rw [cuts, List.flatten_cons, htail, hlength, ← List.range'_append_1, ← List.range'_append_1]
    simp [Nat.add_sub_cancel' hp]

theorem length_cuts (points : List ℕ) (start stop : ℕ) :
    (cuts points start stop).length = points.length + 1 := by
  induction points generalizing start with
  | nil => rfl
  | cons p points ih => simp [cuts, ih]

/-- Where the piece `k` starts. -/
def pieceStart (points : List ℕ) (start : ℕ) : ℕ → Option ℕ
  | 0 => some start
  | k + 1 => points[k]?.map (· + 1)

theorem cuts_getElem (points : List ℕ) (start stop k : ℕ) : (cuts points start stop)[k]? =
    (pieceStart points start k).map fun first =>
      match points[k]? with
      | some p => List.range' first (p - first) ++ [p]
      | none => List.range' first (stop - first) := by
  induction points generalizing start k with
  | nil =>
    cases k with
    | zero => rfl
    | succ k => rfl
  | cons p points ih =>
    cases k with
    | zero => rfl
    | succ k =>
      rw [cuts, List.getElem?_cons_succ, ih]
      cases k with
      | zero => rfl
      | succ k => rfl

theorem emitted_eq_cuts (body : List Stmt) (k : ℕ) :
    (buildAsyncLayout body).emitted body.length k =
      (cuts ((marks body 0).map Prod.fst) 0 body.length)[k]? := by
  have hstart : (buildAsyncLayout body).segmentStart k =
      pieceStart ((marks body 0).map Prod.fst) 0 k := by
    cases k with
    | zero => rfl
    | succ k =>
      rw [Layout.segmentStart, pieceStart, List.getElem?_map]
      cases hk : (marks body 0)[k]? with
      | none => simp [layout_suspOrder_none body hk]
      | some m =>
        obtain ⟨susp, s, horder, hindex, -⟩ := layout_numbered body hk
        simp [horder, hindex]
  rw [Layout.emitted, hstart, cuts_getElem, Layout.segmentEnd, List.getElem?_map]
  cases hfirst : pieceStart ((marks body 0).map Prod.fst) 0 k with
  | none => rfl
  | some first =>
    cases hk : (marks body 0)[k]? with
    | none => simp [layout_suspOrder_none body hk]
    | some m =>
      obtain ⟨susp, s, horder, hindex, -⟩ := layout_numbered body hk
      simp [horder, hindex]

/-! ### The run -/

theorem marks_cons_plain {s : Stmt} (h : suspends s = false) (rest : List Stmt) (first : ℕ) :
    marks (s :: rest) first = marks rest (first + 1) := by
  simp only [suspends, Bool.or_eq_false_iff, Option.isSome_eq_false_iff, Option.isNone_iff_eq_none]
    at h
  rw [marks, if_neg (by simp [h.1]), h.2]

theorem marks_cons_suspends {s : Stmt} (h : suspends s = true) (rest : List Stmt) (first : ℕ) :
    ∃ kind, marks (s :: rest) first = (first, kind) :: marks rest (first + 1) := by
  rw [marks]
  split
  · exact ⟨none, rfl⟩
  · rename_i hawait
    obtain ⟨op, hop⟩ : ∃ op, chanOp s = some op := by
      simpa [suspends, hawait, Option.isSome_iff_exists] using h
    exact ⟨some op, by rw [hop]⟩

/-- How many suspensions stand before a statement. -/
def suspensionsBefore (body : List Stmt) (index : ℕ) : ℕ := (body.take index).countP suspends

theorem marks_drop (stmts : List Stmt) (first d : ℕ) :
    marks (stmts.drop d) (first + d) = (marks stmts first).drop (suspensionsBefore stmts d) := by
  induction stmts generalizing first d with
  | nil => simp [marks]
  | cons s rest ih =>
    cases d with
    | zero => simp [suspensionsBefore]
    | succ d =>
      have hrest := ih (first + 1) d
      rw [Nat.add_assoc, Nat.add_comm 1 d] at hrest
      rw [List.drop_succ_cons, hrest]
      cases hs : suspends s with
      | false =>
        rw [marks_cons_plain hs]
        simp [suspensionsBefore, hs]
      | true =>
        obtain ⟨kind, hkind⟩ := marks_cons_suspends hs rest first
        rw [hkind]
        simp [suspensionsBefore, hs]

theorem suspensionsBefore_mark {first k index : ℕ} (h : (marks stmts first)[k]? = some (index, kind)) :
    suspensionsBefore stmts (index - first) = k := by
  induction stmts generalizing first k with
  | nil => simp [marks] at h
  | cons s rest ih =>
    cases hs : suspends s with
    | false =>
      rw [marks_cons_plain hs] at h
      have hle : first + 1 ≤ index := (le_of_mem_marks (List.mem_of_getElem? h)).1
      have hsub : index - first = index - (first + 1) + 1 := by omega
      have hrest := ih h
      rw [hsub]
      simpa [suspensionsBefore, hs] using hrest
    | true =>
      obtain ⟨firstKind, hfirst⟩ := marks_cons_suspends hs rest first
      rw [hfirst] at h
      cases k with
      | zero =>
        obtain ⟨rfl, -⟩ := Prod.mk.inj (Option.some.inj h)
        simp [suspensionsBefore]
      | succ k =>
        rw [List.getElem?_cons_succ] at h
        have hle : first + 1 ≤ index := (le_of_mem_marks (List.mem_of_getElem? h)).1
        have hsub : index - first = index - (first + 1) + 1 := by omega
        have hrest := ih h
        rw [hsub]
        simpa [suspensionsBefore, hs] using hrest

section
variable {σ : Type} (acts : Actions σ)

/-- The source from a statement on: the plain statements up to the next suspension, then that
suspension. -/
theorem flatFrom_marks {stmts : List Stmt} {first p : ℕ} {kind : Option ChanOpKind}
    {later : List (ℕ × Option ChanOpKind)} (h : marks stmts first = (p, kind) :: later) {s : Stmt}
    (hs : stmts[p - first]? = some s) (x : σ) :
    flatFrom acts stmts first x =
      if (execAll acts (stmts.take (p - first)) x).2
        then ((execAll acts (stmts.take (p - first)) x).1, none)
      else (acts.start s (execAll acts (stmts.take (p - first)) x).1, some (.parked p)) := by
  induction stmts generalizing first x with
  | nil => simp [marks] at h
  | cons t rest ih =>
    cases ht : suspends t with
    | true =>
      obtain ⟨firstKind, hfirst⟩ := marks_cons_suspends ht rest first
      rw [hfirst] at h
      obtain ⟨hp, -⟩ := List.cons.inj h
      obtain ⟨rfl, -⟩ := Prod.mk.inj hp
      obtain rfl : t = s := by simpa using hs
      simp [flatFrom, ht, execAll]
    | false =>
      rw [marks_cons_plain ht] at h
      have hmem : (p, kind) ∈ marks rest (first + 1) := by rw [h]; exact List.mem_cons_self
      have hle : first + 1 ≤ p := (le_of_mem_marks hmem).1
      have hsub : p - first = p - (first + 1) + 1 := by omega
      rw [hsub, List.getElem?_cons_succ] at hs
      rw [hsub, List.take_succ_cons, flatFrom, if_neg (by simp [ht]), execAll]
      cases hleft : (acts.exec t x).2 with
      | true => simp [hleft]
      | false => simpa [hleft] using ih h hs (acts.exec t x).1

theorem flatFrom_of_marks_nil {stmts : List Stmt} {first : ℕ} (h : marks stmts first = [])
    (x : σ) : flatFrom acts stmts first x = ((execAll acts stmts x).1, none) := by
  induction stmts generalizing first x with
  | nil => rfl
  | cons t rest ih =>
    cases ht : suspends t with
    | true =>
      obtain ⟨firstKind, hfirst⟩ := marks_cons_suspends ht rest first
      rw [hfirst] at h
      exact absurd h (by simp)
    | false =>
      rw [marks_cons_plain ht] at h
      rw [flatFrom, if_neg (by simp [ht]), execAll]
      cases hleft : (acts.exec t x).2 with
      | true => simp [hleft]
      | false => simpa [hleft] using ih h (acts.exec t x).1

/-- The stored state that stands for a place of the source: the segment after the suspension. -/
def stateOf (body : List Stmt) : FlatPlace → ℕ
  | .entry => 0
  | .parked index => suspensionsBefore body index + 1

/-- A place the source can stand at. -/
def FlatPlace.Valid (body : List Stmt) : FlatPlace → Prop
  | .entry => True
  | .parked index => ∃ (k : ℕ) (kind : Option ChanOpKind), (marks body 0)[k]? = some (index, kind)

theorem segment_eq (body : List Stmt) {k start : ℕ}
    (hstart : (buildAsyncLayout body).segmentStart k = some start)
    (hmarks : marks (body.drop start) start = (marks body 0).drop k) (x : σ) :
    (buildAsyncLayout body).segment acts body k x =
      some ((flatFrom acts (body.drop start) start x).1,
        (flatFrom acts (body.drop start) start x).2.map (stateOf body)) ∧
      ∀ place, (flatFrom acts (body.drop start) start x).2 = some place → place.Valid body := by
  cases hk : (marks body 0)[k]? with
  | none =>
    have hnil : marks (body.drop start) start = [] := by
      rw [hmarks, List.drop_eq_nil_iff]
      exact List.getElem?_eq_none_iff.mp hk
    rw [flatFrom_of_marks_nil acts hnil, Layout.segment, Layout.segmentEnd]
    refine ⟨?_, by simp⟩
    simp [layout_suspOrder_none body hk, hstart]
  | some m =>
    obtain ⟨index, kind⟩ := m
    obtain ⟨susp, s, horder, hindex, hstored, hs, -, -, -⟩ := layout_numbered body hk
    have hcons : marks (body.drop start) start = (index, kind) :: (marks body 0).drop (k + 1) := by
      rw [hmarks, List.drop_eq_getElem?_toList_append, hk]
      rfl
    have hmem : (index, kind) ∈ marks (body.drop start) start := by
      rw [hcons]
      exact List.mem_cons_self
    have hle : start ≤ index := (le_of_mem_marks hmem).1
    have hs' : (body.drop start)[index - start]? = some s := by
      rw [List.getElem?_drop, Nat.add_sub_cancel' hle]
      exact hs
    have hcount : suspensionsBefore body index = k := suspensionsBefore_mark hk
    have htake : (body.take index).drop start = (body.drop start).take (index - start) :=
      List.drop_take
    rw [flatFrom_marks acts hcons hs', Layout.segment, Layout.segmentEnd]
    constructor
    · simp only [hstart, horder, hindex, htake, hstored, hs, Option.bind_eq_bind, Option.bind_some]
      split
      · rfl
      · simp [stateOf, hcount]
    · intro place hplace
      split at hplace
      · simp at hplace
      · obtain rfl := Option.some.inj hplace
        exact ⟨k, kind, hk⟩

/-- One poll does what the source does up to its next suspension. -/
theorem poll_eq (body : List Stmt) {place : FlatPlace} (hv : place.Valid body) (x : σ) :
    (buildAsyncLayout body).poll acts body (stateOf body place) x =
      some ((flatRound acts body place x).1,
        (flatRound acts body place x).2.map (stateOf body)) ∧
      ∀ next, (flatRound acts body place x).2 = some next → next.Valid body := by
  have hcount : (buildAsyncLayout body).suspensionCount = (marks body 0).length := by
    rw [layout_eq]
  cases place with
  | entry =>
    have hstart : (buildAsyncLayout body).segmentStart 0 = some 0 := rfl
    have hsegment := segment_eq acts body hstart (by simp) x
    rw [Layout.poll.eq_def, if_neg (by simp [stateOf])]
    exact hsegment
  | parked index =>
    obtain ⟨k, kind, hk⟩ := hv
    obtain ⟨susp, s, horder, hindex, hstored, hs, hsusp, -, hresume⟩ := layout_numbered body hk
    have hbefore : suspensionsBefore body index = k := suspensionsBefore_mark hk
    have hlt : k < (marks body 0).length := by
      by_contra hge
      rw [List.getElem?_eq_none_iff.mpr (by omega)] at hk
      exact absurd hk (by simp)
    have hstart : (buildAsyncLayout body).segmentStart (k + 1) = some (index + 1) := by
      simp [Layout.segmentStart, horder, hindex]
    have hnext : suspensionsBefore body (index + 1) = k + 1 := by
      rw [suspensionsBefore, List.take_add_one, hs, List.countP_append]
      rw [suspensionsBefore] at hbefore
      simp [hbefore, hsusp]
    have hmarks : marks (body.drop (index + 1)) (index + 1) = (marks body 0).drop (k + 1) := by
      have hdrop := marks_drop body 0 (index + 1)
      rwa [Nat.zero_add, hnext] at hdrop
    rw [Layout.poll.eq_def, if_neg (by simp only [stateOf, hbefore, hcount]; omega), stateOf, hbefore]
    simp only [horder, hresume, hstored, flatRound, hs, Option.bind_eq_bind, Option.bind_some]
    obtain ⟨x', resumed⟩ := complete acts s x
    cases resumed with
    | left => exact ⟨rfl, by simp⟩
    | again =>
      refine ⟨by simp [stateOf, hbefore], ?_⟩
      intro next hnext
      obtain rfl := Option.some.inj hnext
      exact ⟨k, kind, hk⟩
    | next => exact segment_eq acts body hstart hmarks x'

/-- After any number of polls the future has done what the source has done, and its stored
state is that of the place of the source. -/
theorem machine_eq_flatRun (body : List Stmt) (others : ℕ → σ → σ) (x : σ) (n : ℕ) :
    (buildAsyncLayout body).machine acts body others x n =
      some ((flatRun acts body others x n).1,
        (flatRun acts body others x n).2.map (stateOf body)) ∧
      ∀ place, (flatRun acts body others x n).2 = some place → place.Valid body := by
  induction n with
  | zero =>
    refine ⟨rfl, ?_⟩
    intro place hplace
    obtain rfl := Option.some.inj hplace
    trivial
  | succ n ih =>
    obtain ⟨hmachine, hvalid⟩ := ih
    rw [Layout.machine, hmachine, flatRun]
    generalize flatRun acts body others x n = current at hvalid ⊢
    obtain ⟨x', place⟩ := current
    cases place with
    | none => exact ⟨rfl, by simp⟩
    | some place => exact poll_eq acts body (hvalid place rfl) (others n x')

end

theorem exists_pieces (body : List Stmt) : ∃ pieces : List (List ℕ),
    pieces.length = (buildAsyncLayout body).suspensionCount + 1 ∧
    (∀ k ≤ (buildAsyncLayout body).suspensionCount,
      (buildAsyncLayout body).emitted body.length k = pieces[k]?) ∧
    pieces.flatten = List.range body.length := by
  refine ⟨cuts ((marks body 0).map Prod.fst) 0 body.length, ?_, ?_, ?_⟩
  · simp [length_cuts, layout_eq]
  · intro k _
    exact emitted_eq_cuts body k
  · have hsorted : ((marks body 0).map Prod.fst).Pairwise (· < ·) :=
      List.pairwise_map.mpr (pairwise_marks body 0)
    have hlast : ∀ p ∈ (marks body 0).map Prod.fst, p < body.length := by
      intro p hp
      obtain ⟨m, hm, rfl⟩ := List.mem_map.mp hp
      simpa using (le_of_mem_marks hm).2
    rw [flatten_cuts hsorted (fun p _ => Nat.zero_le p) hlast, Nat.sub_zero, List.range_eq_range']

/-! ### The source as it is written -/

theorem waitsFor_eq (s : Stmt) : waitsFor s = if isAwait s then some none else (chanOp s).map some := by
  unfold waitsFor
  split
  case h_7 h₁ h₂ h₃ h₄ h₅ h₆ =>
    have hawait : isAwait s = false := by
      unfold isAwait
      split
      · exact (h₁ _ rfl).elim
      · exact (h₂ _ _ _ _ _ _ rfl).elim
      · exact (h₃ _ rfl).elim
      · rfl
    have hchan : chanOp s = none := by
      unfold chanOp
      split
      · exact (h₄ _ rfl).elim
      · exact (h₆ _ _ _ _ rfl).elim
      · exact (h₅ _ _ _ rfl).elim
      · rfl
    simp [hawait, hchan]
  all_goals rfl

theorem waitsFor_isSome (s : Stmt) : (waitsFor s).isSome = suspends s := by
  rw [waitsFor_eq, suspends]
  cases isAwait s with
  | true => rfl
  | false => simp

section
variable {σ : Type} (acts : Actions σ)

theorem finish_eq {s : Stmt} (h : (waitsFor s).isSome) (x : σ) : finish acts s x = complete acts s x := by
  unfold waitsFor at h
  split at h
  all_goals first | rfl | simp at h

theorem drop_stmt {body later : List Stmt} {s : Stmt} {index : ℕ} (h : body.drop index = s :: later) :
    body[index]? = some s ∧ body.drop (index + 1) = later := by
  constructor
  · rw [← List.head?_drop, h]
    rfl
  · rw [← List.tail_drop, h]
    rfl

/-- The source waits where the flattened one does, with the same statements to come. -/
inductive Stands (body : List Stmt) : Option Place → Option FlatPlace → Prop
  | done : Stands body none none
  | entry : Stands body (some .entry) (some .entry)
  | parked {s : Stmt} {rest : List Stmt} {index : ℕ} (hs : body[index]? = some s)
    (hwaits : (waitsFor s).isSome) (hrest : body.drop (index + 1) = flattenTopLevelBlocks rest) :
    Stands body (some (.parked s rest)) (some (.parked index))

theorem sourceFrom_eq {body stmts : List Stmt} {index : ℕ}
    (h : body.drop index = flattenTopLevelBlocks stmts) (x : σ) :
    (sourceFrom acts stmts x).1 = (flatFrom acts (body.drop index) index x).1 ∧
      Stands body (sourceFrom acts stmts x).2 (flatFrom acts (body.drop index) index x).2 := by
  fun_induction sourceFrom acts stmts x generalizing index with
  | case1 x =>
    rw [h, flattenTopLevelBlocks]
    exact ⟨rfl, .done⟩
  | case2 inner rest x ih =>
    apply ih
    rw [h, flattenTopLevelBlocks, flatten_append]
  | case3 s rest x hs hwaits =>
    obtain ⟨hstmt, hrest⟩ := drop_stmt (flatten_cons hs rest ▸ h)
    rw [h, flatten_cons hs, flatFrom, if_pos (by rw [← waitsFor_isSome]; exact hwaits)]
    exact ⟨rfl, .parked hstmt hwaits hrest⟩
  | case4 s rest x hs hwaits x' hexec =>
    rw [h, flatten_cons hs, flatFrom, if_neg (by rw [← waitsFor_isSome]; exact hwaits), hexec]
    exact ⟨rfl, .done⟩
  | case5 s rest x hs hwaits x' left hexec hleft ih =>
    obtain ⟨-, hrest⟩ := drop_stmt (flatten_cons hs rest ▸ h)
    have hlater := ih hrest
    rw [hrest] at hlater
    rw [h, flatten_cons hs, flatFrom, if_neg (by rw [← waitsFor_isSome]; exact hwaits), hexec]
    simpa [hleft] using hlater

theorem sourceRound_eq {source₀ : List Stmt} {place : Place} {flat : FlatPlace}
    (h : Stands (flattenTopLevelBlocks source₀) (some place) (some flat)) (x : σ) :
    (sourceRound acts source₀ place x).1 = (flatRound acts (flattenTopLevelBlocks source₀) flat x).1 ∧
      Stands (flattenTopLevelBlocks source₀) (sourceRound acts source₀ place x).2
        (flatRound acts (flattenTopLevelBlocks source₀) flat x).2 := by
  cases h with
  | entry =>
    have hwhole : (flattenTopLevelBlocks source₀).drop 0 = flattenTopLevelBlocks source₀ := rfl
    exact sourceFrom_eq acts hwhole x
  | @parked s rest index hs hwaits hrest =>
    rw [sourceRound, flatRound, hs, finish_eq acts hwaits]
    cases hdone : complete acts s x with
    | mk x' resumed =>
      cases resumed with
      | next => simpa [hdone] using sourceFrom_eq acts hrest x'
      | again => simpa [hdone] using Stands.parked hs hwaits hrest
      | left => simpa [hdone] using Stands.done

theorem source_eq (source₀ : List Stmt) (others : ℕ → σ → σ) (x : σ) (n : ℕ) :
    (source acts source₀ others x n).1 = (flatRun acts (flattenTopLevelBlocks source₀) others x n).1 ∧
      Stands (flattenTopLevelBlocks source₀) (source acts source₀ others x n).2
        (flatRun acts (flattenTopLevelBlocks source₀) others x n).2 := by
  induction n with
  | zero => exact ⟨rfl, .entry⟩
  | succ n ih =>
    rw [source, flatRun]
    generalize source acts source₀ others x n = now at ih ⊢
    generalize flatRun acts (flattenTopLevelBlocks source₀) others x n = flat at ih ⊢
    obtain ⟨y, place⟩ := now
    obtain ⟨y', flat⟩ := flat
    obtain ⟨rfl, hstands⟩ : y = y' ∧ Stands _ place flat := ih
    cases hstands with
    | done => exact ⟨rfl, .done⟩
    | entry => exact sourceRound_eq acts .entry _
    | parked hs hwaits hrest => exact sourceRound_eq acts (.parked hs hwaits hrest) _

end

/-- The stored state of the future for a place of the source: a future that waits resumes with the
segment that holds what follows the statement it waits at. -/
inductive Layout.StandsAt (l : Layout) (body : List Stmt) : Option Place → Option ℕ → Prop
  | done : l.StandsAt body none none
  | entry : l.StandsAt body (some .entry) (some 0)
  | parked {s : Stmt} {rest : List Stmt} {k index : ℕ} (hs : body[index]? = some s)
    (hstart : l.segmentStart (k + 1) = some (index + 1)) (hrest : Flattened rest (body.drop (index + 1))) :
    l.StandsAt body (some (.parked s rest)) (some (k + 1))

theorem Stands.standsAt {body : List Stmt} {place : Option Place} {flat : Option FlatPlace}
    (h : Stands body place flat) (hvalid : ∀ p, flat = some p → p.Valid body) :
    (buildAsyncLayout body).StandsAt body place (flat.map (stateOf body)) := by
  cases h with
  | done => exact .done
  | entry => exact .entry
  | @parked s rest index hs hwaits hrest =>
    obtain ⟨k, kind, hk⟩ := hvalid _ rfl
    obtain ⟨susp, _, horder, hindex, -⟩ := layout_numbered body hk
    have hcount : suspensionsBefore body index = k := suspensionsBefore_mark hk
    rw [Option.map_some, stateOf, hcount]
    refine .parked hs ?_ (hrest ▸ flattened_flatten rest)
    simp [Layout.segmentStart, horder, hindex]

/-- A statement that waits is a suspension of the layout, of its kind. -/
theorem mem_marks_of_waits {first index : ℕ} {s : Stmt} (hs : stmts[index]? = some s)
    (hkind : waitsFor s = some kind) : (first + index, kind) ∈ marks stmts first := by
  induction stmts generalizing first index with
  | nil => simp at hs
  | cons t rest ih =>
    rw [marks_cons, List.mem_append]
    cases index with
    | zero =>
      left
      obtain rfl : t = s := by simpa using hs
      rw [waitsFor_eq] at hkind
      split at hkind
      · rename_i hawait
        simpa [hawait] using hkind.symm
      · rename_i hawait
        simpa [hawait] using hkind
    | succ index =>
      right
      have hrest : (first + 1 + index, kind) ∈ marks rest (first + 1) := ih (by simpa using hs)
      rwa [Nat.add_assoc, Nat.add_comm 1 index] at hrest

theorem mark_of_waits {body : List Stmt} {k index : ℕ}
    (h : (marks body 0)[k]? = some (index, kind)) : ∃ s, body[index]? = some s ∧ waitsFor s = some kind := by
  obtain ⟨s, hs, hkind⟩ := marks_stmt (List.mem_of_getElem? h)
  refine ⟨s, by simpa using hs, ?_⟩
  rw [waitsFor_eq]
  cases kind with
  | none => simp [show isAwait s = true from hkind]
  | some op => simp [hkind.1, hkind.2]

/-- What the merged order says about its entry `k`. -/
theorem suspOrder_entry (body : List Stmt) {k : ℕ} {kind : SuspKind}
    (h : (buildAsyncLayout body).suspOrder[k]? = some kind) : ∃ index s,
      (buildAsyncLayout body).suspStmtIdx kind = some index ∧
      (buildAsyncLayout body).segmentEnd body.length k = some index ∧
      (buildAsyncLayout body).storedState kind = some (k + 1) ∧
      (buildAsyncLayout body).segmentStart (k + 1) = some (index + 1) ∧
      body[index]? = some s ∧ waitsFor s = some ((buildAsyncLayout body).operation kind) := by
  cases hk : (marks body 0)[k]? with
  | none =>
    rw [layout_suspOrder_none body hk] at h
    exact absurd h (by simp)
  | some m =>
    obtain ⟨susp, _, horder, hindex, hstored, -, -, hoperation, -⟩ := layout_numbered body hk
    obtain rfl : susp = kind := Option.some.inj (horder.symm.trans h)
    obtain ⟨s, hs, hwaits⟩ := mark_of_waits hk
    refine ⟨m.1, s, hindex, ?_, hstored, ?_, hs, by rw [hoperation]; exact hwaits⟩
    · simp [Layout.segmentEnd, horder, hindex]
    · simp [Layout.segmentStart, horder, hindex]

theorem suspOrder_of_waits {body : List Stmt} {index : ℕ} {s : Stmt} (hs : body[index]? = some s)
    (h : (waitsFor s).isSome) : ∃ (k : ℕ) (kind : SuspKind), (buildAsyncLayout body).suspOrder[k]? = some kind ∧
      (buildAsyncLayout body).suspStmtIdx kind = some index := by
  obtain ⟨wait, hwait⟩ := Option.isSome_iff_exists.mp h
  have hmark : (0 + index, wait) ∈ marks body 0 := mem_marks_of_waits hs hwait
  rw [Nat.zero_add] at hmark
  obtain ⟨k, hk⟩ := List.getElem?_of_mem hmark
  obtain ⟨susp, _, horder, hindex, -⟩ := layout_numbered body hk
  exact ⟨k, susp, horder, hindex⟩

/-- The layout is that of the body without its top-level blocks. The segments and the suspensions cover
it, every statement once and in order; the suspensions are the statements that wait, and the state stored
on one is the segment that starts right after it; the tables of awaits and of channel operations agree
with the merged order; and the machine runs what the source runs. -/
theorem segments_partition (source₀ : List Stmt) :
    let body := flattenTopLevelBlocks source₀
    let l := buildAsyncLayout body
    Flattened source₀ body ∧
    (∃ pieces : List (List ℕ), pieces.length = l.suspensionCount + 1 ∧
      (∀ k ≤ l.suspensionCount, l.emitted body.length k = pieces[k]?) ∧
      pieces.flatten = List.range body.length) ∧
    l.suspOrder.length = l.suspensionCount ∧
    (∀ (k : ℕ) (kind : SuspKind), l.suspOrder[k]? = some kind → ∃ index s,
      l.suspStmtIdx kind = some index ∧ l.segmentEnd body.length k = some index ∧
      l.storedState kind = some (k + 1) ∧ l.segmentStart (k + 1) = some (index + 1) ∧
      body[index]? = some s ∧ waitsFor s = some (l.operation kind)) ∧
    (∀ (index : ℕ) (s : Stmt), body[index]? = some s → (waitsFor s).isSome →
      ∃ (k : ℕ) (kind : SuspKind), l.suspOrder[k]? = some kind ∧ l.suspStmtIdx kind = some index) ∧
    (∀ (i : ℕ) (state : ℕ), l.awaitStateIndex[i]? = some state →
      l.suspOrder[state]? = some (.await i)) ∧
    (∀ (i : ℕ) (state : ℕ), l.chanStateIndex[i]? = some state →
      l.suspOrder[state]? = some (.chan i)) ∧
    ∀ {σ : Type} (acts : Actions σ) (others : ℕ → σ → σ) (x : σ) (n : ℕ), ∃ state,
      l.machine acts body others x n = some ((source acts source₀ others x n).1, state) ∧
      l.StandsAt body (source acts source₀ others x n).2 state := by
  intro body l
  refine ⟨flattened_flatten source₀, exists_pieces body, ?_, ?_, ?_, ?_, ?_, ?_⟩
  · simp [l, layout_eq, length_order]
  · intro k kind h
    exact suspOrder_entry body h
  · intro index s hs h
    exact suspOrder_of_waits hs h
  · intro i state h
    simp only [l, layout_eq] at h ⊢
    obtain ⟨k, hk, horder⟩ := order_of_awaitStates h 0 0
    simpa [hk] using horder
  · intro i state h
    simp only [l, layout_eq] at h ⊢
    obtain ⟨k, hk, horder⟩ := order_of_chanStates h 0 0
    simpa [hk] using horder
  · intro σ acts others x n
    obtain ⟨hmachine, hvalid⟩ := machine_eq_flatRun acts body others x n
    obtain ⟨hstate, hstands⟩ := source_eq acts source₀ others x n
    rw [hstate]
    exact ⟨_, hmachine, hstands.standsAt hvalid⟩

end Neutron.AsyncSegments
