import Mathlib.Data.List.Basic
import Mathlib.Logic.Relation
import Mathlib.Tactic.Common

/-!
# Reading lines from a socket

`net.recv_line` accumulates windows of 512 peeked bytes until it took a newline or the stream ended.
`net.recv_line_async` takes a line only when its newline is in the first window, and otherwise waits for
more bytes or the end. Lines are kept as bytes; both functions decode them alike.
-/

namespace Neutron.Net

/-- The receiving end of a TCP stream: what arrived and was not read, and what is still to come before the
end. When the end is visible nothing is to come. -/
structure Stream where
  queued : List UInt8
  coming : Option (List (List UInt8))

def opened (arrivals : List (List UInt8)) : Stream := ⟨[], some arrivals⟩

/-- More bytes, or the end, become visible. -/
inductive Arrives : Stream → Stream → Prop
  | bytes (q a : List UInt8) (rest : List (List UInt8)) : Arrives ⟨q, some (a :: rest)⟩ ⟨q ++ a, some rest⟩
  | finish (q : List UInt8) : Arrives ⟨q, some []⟩ ⟨q, none⟩

def newline : UInt8 := 10

/-- A window of what is visible. Nothing is visible before the first byte or the end. -/
def Stream.peek (s : Stream) : Option (List UInt8) :=
  if s.queued ≠ [] then some (s.queued.take 512) else if s.coming = none then some [] else none

/-- `read_exact`, of bytes that were peeked. -/
def Stream.consume (s : Stream) (n : ℕ) : Stream := { s with queued := s.queued.drop n }

inductive Turn where
  | blocked
  | line (bytes : List UInt8) (s : Stream)
  | again (bytes : List UInt8) (s : Stream)

/-- One round of the loop of `ntsc_net_recv_line`. -/
def recvLineTurn (s : Stream) (bytes : List UInt8) : Turn :=
  match s.peek with
  | none => .blocked
  | some [] => .line bytes s
  | some chunk =>
    let upto := ((chunk.findIdx? (· == newline)).map (· + 1)).getD chunk.length
    let taken := chunk.take upto
    if taken.getLast? = some newline then .line (bytes ++ taken) (s.consume upto)
    else .again (bytes ++ taken) (s.consume upto)

/-- Nothing, when no whole line is in the window. -/
def tryRecvLine (s : Stream) : Option (List UInt8 × Stream) :=
  match s.peek with
  | none => none
  | some [] => some ([], s)
  | some chunk =>
    match chunk.findIdx? (· == newline) with
    | none => none
    | some index => some (chunk.take (index + 1), s.consume (index + 1))

/-- A call of `recv_line` with the bytes it took so far. Arrivals may become visible before every round. -/
inductive Receives : Stream → List UInt8 → List UInt8 → Stream → Prop
  | arrives {s s' t : Stream} {bytes l : List UInt8} (h : Arrives s s') (hrest : Receives s' bytes l t) :
      Receives s bytes l t
  | line {s t : Stream} {bytes l : List UInt8} (h : recvLineTurn s bytes = .line l t) : Receives s bytes l t
  | again {s s' t : Stream} {bytes more l : List UInt8} (h : recvLineTurn s bytes = .again more s')
      (hrest : Receives s' more l t) : Receives s bytes l t

/-- An awaited `recv_line_async`. It is polled again whenever something becomes visible; after the end
nothing does, and a call that is still pending never completes. -/
inductive Awaits : Stream → Option (List UInt8) → Stream → Prop
  | arrives {s s' t : Stream} {l : Option (List UInt8)} (h : Arrives s s') (hrest : Awaits s' l t) : Awaits s l t
  | line {s t : Stream} {l : List UInt8} (h : tryRecvLine s = some (l, t)) : Awaits s (some l) t
  | hangs {s : Stream} (h : tryRecvLine s = none) (hend : s.coming = none) : Awaits s none s

/-- Calls of `recv_line` one after another. -/
inductive ReceivesAll : Stream → List (List UInt8) → Prop
  | nil (s : Stream) : ReceivesAll s []
  | cons {s t : Stream} {l : List UInt8} {ls : List (List UInt8)} (h : Receives s [] l t) (hrest : ReceivesAll t ls) :
      ReceivesAll s (l :: ls)

/-- Awaited calls one after another. Nothing comes after one that hangs. -/
inductive AwaitsAll : Stream → List (Option (List UInt8)) → Prop
  | nil (s : Stream) : AwaitsAll s []
  | cons {s t : Stream} {l : List UInt8} {ls : List (Option (List UInt8))} (h : Awaits s (some l) t)
      (hrest : AwaitsAll t ls) : AwaitsAll s (some l :: ls)
  | hangs {s t : Stream} (h : Awaits s none t) : AwaitsAll s [none]

/-! ## Lines of a byte sequence -/

/-- Up to and including the first newline, or everything. -/
def firstLine : List UInt8 → List UInt8
  | [] => []
  | b :: rest => if b = newline then [b] else b :: firstLine rest

def afterLine : List UInt8 → List UInt8
  | [] => []
  | b :: rest => if b = newline then rest else afterLine rest

/-- What `n` calls give: the lines, then empty texts. -/
def lines : ℕ → List UInt8 → List (List UInt8)
  | 0, _ => []
  | n + 1, bytes => firstLine bytes :: lines n (afterLine bytes)

/-- Every line ends with a newline within one window. -/
inductive Framed : List UInt8 → Prop
  | nil : Framed []
  | line (front rest : List UInt8) (hfront : newline ∉ front) (hshort : front.length < 512) (hrest : Framed rest) :
      Framed (front ++ newline :: rest)

variable {front rest bytes : List UInt8} {s t : Stream}

theorem length_lines (n : ℕ) (bytes : List UInt8) : (lines n bytes).length = n := by
  induction n generalizing bytes with
  | zero => rfl
  | succ n ih => rw [lines, List.length_cons, ih]

theorem firstLine_append (h : newline ∉ front) : firstLine (front ++ rest) = front ++ firstLine rest := by
  induction front with
  | nil => rfl
  | cons b front ih =>
    rw [List.mem_cons, not_or] at h
    rw [List.cons_append, firstLine, if_neg (Ne.symm h.1), ih h.2]
    rfl

theorem afterLine_append (h : newline ∉ front) : afterLine (front ++ rest) = afterLine rest := by
  induction front with
  | nil => rfl
  | cons b front ih =>
    rw [List.mem_cons, not_or] at h
    rw [List.cons_append, afterLine, if_neg (Ne.symm h.1), ih h.2]

theorem firstLine_newline (h : newline ∉ front) : firstLine (front ++ newline :: rest) = front ++ [newline] := by
  rw [firstLine_append h, firstLine, if_pos rfl]

theorem afterLine_newline (h : newline ∉ front) : afterLine (front ++ newline :: rest) = rest := by
  rw [afterLine_append h, afterLine, if_pos rfl]

/-- A window without a newline, or with a first one. -/
theorem findIdx?_newline (chunk : List UInt8) :
    (chunk.findIdx? (· == newline) = none ∧ newline ∉ chunk) ∨
      ∃ front rest, chunk = front ++ newline :: rest ∧ newline ∉ front ∧
        chunk.findIdx? (· == newline) = some front.length := by
  induction chunk with
  | nil => exact .inl ⟨rfl, List.not_mem_nil⟩
  | cons b chunk ih =>
    rw [List.findIdx?_cons]
    by_cases hb : b = newline
    · exact .inr ⟨[], chunk, by rw [hb]; rfl, List.not_mem_nil, by rw [hb]; rfl⟩
    · rw [if_neg (by simpa using hb)]
      rcases ih with ⟨hnone, hnot⟩ | ⟨front, rest, rfl, hfront, hsome⟩
      · refine .inl ⟨by rw [hnone]; rfl, fun hmem => ?_⟩
        rcases List.mem_cons.mp hmem with heq | hmem
        · exact hb heq.symm
        · exact hnot hmem
      · refine .inr ⟨b :: front, rest, rfl, fun hmem => ?_, by rw [hsome]; rfl⟩
        rcases List.mem_cons.mp hmem with heq | hmem
        · exact hb heq.symm
        · exact hfront hmem

/-! ## One call -/

/-- What a reader will still see. -/
def Stream.unread (s : Stream) : List UInt8 := s.queued ++ (s.coming.getD []).flatten

theorem Arrives.unread_eq (h : Arrives s t) : t.unread = s.unread := by
  cases h with
  | bytes q a rest => exact List.append_assoc q a rest.flatten
  | finish q => rfl

theorem peek_eq_some_nil (h : s.peek = some []) : s.unread = [] := by
  rw [Stream.peek] at h
  split at h
  · rename_i hne
    exact absurd (List.take_eq_nil_iff.mp (Option.some.inj h)) (by simp [hne])
  · split at h
    · rename_i hq hend
      rw [Stream.unread, hend, not_not.mp hq]
      rfl
    · exact absurd h (by simp)

/-- A window is the beginning of what will be seen; what is taken of it is gone. -/
theorem peek_eq_some_cons {b : UInt8} {chunk : List UInt8} (h : s.peek = some (b :: chunk)) :
    b :: chunk = s.queued.take 512 ∧
      ∃ after, s.unread = b :: chunk ++ after ∧
        ∀ front rest, b :: chunk = front ++ rest → (s.consume front.length).unread = rest ++ after := by
  have hchunk : b :: chunk = s.queued.take 512 := by
    rw [Stream.peek] at h
    split at h
    · exact (Option.some.inj h).symm
    · split at h
      · exact absurd h (by simp)
      · exact absurd h (by simp)
  refine ⟨hchunk, s.queued.drop 512 ++ (s.coming.getD []).flatten, ?_, fun front rest hsplit => ?_⟩
  · rw [hchunk, ← List.append_assoc, List.take_append_drop]
    rfl
  · have hqueued : s.queued = front ++ (rest ++ s.queued.drop 512) := by
      rw [← List.append_assoc, ← hsplit, hchunk, List.take_append_drop]
    rw [Stream.unread, Stream.consume]
    dsimp only
    rw [← List.append_assoc]
    congr 1
    conv_lhs => rw [hqueued]
    exact List.drop_left ..

/-- A round waits, ends the line, or takes bytes without a line feed. -/
theorem recvLineTurn_spec (s : Stream) (bytes : List UInt8) : recvLineTurn s bytes = .blocked ∨
    (∃ t, recvLineTurn s bytes = .line (bytes ++ firstLine s.unread) t ∧ t.unread = afterLine s.unread) ∨
    ∃ taken t, recvLineTurn s bytes = .again (bytes ++ taken) t ∧ t.coming = s.coming ∧ taken ≠ [] ∧
      newline ∉ taken ∧ s.unread = taken ++ t.unread := by
  rw [recvLineTurn]
  cases hpeek : s.peek with
  | none => exact .inl rfl
  | some chunk =>
    rcases chunk with _ | ⟨b, chunk⟩
    · rw [peek_eq_some_nil hpeek]
      exact .inr (.inl ⟨s, congrArg (Turn.line · s) (List.append_nil bytes).symm, peek_eq_some_nil hpeek⟩)
    · obtain ⟨-, after, hunread, hconsume⟩ := peek_eq_some_cons hpeek
      dsimp only
      rcases findIdx?_newline (b :: chunk) with ⟨hnone, hnot⟩ | ⟨front, rest, hsplit, hfront, hsome⟩
      · rw [hnone, Option.map_none, Option.getD_none, List.take_length,
          if_neg fun hlast => hnot (List.mem_of_getLast? hlast)]
        refine .inr (.inr ⟨b :: chunk, _, rfl, rfl, List.cons_ne_nil b chunk, hnot, ?_⟩)
        rw [hconsume _ [] (List.append_nil _).symm, hunread]
        rfl
      · rw [hsome, Option.map_some, Option.getD_some]
        have hcons : b :: chunk = (front ++ [newline]) ++ rest := by rw [hsplit, List.append_assoc]; rfl
        have hlength : front.length + 1 = (front ++ [newline]).length := by rw [List.length_append]; rfl
        rw [hlength, hcons, List.take_left, List.getLast?_concat, if_pos rfl]
        have hwhole : s.unread = front ++ newline :: (rest ++ after) := by
          rw [hunread, hsplit, List.append_assoc]
          rfl
        rw [hwhole, firstLine_newline hfront, afterLine_newline hfront]
        exact .inr (.inl ⟨_, rfl, hconsume _ _ hcons⟩)

theorem recvLineTurn_line {l : List UInt8} (h : recvLineTurn s bytes = .line l t) :
    l = bytes ++ firstLine s.unread ∧ t.unread = afterLine s.unread := by
  obtain hspec | ⟨t', hspec, hunread⟩ | ⟨taken, t', hspec, -⟩ := recvLineTurn_spec s bytes
  all_goals cases hspec.symm.trans h
  exact ⟨rfl, hunread⟩

theorem recvLineTurn_again {more : List UInt8} (h : recvLineTurn s bytes = .again more t) :
    t.coming = s.coming ∧
      ∃ taken, taken ≠ [] ∧ newline ∉ taken ∧ more = bytes ++ taken ∧ s.unread = taken ++ t.unread := by
  obtain hspec | ⟨t', hspec, -⟩ | ⟨taken, t', hspec, hcoming, hne, hnot, hunread⟩ := recvLineTurn_spec s bytes
  all_goals cases hspec.symm.trans h
  exact ⟨hcoming, taken, hne, hnot, rfl, hunread⟩

/-- A call takes the first line of what will be seen, however it arrives. -/
theorem Receives.takes {l : List UInt8} (h : Receives s bytes l t) :
    l = bytes ++ firstLine s.unread ∧ t.unread = afterLine s.unread := by
  induction h with
  | arrives harrives _ ih =>
    rw [← harrives.unread_eq]
    exact ih
  | line hturn => exact recvLineTurn_line hturn
  | again hturn _ ih =>
    obtain ⟨-, taken, -, hnot, rfl, hunread⟩ := recvLineTurn_again hturn
    rw [hunread, firstLine_append hnot, afterLine_append hnot, ← List.append_assoc]
    exact ih

/-! ## Every byte visible -/

theorem unread_ended (q : List UInt8) : Stream.unread ⟨q, none⟩ = q := List.append_nil q

/-- Everything arrives in the end. -/
theorem arrives_all (s : Stream) : Relation.ReflTransGen Arrives s ⟨s.unread, none⟩ := by
  rcases s with ⟨q, _ | arrivals⟩
  · rw [unread_ended]
  · induction arrivals generalizing q with
    | nil =>
      rw [← Arrives.unread_eq (.finish q), unread_ended]
      exact .single (.finish q)
    | cons a rest ih =>
      have hrest := ih (q ++ a)
      rw [Arrives.unread_eq (.bytes q a rest)] at hrest
      exact .head (.bytes q a rest) hrest

theorem Receives.of_arrives (h : Relation.ReflTransGen Arrives s t) {l : List UInt8} {u : Stream}
    (hcall : Receives t bytes l u) : Receives s bytes l u := by
  induction h using Relation.ReflTransGen.head_induction_on with
  | refl => exact hcall
  | head hstep _ ih => exact .arrives hstep ih

theorem Awaits.of_arrives (h : Relation.ReflTransGen Arrives s t) {l : Option (List UInt8)} {u : Stream}
    (hcall : Awaits t l u) : Awaits s l u := by
  induction h using Relation.ReflTransGen.head_induction_on with
  | refl => exact hcall
  | head hstep _ ih => exact .arrives hstep ih

theorem peek_ended (q : List UInt8) : Stream.peek ⟨q, none⟩ = some (q.take 512) := by
  rw [Stream.peek]
  by_cases hq : q = []
  · rw [if_neg (not_not.mpr hq), if_pos rfl, hq]
    rfl
  · rw [if_pos hq]

theorem recvLineTurn_ended (hend : s.coming = none) (bytes : List UInt8) : recvLineTurn s bytes ≠ .blocked := by
  obtain ⟨q, coming⟩ := s
  obtain rfl : coming = none := hend
  rw [recvLineTurn, peek_ended]
  split
  · rename_i hpeek
    exact absurd hpeek (by simp)
  · exact fun h => Turn.noConfusion h
  · dsimp only
    split
    · exact fun h => Turn.noConfusion h
    · exact fun h => Turn.noConfusion h

/-- A call of `recv_line` yields. -/
theorem receives_total (s : Stream) (bytes : List UInt8) : ∃ l t, Receives s bytes l t := by
  suffices hvisible : ∀ n (s : Stream) bytes, s.coming = none → s.unread.length = n → ∃ l t, Receives s bytes l t by
    obtain ⟨l, t, hcall⟩ := hvisible _ ⟨s.unread, none⟩ bytes rfl rfl
    exact ⟨l, t, .of_arrives (arrives_all s) hcall⟩
  intro n
  induction n using Nat.strongRecOn with
  | _ n ih =>
    intro s bytes hend hn
    cases hturn : recvLineTurn s bytes with
    | blocked => exact absurd hturn (recvLineTurn_ended hend bytes)
    | line l t => exact ⟨l, t, .line hturn⟩
    | again more t =>
      obtain ⟨hcoming, taken, hne, -, -, hunread⟩ := recvLineTurn_again hturn
      have hpos := List.length_pos_of_ne_nil hne
      have hlength : s.unread.length = taken.length + t.unread.length := by rw [hunread, List.length_append]
      obtain ⟨l, u, hrest⟩ := ih t.unread.length (by omega) t more (hcoming.trans hend) rfl
      exact ⟨l, u, .again hturn hrest⟩

/-! ## An awaited call -/

theorem tryRecvLine_some {l : List UInt8} (h : tryRecvLine s = some (l, t)) :
    (s.unread = [] ∧ l = [] ∧ t.unread = []) ∨
      ∃ front rest, s.unread = front ++ newline :: rest ∧ newline ∉ front ∧ front.length < 512 ∧
        l = front ++ [newline] ∧ t.unread = rest := by
  rw [tryRecvLine] at h
  split at h
  · exact absurd h (by simp)
  · rename_i hpeek
    injection h with h
    injection h with hl ht
    exact .inl ⟨peek_eq_some_nil hpeek, hl.symm, ht ▸ peek_eq_some_nil hpeek⟩
  · rename_i chunk hne hpeek
    rcases chunk with _ | ⟨b, chunk⟩
    · exact absurd rfl hne
    · obtain ⟨hchunk, after, hunread, hconsume⟩ := peek_eq_some_cons hpeek
      rcases findIdx?_newline (b :: chunk) with ⟨hnone, -⟩ | ⟨front, rest, hsplit, hfront, hsome⟩
      · rw [hnone] at h
        exact absurd h (by simp)
      · rw [hsome] at h
        injection h with h
        injection h with hl ht
        have hcons : b :: chunk = (front ++ [newline]) ++ rest := by rw [hsplit, List.append_assoc]; rfl
        have hlength : front.length + 1 = (front ++ [newline]).length := by rw [List.length_append]; rfl
        have hwindow : (b :: chunk).length ≤ 512 := by
          rw [hchunk]
          exact List.length_take_le 512 s.queued
        rw [hlength, hcons, List.take_left] at hl
        rw [hlength] at ht
        refine .inr ⟨front, rest ++ after, ?_, hfront, ?_, hl.symm, ?_⟩
        · rw [hunread, hsplit, List.append_assoc]
          rfl
        · rw [hcons, List.length_append, ← hlength] at hwindow
          omega
        · rw [← ht, hconsume _ _ hcons]

/-- A poll that finds nothing although the end is visible: bytes are left, and no newline in the window. -/
theorem tryRecvLine_none (h : tryRecvLine s = none) (hend : s.coming = none) :
    s.unread ≠ [] ∧ newline ∉ s.unread.take 512 := by
  obtain ⟨q, coming⟩ := s
  obtain rfl : coming = none := hend
  rw [unread_ended]
  rw [tryRecvLine, peek_ended] at h
  split at h
  · rename_i hpeek
    exact absurd hpeek (by simp)
  · exact absurd h (by simp)
  · rename_i chunk hne hpeek
    obtain rfl := Option.some.inj hpeek
    refine ⟨fun hq => hne (by rw [hq]; rfl), fun hmem => ?_⟩
    split at h
    · rename_i hnone
      rcases findIdx?_newline (q.take 512) with ⟨-, hnot⟩ | ⟨front, rest, -, -, hsome⟩
      · exact hnot hmem
      · exact absurd (hnone.symm.trans hsome) (by simp)
    · exact absurd h (by simp)

theorem Framed.head (h : Framed bytes) (hne : bytes ≠ []) : newline ∈ bytes.take 512 := by
  cases h with
  | nil => exact absurd rfl hne
  | line front rest _ hshort _ =>
    obtain ⟨k, hk⟩ := Nat.exists_eq_add_of_lt hshort
    rw [hk, List.take_append, show front.length + k + 1 - front.length = k + 1 by omega, List.take_succ_cons]
    exact List.mem_append_right _ List.mem_cons_self

theorem framed_afterLine (h : Framed bytes) : Framed (afterLine bytes) := by
  cases h with
  | nil => exact .nil
  | line front rest hfront _ hrest =>
    rw [afterLine_newline hfront]
    exact hrest

/-- With every line within a window, an awaited call takes the first line. -/
theorem Awaits.takes {l : Option (List UInt8)} (h : Awaits s l t) (hframed : Framed s.unread) :
    l = some (firstLine s.unread) ∧ t.unread = afterLine s.unread := by
  induction h with
  | arrives harrives _ ih =>
    rw [← harrives.unread_eq]
    exact ih (harrives.unread_eq ▸ hframed)
  | line hline =>
    rcases tryRecvLine_some hline with ⟨hnil, rfl, hafter⟩ | ⟨front, rest, hunread, hfront, -, rfl, hafter⟩
    · rw [hnil, hafter]
      exact ⟨rfl, rfl⟩
    · rw [hunread, firstLine_newline hfront, afterLine_newline hfront, hafter]
      exact ⟨rfl, rfl⟩
  | hangs hnone hend =>
    obtain ⟨hne, hnot⟩ := tryRecvLine_none hnone hend
    exact absurd (hframed.head hne) hnot

theorem awaits_total (s : Stream) : ∃ l t, Awaits s l t := by
  cases hpoll : tryRecvLine ⟨s.unread, none⟩ with
  | none => exact ⟨none, _, .of_arrives (arrives_all s) (.hangs hpoll rfl)⟩
  | some r => exact ⟨some r.1, r.2, .of_arrives (arrives_all s) (.line hpoll)⟩

/-! ## Calls one after another -/

theorem ReceivesAll.eq_lines {ls : List (List UInt8)} (h : ReceivesAll s ls) : ls = lines ls.length s.unread := by
  induction h with
  | nil s => rfl
  | cons hcall _ ih =>
    obtain ⟨hline, hafter⟩ := hcall.takes
    rw [List.length_cons, lines, ← hafter, ← ih, hline]
    rfl

theorem receivesAll_total (n : ℕ) (s : Stream) : ReceivesAll s (lines n s.unread) := by
  induction n generalizing s with
  | zero => exact .nil s
  | succ n ih =>
    obtain ⟨l, t, hcall⟩ := receives_total s []
    obtain ⟨hline, hafter⟩ := hcall.takes
    rw [lines, ← hafter, ← (show l = firstLine s.unread from hline)]
    exact .cons hcall (ih t)

theorem AwaitsAll.eq_lines {ls : List (Option (List UInt8))} (h : AwaitsAll s ls) (hframed : Framed s.unread) :
    ls = (lines ls.length s.unread).map some := by
  induction h with
  | nil s => rfl
  | cons hcall _ ih =>
    obtain ⟨hline, hafter⟩ := hcall.takes hframed
    rw [List.length_cons, lines, List.map_cons, ← hline, ← hafter, ← ih (hafter ▸ framed_afterLine hframed)]
  | hangs hcall => exact absurd (hcall.takes hframed).1 (by simp)

theorem awaitsAll_total (n : ℕ) (s : Stream) (hframed : Framed s.unread) :
    AwaitsAll s ((lines n s.unread).map some) := by
  induction n generalizing s with
  | zero => exact .nil s
  | succ n ih =>
    obtain ⟨l, t, hcall⟩ := awaits_total s
    obtain ⟨rfl, hafter⟩ := hcall.takes hframed
    rw [lines, List.map_cons, ← hafter]
    exact .cons hcall (ih t (hafter ▸ framed_afterLine hframed))

/-- A stream with a line beyond a window, or an unterminated one, makes some call hang. -/
theorem awaitsAll_hangs (s : Stream) (hframed : ¬ Framed s.unread) : ∃ ls, AwaitsAll s ls ∧ none ∈ ls := by
  suffices hlength : ∀ n (s : Stream), ¬ Framed s.unread → s.unread.length = n → ∃ ls, AwaitsAll s ls ∧ none ∈ ls from
    hlength _ s hframed rfl
  intro n
  induction n using Nat.strongRecOn with
  | _ n ih =>
    intro s hframed hn
    cases hpoll : tryRecvLine ⟨s.unread, none⟩ with
    | none => exact ⟨[none], .hangs (.of_arrives (arrives_all s) (.hangs hpoll rfl)), List.mem_cons_self⟩
    | some r =>
      obtain ⟨l, t⟩ := r
      have hcall : Awaits s (some l) t := .of_arrives (arrives_all s) (.line hpoll)
      rcases tryRecvLine_some hpoll with ⟨hnil, -, -⟩ | ⟨front, rest, hunread, hfront, hshort, -, hafter⟩
      · rw [unread_ended] at hnil
        exact absurd (hnil ▸ Framed.nil) hframed
      · rw [unread_ended] at hunread
        have hrest : ¬ Framed t.unread := fun h => hframed (hunread ▸ .line front rest hfront hshort (hafter ▸ h))
        have hless : t.unread.length < n := by
          rw [← hn, hunread, hafter, List.length_append, List.length_cons]
          omega
        obtain ⟨ls, hall, hmem⟩ := ih _ hless t hrest rfl
        exact ⟨some l :: ls, .cons hcall hall, List.mem_cons_of_mem _ hmem⟩

/-- However the bytes arrive, any number of blocking and of awaited calls yield the same lines: whole lines
with their newlines, an unterminated one before the empty text. -/
def Agree (arrivals : List (List UInt8)) : Prop :=
  ∀ n, ∃ ls, ls = lines n arrivals.flatten ∧
    (ReceivesAll (opened arrivals) ls ∧ ∀ ls', ReceivesAll (opened arrivals) ls' → ls'.length = n → ls' = ls) ∧
    (AwaitsAll (opened arrivals) (ls.map some) ∧
      ∀ ls', AwaitsAll (opened arrivals) ls' → ls'.length = n → ls' = ls.map some)

/-- Blocking and awaited reads agree if and only if every line ends with a newline within 512 bytes. -/
theorem recvLine_agree_iff (arrivals : List (List UInt8)) : Agree arrivals ↔ Framed arrivals.flatten := by
  constructor
  · intro hagree
    by_contra hframed
    obtain ⟨ls, hall, hmem⟩ := awaitsAll_hangs (opened arrivals) hframed
    obtain ⟨ls', -, -, -, hunique⟩ := hagree ls.length
    rw [hunique ls hall rfl] at hmem
    obtain ⟨l, -, hl⟩ := List.mem_map.mp hmem
    exact absurd hl (by simp)
  · intro hframed n
    refine ⟨_, rfl, ⟨receivesAll_total n _, ?_⟩, awaitsAll_total n _ hframed, ?_⟩
    · rintro ls' hall rfl
      exact hall.eq_lines
    · rintro ls' hall rfl
      exact hall.eq_lines hframed

/-- A single byte and the end: `recv_line` gives the byte, the awaited call never completes. -/
theorem recvLine_disagree : ¬ ∀ arrivals, Agree arrivals := by
  intro h
  obtain ⟨ls, rfl, -, -, hunique⟩ := h [[65]] 1
  have hhangs : AwaitsAll (opened [[65]]) [none] :=
    .hangs (.of_arrives (arrives_all (opened [[65]])) (.hangs (by decide) rfl))
  exact absurd (hunique _ hhangs rfl) (by decide)

end Neutron.Net
