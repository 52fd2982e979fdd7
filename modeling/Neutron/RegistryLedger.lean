import Neutron.RegistryWindows

/-!
# What registry operations can do to the table

Apart from the insertions of permanent entries and of wrappers around scheduler cores,
every registry operation is a sequence of the few effects listed in `Reaches`: a draw of
the id counter, an insertion under a drawn id, a removal with its counter update, an
update in place, and the exchange of an opaque value. A removal that leaves the capability
generation alone is never the removal of a capability. An invariant of the registry is
proved once per effect, and an operation once by saying which effects it has. `P`
restricts the ids that are removed.
-/

namespace Neutron.Registry

/-- The updates in place: they keep the kind, and the core of a channel. -/
inductive Updates : Handle → Handle → Prop
  | array (a b : ArrayData) : Updates (.array a) (.array b)
  | shared (a b : SharedData) : Updates (.shared a) (.shared b)
  | chan (core : Int) (m n : ℕ) : Updates (.chan core m) (.chan core n)

inductive Reaches (P : Int → Prop) (r : Registry) : Registry → Prop
  | refl : Reaches P r r
  | draw {r' : Registry} (h : Reaches P r r') : Reaches P r r'.nextId.1
  | insert {r' : Registry} (h : Reaches P r r') (hd : Handle) (hplain : hd.core? = none) :
      Reaches P r (r'.insert hd).1
  | retire {r' : Registry} {id : Int} {hd : Handle} (h : Reaches P r r') (hp : P id)
      (hl : r'.lookup id = some hd) (generation : ℕ)
      (hg : generation = r'.generation + 1 ∨ generation = r'.generation ∧ ∀ m, hd ≠ .memory m) :
      Reaches P r { r'.retire id with generation := generation }
  | modify {r' : Registry} {id : Int} {hd : Handle} (h : Reaches P r r') (hl : r'.lookup id = some hd)
      (f : Handle → Handle) (hf : Updates hd (f hd)) : Reaches P r (r'.modify id f)
  | exchange {r' : Registry} {id : Int} {t : ℕ} {payload : Int} (h : Reaches P r r')
      (ho : r'.lookup id = some (.opaqueValue t payload)) (value : Int) :
      Reaches P r ((r'.discard id).store id (.opaqueValue t value))
  | frame {r' : Registry} (h : Reaches P r r') (sites : IdMap (Int × Int)) (regions : List (List UInt8)) :
      Reaches P r { r' with leakSites := sites, regions := regions }

variable {P Q : Int → Prop} {r r' r'' : Registry}

theorem Reaches.trans (h : Reaches P r r') (h' : Reaches P r' r'') : Reaches P r r'' := by
  induction h' with
  | refl => exact h
  | draw _ ih => exact ih.draw
  | insert _ hd hplain ih => exact ih.insert hd hplain
  | retire _ hp hl g hg ih => exact ih.retire hp hl g hg
  | modify _ hl f hf ih => exact ih.modify hl f hf
  | exchange _ ho value ih => exact ih.exchange ho value
  | frame _ sites regions ih => exact ih.frame sites regions

theorem issued_insertReserved (id : Int) (hd : Handle) : (r.insertReserved id hd).issued = r.issued := by
  unfold insertReserved
  split <;> rfl

theorem Reaches.issued_le (h : Reaches P r r') : r.issued ≤ r'.issued := by
  induction h with
  | refl => exact le_rfl
  | draw _ ih => exact ih.trans (Nat.le_succ _)
  | insert _ hd hplain ih => exact ih.trans (Nat.le_succ _)
  | retire _ hp hl g hg ih => exact ih
  | modify _ hl f hf ih => exact ih
  | exchange _ ho value ih => exact ih
  | frame _ sites regions ih => exact ih

/-! ## Counters and shards -/

/-- The counters agree with the table, entries sit in their own shards, and every
entry's id came from the counter. -/
structure Balanced (r : Registry) : Prop where
  counters : r.live + r.permanent = r.entryCount
  placed : r.Placed
  issued : ∀ id, r.lookup id ≠ none → ∃ n < r.issued, id = drawn n

theorem balanced_empty : Registry.empty.Balanced :=
  ⟨(congrArg Nat.cast entryCount_empty).symm, placed_empty, fun _ hid => absurd rfl hid⟩

theorem Balanced.fresh (h : r.Balanced) (hi : r.issued < 2 ^ 64 - 1) : r.lookup (drawn r.issued) = none := by
  by_contra hne
  obtain ⟨n, hn, heq⟩ := h.issued _ hne
  have := drawn_injective hi (hn.trans hi) heq
  omega

theorem Balanced.lookup_null (h : r.Balanced) (hi : r.issued < 2 ^ 64) : r.lookup null = none := by
  by_contra hne
  obtain ⟨n, hn, heq⟩ := h.issued null hne
  have hlt : n < 2 ^ 64 - 1 := by omega
  exact drawn_ne_null hlt heq.symm

theorem lookup_congr (hs : r'.shards = r.shards) (id : Int) : r'.lookup id = r.lookup id := by
  rw [lookup, hs, lookup]

theorem total_congr_shards (hs : r'.shards = r.shards) (f : Int → Handle → ℕ) : r'.total f = r.total f := by
  rw [total, hs, total]

theorem entryCount_congr (hs : r'.shards = r.shards) : r'.entryCount = r.entryCount := by
  rw [entryCount, hs, entryCount]

theorem shards_insert (hd : Handle) : (r.insert hd).1.shards = (r.store (drawn r.issued) hd).shards := by
  simp only [Registry.insert, insertLocked, nextId, store, setShard]

theorem shards_insertPermanent (hd : Handle) :
    (r.insertPermanent hd).1.shards = (r.store (drawn r.issued) hd).shards := by
  simp only [insertPermanent, nextId, store, setShard]

/-- The balance only depends on the table, the sum of the counters and the draws. -/
theorem Balanced.of_shards {n : ℕ} (hs : r'.shards = r.shards) (hi : r'.issued = n) (hp : r.Placed)
    (hid : ∀ id, r.lookup id ≠ none → ∃ m < n, id = drawn m)
    (hc : r'.live + r'.permanent = r.entryCount) : r'.Balanced := by
  refine ⟨?_, ?_, fun id hl => ?_⟩
  · rw [hc, entryCount_congr hs]
  · intro i id hm
    rw [hs] at hm
    exact hp i id hm
  · rw [lookup_congr hs] at hl
    rw [hi]
    exact hid id hl

theorem entryCount_store_new {id : Int} (hd : Handle) (hn : r.lookup id = none) :
    (r.store id hd).entryCount = r.entryCount + 1 := by
  rw [entryCount_eq_total, entryCount_eq_total, total_store hd hn]

theorem entryCount_store_old {id : Int} (hd : Handle) (hn : r.lookup id ≠ none) :
    (r.store id hd).entryCount = r.entryCount := by
  obtain ⟨old, ho⟩ := Option.ne_none_iff_exists'.mp hn
  have := total_store_replace (f := fun _ _ => 1) hd ho
  rw [entryCount_eq_total, entryCount_eq_total]
  omega

theorem entryCount_discard {id : Int} (hn : r.lookup id ≠ none) :
    (r.discard id).entryCount + 1 = r.entryCount := by
  obtain ⟨old, ho⟩ := Option.ne_none_iff_exists'.mp hn
  have := total_discard (f := fun _ _ => 1) ho
  rw [entryCount_eq_total, entryCount_eq_total]
  omega

theorem entryCount_modify (id : Int) (f : Handle → Handle) : (r.modify id f).entryCount = r.entryCount := by
  cases hl : r.lookup id with
  | none => rw [modify_of_lookup_none f hl]
  | some hd =>
    have := total_modify (f := fun _ _ => 1) f hl
    rw [entryCount_eq_total, entryCount_eq_total]
    omega

theorem Balanced.store_new {id : Int} (h : r.Balanced) (hi : r.issued < 2 ^ 64 - 1) (hd : Handle)
    (hid : id = drawn r.issued) :
    (r.store id hd).entryCount = r.entryCount + 1 ∧ (r.store id hd).Placed ∧
      ∀ k, (r.store id hd).lookup k ≠ none → ∃ n < r.issued + 1, k = drawn n := by
  refine ⟨entryCount_store_new hd (hid ▸ h.fresh hi), h.placed.store id hd, fun k hk => ?_⟩
  rw [lookup_store] at hk
  split at hk
  · rename_i heq
    exact ⟨r.issued, Nat.lt_succ_self _, heq.trans hid⟩
  · obtain ⟨n, hn, heq⟩ := h.issued k hk
    exact ⟨n, hn.trans (Nat.lt_succ_self _), heq⟩

theorem Balanced.insert (h : r.Balanced) (hi : r.issued + 1 < 2 ^ 64) (hd : Handle) :
    (r.insert hd).1.Balanced := by
  obtain ⟨hc, hp, hs⟩ := h.store_new (by omega) hd rfl
  refine Balanced.of_shards (shards_insert hd) rfl hp hs ?_
  change r.live + 1 + r.permanent = _
  rw [hc, Nat.cast_succ, ← h.counters]
  omega

/-- An entry under an id that was drawn before. -/
theorem Balanced.insertReserved {id : Int} (h : r.Balanced) (hid : ∃ n < r.issued, id = drawn n)
    (hd : Handle) : (r.insertReserved id hd).Balanced := by
  have hissued : ∀ k, (r.store id hd).lookup k ≠ none → ∃ n < r.issued, k = drawn n := by
    intro k hk
    rw [lookup_store] at hk
    split at hk
    · rename_i heq
      exact heq ▸ hid
    · exact h.issued k hk
  have hplaced := h.placed.store id hd
  unfold Registry.insertReserved
  split
  · rename_i hn
    refine Balanced.of_shards (r := r.store id hd) rfl rfl hplaced hissued ?_
    change r.live + 1 + r.permanent = _
    rw [entryCount_store_new hd hn, Nat.cast_succ, ← h.counters]
    omega
  · rename_i hn
    refine Balanced.of_shards (r := r.store id hd) rfl rfl hplaced hissued ?_
    rw [entryCount_store_old hd hn]
    exact h.counters

/-- As long as fewer than `2 ^ 64` ids have been drawn, every effect keeps the balance. -/
theorem Reaches.balanced (h : Reaches P r r') (hb : r.Balanced) (hi : r'.issued < 2 ^ 64) : r'.Balanced := by
  induction h with
  | refl => exact hb
  | @draw r' _ ih =>
    have hi' : r'.issued + 1 < 2 ^ 64 := hi
    have h' := ih (by omega)
    refine Balanced.of_shards (r := r') rfl rfl h'.placed (fun id hid => ?_) h'.counters
    obtain ⟨n, hn, heq⟩ := h'.issued id hid
    exact ⟨n, hn.trans (Nat.lt_succ_self _), heq⟩
  | @insert r' _ hd hplain ih =>
    have hi' : r'.issued + 1 < 2 ^ 64 := hi
    exact (ih (by omega)).insert hi' hd
  | @retire r' id hd _ hp hl g hg ih =>
    have h' := ih hi
    have hc := h'.counters
    have hne : r'.lookup id ≠ none := by simp [hl]
    have he := entryCount_discard hne
    refine Balanced.of_shards (r := r'.discard id) rfl rfl (h'.placed.discard id) (fun k hk => ?_) ?_
    · rw [lookup_discard] at hk
      split at hk
      · exact absurd rfl hk
      · exact h'.issued k hk
    · change r'.live - 1 + r'.permanent = _
      omega
  | @modify r' id hd _ hl f hf ih =>
    have h' := ih hi
    refine ⟨?_, h'.placed.modify id f, fun k hk => ?_⟩
    · rw [entryCount_modify]
      exact h'.counters
    · rw [lookup_modify] at hk
      split at hk
      · exact h'.issued k (fun hn => hk (by rw [hn]; rfl))
      · exact h'.issued k hk
  | @exchange r' id t payload _ ho value ih =>
    have h' := ih hi
    have hne : r'.lookup id ≠ none := by simp [ho]
    have hgone : (r'.discard id).lookup id = none := by rw [lookup_discard, if_pos rfl]
    refine ⟨?_, (h'.placed.discard id).store id _, fun k hk => ?_⟩
    · rw [entryCount_store_new _ hgone, entryCount_discard hne]
      exact h'.counters
    · rw [lookup_store, lookup_discard] at hk
      by_cases hkid : k = id
      · exact hkid ▸ h'.issued id hne
      · rw [if_neg hkid, if_neg hkid] at hk
        exact h'.issued k hk
  | @frame r' _ sites regions ih =>
    have h' := ih hi
    exact Balanced.of_shards (r := r') rfl rfl h'.placed h'.issued h'.counters

theorem Balanced.insertPermanent (h : r.Balanced) (hi : r.issued + 1 < 2 ^ 64) (hd : Handle) :
    (r.insertPermanent hd).1.Balanced := by
  obtain ⟨hc, hp, hs⟩ := h.store_new (by omega) hd rfl
  refine Balanced.of_shards (shards_insertPermanent hd) rfl hp hs ?_
  change r.live + (r.permanent + 1) = _
  rw [hc, Nat.cast_succ, ← h.counters]
  omega

end Neutron.Registry
