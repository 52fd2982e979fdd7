import Neutron.Assignability

/-!
# Values read as another type

Where the relation is too wide: it goes into containers, pointers and parameters with the same rules as at the
head of the assigned value.
-/

namespace Neutron.Types

/-- A source that some of its outer views are taken off. -/
inductive Peels : Ty → Ty → Prop
  | refl (s : Ty) : Peels s s
  | view {s s₀ : Ty} (m : Bool) (h : Peels s s₀) : Peels (.view s m) s₀

theorem Peels.peel {s s₀ : Ty} {m : Bool} (h : Peels s (.view s₀ m)) : Peels s s₀ := by
  generalize hv : Ty.view s₀ m = v at h
  induction h with
  | refl =>
    subst hv
    exact .view m (.refl s₀)
  | view n _ ih => exact .view n (ih hv)

theorem Peels.anyFree {s s₀ : Ty} (h : Peels s s₀) (hs : s.anyFree = true) : s₀.anyFree = true := by
  induction h with
  | refl => exact hs
  | view m _ ih => exact ih hs

theorem Peels.optionDepth {s s₀ : Ty} (h : Peels s s₀) : s₀.optionDepth = s.optionDepth := by
  induction h with
  | refl => rfl
  | view m _ ih => exact ih

theorem Peels.sizeOf_le {s s₀ : Ty} (h : Peels s s₀) : sizeOf s₀ ≤ sizeOf s := by
  induction h with
  | refl => exact Nat.le_refl _
  | view m _ ih =>
    simp only [Ty.view.sizeOf_spec]
    omega

/-- A target that is neither a view nor an option reads through every view. -/
theorem Peels.accepted {t s s₀ : Ty} (h : Peels s s₀) (ht : t.anyFree = true) (hs : s.anyFree = true)
    (hview : t.isView = false) (hoption : ∀ a, t ≠ .option a) (hacc : t.isAssignableFrom s = true) :
    t.isAssignableFrom s₀ = true := by
  induction h with
  | refl => exact hacc
  | view m _ ih =>
    apply ih hs
    cases accepts_of ht hs hacc with
    | plain h => cases h
    | adopt _ hs _ => cases hs
    | wrap _ _ _ => exact (hoption _ rfl).elim
    | views => cases hview
    | lend _ hs _ _ => cases hs
    | readThrough _ _ h => exact h

theorem eq_of_mem_zip {ps qs : List Ty} (hlength : ps.length = qs.length)
    (h : ∀ p q, (p, q) ∈ ps.zip qs → p = q) : ps = qs := by
  induction ps generalizing qs with
  | nil => exact (List.length_eq_zero_iff.mp hlength.symm).symm
  | cons p ps ih =>
    cases qs with
    | nil => cases hlength
    | cons q qs =>
      rw [h p q (List.mem_cons_self ..),
        ih (Nat.succ.inj hlength) fun p' q' hpq => h p' q' (List.mem_cons_of_mem _ hpq)]

theorem Nowhere.oneWay {t s : Ty} (h : Nowhere Loose t s) : Nowhere OneWay t s :=
  h.mono fun _ _ _ hno honeWay => hno (.oneWay honeWay)

theorem Nowhere.converts {t s : Ty} (h : Nowhere Loose t s) : Nowhere (fun a b => a.converts b = true) t s :=
  h.mono fun _ _ _ hno hconverts => hno (.converted hconverts)

/-- An option that accepts an option under views accepts its payload, or has more options over one another. -/
theorem Peels.accepted_option {a s b : Ty} (h : Peels s (.option b)) (ha : (Ty.option a).anyFree = true)
    (hs : s.anyFree = true) (hacc : (Ty.option a).isAssignableFrom s = true) :
    a.isAssignableFrom b = true ∨ b.optionDepth < a.optionDepth := by
  generalize ho : Ty.option b = o at h
  induction h with
  | refl =>
    subst ho
    rw [Ty.isAssignableFrom] at hacc
    exact .inl hacc
  | @view s _ m h ih =>
    subst ho
    rw [Ty.isAssignableFrom, Bool.or_eq_true] at hacc
    rcases hacc with hacc | hacc
    · have hdepth := optionDepth_le (t := a) ha hs hacc
      have hpeeled := h.optionDepth
      simp only [Ty.optionDepth] at hdepth hpeeled
      exact .inr (by omega)
    · exact ih hs hacc rfl

theorem mutable_eq {m n : Bool} (hmut : m = true → n = true) (hno : m = false → n = true → False) : m = n := by
  cases m with
  | true => exact (hmut rfl).symm
  | false =>
    cases n with
    | true => exact (hno rfl rfl).elim
    | false => rfl

/-- Accepted and nowhere loose is the same. -/
theorem eq_of_nowhere_loose {t s s₀ : Ty} (ht : t.anyFree = true) (hs : s.anyFree = true) (hpeels : Peels s s₀)
    (hacc : t.isAssignableFrom s = true) (hloose : Nowhere Loose t s₀) : t = s₀ := by
  induction t, s using pair_induction generalizing s₀ with
  | _ t s ih =>
    have hno : ¬ Loose t s₀ := hloose.here
    by_cases hview : t.isView = true
    · cases t with
      | view a m =>
        cases s₀ with
        | view b n =>
          have hab : a = b := by
            cases hpeels with
            | refl =>
              rw [Ty.isAssignableFrom, Bool.and_eq_true] at hacc
              exact ih a b (by simp only [Ty.view.sizeOf_spec]; omega) ht hs (.refl b) hacc.2
                (hloose.step (.views _ a b m n))
            | @view s₁ _ k hpeels =>
              rw [Ty.isAssignableFrom, Bool.and_eq_true] at hacc
              exact ih a s₁ (by simp only [Ty.view.sizeOf_spec]; omega) ht hs hpeels.peel hacc.2
                (hloose.step (.views _ a b m n))
          have hmn : m = n := by
            apply mutable_eq
            · intro hm
              rw [← Bool.not_eq_false]
              exact fun hn => hno (.otherWay (by rw [hm, hn]; exact .view b a))
            · exact fun hm hn => hno (.oneWay (by rw [hm, hn]; exact .view a b))
          rw [hab, hmn]
        | _ => exact (hno (.viewed (by simp [Ty.isView]))).elim
      | _ => cases hview
    · rw [Bool.not_eq_true] at hview
      by_cases hoption : ∃ a, t = .option a
      · obtain ⟨a, rfl⟩ := hoption
        cases s₀ with
        | option b =>
          have hinside : Nowhere Loose a b := hloose.step (.component _ (.option a b))
          rcases hpeels.accepted_option ht hs hacc with hab | hdepth
          · have hsize := hpeels.sizeOf_le
            have hb : b.anyFree = true := hpeels.anyFree hs
            rw [ih a b (by simp only [Ty.option.sizeOf_spec] at hsize ⊢; omega) ht hb (.refl b) hab hinside]
          · exact absurd hinside.oneWay (not_nowhere_of_optionDepth_lt hdepth hinside.converts)
        | nil => exact (hno (.oneWay (.empty a))).elim
        | view => exact (hno (.viewed (by simp [Ty.isView]))).elim
        | _ => exact (hno (.converted rfl)).elim
      · have hacc₀ := hpeels.accepted ht hs hview (fun a ha => hoption ⟨a, ha⟩) hacc
        have hs₀ := hpeels.anyFree hs
        have inside {a b : Ty} (h : Component t s₀ a b) : a = b := by
          have hlt := h.sizeOf_lt
          have hle := hpeels.sizeOf_le
          have hfree := h.anyFree ht hs₀
          exact ih a b (by omega) hfree.1 hfree.2 (.refl b) (h.accepted hs₀ hacc₀) (hloose.step (.component _ h))
        cases accepts_of ht hs₀ hacc₀ with
        | plain => rfl
        | widen => exact (hno (.converted rfl)).elim
        | text => exact (hno (.oneWay .text)).elim
        | @shared a b => rw [inside (.shared a b)]
        | adopt hshared hview => exact (hno (.converted (by simp [Ty.converts, hshared, hview]))).elim
        | borrow => cases hview
        | @slice a b => rw [inside (.slice a b)]
        | @own a b => rw [inside (.own a b)]
        | @ref a b m n hmut =>
          have hmn := mutable_eq hmut fun hm hn => hno (.oneWay (by rw [hm, hn]; exact .ref a b))
          rw [inside (.ref a b m n), hmn]
        | @rawPointer a b m n hmut =>
          have hmn := mutable_eq hmut fun hm hn => hno (.oneWay (by rw [hm, hn]; exact .rawPointer a b))
          rw [inside (.rawPointer a b m n), hmn]
        | @array a b => rw [inside (.array a b)]
        | option => exact (hoption ⟨_, rfl⟩).elim
        | empty => exact (hoption ⟨_, rfl⟩).elim
        | wrap => exact (hoption ⟨_, rfl⟩).elim
        | @result a b c d => rw [inside (.ok a b c d), inside (.err a b c d)]
        | @function ps qs r u hlength =>
          rw [inside (.returned ps qs r u), eq_of_mem_zip hlength fun p q hpq => inside (.param r u hpq)]
        | @tuple ts ss hlength => rw [eq_of_mem_zip hlength fun a b hab => inside (.member hab)]
        | @chan a b => rw [inside (.chan a b)]
        | views => cases hview
        | lend => cases hview
        | readThrough => exact (hno (.viewed (by rw [hview]; exact Bool.false_ne_true))).elim

variable {t s a b : Ty}

theorem Step.stays {d : Bool} (h : Step false t s d a b) : d = false := by
  cases h <;> rfl

variable {c d : Bool}

theorem Reached.stays (h : Reached c t s d a b) (hc : c = false) : d = false := by
  induction h with
  | here => exact hc
  | step h _ ih =>
    subst hc
    exact ih h.stays

theorem nowhere_converts {t s : Ty} (h : Everywhere (fun c a b => ¬ Misfit c a b) false t s) :
    Nowhere (fun a b => a.converts b = true) t s := by
  intro d a b hr hconverts
  have hno := h d a b hr
  rw [hr.stays rfl] at hno
  exact hno (.converted hconverts)

theorem nowhere_loose (h : ¬ Misfit c t s) (hstep : Step c t s d a b)
    (hmut : t.MutatesAt a) : Nowhere Loose a b := by
  by_contra hno
  exact h (.pointee hstep hmut (somewhere_of_not_nowhere hno))

theorem nowhere_oneWay {c : Bool} {ps qs : List Ty} {r u p q : Ty} (h : ¬ Misfit c (.function ps r) (.function qs u))
    (hpq : (p, q) ∈ ps.zip qs) : Nowhere OneWay p q := by
  by_contra hno
  exact h (.param c r u hpq (somewhere_of_not_nowhere hno))

theorem not_nowhere_loose {t s : Ty} (hlt : s.optionDepth < t.optionDepth) : ¬ Nowhere Loose t s :=
  fun h => not_nowhere_of_optionDepth_lt hlt h.converts h.oneWay

theorem Step.optionDepth_lt {d : Bool} (h : Step false t s d a b)
    (hlt : s.optionDepth < t.optionDepth) : b.optionDepth < a.optionDepth := by
  cases h with
  | component _ h =>
    cases h with
    | option => exact Nat.lt_of_succ_lt_succ hlt
    | shared => exact hlt
    | _ => exact absurd hlt (Nat.not_lt_zero _)
  | _ => exact hlt

/-- Through views a type is the same machine type. -/
theorem reads_of_view {t s : Ty} (hview : t.isView = true ∨ s.isView = true) (hconverts : t.converts s = false)
    (hstep : ∀ a b, Step false t s false a b → a.machine.Reads b.machine) : t.machine.Reads s.machine := by
  cases t with
  | view a m =>
    cases s with
    | view b n => exact hstep a b (.views _ a b m n)
    | shared b => cases hconverts
    | _ => exact hstep a _ (.lend _ a m rfl rfl)
  | _ =>
    cases s with
    | view b n => exact hstep _ b (.readThrough _ b n rfl)
    | _ => simp [Ty.isView] at hview

theorem option_reads {a s : Ty} (hview : s.isView = false) (hconverts : (Ty.option a).converts s = false) :
    (Ty.option a).machine.Reads s.machine := by
  cases s with
  | option => exact .inl rfl
  | nil => exact .inr ⟨rfl, rfl⟩
  | view => cases hview
  | _ => cases hconverts

theorem shared_reads {a s : Ty} (hview : s.isView = false) (hconverts : (Ty.shared a).converts s = false) :
    (Ty.shared a).machine.Reads s.machine := by
  cases s with
  | shared => exact .inl rfl
  | view => cases hview
  | _ => cases hconverts

/-- A target with more options than its source is read as it stands only where the source is empty. -/
theorem faithful_of_optionDepth_lt {t s : Ty} (hlt : s.optionDepth < t.optionDepth)
    (h : Everywhere (fun c a b => ¬ Misfit c a b) false t s) : Everywhere Faithful false t s := by
  induction t, s using pair_induction with
  | _ t s ih =>
    have hconverts : t.converts s = false := by
      rw [← Bool.not_eq_true]
      exact fun hconverts => h.here (.converted hconverts)
    have hinside {d : Bool} {a b : Ty} (hstep : Step false t s d a b) : Everywhere Faithful false a b := by
      obtain rfl := hstep.stays
      exact ih a b hstep.sizeOf_lt (hstep.optionDepth_lt hlt) (h.step hstep)
    apply everywhere_of
    · constructor
      · intro _
        by_cases hview : t.isView = true ∨ s.isView = true
        · exact reads_of_view hview hconverts fun a b hstep => (hinside hstep).here.machine (.inl rfl)
        · rw [not_or, Bool.not_eq_true, Bool.not_eq_true] at hview
          cases t with
          | option a => exact option_reads hview.2 hconverts
          | shared a => exact shared_reads hview.2 hconverts
          | view => cases hview.1
          | _ => exact absurd hlt (Nat.not_lt_zero _)
      · intro d a b hstep hmut
        exact absurd (nowhere_loose h.here hstep hmut) (not_nowhere_loose (hstep.optionDepth_lt hlt))
      · intro ps r qs u ht
        rw [ht] at hlt
        exact absurd hlt (Nat.not_lt_zero _)
    · intro d a b hstep
      obtain rfl := hstep.stays
      exact hinside hstep

/-- Into a value of an option. -/
theorem Peels.accepted_box {a s s₀ : Ty} (h : Peels s s₀) (ha : (Ty.option a).anyFree = true)
    (hs : s.anyFree = true) (hoptional : s₀.isOptional = false) (hview : s₀.isView = false)
    (hacc : (Ty.option a).isAssignableFrom s = true) :
    ∃ s₁, sizeOf s₁ ≤ sizeOf s ∧ s₁.anyFree = true ∧ Peels s₁ s₀ ∧ a.isAssignableFrom s₁ = true := by
  induction h with
  | @refl s =>
    cases accepts_of ha hs hacc with
    | wrap _ _ h => exact ⟨s, Nat.le_refl _, hs, .refl s, h⟩
    | readThrough => cases hview
    | _ => cases hoptional
  | @view s₁ _ m h ih =>
    rw [Ty.isAssignableFrom, Bool.or_eq_true] at hacc
    rcases hacc with hacc | hacc
    · exact ⟨_, Nat.le_refl _, hs, .view m h, hacc⟩
    · obtain ⟨s₂, hsize, hs₂, hpeels, hacc₂⟩ := ih hs hoptional hview hacc
      exact ⟨s₂, by simp only [Ty.view.sizeOf_spec]; omega, hs₂, hpeels, hacc₂⟩

/-- Each step into an accepted type is accepted, or an option of the target more than the source has. -/
theorem Step.accepted {t s s₀ a b : Ty} (h : Step c t s₀ d a b) (ht : t.anyFree = true)
    (hs : s.anyFree = true) (hpeels : Peels s s₀) (hacc : t.isAssignableFrom s = true)
    (htop : c = true → t.isView = true → s = s₀) (hconverts : c = false → t.converts s₀ = false) :
    (∃ s₁, sizeOf a + sizeOf s₁ + sizeOf b < sizeOf t + sizeOf s + sizeOf s₀ ∧ s₁.anyFree = true ∧ Peels s₁ b ∧
      a.isAssignableFrom s₁ = true ∧ (d = true → a.isView = true → s₁ = b)) ∨
    (d = false ∧ b.optionDepth < a.optionDepth) := by
  have hs₀ := hpeels.anyFree hs
  have hle := hpeels.sizeOf_le
  have hfalse : ∀ {P : Prop}, false = true → P := fun h => absurd h Bool.false_ne_true
  cases h with
  | component _ h =>
    by_cases hoption : ∃ a, t = .option a
    · obtain ⟨a, rfl⟩ := hoption
      cases h with
      | option _ b =>
        rcases hpeels.accepted_option ht hs hacc with hab | hdepth
        · exact .inl ⟨b, by simp only [Ty.option.sizeOf_spec] at hle ⊢; omega, hs₀, .refl b, hab, hfalse⟩
        · exact .inr ⟨rfl, hdepth⟩
    · have hview : t.isView = false := by cases h <;> rfl
      have hacc₀ := hpeels.accepted ht hs hview (fun a ha => hoption ⟨a, ha⟩) hacc
      have hlt := h.sizeOf_lt
      exact .inl ⟨b, by omega, (h.anyFree ht hs₀).2, .refl b, h.accepted hs₀ hacc₀, hfalse⟩
  | views _ _ _ m n =>
    cases hpeels with
    | refl =>
      rw [Ty.isAssignableFrom, Bool.and_eq_true] at hacc
      exact .inl ⟨b, by simp only [Ty.view.sizeOf_spec]; omega, hs, .refl b, hacc.2, fun _ _ => rfl⟩
    | @view s₁ _ k hpeels =>
      rw [Ty.isAssignableFrom, Bool.and_eq_true] at hacc
      exact .inl ⟨s₁, by simp only [Ty.view.sizeOf_spec]; omega, hs, hpeels.peel, hacc.2,
        fun hc _ => (Ty.view.inj (htop hc rfl)).1⟩
  | lend _ _ m hview hshared =>
    cases hpeels with
    | refl =>
      cases accepts_of ht hs hacc with
      | plain h => cases h
      | borrow => cases hshared
      | views => cases hview
      | lend _ _ _ h => exact .inl ⟨s, by simp only [Ty.view.sizeOf_spec]; omega, hs, .refl s, h, fun _ _ => rfl⟩
      | readThrough _ h => cases h
    | @view s₁ _ k hpeels =>
      rw [Ty.isAssignableFrom, Bool.and_eq_true] at hacc
      refine .inl ⟨s₁, by simp only [Ty.view.sizeOf_spec]; omega, hs, hpeels, hacc.2, fun hc _ => ?_⟩
      rw [← htop hc rfl] at hview
      cases hview
  | readThrough _ _ m hview =>
    refine .inl ⟨s, by simp only [Ty.view.sizeOf_spec]; omega, hs, hpeels.peel, hacc, fun _ hnot => ?_⟩
    rw [hview] at hnot
    cases hnot
  | box _ hoptional hview =>
    obtain ⟨s₁, hsize, hs₁, hpeels₁, hacc₁⟩ := hpeels.accepted_box ht hs hoptional hview hacc
    exact .inl ⟨s₁, by simp only [Ty.option.sizeOf_spec]; omega, hs₁, hpeels₁, hacc₁, hfalse⟩
  | adopt _ hshared hview =>
    cases accepts_of ht hs₀ (hpeels.accepted ht hs rfl (fun _ h => Ty.noConfusion h) hacc) with
    | plain h => cases h
    | shared => cases hshared
    | adopt _ _ h => exact .inl ⟨s₀, by simp only [Ty.shared.sizeOf_spec]; omega, hs₀, .refl s₀, h, hfalse⟩
    | readThrough => cases hview
  | borrow =>
    cases c with
    | false => cases hconverts rfl
    | true =>
      obtain rfl := htop rfl rfl
      rw [Ty.isAssignableFrom] at hacc
      exact .inl ⟨b, by simp only [Ty.view.sizeOf_spec, Ty.shared.sizeOf_spec]; omega, hs, .refl b, hacc, hfalse⟩

theorem reads_of_accepted {t s : Ty} (ht : t.anyFree = true) (hs : s.anyFree = true)
    (hacc : t.isAssignableFrom s = true) (htarget : t.isView = false) (hsource : s.isView = false)
    (hconverts : t.converts s = false) : t.machine.Reads s.machine := by
  cases accepts_of ht hs hacc with
  | widen => cases hconverts
  | empty => exact .inr ⟨rfl, rfl⟩
  | adopt hshared hview => simp [Ty.converts, hshared, hview] at hconverts
  | wrap hoptional => simp [Ty.converts, hoptional, hsource] at hconverts
  | borrow => cases htarget
  | views => cases htarget
  | lend => cases htarget
  | readThrough => cases hsource
  | tuple hlength => exact .inl (by rw [Ty.machine, Ty.machine, hlength])
  | _ => exact .inl rfl

/-- Everything in an accepted type is read as it stands unless some place is a misfit. -/
theorem faithful_of_accepted {c : Bool} {t s s₀ : Ty} (ht : t.anyFree = true) (hs : s.anyFree = true)
    (hpeels : Peels s s₀) (hacc : t.isAssignableFrom s = true) (htop : c = true → t.isView = true → s = s₀)
    (h : Everywhere (fun c a b => ¬ Misfit c a b) c t s₀) : Everywhere Faithful c t s₀ := by
  induction hn : sizeOf t + sizeOf s + sizeOf s₀ using Nat.strongRecOn generalizing c t s s₀ with
  | _ n ih =>
    subst hn
    have hs₀ := hpeels.anyFree hs
    have hconverts : c = false → t.converts s₀ = false := by
      rintro rfl
      rw [← Bool.not_eq_true]
      exact fun hconverts => h.here (.converted hconverts)
    have hinside {d : Bool} {a b : Ty} (hstep : Step c t s₀ d a b) : Everywhere Faithful d a b := by
      rcases hstep.accepted ht hs hpeels hacc htop hconverts with
        ⟨s₁, hlt, hs₁, hpeels₁, hacc₁, htop₁⟩ | ⟨rfl, hlt⟩
      · exact ih _ hlt (hstep.anyFree ht hs₀).1 hs₁ hpeels₁ hacc₁ htop₁ (h.step hstep) rfl
      · exact faithful_of_optionDepth_lt hlt (h.step hstep)
    apply everywhere_of
    · constructor
      · intro hread
        by_cases hview : t.isView = true ∨ s₀.isView = true
        · obtain rfl : c = false := by
            rcases hread with hc | ⟨htarget, hsource, _⟩
            · exact hc
            · rw [htarget, hsource] at hview
              simp at hview
          exact reads_of_view hview (hconverts rfl) fun a b hstep => (hinside hstep).here.machine (.inl rfl)
        · have hnone : t.converts s₀ = false := by
            rcases hread with hc | ⟨_, _, hnone⟩
            · exact hconverts hc
            · exact hnone
          rw [not_or, Bool.not_eq_true, Bool.not_eq_true] at hview
          by_cases hoption : ∃ a, t = .option a
          · obtain ⟨a, rfl⟩ := hoption
            exact option_reads hview.2 hnone
          · have hacc₀ := hpeels.accepted ht hs hview.1 (fun a ha => hoption ⟨a, ha⟩) hacc
            exact reads_of_accepted ht hs₀ hacc₀ hview.1 hview.2 hnone
      · intro d a b hstep hmut
        have hloose := nowhere_loose h.here hstep hmut
        rcases hstep.accepted ht hs hpeels hacc htop hconverts with ⟨s₁, _, hs₁, hpeels₁, hacc₁, _⟩ | ⟨_, hlt⟩
        · exact eq_of_nowhere_loose (hstep.anyFree ht hs₀).1 hs₁ hpeels₁ hacc₁ hloose
        · exact absurd hloose (not_nowhere_loose hlt)
      · rintro ps r qs u rfl rfl p q hpq
        have hcomponent : Component (.function ps r) (.function qs u) p q := .param r u hpq
        have hacc₀ := hpeels.accepted ht hs rfl nofun hacc
        have hfree := hcomponent.anyFree ht hs₀
        apply isAssignableFrom_symm hfree.1 hfree.2 (hcomponent.accepted hs₀ hacc₀)
        · exact nowhere_converts (h.step (.component c hcomponent))
        · exact nowhere_oneWay h.here hpq
    · intro d a b hstep
      exact hinside hstep

def Ty.viewFree (t : Ty) : Bool :=
  t.all fun u => !u.isView

/-- A view stands at the head of the type only: views cannot be stored. -/
def Ty.storesNoView : Ty → Bool
  | .view t _ => t.viewFree
  | t => t.viewFree

theorem isView_of_viewFree {t : Ty} (h : t.viewFree = true) : t.isView = false := by
  cases t with
  | view => cases h
  | _ => rfl

theorem storesNoView_of_viewFree {t : Ty} (h : t.viewFree = true) : t.storesNoView = true := by
  cases t with
  | view => cases h
  | _ => exact h

theorem viewFree_of_storesNoView {t : Ty} (h : t.storesNoView = true) (hview : t.isView = false) :
    t.viewFree = true := by
  cases t with
  | view => cases hview
  | _ => exact h

/-- Only the assigned value may still be a view. -/
def Ty.viewsAt : Bool → Ty → Bool
  | true, t => t.storesNoView
  | false, t => t.viewFree

theorem viewsAt_of_viewFree {t : Ty} (c : Bool) (h : t.viewFree = true) : t.viewsAt c = true := by
  cases c with
  | true => exact storesNoView_of_viewFree h
  | false => exact h

theorem viewFree_of_viewsAt {c : Bool} {t : Ty} (h : t.viewsAt c = true) (hview : t.isView = false) :
    t.viewFree = true := by
  cases c with
  | true => exact viewFree_of_storesNoView h hview
  | false => exact h

theorem viewFree_of_view {c : Bool} {t : Ty} {m : Bool} (h : (Ty.view t m).viewsAt c = true) : t.viewFree = true := by
  cases c with
  | true => exact h
  | false => cases h

theorem Step.viewsAt (h : Step c t s d a b) (ht : t.viewsAt c = true)
    (hs : s.viewsAt c = true) : a.viewsAt d = true ∧ b.viewsAt d = true := by
  cases h with
  | component _ h =>
    have htarget : t.isView = false := by cases h <;> rfl
    have hsource : s.isView = false := by cases h <;> rfl
    exact h.all (viewFree_of_viewsAt ht htarget) (viewFree_of_viewsAt hs hsource)
  | views => exact ⟨viewsAt_of_viewFree c (viewFree_of_view ht), viewsAt_of_viewFree c (viewFree_of_view hs)⟩
  | lend => exact ⟨viewsAt_of_viewFree c (viewFree_of_view ht), hs⟩
  | readThrough => exact ⟨ht, viewsAt_of_viewFree c (viewFree_of_view hs)⟩
  | box _ _ hview => exact ⟨ht, viewFree_of_viewsAt hs hview⟩
  | adopt _ _ hview => exact ⟨ht, viewFree_of_viewsAt hs hview⟩
  | borrow =>
    have hfree := viewFree_of_viewsAt hs rfl
    exact ⟨viewFree_of_view ht, hfree⟩

theorem Reached.viewsAt (h : Reached c t s d a b) (ht : t.viewsAt c = true)
    (hs : s.viewsAt c = true) : a.viewsAt d = true ∧ b.viewsAt d = true := by
  induction h with
  | here => exact ⟨ht, hs⟩
  | step h _ ih => exact ih (h.viewsAt ht hs).1 (h.viewsAt ht hs).2

theorem not_reads_of_converts {t s : Ty} (h : t.converts s = true) (hview : t.isView = false) :
    ¬ t.machine.Reads s.machine := by
  cases t with
  | view => cases hview
  | float => cases s <;> simp_all [Ty.converts, Ty.machine, Machine.Reads]
  | option => cases s <;> simp_all [Ty.converts, Ty.machine, Machine.Reads, Ty.isOptional, Ty.isView]
  | shared => cases s <;> simp_all [Ty.converts, Ty.machine, Machine.Reads, Ty.isShared, Ty.isView]
  | _ => cases h

theorem mem_zip_self {ts : List Ty} {a b : Ty} (h : (a, b) ∈ ts.zip ts) : a = b := by
  obtain ⟨i, hi, hget⟩ := List.mem_iff_getElem.mp h
  rw [List.getElem_zip, Prod.mk.injEq] at hget
  rw [← hget.1, ← hget.2]

theorem Component.eq_of_self {t a b : Ty} (h : Component t t a b) : a = b := by
  cases h with
  | param r u h => exact mem_zip_self h
  | member h => exact mem_zip_self h
  | _ => rfl

theorem Step.eq_of_self {d : Bool} (h : Step false t s d a b) (hts : t = s) : a = b := by
  cases h with
  | component _ h =>
    subst hts
    exact h.eq_of_self
  | views => exact (Ty.view.inj hts).1
  | lend _ _ _ hview =>
    subst hts
    cases hview
  | readThrough _ _ _ hview =>
    subst hts
    cases hview
  | borrow => cases hts

theorem Reached.eq_of_self (h : Reached c t s d a b) (hc : c = false) (hts : t = s) : a = b := by
  induction h with
  | here => exact hts
  | step h _ ih =>
    subst hc
    exact ih h.stays (h.eq_of_self hts)

theorem not_converts_self (t : Ty) : t.converts t = false := by
  cases t <;> rfl

theorem not_oneWay_self {t : Ty} : ¬ OneWay t t := by
  intro h
  cases h

/-- No place of a type is loose against itself. -/
theorem not_somewhere_loose_self {t : Ty} : ¬ Somewhere Loose t t := by
  rintro ⟨d, a, b, hr, hloose⟩
  obtain rfl := hr.eq_of_self rfl rfl
  cases hloose with
  | converted h =>
    rw [not_converts_self] at h
    cases h
  | oneWay h => exact not_oneWay_self h
  | otherWay h => exact not_oneWay_self h
  | viewed h => exact h rfl

/-- Where the source accepts the target back it does so inside. -/
theorem Reached.accepted_back (h : Reached c t s d a b) (hc : c = false)
    (ht : t.viewFree = true) (hs : s.viewFree = true) (htany : t.anyFree = true)
    (hsany : s.anyFree = true) (hacc : s.isAssignableFrom t = true) :
    b.viewFree = true ∧ b.isAssignableFrom a = true := by
  induction h with
  | here => exact ⟨hs, hacc⟩
  | step h _ ih =>
    subst hc
    cases h with
    | component _ h =>
      have hviews := h.all ht hs
      have hany := h.anyFree htany hsany
      exact ih rfl hviews.1 hviews.2 hany.1 hany.2 (h.symm.accepted htany hacc)
    | views => cases ht
    | lend => cases ht
    | readThrough => cases hs
    | borrow => cases ht

theorem not_accepted_of_oneWay {t s : Ty} (h : OneWay t s) (hs : s.viewFree = true) :
    s.isAssignableFrom t = false := by
  cases h with
  | sharedOfView => cases hs
  | view => cases hs
  | _ => simp [Ty.isAssignableFrom]

theorem not_accepted_of_somewhere_oneWay {t s : Ty} (h : Somewhere OneWay t s) (ht : t.viewFree = true)
    (hs : s.viewFree = true) (htany : t.anyFree = true) (hsany : s.anyFree = true) :
    ¬ s.isAssignableFrom t = true := by
  intro hacc
  obtain ⟨d, a, b, hr, honeWay⟩ := h
  obtain ⟨hb, hback⟩ := hr.accepted_back rfl ht hs htany hsany hacc
  rw [not_accepted_of_oneWay honeWay hb] at hback
  cases hback

theorem Reached.anyFree (h : Reached c t s d a b) (ht : t.anyFree = true)
    (hs : s.anyFree = true) : a.anyFree = true ∧ b.anyFree = true := by
  induction h with
  | here => exact ⟨ht, hs⟩
  | step h _ ih => exact ih (h.anyFree ht hs).1 (h.anyFree ht hs).2

/-- A misfit of types that store no view breaks what the assignment must keep. -/
theorem not_faithful_of_misfit {c : Bool} {t s : Ty} (h : Misfit c t s) (ht : t.viewsAt c = true)
    (hs : s.viewsAt c = true) (htany : t.anyFree = true) (hsany : s.anyFree = true) : ¬ Faithful c t s := by
  intro hfaithful
  cases h with
  | converted h => exact not_reads_of_converts h (isView_of_viewFree ht) (hfaithful.machine (.inl rfl))
  | pointee hstep hmut hloose =>
    obtain rfl := hfaithful.pointee _ _ _ hstep hmut
    exact not_somewhere_loose_self hloose
  | @param _ ps qs r u p q hpq honeWay =>
    have hcomponent : Component (.function ps r) (.function qs u) p q := .param r u hpq
    have hviews := hcomponent.all (viewFree_of_viewsAt ht rfl) (viewFree_of_viewsAt hs rfl)
    have hany := hcomponent.anyFree htany hsany
    exact not_accepted_of_somewhere_oneWay honeWay hviews.1 hviews.2 hany.1 hany.2
      (hfaithful.params ps r qs u rfl rfl p q hpq)

/-- No place of two types is a misfit. -/
def Fits (t s : Ty) : Prop :=
  Everywhere (fun c a b => ¬ Misfit c a b) true t s

/-- An accepted type is taken as it stands, but for the conversion at the assignment, where no place is a misfit,
and only there if neither type stores a view. -/
theorem isAssignableFrom_sound_iff {t s : Ty} (ht : t.anyFree = true) (hs : s.anyFree = true)
    (hacc : t.isAssignableFrom s = true) :
    (Fits t s → Sound t s) ∧ (t.storesNoView = true → s.storesNoView = true → (Sound t s ↔ Fits t s)) := by
  have hsound : Fits t s → Sound t s :=
    faithful_of_accepted ht hs (.refl s) hacc fun _ _ => rfl
  refine ⟨hsound, fun htviews hsviews => ⟨fun h d a b hr hmisfit => ?_, hsound⟩⟩
  have hviews := hr.viewsAt htviews hsviews
  have hany := hr.anyFree ht hs
  exact not_faithful_of_misfit hmisfit hviews.1 hviews.2 hany.1 hany.2 (h d a b hr)

/-- A text boxed into an option. -/
theorem isAssignableFrom_sound_option : Sound (.option .string) .string := by
  have hacc : (Ty.option .string).isAssignableFrom .string = true := by simp [Ty.isAssignableFrom]
  apply (isAssignableFrom_sound_iff rfl rfl hacc).1
  have hleaf : ∀ d a b, ¬ Step false .string .string d a b := by
    intro d a b h
    cases h with
    | component _ h => cases h
  apply everywhere_of
  · intro hmisfit
    cases hmisfit with
    | pointee _ hmut => rcases hmut with h | h <;> cases h
  · intro d a b hstep
    cases hstep with
    | component _ h => cases h
    | box =>
      apply everywhere_of
      · intro hmisfit
        cases hmisfit with
        | converted h => cases h
        | pointee h => exact hleaf _ _ _ h
      · exact fun d a b h => absurd h (hleaf d a b)

/-- An array of integers is accepted as an array of floats. -/
theorem isAssignableFrom_reinterprets : ¬ ∀ t s : Ty, t.anyFree = true → s.anyFree = true →
    t.isAssignableFrom s = true → Sound t s := by
  intro h
  have hsound := h (.array .float) (.array .int) rfl rfl (by simp [Ty.isAssignableFrom])
  have hread := (hsound _ _ _ (.step (.component true (.array .float .int)) (.here ..))).machine (.inl rfl)
  simp [Ty.machine, Machine.Reads] at hread

end Neutron.Types
