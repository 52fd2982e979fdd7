import Neutron.KindSafety
import Neutron.PoolEffects

/-!
# Refused calls in every reachable state

A run interleaves the calls of all threads with every operation of the registry and with
the scheduler. Two facts have to survive it: a cached capability of the current generation
is live, and the cores of wrappers other than channels are never cores of channels. They
make every call safe to refuse.
-/

namespace Neutron

open Execution Registry

-- comparing draws by evaluation would unfold the two's complement reading
attribute [local irreducible] Registry.drawn

/-! ## Capabilities and wrappers under registry effects -/

namespace Registry

variable {P : Int → Prop} {r r' : Registry}

theorem Updates.wrapper {old new : Handle} (h : Updates old new) :
    new.core? = old.core? ∧ new.isChan = old.isChan := by
  cases h with
  | array a b => exact ⟨rfl, rfl⟩
  | shared a b => exact ⟨rfl, rfl⟩
  | chan core m n => exact ⟨rfl, rfl⟩

theorem lookup_insert_fresh (hb : r.Balanced) (hi : r.issued + 1 < 2 ^ 64) (hd : Handle) {id : Int}
    {old : Handle} (hl : r.lookup id = some old) : (r.insert hd).1.lookup id = some old := by
  have hne : id ≠ drawn r.issued := by
    rintro rfl
    rw [hb.fresh (by omega)] at hl
    cases hl
  rw [lookup_congr (shards_insert hd), lookup_store, if_neg hne]
  exact hl

/-- A capability disappears only together with its generation. -/
theorem Reaches.capabilities (h : Reaches P r r') (hb : r.Balanced) (hi : r'.issued < 2 ^ 64) :
    r.generation ≤ r'.generation ∧ (r'.generation = r.generation → ∀ id m,
      r.lookup id = some (.memory m) → r'.lookup id = some (.memory m)) := by
  induction h with
  | refl => exact ⟨le_rfl, fun _ _ _ hl => hl⟩
  | @draw r' _ ih =>
    have hi' : r'.issued + 1 < 2 ^ 64 := hi
    exact ih (by omega)
  | @insert r' h hd hplain ih =>
    have hi' : r'.issued + 1 < 2 ^ 64 := hi
    obtain ⟨hle, hkept⟩ := ih (by omega)
    exact ⟨hle, fun hg id m hl =>
      lookup_insert_fresh (h.balanced hb (by omega)) hi' hd (hkept hg id m hl)⟩
  | @retire r' k hd _ hp hk g hg ih =>
    obtain ⟨hle, hkept⟩ := ih hi
    rcases hg with rfl | ⟨rfl, hm⟩
    · exact ⟨hle.trans (Nat.le_succ _), fun heq => by
        have heq' : r'.generation + 1 = r.generation := heq
        omega⟩
    · refine ⟨hle, fun heq id m hl => ?_⟩
      have hl' := hkept heq id m hl
      have hne : id ≠ k := by
        rintro rfl
        rw [hl', Option.some_inj] at hk
        exact hm m hk.symm
      change (r'.discard k).lookup id = _
      rw [lookup_discard, if_neg hne]
      exact hl'
  | @modify r' k hd _ hk f hf ih =>
    obtain ⟨hle, hkept⟩ := ih hi
    refine ⟨hle, fun heq id m hl => ?_⟩
    have hl' := hkept heq id m hl
    have hne : id ≠ k := by
      rintro rfl
      rw [hl', Option.some_inj] at hk
      subst hk
      cases hf
    rw [lookup_modify, if_neg hne]
    exact hl'
  | @exchange r' k ty payload _ ho value ih =>
    obtain ⟨hle, hkept⟩ := ih hi
    refine ⟨hle, fun heq id m hl => ?_⟩
    have hl' := hkept heq id m hl
    have hne : id ≠ k := by
      rintro rfl
      rw [ho] at hl'
      cases hl'
    rw [lookup_store, if_neg hne, lookup_discard, if_neg hne]
    exact hl'
  | frame _ sites regions ih => exact ih hi

/-- Effects create no wrapper and move none to another core. -/
theorem Reaches.wrappers (h : Reaches P r r') {id core : Int} {hd : Handle}
    (hl : r'.lookup id = some hd) (hc : hd.core? = some core) :
    ∃ old, r.lookup id = some old ∧ old.core? = some core ∧ old.isChan = hd.isChan := by
  induction h generalizing hd with
  | refl => exact ⟨hd, hl, hc, rfl⟩
  | draw _ ih => exact ih hl hc
  | @insert r' _ new hplain ih =>
    rw [lookup_congr (shards_insert new), lookup_store] at hl
    split at hl
    · obtain rfl := Option.some_inj.mp hl
      rw [hplain] at hc
      cases hc
    · exact ih hl hc
  | @retire r' k old _ hp hk g hg ih =>
    change (r'.discard k).lookup id = _ at hl
    rw [lookup_discard] at hl
    split at hl
    · cases hl
    · exact ih hl hc
  | @modify r' k old _ hk f hf ih =>
    rw [lookup_modify] at hl
    split at hl
    · rename_i heq
      subst heq
      rw [hk, Option.map_some, Option.some_inj] at hl
      subst hl
      obtain ⟨h₁, h₂⟩ := hf.wrapper
      rw [h₁] at hc
      rw [h₂]
      exact ih hk hc
    · exact ih hl hc
  | @exchange r' k ty payload _ ho value ih =>
    rw [lookup_store, lookup_discard] at hl
    by_cases hkid : id = k
    · rw [if_pos hkid] at hl
      obtain rfl := Option.some_inj.mp hl
      cases hc
    · rw [if_neg hkid, if_neg hkid] at hl
      exact ih hl hc
  | frame _ sites regions ih => exact ih hl hc

theorem insertReserved_kept (id : Int) (hd : Handle) :
    (r.insertReserved id hd).shards = (r.store id hd).shards ∧
      (r.insertReserved id hd).generation = r.generation := by
  unfold insertReserved
  split
  · exact ⟨rfl, rfl⟩
  · exact ⟨rfl, rfl⟩

/-- Resolving a capability caches a live one. -/
theorem cached_memoryRegion {cache : Option CachedRegion} (hc : r.Cached cache) (id : Int) :
    r.Cached (r.memoryRegion cache id).1 := by
  obtain ⟨e, -, -, -, h⟩ | ⟨m, hm, h⟩ | ⟨-, h⟩ := r.memoryRegion_cases cache id <;> rw [h]
  · exact hc
  · intro e he
    obtain rfl := Option.some_inj.mp he
    refine ⟨le_rfl, fun _ => ⟨m, ?_⟩⟩
    unfold memory? at hm
    cases hb : r.borrow id with
    | none => simp [hb] at hm
    | some hd =>
      cases hd with
      | memory m' =>
        obtain rfl : m' = m := by simpa [hb] using hm
        exact lookup_of_borrow hb
      | _ => simp [hb] at hm
  · exact hc

end Registry

/-! ## Sound worlds -/

/-- The core a wrapper names was drawn, and belongs to a channel only if the wrapper does. -/
def Runtime.Vouches (s : Runtime) (hd : Handle) : Prop :=
  ∀ core, hd.core? = some core → core < s.g.nextCore ∧ (hd.isChan = false → s.g.chans.lookup core = none)

theorem Runtime.Vouches.continues {s u : Runtime} {hd : Handle} (h : s.Vouches hd) (hg : s.g.Continues u.g) :
    u.Vouches hd := by
  intro core hc
  obtain ⟨hlt, hnone⟩ := h core hc
  exact ⟨hlt.trans_le hg.nextCore_le, fun hk => hg.chans core (hnone hk) (.inl hlt)⟩

namespace World

variable {w w' : World} {t : ℕ}

structure Sound (w : World) : Prop where
  balanced : w.rt.reg.Balanced
  caches : ∀ t, w.rt.reg.Cached (w.thread t).cache
  vouched : ∀ id hd, w.rt.reg.lookup id = some hd → w.rt.Vouches hd
  chans : ∀ core, w.rt.g.nextCore ≤ core → w.rt.g.chans.lookup core = none

theorem Sound.coresApart (h : w.Sound) : w.rt.CoresApart :=
  fun id hd core hl hc hk => (h.vouched id hd hl core hc).2 hk

/-- A step that registers no wrapper and resolves no capability. -/
structure Advances (w w' : World) : Prop where
  reaches : Reaches (fun _ => True) w.rt.reg w'.rt.reg
  continues : w.rt.g.Continues w'.rt.g
  caches : ∀ t, (w'.thread t).cache = (w.thread t).cache

theorem Sound.advances (h : w.Sound) (ha : Advances w w') (hi : w'.rt.reg.issued < 2 ^ 64) : w'.Sound := by
  obtain ⟨hle, hkept⟩ := ha.reaches.capabilities h.balanced hi
  refine ⟨ha.reaches.balanced h.balanced hi, fun t e he => ?_, fun id hd hl core hc => ?_, fun core hc => ?_⟩
  · rw [ha.caches t] at he
    obtain ⟨hgen, hlive⟩ := h.caches t e he
    refine ⟨hgen.trans hle, fun hg => ?_⟩
    have hsame : w'.rt.reg.generation = w.rt.reg.generation := by omega
    obtain ⟨m, hm⟩ := hlive (hg.trans hsame)
    exact ⟨m, hkept hsame e.id m hm⟩
  · obtain ⟨old, hold, hcore, hchan⟩ := ha.reaches.wrappers hl hc
    have hv := (h.vouched id old hold).continues (u := w'.rt) ha.continues core hcore
    exact ⟨hv.1, fun hk => hv.2 (hchan.trans hk)⟩
  · exact ha.continues.chans core (h.chans core (ha.continues.nextCore_le.trans hc)) (.inr hc)

/-- A new entry, possibly a wrapper, under an id that was free. -/
theorem Sound.stores {id : Int} {hd : Handle} (h : w.Sound) (hb : w'.rt.reg.Balanced)
    (hshards : w'.rt.reg.shards = (w.rt.reg.store id hd).shards) (hfree : w.rt.reg.lookup id = none)
    (hgen : w'.rt.reg.generation = w.rt.reg.generation) (hthread : w'.thread = w.thread)
    (hg : w.rt.g.Continues w'.rt.g) (hv : w'.rt.Vouches hd) : w'.Sound := by
  have hlookup (k : Int) : w'.rt.reg.lookup k = if k = id then some hd else w.rt.reg.lookup k := by
    rw [lookup_congr hshards, lookup_store]
  refine ⟨hb, fun t e he => ?_, fun k old hl => ?_, fun core hc => ?_⟩
  · rw [hthread] at he
    obtain ⟨hle, hlive⟩ := h.caches t e he
    refine ⟨hle.trans hgen.ge, fun hge => ?_⟩
    obtain ⟨m, hm⟩ := hlive (hge.trans hgen)
    have hne : e.id ≠ id := by
      intro heq
      rw [heq, hfree] at hm
      cases hm
    exact ⟨m, (hlookup e.id).trans ((if_neg hne).trans hm)⟩
  · rw [hlookup] at hl
    split at hl
    · obtain rfl := Option.some_inj.mp hl
      exact hv
    · exact (h.vouched k old hl).continues hg
  · exact hg.chans core (h.chans core (hg.nextCore_le.trans hc)) (.inr hc)

/-! ## Calls advance the world -/

theorem Advances.trans {w'' : World} (h : Advances w w') (h' : Advances w' w'') : Advances w w'' :=
  ⟨h.reaches.trans h'.reaches, h.continues.trans h'.continues, fun t => (h'.caches t).trans (h.caches t)⟩

theorem Advances.refl (w : World) : Advances w w := ⟨.refl, .refl _, fun _ => rfl⟩

theorem Advances.withReg {reg : Registry} (h : Reaches (fun _ => True) w.rt.reg reg) :
    Advances w (w.withReg reg) :=
  ⟨h, .refl _, fun _ => rfl⟩

theorem Advances.onThread (f : Thread → Thread) (hf : ∀ th, (f th).cache = th.cache) :
    Advances w (w.onThread t f) := by
  refine ⟨.refl, .refl _, fun t' => ?_⟩
  by_cases ht : t' = t
  · subst ht
    exact (congrArg Thread.cache (Function.update_self _ _ _)).trans (hf _)
  · exact congrArg Thread.cache (Function.update_of_ne ht _ _)

theorem Advances.pending (msg : Int) : Advances w (w.onThread t (fun th => { th with pending := some msg })) :=
  .onThread (fun th => { th with pending := some msg }) (fun _ => rfl)

theorem advances_throwString (message : String) : Advances w (w.throwString t message).1 := by
  have hthrow (w : World) (msg : Int) : Advances w (w.throw t msg).1 := by
    unfold throw
    split
    · exact (Advances.withReg (Reaches.refl.insert (.string "") rfl)).trans (.pending (w.rt.reg.putString "").2)
    · exact .pending msg
  exact (Advances.withReg (Reaches.refl.insert (.string message) rfl)).trans
    (hthrow (w.withReg (w.rt.reg.putString message).1) (w.rt.reg.putString message).2)

theorem advances_orThrow {reg : Registry} (h : Reaches (fun _ => True) w.rt.reg reg) (result : Option Int)
    (message : String) : Advances w (w.orThrow t reg result message).1 := by
  cases result with
  | some value => exact .withReg h
  | none =>
    -- the pair stays abstract: the kernel would otherwise evaluate the throw
    have hpair (out : World × Int) (hout : Advances w out.1) : Advances w (out.1, some out.2).1 := hout
    rw [orThrow]
    exact hpair _ ((Advances.withReg h).trans (advances_throwString message))

theorem advances_withRt {rt : Runtime} (h : w.rt.Follows rt) : Advances w (w.withRt rt) :=
  ⟨h.reaches, h.continues, fun _ => rfl⟩

theorem advances_arraySet (id index elem : Int) : Advances w (w.arraySet t id index elem).1 := by
  unfold arraySet
  split
  · split
    · exact advances_throwString _
    · exact .withReg (reaches_arraySet id index elem (fun _ _ => trivial))
  · exact .refl w

theorem advances_parkChanSend (core value : Int) : Advances w (w.parkChanSend t core value) := by
  unfold parkChanSend
  split
  · exact .refl w
  · exact .onThread _ (fun _ => rfl)

theorem advances_parkChanRecv (core : Int) : Advances w (w.parkChanRecv t core) := by
  unfold parkChanRecv
  split
  · exact .refl w
  · exact .onThread _ (fun _ => rfl)

theorem advances_chanClose (id : Int) : Advances w (w.chanClose id) := by
  unfold chanClose
  cases w.rt.reg.taskCore id with
  | none => exact .refl w
  | some core => exact advances_withRt (Runtime.follows_chanClose core)

/-! ## Capabilities resolved by a call -/

theorem Sound.setCache {cache : Option CachedRegion} (h : w.Sound) (hc : w.rt.reg.Cached cache) :
    (w.onThread t (fun th => { th with cache := cache })).Sound := by
  refine ⟨h.balanced, fun t' e he => ?_, h.vouched, h.chans⟩
  by_cases ht : t' = t
  · subst ht
    have hself : ((w.onThread t' (fun th => { th with cache := cache })).thread t').cache = cache := by
      unfold onThread
      dsimp only
      rw [Function.update_self]
    exact hc e (hself.symm.trans he)
  · have hother : (w.onThread t (fun th => { th with cache := cache })).thread t' = w.thread t' :=
      Function.update_of_ne ht _ _
    rw [hother] at he
    exact h.caches t' e he

theorem Sound.memoryLoad (h : w.Sound) (id : Int) (width : ℕ) : (w.memoryLoad t id width).1.Sound := by
  have hcache : (w.rt.reg.memoryLoad (w.thread t).cache id width).1 =
      (w.rt.reg.memoryRegion (w.thread t).cache id).1 := by
    unfold Registry.memoryLoad
    rcases w.rt.reg.memoryRegion (w.thread t).cache id with ⟨cache, _ | ⟨n, offset⟩⟩
    · rfl
    · dsimp only
      split
      · rfl
      · rfl
  unfold World.memoryLoad
  dsimp only
  rw [hcache]
  exact h.setCache (cached_memoryRegion (h.caches t) id)

theorem Sound.memoryStore (h : w.Sound) (id : Int) (width : ℕ) (value : Int)
    (hi : w.rt.reg.issued < 2 ^ 64) : (w.memoryStore t id width value).1.Sound := by
  have hout : (w.rt.reg.memoryStore (w.thread t).cache id width value).2.1 =
      (w.rt.reg.memoryRegion (w.thread t).cache id).1 ∧
      (w.rt.reg.memoryStore (w.thread t).cache id width value).1.shards = w.rt.reg.shards ∧
      (w.rt.reg.memoryStore (w.thread t).cache id width value).1.generation = w.rt.reg.generation ∧
      (w.rt.reg.memoryStore (w.thread t).cache id width value).1.issued = w.rt.reg.issued := by
    unfold Registry.memoryStore
    rcases w.rt.reg.memoryRegion (w.thread t).cache id with ⟨cache, _ | ⟨n, offset⟩⟩
    · exact ⟨rfl, rfl, rfl, rfl⟩
    · dsimp only
      split
      · exact ⟨rfl, rfl, rfl, rfl⟩
      · exact ⟨rfl, rfl, rfl, rfl⟩
  obtain ⟨hcache, hshards, hgen, hissued⟩ := hout
  have hreg : (w.withReg (w.rt.reg.memoryStore (w.thread t).cache id width value).1).Sound :=
    h.advances (.withReg (reaches_memoryStore _ id width value)) (hissued ▸ hi)
  refine hreg.setCache (fun e he => ?_)
  rw [hcache] at he
  obtain ⟨hle, hlive⟩ := cached_memoryRegion (h.caches t) id e he
  refine ⟨hle.trans hgen.ge, fun hg => ?_⟩
  obtain ⟨m, hm⟩ := hlive (hg.trans hgen)
  exact ⟨m, (lookup_congr hshards e.id).trans hm⟩

/-! ## Steps -/

/-- The step draws ids forward and keeps a sound world sound until they run out. -/
structure Keeps (w w' : World) : Prop where
  issued_le : w.rt.reg.issued ≤ w'.rt.reg.issued
  nextCore_le : w.rt.g.nextCore ≤ w'.rt.g.nextCore
  sound : w.Sound → w'.rt.reg.issued < 2 ^ 64 → w'.Sound

theorem Keeps.of_advances (h : Advances w w') : Keeps w w' :=
  ⟨h.reaches.issued_le, h.continues.nextCore_le, fun hs hi => hs.advances h hi⟩

theorem Keeps.trans {w'' : World} (h : Keeps w w') (h' : Keeps w' w'') : Keeps w w'' :=
  ⟨h.issued_le.trans h'.issued_le, h.nextCore_le.trans h'.nextCore_le,
    fun hs hi => h'.sound (h.sound hs (h'.issued_le.trans_lt hi)) hi⟩

theorem keeps_withReg {reg : Registry} (h : Reaches (fun _ => True) w.rt.reg reg) : Keeps w (w.withReg reg) :=
  .of_advances (.withReg h)

theorem keeps_orThrow {reg : Registry} (h : Reaches (fun _ => True) w.rt.reg reg) (result : Option Int)
    (message : String) : Keeps w (w.orThrow t reg result message).1 :=
  .of_advances (advances_orThrow h result message)

theorem keeps_loadOrThrow (id : Int) (width : ℕ) (mask : Int → Int) (message : String) :
    Keeps w (w.loadOrThrow t id width mask message).1 := by
  have hload : Keeps w (w.memoryLoad t id width).1 := ⟨le_rfl, le_rfl, fun hs _ => hs.memoryLoad id width⟩
  exact hload.trans (keeps_orThrow .refl _ message)

theorem keeps_storeOrThrow (id : Int) (width : ℕ) (value : Int) (message : String) :
    Keeps w (w.storeOrThrow t id width value message).1 := by
  have hle := (reaches_memoryStore (P := fun _ => True) (r := w.rt.reg) (w.thread t).cache id width value).issued_le
  have hstore : Keeps w (w.memoryStore t id width value).1 :=
    ⟨hle, le_rfl, fun hs hi => hs.memoryStore id width value (hle.trans_lt hi)⟩
  exact hstore.trans (keeps_orThrow .refl _ message)

theorem keeps_call (c : AbiCall) : Keeps w (w.call t c).1 := by
  have hP : ∀ x : Int, (fun _ : Int => True) x := fun _ => trivial
  cases c with
  | stringDrop id => exact keeps_withReg (reaches_takeString (fun _ _ => trivial))
  | arrayPush id elem => exact keeps_withReg (reaches_arrayPush id elem)
  | arraySet id index elem => exact .of_advances (advances_arraySet id index elem)
  | arrayPop id => exact keeps_withReg (reaches_arrayPop id)
  | arrayDrop id => exact keeps_withReg (reaches_arrayDrop (fun _ _ => trivial) (fun _ _ => trivial))
  | sharedRetain id => exact keeps_withReg (reaches_sharedRetain id)
  | sharedRelease id => exact keeps_withReg (reaches_sharedRelease (fun _ _ => trivial))
  | asyncSleepDrop id => exact keeps_withReg (reaches_asyncSleepDrop trivial)
  | goroutineDrop id =>
    exact .of_advances (advances_withRt (Runtime.follows_dropWrapper _ id
      (fun s core => Runtime.follows_dropGoroutine core)))
  | chanRetain id => exact keeps_withReg (reaches_chanRetain id)
  | chanDrop id => exact .of_advances (advances_withRt (Runtime.follows_chanDrop id))
  | chanClose id => exact .of_advances (advances_chanClose id)
  | chanSend id value =>
    rw [call, chanSend]
    cases w.rt.reg.taskCore id with
    | none => exact .of_advances (.refl w)
    | some core => exact .of_advances (advances_parkChanSend core value)
  | chanRecv id =>
    rw [call, chanRecv]
    cases w.rt.reg.taskCore id with
    | none => exact .of_advances (.refl w)
    | some core => exact .of_advances (advances_parkChanRecv core)
  | slicesOf array start stop => exact keeps_orThrow (mayAllocate_sliceOf array start stop).reaches _ _
  | slicesSub id start stop => exact keeps_orThrow (mayAllocate_sliceSub id start stop).reaches _ _
  | slicesLength id => exact keeps_orThrow .refl _ _
  | slicesGet id index => exact keeps_orThrow .refl _ _
  | slicesSet id index value => exact keeps_orThrow (reaches_sliceSet hP id index value) _ _
  | slicesToArray id => exact keeps_orThrow (reaches_sliceToArray id) _ _
  | slicesFill id value => exact keeps_orThrow (reaches_sliceFill hP id value) _ _
  | slicesCopyFrom dst src => exact keeps_orThrow (reaches_sliceCopyFrom hP dst src) _ _
  | slicesEqual a b => exact keeps_orThrow .refl _ _
  | slicesDrop id => exact keeps_withReg (reaches_sliceDrop trivial)
  | memoryOffset id delta => exact keeps_orThrow (mayAllocate_memoryOffset id delta).reaches _ _
  | memoryClone id => exact keeps_orThrow (mayAllocate_memoryClone id).reaches _ _
  | memoryDrop id => exact keeps_withReg (reaches_memoryDrop trivial)
  | memoryLoad8 id => exact keeps_loadOrThrow id 1 _ _
  | memoryLoad64 id => exact keeps_loadOrThrow id 8 _ _
  | memoryStore8 id value =>
    rw [call]
    split
    · exact keeps_orThrow .refl _ _
    · exact keeps_storeOrThrow id 1 value _
  | memoryStore64 id value => exact keeps_storeOrThrow id 8 value _
  | takeOpaque type id => exact keeps_withReg (reaches_takeOpaque type trivial)

/-! ## New wrappers -/

/-- A new entry whose core, if it has one, was drawn for it. -/
theorem keeps_inserts {g : Global} {interests : IdMap (Int × Bool)} {hd : Handle} (hg : w.rt.g.Continues g)
    (hv : w.Sound → Runtime.Vouches ⟨(w.rt.reg.insert hd).1, g, interests⟩ hd) :
    Keeps w (w.withRt ⟨(w.rt.reg.insert hd).1, g, interests⟩) := by
  refine ⟨Nat.le_succ _, hg.nextCore_le, fun hs hi => ?_⟩
  have hi' : w.rt.reg.issued + 1 < 2 ^ 64 := hi
  exact hs.stores (hs.balanced.insert hi' hd) (shards_insert hd) (hs.balanced.fresh (by omega)) rfl rfl hg (hv hs)

theorem keeps_insertPermanent {hd : Handle} (hplain : hd.core? = none) :
    Keeps w (w.withReg (w.rt.reg.insertPermanent hd).1) := by
  refine ⟨Nat.le_succ _, le_rfl, fun hs hi => ?_⟩
  have hi' : w.rt.reg.issued + 1 < 2 ^ 64 := hi
  refine hs.stores (hs.balanced.insertPermanent hi' hd) (shards_insertPermanent hd)
    (hs.balanced.fresh (by omega)) rfl rfl (.refl _) (fun core hc => ?_)
  rw [hplain] at hc
  cases hc

theorem keeps_chanNew (capacity : Int) (owns : Bool)
    (hn : (w.rt.chanNew capacity owns).1.g.nextCore < maxI64) :
    Keeps w (w.withRt (w.rt.chanNew capacity owns).1) := by
  have hg : w.rt.g.Continues (w.rt.g.registerChan (max capacity 0).toNat owns).1 := .registerChan _ owns hn
  have hcore : (w.rt.chanNew capacity owns).1.g.nextCore = min (w.rt.g.nextCore + (1 : ℕ)) maxI64 := rfl
  refine keeps_inserts hg (fun _ core hc => ?_)
  obtain rfl : w.rt.g.nextCore = core := Option.some_inj.mp hc
  refine ⟨?_, fun hk => by cases hk⟩
  change w.rt.g.nextCore < (w.rt.chanNew capacity owns).1.g.nextCore
  omega

/-- A wrapper of a new core that is no channel. -/
theorem keeps_registerIo {hd : Handle} (hd_core : hd.core? = some w.rt.g.nextCore)
    (hn : w.rt.g.registerIo.1.nextCore < maxI64) :
    Keeps w (w.withRt ⟨(w.rt.reg.insert hd).1, w.rt.g.registerIo.1, w.rt.interests⟩) := by
  have hg : w.rt.g.Continues w.rt.g.registerIo.1 :=
    .draws (n := 1) rfl hn one_pos (fun _ _ hnone => hnone)
  have hcore : w.rt.g.registerIo.1.nextCore = min (w.rt.g.nextCore + (1 : ℕ)) maxI64 := rfl
  refine keeps_inserts hg (fun hs core hc => ?_)
  rw [hd_core, Option.some_inj] at hc
  subst hc
  refine ⟨?_, fun _ => hs.chans _ le_rfl⟩
  change w.rt.g.nextCore < w.rt.g.registerIo.1.nextCore
  omega

/-- The wrapper of a spawned goroutine goes under the id reserved for it. -/
theorem keeps_registerWrapped {workers : AList (fun _ : ℕ => Worker)} {l : List Int} {poll : PollFn} {future : Int}
    {cleanup : Option CleanupFn} {rt : Runtime}
    (hrt : rt = (System.registerWrapped ⟨w.rt, workers, l⟩ poll future cleanup).rt)
    (hn : rt.g.nextCore < maxI64) : Keeps w (w.withRt rt) := by
  subst hrt
  have hcore : (System.registerWrapped ⟨w.rt, workers, l⟩ poll future cleanup).rt.g.nextCore =
      min (w.rt.g.nextCore + (1 : ℕ)) maxI64 := rfl
  have hissued : (System.registerWrapped ⟨w.rt, workers, l⟩ poll future cleanup).rt.reg.issued =
      w.rt.reg.issued + 1 := issued_insertReserved _ _
  have hg : w.rt.g.Continues (System.registerWrapped ⟨w.rt, workers, l⟩ poll future cleanup).rt.g :=
    .draws (n := 1) hcore hn one_pos (fun _ _ hnone => hnone)
  refine ⟨(Nat.le_succ _).trans hissued.ge, hg.nextCore_le, fun hs hi => ?_⟩
  have hi' : w.rt.reg.issued + 1 < 2 ^ 64 := hissued.symm.trans_lt hi
  have hdraw : w.rt.reg.reserveId.1.Balanced :=
    (Reaches.refl.draw : Reaches (fun _ => True) w.rt.reg _).balanced hs.balanced hi'
  obtain ⟨hshards, hgen⟩ := insertReserved_kept (r := w.rt.reg.reserveId.1) (drawn w.rt.reg.issued)
    (.goroutine w.rt.g.nextCore)
  refine hs.stores (hdraw.insertReserved ⟨w.rt.reg.issued, Nat.lt_succ_self _, rfl⟩ _) hshards
    (hs.balanced.fresh (by omega)) hgen rfl hg (fun core hc => ?_)
  obtain rfl : w.rt.g.nextCore = core := Option.some_inj.mp hc
  refine ⟨?_, fun _ => hs.chans _ le_rfl⟩
  change w.rt.g.nextCore < (System.registerWrapped ⟨w.rt, workers, l⟩ poll future cleanup).rt.g.nextCore
  omega

end World

/-! ## Runs -/

/-- A step of the runtime: a call, another operation on handles, a step of the pool with
whatever its threads hold, or a change of what a thread is driving. -/
inductive AbiStep
  | call (t : ℕ) (c : AbiCall)
  | handle (op : RegistryOp)
  | timerNew
  | ioNew
  | pool (workers : AList (fun _ : ℕ => Worker)) (outside : List Int) (a : Act)
  | thread (t : ℕ) (pending gid : Option Int) (state : TaskState)

namespace World

variable {w : World}

def abiStep (w : World) : AbiStep → World
  | .call t c => (w.call t c).1
  | .handle op => w.withRt (w.rt.registryStep op).1
  | .timerNew => w.withRt w.rt.timerNew.1
  | .ioNew => w.withRt w.rt.ioNew.1
  | .pool workers outside a => w.withRt (System.step ⟨w.rt, workers, outside⟩ a).rt
  | .thread t pending gid state =>
      w.onThread t (fun th => { th with pending := pending, gid := gid, state := state })

/-- Wrappers of scheduler cores come from their own constructors: `chanNew`, `timerNew`,
`ioNew` and the spawn of the pool, the only user of reserved ids. -/
def StepEnabled (_ : World) : AbiStep → Prop
  | .handle (.insert hd) | .handle (.insertPermanent hd) | .pool _ _ (.alloc hd) => hd.core? = none
  | .handle (.insertReserved ..) | .handle (.schedule _) => False
  | _ => True

theorem keeps_handle {op : RegistryOp} (he : w.StepEnabled (.handle op))
    (hn : (w.rt.registryStep op).1.g.nextCore < maxI64) : Keeps w (w.withRt (w.rt.registryStep op).1) := by
  cases hins : w.rt.inserted op with
  | none =>
    have hstep : w.rt.Step (fun _ => False) (w.rt.registryStep op) := by
      refine Runtime.step_registryStep ?_ (fun hd h => by cases hins.symm.trans h)
      rintro id hd rfl
      exact he.elim
    have hg : w.rt.g.Continues (w.rt.registryStep op).1.g := by
      refine Runtime.continues_registryStep ?_ hn
      rintro g rfl
      exact he
    exact .of_advances (advances_withRt ⟨hstep.effect.reaches_of_plain, hg⟩)
  | some hd =>
    cases op with
    | insert hd => exact keeps_withReg (Reaches.refl.insert hd he)
    | insertPermanent hd => exact keeps_insertPermanent he
    | insertReserved id hd => exact he.elim
    | chanNew capacity owns => exact keeps_chanNew capacity owns hn
    | _ => cases hins

theorem keeps_pool {workers : AList (fun _ : ℕ => Worker)} {l : List Int} {a : Act}
    (he : w.StepEnabled (.pool workers l a)) (hn : (System.step ⟨w.rt, workers, l⟩ a).rt.g.nextCore < maxI64) :
    Keeps w (w.withRt (System.step ⟨w.rt, workers, l⟩ a).rt) := by
  by_cases hgo : ∃ site poll future cleanup, a = .go site poll future cleanup
  · obtain ⟨site, poll, future, cleanup, rfl⟩ := hgo
    change Keeps w (w.withRt (System.go ⟨w.rt, workers, l⟩ site poll future cleanup).rt)
    change (System.go ⟨w.rt, workers, l⟩ site poll future cleanup).rt.g.nextCore < maxI64 at hn
    unfold System.go at hn ⊢
    cases site with
    | none => exact keeps_registerWrapped rfl hn
    | some worker =>
      dsimp only at hn ⊢
      cases hf : System.free? ⟨w.rt, workers, l⟩ worker with
      | none => exact .of_advances (advances_withRt (.refl w.rt))
      | some wk =>
        rw [hf] at hn
        exact keeps_registerWrapped rfl hn
  · refine .of_advances (advances_withRt (System.follows_step a hn ?_ ?_))
    · rintro site poll future cleanup rfl
      exact hgo ⟨site, poll, future, cleanup, rfl⟩
    · rintro hd rfl
      exact he

theorem keeps_abiStep {st : AbiStep} (he : w.StepEnabled st) (hn : (w.abiStep st).rt.g.nextCore < maxI64) :
    Keeps w (w.abiStep st) := by
  cases st with
  | call t c => exact keeps_call c
  | handle op => exact keeps_handle he hn
  | timerNew => exact keeps_registerIo rfl hn
  | ioNew => exact keeps_registerIo rfl hn
  | pool workers outside a => exact keeps_pool he hn
  | thread t pending gid state =>
    exact .of_advances (.onThread (fun th => { th with pending := pending, gid := gid, state := state })
      (fun _ => rfl))

theorem start_sound : start.Sound := by
  refine ⟨balanced_empty, fun t e he => (by cases he), fun id hd hl => ?_, fun _ _ => rfl⟩
  have hnone : start.rt.reg.lookup id = none := rfl
  rw [hnone] at hl
  cases hl

/-- Until the counters for handles and for cores run out, every run is sound. -/
theorem run_sound (steps : List AbiStep) (hrun : Allowed abiStep StepEnabled start steps) :
    (execute abiStep start steps).rt.reg.issued < 2 ^ 64 →
    (execute abiStep start steps).rt.g.nextCore < maxI64 → (execute abiStep start steps).Sound := by
  refine hrun.invariant (I := fun w => w.rt.reg.issued < 2 ^ 64 → w.rt.g.nextCore < maxI64 → w.Sound)
    (fun w st hw he hi hn => ?_) (fun _ _ => start_sound)
  have hstep := keeps_abiStep he hn
  exact hstep.sound (hw (hstep.issued_le.trans_lt hi) (hstep.nextCore_le.trans_lt hn)) hi

end World

/-- In every state the runtime can reach before its counters run out, a call whose handle
is null, unknown, consumed or of another kind is safe. A silent call returns its failure
and changes nothing; a send or a receive parks at most the calling goroutine. A call of the
`slices` or `memory` module arms one new exception and changes nothing else. -/
theorem refused_calls_are_safe (steps : List AbiStep)
    (hrun : Allowed World.abiStep World.StepEnabled World.start steps) (t : ℕ) (c : AbiCall) :
    let w := execute World.abiStep World.start steps
    w.rt.reg.issued + 1 < 2 ^ 64 → w.rt.g.nextCore < maxI64 → w.Refuses c →
    (c.fault = none → (w.call t c).1.rt = w.rt ∧ (¬w.Parks c → w.call t c = (w, c.failure))) ∧
      ∀ message, c.fault = some message → w.Throws t message (w.call t c) := by
  intro w hi hn hrefuse
  have hs : w.Sound := World.run_sound steps hrun (Nat.lt_of_succ_lt hi) hn
  refine ⟨fun hf => ?_, fun message hf => ?_⟩
  · by_cases hp : w.Parks c
    · exact ⟨World.rt_call_of_parks hp, fun hnp => absurd hp hnp⟩
    · have hcall := World.call_of_refuses (t := t) hs.coresApart hrefuse hf hp
      exact ⟨by rw [hcall], fun _ => hcall⟩
  · rw [World.call_of_fault (hs.caches t) hrefuse hf]
    exact World.throws_throwString hs.balanced hi message

/-- Closing the wrapper of a timer, which names a core of another table, and pushing onto a
string. -/
theorem refused_calls_are_safe_of_timer :
    let steps := [.handle (.insert (.string "a")), .timerNew]
    let w := execute World.abiStep World.start steps
    w.rt.reg.taskCore 2 = some 1 ∧ w.call 0 (.chanClose 2) = (w, none) ∧
      w.call 0 (.arrayPush 1 7) = (w, some null) := by
  intro steps w
  have hrun : Allowed World.abiStep World.StepEnabled World.start steps := ⟨rfl, trivial, trivial⟩
  have hsafe := refused_calls_are_safe steps hrun 0
  have hi : w.rt.reg.issued + 1 < 2 ^ 64 := by decide
  have hn : w.rt.g.nextCore < maxI64 := by decide
  have hstring : w.rt.reg.lookup 1 = some (.string "a") := by decide +kernel
  have htimer : w.rt.reg.lookup 2 = some (.reactorReg 1) := by decide +kernel
  refine ⟨by decide +kernel, ?_, ?_⟩
  · refine ((hsafe (.chanClose 2) hi hn (fun hd hl => ?_)).1 rfl).2 (fun h => h)
    rw [htimer, Option.some_inj] at hl
    exact hl ▸ rfl
  · refine ((hsafe (.arrayPush 1 7) hi hn (fun hd hl => ?_)).1 rfl).2 (fun h => h)
    rw [hstring, Option.some_inj] at hl
    exact hl ▸ rfl

/-- Writing through the null slice throws: the registry gains the message. -/
theorem refused_slicesSet_allocates :
    ¬ ∀ (steps : List AbiStep), Allowed World.abiStep World.StepEnabled World.start steps →
      ∀ (t : ℕ) (c : AbiCall),
      let w := execute World.abiStep World.start steps
      w.rt.reg.issued + 1 < 2 ^ 64 → w.rt.g.nextCore < maxI64 → w.Refuses c →
      w.call t c = (w, c.failure) := by
  intro hall
  have hlacks : World.start.Refuses (.slicesSet 0 0 0) := by
    intro hd hl
    have hnone : World.start.rt.reg.lookup 0 = none := rfl
    rw [hnone] at hl
    cases hl
  have h := hall [] trivial 0 (.slicesSet 0 0 0) (by decide) (by decide) hlacks
  have hissued : (World.start.call 0 (.slicesSet 0 0 0)).1.rt.reg.issued ≠ World.start.rt.reg.issued := by
    decide +kernel
  exact hissued (congrArg (fun out => out.1.rt.reg.issued) h)

end Neutron
