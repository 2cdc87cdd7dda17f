import LinuxHacks.UserCache.Weights

/-!
# The slice of a user

`scheduler_tick` gives a user whose slice is used up `100 * uwrr_weight` ticks,
cut to 32 bits, and there is no upper limit on the weight.

* `refill_eq_iff`: the refill is exact up to the weight 42949672.
* `weighted_slices`: in every run that sets only such weights all slices stay
  positive, so that no decrement wraps, and a refill grows with the weight.
-/

namespace LinuxHacks.UserCache

open LinuxHacks.Lib
open LinuxHacks.Uwrr (UWRR_DEFAULT_WEIGHT UWRR_START_SLICE dec32 u32)

/-! ## One tick -/

/-- `100 * p->user->uwrr_weight`, as it is stored. -/
def refill (u : UserStruct) : Nat := u32 (100 * u.uwrrWeight)

theorem u32_of_lt {n : Nat} (h : n < 2 ^ 32) : u32 n = n := Nat.mod_eq_of_lt h

theorem refill_eq_iff (u : UserStruct) :
    refill u = 100 * u.uwrrWeight ↔ 100 * u.uwrrWeight < 2 ^ 32 := by
  constructor
  · intro h
    rw [← h]
    exact Nat.mod_lt _ (by decide)
  · intro h
    exact u32_of_lt h

/-- `--x` does not wrap on a positive number. -/
theorem dec32_of_pos {n : Nat} (hpos : 1 ≤ n) (hlt : n < 2 ^ 32) : dec32 n = n - 1 := by
  unfold dec32 u32
  omega

theorem tickUser_weight (u : UserStruct) : (tickUser u).uwrrWeight = u.uwrrWeight := by
  rw [tickUser]
  split <;> rfl

/-- `tickUser` is what `scheduler_tick` does to the user of the task in the model of
the runqueue. -/
theorem uwrrTickUser_slice (s : Uwrr.State) (p : Uwrr.TaskId) (v : UserStruct)
    (hweight : v.uwrrWeight = (s.user (s.task p).user).uwrrWeight)
    (hslice : v.uwrrTimeSlice = (s.user (s.task p).user).uwrrTimeSlice) :
    ((Uwrr.uwrrTickUser s p).user (s.task p).user).uwrrTimeSlice = (tickUser v).uwrrTimeSlice := by
  have hself : ∀ (s : Uwrr.State) (u : Uwrr.UserId) (f : Uwrr.User → Uwrr.User),
      (s.modUser u f).user u = f (s.user u) := fun _ _ _ => Function.update_self ..
  rw [Uwrr.uwrrTickUser, tickUser]
  dsimp only
  rw [hself, ← hslice]
  split
  · have hresched : ∀ (s : Uwrr.State) (q : Uwrr.TaskId), (Uwrr.reschedTask s q).user = s.user :=
      fun _ _ => rfl
    rw [hresched]
    dsimp only
    rw [hself, hself, hweight]
  · rw [hself, ← hslice]

/-- The weight and the slice of a user are in range. -/
structure Fair (u : UserStruct) : Prop where
  slice_pos : 1 ≤ u.uwrrTimeSlice
  slice_lt : u.uwrrTimeSlice < 2 ^ 32
  weight_pos : 1 ≤ u.uwrrWeight
  weight_lt : 100 * u.uwrrWeight < 2 ^ 32

theorem Fair.refill {u : UserStruct} (h : Fair u) : refill u = 100 * u.uwrrWeight :=
  (refill_eq_iff u).mpr h.weight_lt

/-- One tick: a smaller slice, or the refill after the last one. -/
theorem Fair.tickUser_slice {u : UserStruct} (h : Fair u) : (tickUser u).uwrrTimeSlice =
    if u.uwrrTimeSlice = 1 then 100 * u.uwrrWeight else u.uwrrTimeSlice - 1 := by
  rw [tickUser, dec32_of_pos h.slice_pos h.slice_lt]
  by_cases hlast : u.uwrrTimeSlice = 1
  · rw [if_pos (by omega), if_pos hlast]
    exact u32_of_lt h.weight_lt
  · have hpos := h.slice_pos
    rw [if_neg (by omega), if_neg hlast]

theorem Fair.tickUser {u : UserStruct} (h : Fair u) : Fair (tickUser u) := by
  have hslice := h.tickUser_slice
  have hweight := tickUser_weight u
  have hpos := h.slice_pos
  have hlt := h.slice_lt
  have hwpos := h.weight_pos
  have hwlt := h.weight_lt
  refine ⟨?_, ?_, by rw [hweight]; exact hwpos, by rw [hweight]; exact hwlt⟩
  · rw [hslice]
    split <;> omega
  · rw [hslice]
    split <;> omega

/-! ## Every run -/

/-- The weight that the caller of `alloc_uid` is about to set. -/
def Caller.sets : Caller → Option Nat
  | .setuserweight weight => some weight
  | .keep | .getuserweight => none

def Pc.sets : Pc → Option Nat
  | .searching _ caller | .missed _ caller | .allocated _ _ caller | .got _ _ caller => caller.sets
  | .ready _ | .releasing _ _ => none

/-- All users are in range, and so are the weights about to be set. -/
structure AllFair (s : State) : Prop where
  user : ∀ a, Fair (s.cache.user a)
  sets : ∀ t w, (s.pc t).sets = some w → 1 ≤ w ∧ 100 * w < 2 ^ 32

/-- A weight that `sys_setuserweight` accepts is at most 42949672. -/
def SmallWeights (s : State) : Label → Prop
  | .setuserweight t uid weight =>
      (∃ me, s.me t = some me ∧ (s.cache.user me).uid = 0) → -1 ≤ uid → uid ≤ 65535 →
        100 * weight < 2 ^ 32
  | _ => True

/-- What `alloc_uid` gives a new user. -/
theorem fair_fresh (uid : Uid) (count : Int) :
    Fair ⟨uid, count, UWRR_DEFAULT_WEIGHT, UWRR_START_SLICE⟩ :=
  ⟨show 1 ≤ UWRR_START_SLICE by decide, show UWRR_START_SLICE < 2 ^ 32 by decide,
    show 1 ≤ UWRR_DEFAULT_WEIGHT by decide, show 100 * UWRR_DEFAULT_WEIGHT < 2 ^ 32 by decide⟩

theorem fair_modUser {c : Cache} (h : ∀ b, Fair (c.user b)) (a : Addr) {f : UserStruct → UserStruct}
    (hf : Fair (f (c.user a))) : ∀ b, Fair ((c.modUser a f).user b) := by
  intro b
  by_cases hb : b = a
  · rw [hb]
    show Fair (Function.update c.user a _ a)
    rw [Function.update_self]
    exact hf
  · show Fair (Function.update c.user a _ b)
    rw [Function.update_of_ne hb]
    exact h b

/-- Counting references changes no weight and no slice. -/
theorem fair_count {c : Cache} (h : ∀ b, Fair (c.user b)) (a : Addr) (count : UserStruct → Int) :
    ∀ b, Fair ((c.modUser a fun u => { u with count := count u }).user b) :=
  fair_modUser h a ⟨(h a).slice_pos, (h a).slice_lt, (h a).weight_pos, (h a).weight_lt⟩

theorem fair_find {c c' : Cache} {uid : Uid} {a : Addr} (h : ∀ b, Fair (c.user b))
    (hfind : uidHashFind c uid = some (a, c')) : ∀ b, Fair (c'.user b) := by
  obtain ⟨a', _, heq⟩ := Option.map_eq_some_iff.mp hfind
  cases heq
  exact fair_count h a fun u => u.count + 1

theorem fair_freeUid {c : Cache} (h : ∀ b, Fair (c.user b)) (a : Addr) :
    ∀ b, Fair ((freeUid c a).user b) := by
  have hcount := fair_count h a fun u => u.count - 1
  intro b
  rw [freeUid]
  split
  · split
    · exact hcount b
    · exact hcount b
  · exact hcount b

/-- A task moves to a point with no weight to set but one it had, and the users
stay in range. -/
theorem AllFair.move {s s' : State} (h : AllFair s) {t : TaskId} {pc : Pc}
    (huser : ∀ a, Fair (s'.cache.user a)) (hpc : s'.pc = Function.update s.pc t pc)
    (hsets : pc.sets = none ∨ pc.sets = (s.pc t).sets) : AllFair s' := by
  refine ⟨huser, fun t' w hw => ?_⟩
  rw [hpc] at hw
  by_cases ht : t' = t
  · rw [ht, Function.update_self] at hw
    rcases hsets with hnone | hsame
    · rw [hnone] at hw
      cases hw
    · rw [hsame] at hw
      exact h.sets t w hw
  · rw [Function.update_of_ne ht] at hw
    exact h.sets t' w hw

theorem AllFair.setWeight {s : State} (h : AllFair s) (a : Addr) (uid : Uid) {weight : Nat}
    (hpos : 1 ≤ weight) (hlt : 100 * weight < 2 ^ 32) :
    ∀ b, Fair ((setWeight s a uid weight).cache.user b) :=
  fair_modUser (f := fun u => { u with uwrrWeight := weight }) h.user a
    ⟨(h.user a).slice_pos, (h.user a).slice_lt, hpos, hlt⟩

/-- The step lemma. -/
theorem AllFair.step {s s' : State} (h : AllFair s) {l : Label} (hok : SmallWeights s l)
    (hst : step s l = some s') : AllFair s' := by
  cases l with
  | getuserweight t uid =>
      obtain ⟨me, hme, rfl⟩ := Option.map_eq_some_iff.mp hst
      rw [sysGetuserweight]
      split
      · exact h.move h.user rfl (Or.inl rfl)
      · split
        · exact h.move h.user rfl (Or.inl rfl)
        · exact h.move h.user rfl (Or.inl rfl)
  | setuserweight t uid weight =>
      obtain ⟨me, hme, rfl⟩ := Option.map_eq_some_iff.mp hst
      rw [sysSetuserweight]
      by_cases hpos : weight ≤ 0
      · rw [if_pos hpos]
        exact h.move h.user rfl (Or.inl rfl)
      rw [if_neg hpos]
      split
      · exact h.move h.user rfl (Or.inl rfl)
      · split
        · exact h.move h.user rfl (Or.inl rfl)
        · next huid hroot =>
          have hsmall : 100 * weight < 2 ^ 32 :=
            hok ⟨me, hme, not_not.mp hroot⟩ (by omega) (by omega)
          split
          · exact h.move (h.setWeight me (s.cache.user me).uid (by omega) (by omega)) rfl (Or.inl rfl)
          · -- the weight is passed on to the caller of `alloc_uid`
            refine ⟨h.user, fun t' w hw => ?_⟩
            have hw' : (Function.update s.pc t (.searching uid.toNat
              (.setuserweight weight.toNat)) t').sets = some w := hw
            by_cases ht : t' = t
            · rw [ht, Function.update_self] at hw'
              cases hw'
              omega
            · rw [Function.update_of_ne ht] at hw'
              exact h.sets t' w hw'
  | allocUid t uid =>
      obtain ⟨me, hme, rfl⟩ := Option.map_eq_some_iff.mp hst
      exact h.move h.user rfl (Or.inl rfl)
  | search t =>
      unfold UserCache.step search at hst
      dsimp only at hst
      split at hst
      · next uid caller hpc =>
          split at hst
          · next a c hfind =>
              cases hst
              exact h.move (fair_find h.user hfind) rfl (Or.inr (by rw [hpc]; rfl))
          · cases hst
            exact h.move h.user rfl (Or.inr (by rw [hpc]; rfl))
      · cases hst
  | allocate t new =>
      unfold UserCache.step allocate at hst
      dsimp only at hst
      split at hst
      · cases hst
        exact h.move h.user rfl (Or.inl rfl)
      · next uid caller a hpc =>
          split at hst
          · cases hst
          · cases hst
            refine h.move (fun b => ?_) rfl (Or.inr (by rw [hpc]; rfl))
            show Fair (Function.update s.cache.user a _ b)
            by_cases hb : b = a
            · rw [hb, Function.update_self]
              exact fair_fresh uid 1
            · rw [Function.update_of_ne hb]
              exact h.user b
      · cases hst
  | insert t =>
      unfold UserCache.step insert at hst
      dsimp only at hst
      split at hst
      · next uid new caller hpc =>
          split at hst
          · next a c hfind =>
              cases hst
              have huser : ∀ b, Fair (c.user b) := fair_find h.user hfind
              exact h.move huser rfl (Or.inr (by rw [hpc]; rfl))
          · cases hst
            exact h.move h.user rfl (Or.inr (by rw [hpc]; rfl))
      · cases hst
  | use t i =>
      unfold UserCache.step use at hst
      dsimp only at hst
      split at hst
      · split at hst
        · cases hst
          exact h.move h.user rfl (Or.inl rfl)
        · cases hst
      · cases hst
        exact h.move h.user rfl (Or.inl rfl)
      · next uid a weight hpc =>
          cases hst
          obtain ⟨hpos, hlt⟩ := h.sets t weight (by rw [hpc]; rfl)
          exact h.move (h.setWeight a uid hpos hlt) rfl (Or.inl rfl)
      · cases hst
  | release t =>
      unfold UserCache.step release at hst
      dsimp only at hst
      split at hst
      · cases hst
        exact h.move (fair_freeUid h.user _) rfl (Or.inl rfl)
      · cases hst
  | findUser t uid i =>
      unfold UserCache.step findUser at hst
      dsimp only at hst
      split at hst
      · next hfind =>
          split at hst
          · cases hst
            exact ⟨fair_find h.user hfind, h.sets⟩
          · cases hst
      · cases hst
        exact h
      · cases hst
  | freeUid t i =>
      unfold UserCache.step at hst
      dsimp only at hst
      split at hst
      · cases hst
        exact ⟨fair_freeUid h.user _, h.sets⟩
      · cases hst
  | getUid t i =>
      unfold UserCache.step getUid at hst
      dsimp only at hst
      split at hst
      · split at hst
        · cases hst
          exact ⟨fair_count h.user _ fun u => u.count + 1, h.sets⟩
        · cases hst
      · cases hst
  | newTask t i =>
      unfold UserCache.step at hst
      dsimp only at hst
      split at hst
      · cases hst
        exact h.move h.user rfl (Or.inl rfl)
      · cases hst
  | quit t i =>
      unfold UserCache.step at hst
      dsimp only at hst
      split at hst
      · split at hst
        · cases hst
          exact ⟨h.user, h.sets⟩
        · cases hst
      · cases hst
  | switchUid t i =>
      unfold UserCache.step at hst
      dsimp only at hst
      split at hst
      · cases hst
        exact h.move h.user rfl (Or.inl rfl)
      · cases hst
  | tick t =>
      obtain ⟨a, _, rfl⟩ := Option.map_eq_some_iff.mp hst
      exact ⟨fair_modUser h.user a (h.user a).tickUser, h.sets⟩

theorem reach_fair {s : State} (h : system.Reach SmallWeights s) : AllFair s := by
  refine System.Reach.invariant ?_ (fun s l s' hs hok hst => hs.step hok hst) h
  rintro s rfl
  exact ⟨fun _ => fair_fresh 0 1, fun t w hw => by cases hw⟩

/-! ## Bigger weight, bigger slice -/

/-- The slices in a state: no decrement wraps, the last tick of a slice brings
`100 * weight` new ones, and a refill is positive and grows with the weight. -/
structure SlicesRight (s : State) : Prop where
  dec : ∀ t a, s.current t = some a → 1 ≤ (s.cache.user a).uwrrTimeSlice ∧
    dec32 (s.cache.user a).uwrrTimeSlice = (s.cache.user a).uwrrTimeSlice - 1
  tick : ∀ t a s', s.current t = some a → step s (.tick t) = some s' →
    (s'.cache.user a).uwrrTimeSlice =
      if (s.cache.user a).uwrrTimeSlice = 1 then 100 * (s.cache.user a).uwrrWeight
      else (s.cache.user a).uwrrTimeSlice - 1
  refill_pos : ∀ a, 1 ≤ refill (s.cache.user a)
  refill_mono : ∀ a b, (s.cache.user a).uwrrWeight ≤ (s.cache.user b).uwrrWeight →
    refill (s.cache.user a) ≤ refill (s.cache.user b)

theorem tick_user {s s' : State} {t : TaskId} {a : Addr} (hcur : s.current t = some a)
    (hst : step s (.tick t) = some s') : s'.cache.user a = tickUser (s.cache.user a) := by
  have htick : step s (.tick t) = some { s with cache := s.cache.modUser a tickUser } := by
    show (s.current t).map _ = _
    rw [hcur]
    rfl
  rw [htick, Option.some.injEq] at hst
  rw [← hst]
  exact Function.update_self ..

theorem AllFair.slicesRight {s : State} (h : AllFair s) : SlicesRight s := by
  refine ⟨fun t a _ => ?_, fun t a s' hcur hst => ?_, fun a => ?_, fun a b hle => ?_⟩
  · exact ⟨(h.user a).slice_pos, dec32_of_pos (h.user a).slice_pos (h.user a).slice_lt⟩
  · rw [tick_user hcur hst]
    exact (h.user a).tickUser_slice
  · have hpos := (h.user a).weight_pos
    rw [(h.user a).refill]
    omega
  · rw [(h.user a).refill, (h.user b).refill]
    omega

/-- **Bigger weight, bigger slice.** The refill after the last tick is exact up to
the weight 42949672 and for no weight above; and in every run in which no bigger
weight is accepted, the slices are right in every state. -/
theorem weighted_slices (u : UserStruct) (hlast : u.uwrrTimeSlice = 1) (s : State)
    (h : system.Reach SmallWeights s) :
    ((tickUser u).uwrrTimeSlice = 100 * u.uwrrWeight ↔ 100 * u.uwrrWeight < 2 ^ 32) ∧
      SlicesRight s := by
  refine ⟨?_, (reach_fair h).slicesRight⟩
  have hrefill : (tickUser u).uwrrTimeSlice = refill u := by
    rw [tickUser, hlast]
    rfl
  rw [hrefill]
  exact refill_eq_iff u

/-- `n` ticks of a task, while the slice of its user lasts. -/
theorem ticks_reached {ok : State → Label → Prop} {t : TaskId} {a : Addr}
    (hok : ∀ s, ok s (.tick t)) : ∀ (n : Nat) {s : State} {slice : Nat}, system.Reach ok s →
    s.current t = some a → (s.cache.user a).uwrrTimeSlice = slice + n →
    1 ≤ slice → slice + n < 2 ^ 32 →
    ∃ s', system.Reach ok s' ∧ s'.current t = some a ∧
      (s'.cache.user a).uwrrTimeSlice = slice ∧
      (s'.cache.user a).uwrrWeight = (s.cache.user a).uwrrWeight
  | 0, s, slice, h, hcur, hslice, _, _ => ⟨s, h, hcur, hslice, rfl⟩
  | n + 1, s, slice, h, hcur, hslice, hpos, hlt => by
      obtain ⟨s₁, hs₁⟩ : ∃ s₁, step s (.tick t) = some s₁ :=
        ⟨_, show (s.current t).map _ = _ by rw [hcur]; rfl⟩
      have huser := tick_user hcur hs₁
      have hcur₁ : s₁.current t = some a := by
        obtain ⟨_, _, rfl⟩ := Option.map_eq_some_iff.mp hs₁
        exact hcur
      have hdec := dec32_of_pos (n := slice + (n + 1)) (by omega) hlt
      have hslice₁ : (s₁.cache.user a).uwrrTimeSlice = slice + n := by
        rw [huser, tickUser, hslice, hdec, if_neg (by omega)]
        rfl
      obtain ⟨s', hs', hcur', hslice', hweight'⟩ :=
        ticks_reached hok n (.step _ h (hok s) hs₁) hcur₁ hslice₁ hpos (by omega)
      refine ⟨s', hs', hcur', hslice', ?_⟩
      rw [hweight', huser, tickUser_weight]

/-- Root gives user 5 the weight 20, and task 1 begins as a task of user 5. A tick of
each. -/
def secondUser : List Label :=
  [.setuserweight 0 5 20, .search 0, .allocate 0 (some 3), .insert 0, .use 0 0, .release 0,
    .allocUid 0 5, .search 0, .use 0 0, .newTask 1 0, .tick 0, .tick 1]

/-- The slice of user 5 goes down to 1, and is refilled with 2000. -/
theorem secondUser_slices : ∃ s, system.Reach SmallWeights s ∧
    (s.cache.user 3).uwrrTimeSlice = 1 ∧ (s.cache.user 3).uwrrWeight = 20 ∧
    (tickUser (s.cache.user 3)).uwrrTimeSlice = 2000 ∧ SlicesRight s := by
  have hrun : (secondUser.foldlM step State.init).map (fun s =>
      (s.current 1, (s.cache.user 3).uwrrTimeSlice, (s.cache.user 3).uwrrWeight)) =
        some (some 3, 999, 20) := by
    decide +kernel
  obtain ⟨s₁, hs₁, hfields⟩ := Option.map_eq_some_iff.mp hrun
  simp only [Prod.mk.injEq] at hfields
  obtain ⟨hcur₁, hslice₁, hweight₁⟩ := hfields
  have hok : ∀ l ∈ secondUser, ∀ s, SmallWeights s l := by
    intro l hl s
    simp only [secondUser, List.mem_cons, List.not_mem_nil, or_false] at hl
    rcases hl with rfl | rfl | rfl | rfl | rfl | rfl | rfl | rfl | rfl | rfl | rfl | rfl
    · exact fun _ _ _ => by decide
    all_goals trivial
  obtain ⟨s, hs, -, hslice, hweight⟩ := ticks_reached (fun _ => trivial) 998
    (.foldlM (fun _ _ _ h => h) hok (.init rfl) hs₁) hcur₁ hslice₁ (le_refl 1) (by decide)
  obtain ⟨hrefill, hright⟩ := weighted_slices (s.cache.user 3) hslice s hs
  rw [hweight, hweight₁] at hrefill
  exact ⟨s, hs, hslice, hweight.trans hweight₁, hrefill.mpr (by decide), hright⟩

/-- Root sets its weight to `2 ^ 30`, and the next refill is empty. -/
theorem empty_refill : ∃ s, system.Reach System.anyStep s ∧ ¬ SlicesRight s := by
  obtain ⟨s₁, hs₁⟩ : ∃ s₁, step State.init (.setuserweight 0 (-1) (2 ^ 30)) = some s₁ := ⟨_, rfl⟩
  have hcur₁ : s₁.current 0 = some rootUser := by
    cases hs₁
    rfl
  have hweight₁ : (s₁.cache.user rootUser).uwrrWeight = 2 ^ 30 := by
    cases hs₁
    rfl
  have hslice₁ : (s₁.cache.user rootUser).uwrrTimeSlice = 1 + 999 := by
    cases hs₁
    rfl
  have hreach₁ : system.Reach System.anyStep s₁ := .step _ (.init rfl) trivial hs₁
  obtain ⟨s₂, hreach₂, hcur₂, hslice₂, hweight₂⟩ :=
    ticks_reached (fun _ => trivial) 999 hreach₁ hcur₁ hslice₁ (le_refl 1) (by decide)
  refine ⟨s₂, hreach₂, fun h => ?_⟩
  have hpos := h.refill_pos rootUser
  rw [refill, hweight₂, hweight₁] at hpos
  exact absurd hpos (by decide)

end LinuxHacks.UserCache
