import LinuxHacks.Lib.Placement
import LinuxHacks.UserCache.Model

/-!
# The invariant of the cache

`CacheOk` relates the cache to the references taken from it, to the weight that
each uid should have, and to the structs that `alloc_uid` has made and not yet
inserted. The argument for the weights is in two fields: a struct in the table has
the weight of its uid (`weight`), and a uid without a struct has the default one
(`unknown`), which is what `free_uid` looks at before it frees.
-/

namespace LinuxHacks.UserCache

open LinuxHacks.Lib
open LinuxHacks.Lib.Placement
open LinuxHacks.Uwrr (UWRR_DEFAULT_WEIGHT UWRR_START_SLICE)

variable {α : Type}

/-- The struct is in the table, in the list of its uid. -/
def Hashed (c : Cache) (a : Addr) : Prop := a ∈ c.table (uidhashfn (c.user a).uid)

structure CacheOk (c : Cache) (refs : α → Option Addr) (w : Uid → Nat)
    (o : TaskId → Option (Uid × Addr)) : Prop where
  nodup : ∀ b, (c.table b).Nodup
  bucket : ∀ b a, a ∈ c.table b → uidhashfn (c.user a).uid = b ∧ c.allocated a = true
  unique : ∀ a a', Hashed c a → Hashed c a' → (c.user a).uid = (c.user a').uid → a = a'
  finitary : Finitary refs
  referenced : ∀ x a, refs x = some a → Hashed c a
  count : ∀ a, Hashed c a → (c.user a).count = count refs (fun b => b = a)
  weight : ∀ a, Hashed c a → (c.user a).uwrrWeight = w (c.user a).uid
  unknown : ∀ uid, (∀ a, Hashed c a → (c.user a).uid ≠ uid) → w uid = UWRR_DEFAULT_WEIGHT
  own : ∀ t uid a, o t = some (uid, a) → c.allocated a = true ∧ ¬ Hashed c a ∧
    c.user a = ⟨uid, 1, UWRR_DEFAULT_WEIGHT, UWRR_START_SLICE⟩
  ownOne : ∀ t t' uid uid' a, o t = some (uid, a) → o t' = some (uid', a) → t = t'

/-- Structs in use keep their uid. -/
def SameUids (c c' : Cache) : Prop :=
  ∀ a, c.allocated a = true → (c'.user a).uid = (c.user a).uid

theorem modUser_self (c : Cache) (a : Addr) (f : UserStruct → UserStruct) :
    (c.modUser a f).user a = f (c.user a) := Function.update_self ..

theorem modUser_other (c : Cache) {a b : Addr} (f : UserStruct → UserStruct) (hb : b ≠ a) :
    (c.modUser a f).user b = c.user b := Function.update_of_ne hb ..

theorem modUser_uid {c : Cache} {a : Addr} {f : UserStruct → UserStruct}
    (hf : (f (c.user a)).uid = (c.user a).uid) (b : Addr) :
    ((c.modUser a f).user b).uid = (c.user b).uid := by
  by_cases hb : b = a
  · rw [hb, modUser_self]
    exact hf
  · rw [modUser_other c f hb]

theorem hashed_modUser {c : Cache} {a : Addr} {f : UserStruct → UserStruct}
    (hf : (f (c.user a)).uid = (c.user a).uid) (b : Addr) :
    Hashed (c.modUser a f) b ↔ Hashed c b := by
  rw [Hashed, modUser_uid hf]
  exact Iff.rfl

section Cache

variable {c : Cache} {refs : α → Option Addr} {w : Uid → Nat}
  {o : TaskId → Option (Uid × Addr)}

theorem CacheOk.hashed_of_mem (h : CacheOk c refs w o) {b : Nat} {a : Addr}
    (ha : a ∈ c.table b) : Hashed c a := by
  rw [Hashed, (h.bucket b a ha).1]
  exact ha

theorem CacheOk.allocated (h : CacheOk c refs w o) {a : Addr} (ha : Hashed c a) :
    c.allocated a = true := (h.bucket _ a ha).2

/-! ## Lookups -/

theorem CacheOk.find_some (h : CacheOk c refs w o) {uid : Uid} {a : Addr} {c' : Cache}
    (hfind : uidHashFind c uid = some (a, c')) :
    Hashed c a ∧ (c.user a).uid = uid ∧
      c' = c.modUser a fun u => { u with count := u.count + 1 } := by
  rw [uidHashFind, Option.map_eq_some_iff] at hfind
  obtain ⟨b, hb, heq⟩ := hfind
  obtain ⟨rfl, rfl⟩ := Prod.mk.inj heq
  have huid := List.find?_some hb
  exact ⟨h.hashed_of_mem (List.mem_of_find?_eq_some hb), of_decide_eq_true huid, rfl⟩

theorem find_none {uid : Uid} (hfind : uidHashFind c uid = none) (a : Addr) (ha : Hashed c a) :
    (c.user a).uid ≠ uid := by
  rw [uidHashFind, Option.map_eq_none_iff, List.find?_eq_none] at hfind
  rintro rfl
  exact hfind a ha (decide_eq_true rfl)

/-! ## One struct in the table changes -/

/-- References and weights of the other structs stay. -/
theorem CacheOk.modUser (h : CacheOk c refs w o) {a : Addr} (ha : Hashed c a)
    {f : UserStruct → UserStruct} {refs' : α → Option Addr} {w' : Uid → Nat}
    (hf : (f (c.user a)).uid = (c.user a).uid) (hfin : Finitary refs')
    (hrefs : ∀ x b, refs' x = some b → b ≠ a → refs x = some b)
    (hcount : (f (c.user a)).count = Placement.count refs' (fun b => b = a))
    (hcounts : ∀ b, b ≠ a →
      Placement.count refs' (fun d => d = b) = Placement.count refs (fun d => d = b))
    (hweight : (f (c.user a)).uwrrWeight = w' (c.user a).uid)
    (hweights : ∀ uid, uid ≠ (c.user a).uid → w' uid = w uid) :
    CacheOk (c.modUser a f) refs' w' o where
  nodup := h.nodup
  bucket := fun b d hd => by
    rw [modUser_uid hf]
    exact h.bucket b d hd
  unique := fun d d' hd hd' heq => by
    rw [modUser_uid hf, modUser_uid hf] at heq
    exact h.unique d d' ((hashed_modUser hf d).mp hd) ((hashed_modUser hf d').mp hd') heq
  finitary := hfin
  referenced := fun x b hx => by
    rw [hashed_modUser hf]
    by_cases hb : b = a
    · rw [hb]
      exact ha
    · exact h.referenced x b (hrefs x b hx hb)
  count := fun b hb => by
    rw [hashed_modUser hf] at hb
    by_cases hba : b = a
    · rw [hba, modUser_self]
      exact hcount
    · rw [modUser_other c f hba, hcounts b hba]
      exact h.count b hb
  weight := fun b hb => by
    rw [hashed_modUser hf] at hb
    rw [modUser_uid hf]
    by_cases hba : b = a
    · rw [hba, modUser_self]
      exact hweight
    · have hne : (c.user b).uid ≠ (c.user a).uid := fun e => hba (h.unique b a hb ha e)
      rw [modUser_other c f hba, hweights _ hne]
      exact h.weight b hb
  unknown := fun uid hno => by
    have hold : ∀ b, Hashed c b → (c.user b).uid ≠ uid := by
      intro b hb
      have hnot := hno b ((hashed_modUser hf b).mpr hb)
      rwa [modUser_uid hf] at hnot
    rw [hweights uid fun e => hold a ha e.symm]
    exact h.unknown uid hold
  own := fun t uid b hb => by
    obtain ⟨hall, hnot, huser⟩ := h.own t uid b hb
    have hba : b ≠ a := by
      rintro rfl
      exact hnot ha
    refine ⟨hall, fun e => hnot ((hashed_modUser hf b).mp e), ?_⟩
    rw [modUser_other c f hba]
    exact huser
  ownOne := h.ownOne

section References

variable [DecidableEq α]

theorem count_update_other {x : α} {a b : Addr} (hfin : Finitary refs) (hx : refs x = none)
    (hb : b ≠ a) : Placement.count (Function.update refs x (some a)) (fun d => d = b) =
      Placement.count refs (fun d => d = b) := by
  rw [count_put hfin hx (fun d => d = b), if_neg (Ne.symm hb), Nat.add_zero]

/-- A reference is taken. -/
theorem CacheOk.take (h : CacheOk c refs w o) {x : α} {a : Addr} (ha : Hashed c a)
    (hx : refs x = none) :
    CacheOk (c.modUser a fun u => { u with count := u.count + 1 })
      (Function.update refs x (some a)) w o := by
  refine h.modUser ha rfl (h.finitary.update x _) ?_ ?_ ?_ (h.weight a ha) fun _ _ => rfl
  · intro y b hy hb
    by_cases hyx : y = x
    · rw [hyx, Function.update_self] at hy
      exact absurd (Option.some.inj hy).symm hb
    · rwa [Function.update_of_ne hyx] at hy
  · show (c.user a).count + 1 = _
    rw [count_put h.finitary hx (fun d => d = a), if_pos rfl, h.count a ha]
    push_cast
    rfl
  · exact fun b hb => count_update_other h.finitary hx hb

/-- A reference is given back, and the struct stays. -/
theorem CacheOk.drop (h : CacheOk c refs w o) {x : α} {a : Addr} (hx : refs x = some a) :
    CacheOk (c.modUser a fun u => { u with count := u.count - 1 })
      (Function.update refs x none) w o := by
  have ha := h.referenced x a hx
  refine h.modUser ha rfl (h.finitary.update x _) ?_ ?_ ?_ (h.weight a ha) fun _ _ => rfl
  · intro y b hy _
    by_cases hyx : y = x
    · rw [hyx, Function.update_self] at hy
      cases hy
    · rwa [Function.update_of_ne hyx] at hy
  · show (c.user a).count - 1 = _
    rw [h.count a ha, count_remove h.finitary hx (fun d => d = a), if_pos rfl]
    push_cast
    omega
  · intro b hb
    rw [count_remove h.finitary hx (fun d => d = b), if_neg (Ne.symm hb), Nat.add_zero]

/-- A reference changes hands. -/
theorem CacheOk.move (h : CacheOk c refs w o) {x y : α} {a : Addr} (hx : refs x = some a)
    (hy : refs y = none) :
    CacheOk c (Function.update (Function.update refs x none) y (some a)) w o := by
  have hxy : x ≠ y := by
    rintro rfl
    rw [hx] at hy
    cases hy
  have ha := h.referenced x a hx
  have hfree : Function.update refs x none y = none := by
    rw [Function.update_of_ne (Ne.symm hxy)]
    exact hy
  have hcount : ∀ b, Placement.count (Function.update (Function.update refs x none) y (some a))
      (fun d => d = b) = Placement.count refs (fun d => d = b) := by
    intro b
    rw [count_put (h.finitary.update x none) hfree (fun d => d = b),
      count_remove h.finitary hx (fun d => d = b)]
  refine ⟨h.nodup, h.bucket, h.unique, (h.finitary.update x none).update y _, ?_, ?_, h.weight,
    h.unknown, h.own, h.ownOne⟩
  · intro z b hz
    by_cases hzy : z = y
    · rw [hzy, Function.update_self] at hz
      rw [← Option.some.inj hz]
      exact ha
    · rw [Function.update_of_ne hzy] at hz
      by_cases hzx : z = x
      · rw [hzx, Function.update_self] at hz
        cases hz
      · rw [Function.update_of_ne hzx] at hz
        exact h.referenced z b hz
  · intro b hb
    rw [hcount b]
    exact h.count b hb

end References

/-! ## Structs come and go -/

/-- Nobody has a reference to a struct whose count is 0. -/
theorem CacheOk.no_ref (h : CacheOk c refs w o) {a : Addr} (ha : Hashed c a)
    (hzero : (c.user a).count = 0) (x : α) : refs x ≠ some a := by
  intro hx
  have hpos : 0 < Placement.count refs (fun b => b = a) :=
    (count_pos_iff h.finitary).mpr ⟨x, a, hx, rfl⟩
  have hcount := h.count a ha
  omega

/-- The struct leaves the table and is freed. -/
theorem CacheOk.remove (h : CacheOk c refs w o) {a : Addr} (ha : Hashed c a)
    (hzero : (c.user a).count = 0) (hdefault : (c.user a).uwrrWeight = UWRR_DEFAULT_WEIGHT) :
    CacheOk (cacheFree { c with table := fun b => (c.table b).erase a } a) refs w o := by
  have hhashed : ∀ b, Hashed (cacheFree { c with table := fun b => (c.table b).erase a } a) b ↔
      b ≠ a ∧ Hashed c b := by
    intro b
    show b ∈ (c.table (uidhashfn (c.user b).uid)).erase a ↔ _
    rw [(h.nodup _).mem_erase_iff]
    exact Iff.rfl
  refine ⟨fun b => (h.nodup b).erase a, ?_, ?_, h.finitary, ?_, ?_, ?_, ?_, ?_, h.ownOne⟩
  · intro b d hd
    have hmem : d ∈ (c.table b).erase a := hd
    rw [(h.nodup b).mem_erase_iff] at hmem
    refine ⟨(h.bucket b d hmem.2).1, ?_⟩
    show Function.update c.allocated a false d = true
    rw [Function.update_of_ne hmem.1]
    exact (h.bucket b d hmem.2).2
  · intro d d' hd hd' heq
    exact h.unique d d' ((hhashed d).mp hd).2 ((hhashed d').mp hd').2 heq
  · intro x b hx
    refine (hhashed b).mpr ⟨?_, h.referenced x b hx⟩
    rintro rfl
    exact h.no_ref ha hzero x hx
  · exact fun b hb => h.count b ((hhashed b).mp hb).2
  · exact fun b hb => h.weight b ((hhashed b).mp hb).2
  · intro uid hno
    by_cases huid : (c.user a).uid = uid
    · rw [← huid, ← h.weight a ha, hdefault]
    · apply h.unknown uid
      intro b hb
      by_cases hba : b = a
      · rw [hba]
        exact huid
      · exact hno b ((hhashed b).mpr ⟨hba, hb⟩)
  · intro t uid b hb
    obtain ⟨hall, hnot, huser⟩ := h.own t uid b hb
    have hba : b ≠ a := by
      rintro rfl
      exact hnot ha
    refine ⟨?_, fun e => hnot ((hhashed b).mp e).2, huser⟩
    show Function.update c.allocated a false b = true
    rw [Function.update_of_ne hba]
    exact hall

/-- `free_uid` gives a reference back. -/
theorem CacheOk.free [DecidableEq α] (h : CacheOk c refs w o) {x : α} {a : Addr}
    (hx : refs x = some a) : CacheOk (freeUid c a) (Function.update refs x none) w o := by
  have hdrop := h.drop hx
  have ha : Hashed (c.modUser a fun u => { u with count := u.count - 1 }) a :=
    (hashed_modUser (c := c) (a := a) (f := fun u => { u with count := u.count - 1 }) rfl a).mpr
      (h.referenced x a hx)
  rw [freeUid]
  split
  · rename_i hzero
    split
    · rename_i hdefault
      exact hdrop.remove ha hzero hdefault.1
    · exact hdrop
  · exact hdrop

theorem freeUid_uid (c : Cache) (a b : Addr) : ((freeUid c a).user b).uid = (c.user b).uid := by
  have huid := modUser_uid (c := c) (a := a) (f := fun u => { u with count := u.count - 1 }) rfl b
  rw [freeUid]
  split
  · split
    · exact huid
    · exact huid
  · exact huid

/-- `alloc_uid` makes a struct, for itself. -/
theorem CacheOk.alloc (h : CacheOk c refs w o) {a : Addr} (hnew : c.allocated a = false)
    {t : TaskId} (uid : Uid) :
    CacheOk (cacheAlloc c a uid) refs w (Function.update o t (some (uid, a))) := by
  have hnot : ∀ b, a ∉ c.table b := by
    intro b hb
    rw [(h.bucket b a hb).2] at hnew
    cases hnew
  have huser : ∀ b, b ≠ a → (cacheAlloc c a uid).user b = c.user b :=
    fun b hb => Function.update_of_ne hb ..
  have hne : ∀ b, Hashed c b → b ≠ a := by
    rintro b hb rfl
    exact hnot _ hb
  have hhashed : ∀ b, Hashed (cacheAlloc c a uid) b ↔ Hashed c b := by
    intro b
    by_cases hba : b = a
    · rw [hba]
      exact ⟨fun e => absurd e (hnot _), fun e => absurd e (hnot _)⟩
    · rw [Hashed, huser b hba]
      exact Iff.rfl
  have hall : ∀ b, c.allocated b = true → (cacheAlloc c a uid).allocated b = true := by
    intro b hb
    show Function.update c.allocated a true b = true
    by_cases hba : b = a
    · rw [hba, Function.update_self]
    · rw [Function.update_of_ne hba]
      exact hb
  -- the structs of the other tasks are older
  have hold : ∀ t' uid' b, t' ≠ t → Function.update o t (some (uid, a)) t' = some (uid', b) →
      o t' = some (uid', b) ∧ b ≠ a := by
    intro t' uid' b ht hb
    rw [Function.update_of_ne ht] at hb
    refine ⟨hb, ?_⟩
    rintro rfl
    rw [(h.own t' uid' b hb).1] at hnew
    cases hnew
  have hmine : ∀ uid' b, Function.update o t (some (uid, a)) t = some (uid', b) →
      uid = uid' ∧ a = b := by
    intro uid' b hb
    rw [Function.update_self] at hb
    exact Prod.mk.inj (Option.some.inj hb)
  refine ⟨h.nodup, ?_, ?_, h.finitary, ?_, ?_, ?_, ?_, ?_, ?_⟩
  · intro b d hd
    have hda : d ≠ a := by
      rintro rfl
      exact hnot b hd
    rw [huser d hda]
    exact ⟨(h.bucket b d hd).1, hall d (h.bucket b d hd).2⟩
  · intro d d' hd hd' heq
    rw [hhashed] at hd hd'
    rw [huser d (hne d hd), huser d' (hne d' hd')] at heq
    exact h.unique d d' hd hd' heq
  · exact fun x b hx => (hhashed b).mpr (h.referenced x b hx)
  · intro b hb
    rw [hhashed] at hb
    rw [huser b (hne b hb)]
    exact h.count b hb
  · intro b hb
    rw [hhashed] at hb
    rw [huser b (hne b hb)]
    exact h.weight b hb
  · intro uid' hno
    apply h.unknown uid'
    intro b hb
    have hb' := hno b ((hhashed b).mpr hb)
    rwa [huser b (hne b hb)] at hb'
  · intro t' uid' b hb
    by_cases ht : t' = t
    · rw [ht] at hb
      obtain ⟨rfl, rfl⟩ := hmine uid' b hb
      refine ⟨Function.update_self .., fun e => hnot _ ((hhashed a).mp e), Function.update_self ..⟩
    · obtain ⟨hb, hba⟩ := hold t' uid' b ht hb
      obtain ⟨hallb, hnotb, huserb⟩ := h.own t' uid' b hb
      exact ⟨hall b hallb, fun e => hnotb ((hhashed b).mp e), (huser b hba).trans huserb⟩
  · intro t₁ t₂ uid₁ uid₂ b h₁ h₂
    by_cases ht₁ : t₁ = t
    · by_cases ht₂ : t₂ = t
      · rw [ht₁, ht₂]
      · rw [ht₁] at h₁
        exact absurd (hmine uid₁ b h₁).2.symm (hold t₂ uid₂ b ht₂ h₂).2
    · by_cases ht₂ : t₂ = t
      · rw [ht₂] at h₂
        exact absurd (hmine uid₂ b h₂).2.symm (hold t₁ uid₁ b ht₁ h₁).2
      · exact h.ownOne t₁ t₂ uid₁ uid₂ b (hold t₁ uid₁ b ht₁ h₁).1 (hold t₂ uid₂ b ht₂ h₂).1

/-- Giving up the struct of one task leaves those of the others. -/
theorem CacheOk.disown (h : CacheOk c refs w o) (t : TaskId) :
    CacheOk c refs w (Function.update o t none) := by
  have hold : ∀ t' p, Function.update o t none t' = some p → o t' = some p := by
    intro t' p hp
    by_cases ht : t' = t
    · rw [ht, Function.update_self] at hp
      cases hp
    · rwa [Function.update_of_ne ht] at hp
  refine ⟨h.nodup, h.bucket, h.unique, h.finitary, h.referenced, h.count, h.weight, h.unknown, ?_, ?_⟩
  · exact fun t' uid b hb => h.own t' uid b (hold t' _ hb)
  · exact fun t₁ t₂ uid₁ uid₂ b h₁ h₂ => h.ownOne t₁ t₂ uid₁ uid₂ b (hold t₁ _ h₁) (hold t₂ _ h₂)

/-- The other task was faster: `alloc_uid` frees its struct. -/
theorem CacheOk.freeOwn (h : CacheOk c refs w o) {t : TaskId} {uid : Uid} {a : Addr}
    (ho : o t = some (uid, a)) :
    CacheOk (cacheFree c a) refs w (Function.update o t none) := by
  have hnot := (h.own t uid a ho).2.1
  have hdis := h.disown t
  have hkeep : ∀ b, b ≠ a → c.allocated b = true → (cacheFree c a).allocated b = true := by
    intro b hba hb
    show Function.update c.allocated a false b = true
    rw [Function.update_of_ne hba]
    exact hb
  refine ⟨h.nodup, ?_, h.unique, h.finitary, h.referenced, h.count, h.weight, h.unknown, ?_,
    hdis.ownOne⟩
  · intro b d hd
    refine ⟨(h.bucket b d hd).1, hkeep d ?_ (h.bucket b d hd).2⟩
    rintro rfl
    exact hnot (h.hashed_of_mem hd)
  · intro t' uid' b hb
    obtain ⟨hall, hnotb, huser⟩ := hdis.own t' uid' b hb
    refine ⟨hkeep b ?_ hall, hnotb, huser⟩
    rintro rfl
    by_cases ht : t' = t
    · rw [ht, Function.update_self] at hb
      cases hb
    · rw [Function.update_of_ne ht] at hb
      exact ht (h.ownOne t' t uid' uid b hb ho)

/-- The struct goes into the table, with the reference of the task that made it. -/
theorem CacheOk.insert [DecidableEq α] (h : CacheOk c refs w o) {t : TaskId} {uid : Uid} {a : Addr}
    (ho : o t = some (uid, a)) (hnone : uidHashFind c uid = none) {x : α} (hx : refs x = none) :
    CacheOk (uidHashInsert c a uid) (Function.update refs x (some a)) w
      (Function.update o t none) := by
  obtain ⟨hall, hnot, huser⟩ := h.own t uid a ho
  have hdis := h.disown t
  have huid : (c.user a).uid = uid := by rw [huser]
  have hout : ∀ b, a ∉ c.table b := fun b hb => hnot (h.hashed_of_mem hb)
  have hmem : ∀ b d, d ∈ (uidHashInsert c a uid).table b ↔
      (d = a ∧ b = uidhashfn uid) ∨ d ∈ c.table b := by
    intro b d
    show d ∈ Function.update c.table (uidhashfn uid) (a :: c.table (uidhashfn uid)) b ↔ _
    by_cases hb : b = uidhashfn uid
    · rw [hb, Function.update_self, List.mem_cons]
      simp
    · rw [Function.update_of_ne hb]
      simp [hb]
  have hhashed : ∀ b, Hashed (uidHashInsert c a uid) b ↔ b = a ∨ Hashed c b := by
    intro b
    rw [Hashed, hmem]
    constructor
    · rintro (⟨rfl, _⟩ | hb)
      · exact Or.inl rfl
      · exact Or.inr hb
    · rintro (rfl | hb)
      · exact Or.inl ⟨rfl, congrArg uidhashfn huid⟩
      · exact Or.inr hb
  have hnorefs : ∀ y, refs y ≠ some a := fun y hy => hnot (h.referenced y a hy)
  have hfresh := find_none hnone
  refine ⟨?_, ?_, ?_, h.finitary.update x _, ?_, ?_, ?_, ?_, ?_, hdis.ownOne⟩
  · intro b
    show (Function.update c.table (uidhashfn uid) (a :: c.table (uidhashfn uid)) b).Nodup
    by_cases hb : b = uidhashfn uid
    · rw [hb, Function.update_self]
      exact List.nodup_cons.mpr ⟨hout _, h.nodup _⟩
    · rw [Function.update_of_ne hb]
      exact h.nodup b
  · intro b d hd
    rcases (hmem b d).mp hd with ⟨rfl, rfl⟩ | hd
    · exact ⟨congrArg uidhashfn huid, hall⟩
    · exact h.bucket b d hd
  · intro d d' hd hd' heq
    have heq : (c.user d).uid = (c.user d').uid := heq
    rcases (hhashed d).mp hd with hda | hd
    · rcases (hhashed d').mp hd' with hda' | hd'
      · rw [hda, hda']
      · rw [hda, huid] at heq
        exact absurd heq.symm (hfresh d' hd')
    · rcases (hhashed d').mp hd' with hda' | hd'
      · rw [hda', huid] at heq
        exact absurd heq (hfresh d hd)
      · exact h.unique d d' hd hd' heq
  · intro y b hy
    by_cases hyx : y = x
    · rw [hyx, Function.update_self] at hy
      exact (hhashed b).mpr (Or.inl (Option.some.inj hy).symm)
    · rw [Function.update_of_ne hyx] at hy
      exact (hhashed b).mpr (Or.inr (h.referenced y b hy))
  · intro b hb
    show (c.user b).count = _
    by_cases hba : b = a
    · have hzero : Placement.count refs (fun d => d = a) = 0 := by
        by_contra hne
        obtain ⟨y, d, hy, rfl⟩ := (count_pos_iff h.finitary).mp (Nat.pos_of_ne_zero hne)
        exact hnorefs y hy
      rw [hba, count_put h.finitary hx (fun d => d = a), if_pos rfl, hzero, huser]
      rfl
    · rw [count_update_other h.finitary hx hba]
      exact h.count b (((hhashed b).mp hb).resolve_left hba)
  · intro b hb
    show (c.user b).uwrrWeight = w (c.user b).uid
    rcases (hhashed b).mp hb with rfl | hb
    · rw [huid, h.unknown uid hfresh, huser]
    · exact h.weight b hb
  · intro uid' hno
    exact h.unknown uid' fun b hb => hno b ((hhashed b).mpr (Or.inr hb))
  · intro t' uid' b hb
    obtain ⟨hallb, hnotb, huserb⟩ := hdis.own t' uid' b hb
    refine ⟨hallb, fun e => ?_, huserb⟩
    rcases (hhashed b).mp e with rfl | e
    · by_cases ht : t' = t
      · rw [ht, Function.update_self] at hb
        cases hb
      · rw [Function.update_of_ne ht] at hb
        exact ht (h.ownOne t' t uid' uid b hb ho)
    · exact hnotb e

end Cache

end LinuxHacks.UserCache
