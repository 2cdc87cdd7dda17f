import LinuxHacks.UserCache.Invariant

/-!
# A user's weight is never lost

`latest` is what the weights should be: of every uid the last one that was set.
`Inv` holds in every state of every run, however the sections and accesses of the
tasks interleave. `sys_getuserweight` then returns a weight that was the latest
one of the uid at some time during the call.
-/

namespace LinuxHacks.UserCache

open LinuxHacks.Lib
open LinuxHacks.Lib.Placement
open LinuxHacks.Uwrr (UWRR_DEFAULT_WEIGHT UWRR_START_SLICE dec32 u32)

/-! ## What the weights should be -/

/-- The weight of a user after the weights `sets` were set, newest first. -/
def latest : List (Uid × Nat) → Uid → Nat
  | [], _ => UWRR_DEFAULT_WEIGHT
  | (uid, weight) :: sets, uid' => if uid' = uid then weight else latest sets uid'

/-! ## References -/

/-- Where a reference is held. -/
inductive Slot where
  | held (i : Nat)
  /-- `current->user`. -/
  | current (t : TaskId)
  /-- A call in progress. -/
  | call (t : TaskId)
deriving DecidableEq

def Pc.ref : Pc → Option Addr
  | .got _ a _ | .releasing a _ => some a
  | _ => none

/-- The struct that `alloc_uid` has made and not inserted. -/
def Pc.own : Pc → Option (Uid × Addr)
  | .allocated uid a _ => some (uid, a)
  | _ => none

/-- The weight that `sys_getuserweight` returns, or is about to. -/
def Pc.answer : Pc → Option (Uid × Nat)
  | .ready (.weight uid v) | .releasing _ (.weight uid v) => some (uid, v)
  | _ => none

def refs (s : State) : Slot → Option Addr
  | .held i => s.held i
  | .current t => s.current t
  | .call t => (s.pc t).ref

def own (s : State) (t : TaskId) : Option (Uid × Addr) := (s.pc t).own

theorem refs_setPc (s : State) (t : TaskId) (pc : Pc) :
    refs (s.setPc t pc) = Function.update (refs s) (.call t) pc.ref := by
  funext x
  cases x with
  | held i => rw [Function.update_of_ne (by simp)]; rfl
  | current t' => rw [Function.update_of_ne (by simp)]; rfl
  | call t' =>
      by_cases ht : t' = t
      · rw [ht, Function.update_self]
        simp [refs, State.setPc]
      · rw [Function.update_of_ne (by simpa using ht)]
        simp [refs, State.setPc, Function.update_of_ne ht]

theorem own_setPc (s : State) (t : TaskId) (pc : Pc) :
    own (s.setPc t pc) = Function.update (own s) t pc.own := by
  funext t'
  by_cases ht : t' = t
  · rw [ht, Function.update_self]
    simp [own, State.setPc]
  · rw [Function.update_of_ne ht]
    simp [own, State.setPc, Function.update_of_ne ht]

theorem update_same {β : Type} {γ : Type} [DecidableEq β] {f : β → γ} {b : β} {v : γ}
    (h : f b = v) : Function.update f b v = f := by
  rw [← h]
  exact Function.update_eq_self b f

/-! ## The invariant -/

structure PcOk (s : State) (t : TaskId) : Prop where
  got : ∀ uid a caller, s.pc t = .got uid a caller → (s.cache.user a).uid = uid
  start : s.start t <:+ s.sets
  answer : ∀ uid v, (s.pc t).answer = some (uid, v) →
    ∃ l, s.start t <:+ l ∧ l <:+ s.sets ∧ v = latest l uid

structure Inv (s : State) : Prop where
  cache : CacheOk s.cache (refs s) (latest s.sets) (own s)
  pc : ∀ t, PcOk s t

section Steps

variable {s s' : State}

/-- The tasks that did not move keep what they know. -/
theorem Inv.of_cache (h : Inv s)
    (hcache : CacheOk s'.cache (refs s') (latest s'.sets) (own s'))
    (huids : SameUids s.cache s'.cache) (hsets : s.sets <:+ s'.sets)
    (hpc : ∀ t, (s'.pc t = s.pc t ∧ s'.start t = s.start t) ∨ PcOk s' t) : Inv s' where
  cache := hcache
  pc := fun t => by
    rcases hpc t with ⟨hsame, hstart⟩ | hok
    · refine ⟨fun uid a caller hgot => ?_, by rw [hstart]; exact (h.pc t).start.trans hsets,
        fun uid v hv => ?_⟩
      · rw [hsame] at hgot
        have hx : refs s (.call t) = some a := by rw [refs, hgot]; rfl
        rw [huids a (h.cache.allocated (h.cache.referenced _ a hx))]
        exact (h.pc t).got uid a caller hgot
      · rw [hsame] at hv
        obtain ⟨l, hl, hl', hval⟩ := (h.pc t).answer uid v hv
        exact ⟨l, by rw [hstart]; exact hl, hl'.trans hsets, hval⟩
    · exact hok

/-- The cache and the references change, and one task moves to a point where it
answers nothing new. -/
theorem Inv.of_move (h : Inv s) {m : State} {t : TaskId} {pc : Pc}
    (hcache : CacheOk m.cache (Function.update (refs m) (.call t) pc.ref) (latest s.sets)
      (Function.update (own s) t pc.own))
    (huids : SameUids s.cache m.cache) (hsets : m.sets = s.sets) (hpcs : m.pc = s.pc)
    (hstart : m.start = s.start)
    (hgot : ∀ uid a caller, pc = .got uid a caller → (m.cache.user a).uid = uid)
    (hanswer : pc.answer = none ∨ pc.answer = (s.pc t).answer) : Inv (m.setPc t pc) := by
  have hown : own m = own s := by
    funext t'
    rw [own, own, hpcs]
  have hmoved : (m.setPc t pc).pc t = pc := Function.update_self ..
  refine h.of_cache ?_ huids (by rw [← hsets]; exact List.suffix_refl _) fun t' => ?_
  · rw [refs_setPc, own_setPc, hown]
    show CacheOk m.cache _ (latest m.sets) _
    rw [hsets]
    exact hcache
  · by_cases ht : t' = t
    · right
      rw [ht]
      refine ⟨fun uid a caller e => ?_, ?_, fun uid v hv => ?_⟩
      · rw [hmoved] at e
        exact hgot uid a caller e
      · show m.start t <:+ m.sets
        rw [hstart, hsets]
        exact (h.pc t).start
      · rw [hmoved] at hv
        show ∃ l, m.start t <:+ l ∧ l <:+ m.sets ∧ v = latest l uid
        rw [hstart, hsets]
        rcases hanswer with hnone | hsame
        · rw [hnone] at hv
          cases hv
        · rw [hsame] at hv
          exact (h.pc t).answer uid v hv
    · left
      refine ⟨?_, congrFun hstart t'⟩
      show Function.update m.pc t pc t' = s.pc t'
      rw [Function.update_of_ne ht, hpcs]

theorem sameUids_refl (c : Cache) : SameUids c c := fun _ _ => rfl

/-- Nothing but the program point of one task changes. -/
theorem Inv.setPc (h : Inv s) {t : TaskId} {pc : Pc} (href : pc.ref = (s.pc t).ref)
    (hown : pc.own = (s.pc t).own)
    (hgot : ∀ uid a caller, pc = .got uid a caller → (s.cache.user a).uid = uid)
    (hanswer : pc.answer = none ∨ pc.answer = (s.pc t).answer) : Inv (s.setPc t pc) := by
  refine h.of_move ?_ (sameUids_refl _) rfl rfl rfl hgot hanswer
  rw [update_same (show refs s (.call t) = pc.ref from href.symm),
    update_same (show own s t = pc.own from hown.symm)]
  exact h.cache

theorem me_eq_some {t : TaskId} {a : Addr} (hme : s.me t = some a) :
    (∃ r, s.pc t = .ready r) ∧ s.current t = some a := by
  rw [State.me] at hme
  cases hpc : s.pc t with
  | ready r =>
      rw [hpc] at hme
      exact ⟨⟨r, rfl⟩, hme⟩
  | _ =>
      rw [hpc] at hme
      cases hme

theorem Inv.current (h : Inv s) {t : TaskId} {a : Addr} (ha : s.current t = some a) :
    Hashed s.cache a := h.cache.referenced (.current t) a ha

/-! ## The weights -/

theorem CacheOk.setWeight {c : Cache} {sets : List (Uid × Nat)}
    {r : Slot → Option Addr} {o : TaskId → Option (Uid × Addr)}
    (h : CacheOk c r (latest sets) o) {a : Addr} (ha : Hashed c a) {uid : Uid}
    (huid : (c.user a).uid = uid) (weight : Nat) :
    CacheOk (c.modUser a fun u => { u with uwrrWeight := weight }) r
      (latest ((uid, weight) :: sets)) o := by
  refine h.modUser ha rfl h.finitary (fun _ _ hx _ => hx) (h.count a ha) (fun _ _ => rfl) ?_ ?_
  · rw [huid, latest, if_pos rfl]
  · intro uid' hne
    rw [huid] at hne
    rw [latest, if_neg hne]

theorem CacheOk.tick {c : Cache} {w : Uid → Nat} {r : Slot → Option Addr}
    {o : TaskId → Option (Uid × Addr)} (h : CacheOk c r w o) {a : Addr} (ha : Hashed c a) :
    CacheOk (c.modUser a tickUser) r w o := by
  have htick : ∀ u, (tickUser u).uid = u.uid ∧ (tickUser u).count = u.count ∧
      (tickUser u).uwrrWeight = u.uwrrWeight := by
    intro u
    rw [tickUser]
    split
    · exact ⟨rfl, rfl, rfl⟩
    · exact ⟨rfl, rfl, rfl⟩
  refine h.modUser ha (htick _).1 h.finitary (fun _ _ hx _ => hx) ?_ (fun _ _ => rfl) ?_
    fun _ _ => rfl
  · rw [(htick _).2.1]
    exact h.count a ha
  · rw [(htick _).2.2]
    exact h.weight a ha

/-- A weight is set, and the task that set it moves on. -/
theorem Inv.setWeight (h : Inv s) {t : TaskId} {a : Addr} (ha : Hashed s.cache a) {uid : Uid}
    (huid : (s.cache.user a).uid = uid) (weight : Nat) {pc : Pc} (href : pc.ref = (s.pc t).ref)
    (hown : pc.own = (s.pc t).own) (hgot : ∀ uid a caller, pc ≠ .got uid a caller)
    (hanswer : pc.answer = none) : Inv ((setWeight s a uid weight).setPc t pc) := by
  have hsuffix : s.sets <:+ (UserCache.setWeight s a uid weight).sets := List.suffix_cons _ _
  refine h.of_cache ?_ (fun b _ => modUser_uid (f := fun u => { u with uwrrWeight := weight }) rfl b)
    hsuffix fun t' => ?_
  · have hx : refs (UserCache.setWeight s a uid weight) (.call t) = pc.ref := href.symm
    have ho : own (UserCache.setWeight s a uid weight) t = pc.own := hown.symm
    rw [refs_setPc, own_setPc, update_same hx, update_same ho]
    exact h.cache.setWeight ha huid weight
  · by_cases ht : t' = t
    · right
      rw [ht]
      refine ⟨fun uid' b caller e => ?_, (h.pc t).start.trans hsuffix, fun uid' v hv => ?_⟩
      · simp only [State.setPc, Function.update_self] at e
        exact absurd e (hgot uid' b caller)
      · simp only [State.setPc, Function.update_self] at hv
        rw [hanswer] at hv
        cases hv
    · left
      simp only [State.setPc, Function.update_of_ne ht]
      exact ⟨rfl, rfl⟩

/-! ## The system calls -/

/-- A `sys_getuserweight` that does not look anybody up. -/
theorem Inv.sysGetuserweight (h : Inv s) {t : TaskId} {me : Addr} (hme : s.me t = some me)
    (uid : Int) : Inv (sysGetuserweight s t me uid) := by
  obtain ⟨⟨r, hpc⟩, hcur⟩ := me_eq_some hme
  set m : State := { s with start := Function.update s.start t s.sets } with hm
  have hstart : ∀ t', m.start t' <:+ s.sets := by
    intro t'
    by_cases ht : t' = t
    · rw [ht, hm]
      simp only [Function.update_self]
      exact List.suffix_refl _
    · rw [hm]
      simp only [Function.update_of_ne ht]
      exact (h.pc t').start
  -- the task gets to a point that answers the latest weight, or nothing
  have hmove : ∀ pc : Pc, pc.ref = none → pc.own = none →
      (∀ uid v, pc.answer = some (uid, v) → v = latest s.sets uid) → Inv (m.setPc t pc) := by
    intro pc href hown hans
    refine h.of_cache ?_ (sameUids_refl _) (List.suffix_refl _) fun t' => ?_
    · have hx : refs m (.call t) = pc.ref := by
        rw [href]
        show (s.pc t).ref = none
        rw [hpc]
        rfl
      have ho : own m t = pc.own := by
        rw [hown]
        show (s.pc t).own = none
        rw [hpc]
        rfl
      rw [refs_setPc, own_setPc, update_same hx, update_same ho]
      exact h.cache
    · by_cases ht : t' = t
      · right
        rw [ht]
        have hnew : (m.setPc t pc).pc t = pc := Function.update_self ..
        refine ⟨fun uid' b caller e => ?_, hstart t, fun uid' v hv => ?_⟩
        · rw [hnew] at e
          rw [e] at href
          cases href
        · rw [hnew] at hv
          refine ⟨s.sets, hstart t, List.suffix_refl _, hans uid' v hv⟩
      · left
        refine ⟨Function.update_of_ne ht _ _, Function.update_of_ne ht _ _⟩
  rw [UserCache.sysGetuserweight]
  split
  · apply hmove
    · rfl
    · rfl
    · intro uid' v hv
      obtain ⟨rfl, rfl⟩ := Prod.mk.inj (Option.some.inj hv)
      exact h.cache.weight me (h.current hcur)
  · split
    · exact hmove _ rfl rfl fun _ _ hv => by cases hv
    · exact hmove _ rfl rfl fun _ _ hv => by cases hv

theorem Inv.sysSetuserweight (h : Inv s) {t : TaskId} {me : Addr} (hme : s.me t = some me)
    (uid weight : Int) : Inv (sysSetuserweight s t me uid weight) := by
  obtain ⟨⟨r, hpc⟩, hcur⟩ := me_eq_some hme
  have href : (s.pc t).ref = none := by rw [hpc]; rfl
  have hown : (s.pc t).own = none := by rw [hpc]; rfl
  -- the call fails, or goes to `alloc_uid`
  have hmove : ∀ pc : Pc, pc.ref = none → pc.own = none → pc.answer = none → Inv (s.setPc t pc) := by
    intro pc href' hown' hans
    refine h.setPc (href'.trans href.symm) (hown'.trans hown.symm) ?_ (Or.inl hans)
    rintro uid' b caller rfl
    cases href'
  rw [UserCache.sysSetuserweight]
  split
  · exact hmove _ rfl rfl rfl
  · split
    · exact hmove _ rfl rfl rfl
    · split
      · exact hmove _ rfl rfl rfl
      · split
        · exact h.setWeight (h.current hcur) rfl _ href.symm hown.symm (fun _ _ _ => Pc.noConfusion)
            rfl
        · exact hmove _ rfl rfl rfl

/-! ## `alloc_uid` and its callers -/

theorem Inv.search (h : Inv s) {t : TaskId} (hst : search s t = some s') : Inv s' := by
  rw [UserCache.search] at hst
  split at hst
  · rename_i uid caller hpc
    have href : refs s (.call t) = none := by rw [refs, hpc]; rfl
    have hown : own s t = none := by rw [own, hpc]; rfl
    split at hst
    · rename_i a c hfind
      cases hst
      obtain ⟨ha, huid, rfl⟩ := h.cache.find_some hfind
      have huids := modUser_uid (c := s.cache) (a := a)
        (f := fun u => { u with count := u.count + 1 }) rfl
      refine h.of_move ?_ (fun b _ => huids b) rfl rfl rfl ?_ (Or.inl rfl)
      · rw [update_same (show own s t = (Pc.got uid a caller).own from hown)]
        exact h.cache.take ha href
      · rintro _ _ _ ⟨⟩
        exact (huids a).trans huid
    · cases hst
      refine h.setPc ?_ ?_ (fun _ _ _ e => by cases e) (Or.inl rfl)
      · rw [hpc]; rfl
      · rw [hpc]; rfl
  · cases hst

theorem Inv.allocate (h : Inv s) {t : TaskId} {new : Option Addr}
    (hst : allocate s t new = some s') : Inv s' := by
  unfold UserCache.allocate at hst
  split at hst
  · rename_i uid caller hpc
    cases hst
    refine h.setPc ?_ ?_ (fun _ _ _ e => by cases e) (Or.inl ?_)
    · rw [hpc]; rfl
    · rw [hpc]; rfl
    · cases caller with
      | keep => rfl
      | getuserweight => rfl
      | setuserweight w => rfl
  · rename_i uid caller a hpc
    have href : refs s (.call t) = none := by rw [refs, hpc]; rfl
    split at hst
    · cases hst
    · rename_i hnew
      cases hst
      refine h.of_move ?_ ?_ rfl rfl rfl (fun _ _ _ e => by cases e) (Or.inl rfl)
      · show CacheOk _ (Function.update (refs s) _ _) _ _
        rw [update_same (show refs s (.call t) = (Pc.allocated uid a caller).ref from href)]
        exact h.cache.alloc (Bool.eq_false_of_not_eq_true hnew) uid
      · intro b hb
        have hba : b ≠ a := by
          rintro rfl
          exact hnew hb
        show (Function.update s.cache.user a _ b).uid = _
        rw [Function.update_of_ne hba]
  · cases hst

theorem Inv.insert (h : Inv s) {t : TaskId} (hst : insert s t = some s') : Inv s' := by
  rw [UserCache.insert] at hst
  split at hst
  · rename_i uid new caller hpc
    have href : refs s (.call t) = none := by rw [refs, hpc]; rfl
    have hown : own s t = some (uid, new) := by rw [own, hpc]; rfl
    split at hst
    · rename_i a c hfind
      cases hst
      obtain ⟨ha, huid, rfl⟩ := h.cache.find_some hfind
      have huids := modUser_uid (c := s.cache) (a := a)
        (f := fun u => { u with count := u.count + 1 }) rfl
      refine h.of_move ?_ (fun b _ => huids b) rfl rfl rfl ?_ (Or.inl rfl)
      · exact (h.cache.take ha href).freeOwn hown
      · rintro _ _ _ ⟨⟩
        exact (huids a).trans huid
    · rename_i hnone
      cases hst
      refine h.of_move ?_ (fun _ _ => rfl) rfl rfl rfl ?_ (Or.inl rfl)
      · exact h.cache.insert hown hnone href
      · rintro _ _ _ ⟨⟩
        show (s.cache.user new).uid = uid
        rw [(h.cache.own t uid new hown).2.2]
  · cases hst

/-- One numbered reference changes. -/
theorem refs_held {i : Nat} {o : Option Addr} (hheld : s'.held = Function.update s.held i o)
    (hcurrent : s'.current = s.current) (hpc : s'.pc = s.pc) :
    refs s' = Function.update (refs s) (.held i) o := by
  funext x
  cases x with
  | held j =>
      rw [refs, hheld]
      by_cases hj : j = i
      · rw [hj, Function.update_self, Function.update_self]
      · rw [Function.update_of_ne hj, Function.update_of_ne (by simpa using hj)]
        rfl
  | current t =>
      rw [Function.update_of_ne (by simp), refs, hcurrent]
      rfl
  | call t =>
      rw [Function.update_of_ne (by simp), refs, hpc]
      rfl

/-- The user of one task changes. -/
theorem refs_current {t : TaskId} {o : Option Addr}
    (hcurrent : s'.current = Function.update s.current t o) (hheld : s'.held = s.held)
    (hpc : s'.pc = s.pc) : refs s' = Function.update (refs s) (.current t) o := by
  funext x
  cases x with
  | current t' =>
      rw [refs, hcurrent]
      by_cases ht : t' = t
      · rw [ht, Function.update_self, Function.update_self]
      · rw [Function.update_of_ne ht, Function.update_of_ne (by simpa using ht)]
        rfl
  | held i =>
      rw [Function.update_of_ne (by simp), refs, hheld]
      rfl
  | call t' =>
      rw [Function.update_of_ne (by simp), refs, hpc]
      rfl

theorem Inv.use (h : Inv s) {t : TaskId} {i : Nat} (hst : use s t i = some s') : Inv s' := by
  rw [UserCache.use] at hst
  split at hst
  · -- the caller keeps the reference
    rename_i uid a hpc
    have href : refs s (.call t) = some a := by rw [refs, hpc]; rfl
    have hown : own s t = none := by rw [own, hpc]; rfl
    split at hst
    · rename_i hfree
      cases hst
      refine h.of_move ?_ (sameUids_refl _) rfl rfl rfl (fun _ _ _ e => by cases e) (Or.inl rfl)
      have hrefs : refs { s with held := Function.update s.held i (some a) } =
          Function.update (refs s) (.held i) (some a) := refs_held rfl rfl rfl
      rw [hrefs, Function.update_comm (by simp),
        update_same (show own s t = (Pc.ready .nothing).own from hown)]
      exact h.cache.move href hfree
    · cases hst
  · rename_i uid a hpc
    cases hst
    have href : refs s (.call t) = some a := by rw [refs, hpc]; rfl
    have hvalue : (s.cache.user a).uwrrWeight = latest s.sets uid := by
      rw [h.cache.weight a (h.cache.referenced _ a href), (h.pc t).got uid a _ hpc]
    refine h.of_cache ?_ (sameUids_refl _) (List.suffix_refl _) fun t' => ?_
    · have hown : own s t = none := by rw [own, hpc]; rfl
      rw [refs_setPc, own_setPc]
      show CacheOk s.cache (Function.update (refs s) (.call t) (some a)) (latest s.sets)
        (Function.update (own s) t none)
      rw [update_same hown, update_same href]
      exact h.cache
    · by_cases ht : t' = t
      · right
        rw [ht]
        have hnew : ∀ pc : Pc, (s.setPc t pc).pc t = pc := fun pc => Function.update_self ..
        refine ⟨fun uid' b caller e => ?_, (h.pc t).start, fun uid' v hv => ?_⟩
        · rw [hnew] at e
          cases e
        · rw [hnew] at hv
          obtain ⟨rfl, rfl⟩ := Prod.mk.inj (Option.some.inj hv)
          exact ⟨s.sets, (h.pc t).start, List.suffix_refl _, hvalue⟩
      · exact Or.inl ⟨Function.update_of_ne ht _ _, rfl⟩
  · rename_i uid a weight hpc
    cases hst
    have href : refs s (.call t) = some a := by rw [refs, hpc]; rfl
    refine h.setWeight (h.cache.referenced _ a href) ((h.pc t).got uid a _ hpc) weight ?_ ?_
      (fun _ _ _ => Pc.noConfusion) rfl
    · rw [hpc]; rfl
    · rw [hpc]; rfl
  · cases hst

theorem Inv.release (h : Inv s) {t : TaskId} (hst : release s t = some s') : Inv s' := by
  rw [UserCache.release] at hst
  split at hst
  · rename_i a r hpc
    cases hst
    have href : refs s (.call t) = some a := by rw [refs, hpc]; rfl
    have hown : own s t = none := by rw [own, hpc]; rfl
    refine h.of_move ?_ (fun b _ => freeUid_uid _ _ _) rfl rfl rfl (fun _ _ _ e => by cases e)
      (Or.inr ?_)
    · rw [update_same (show own s t = (Pc.ready r).own from hown)]
      exact h.cache.free href
    · rw [hpc]
      cases r with
      | nothing => rfl
      | code v => rfl
      | weight uid v => rfl
  · cases hst

/-! ## References from elsewhere -/

/-- The cache and the references change, and no task moves. -/
theorem Inv.of_refs (h : Inv s) {r : Slot → Option Addr}
    (hcache : CacheOk s'.cache r (latest s.sets) (own s)) (hrefs : refs s' = r)
    (huids : SameUids s.cache s'.cache) (hsets : s'.sets = s.sets) (hpcs : s'.pc = s.pc)
    (hstart : s'.start = s.start) : Inv s' := by
  have hown : own s' = own s := by
    funext t
    rw [own, own, hpcs]
  refine h.of_cache ?_ huids (by rw [hsets]) fun t => Or.inl ?_
  · rw [hsets, hown, hrefs]
    exact hcache
  · rw [hpcs, hstart]
    exact ⟨rfl, rfl⟩

theorem Inv.findUser (h : Inv s) {t : TaskId} {uid : Uid} {i : Nat}
    (hst : findUser s t uid i = some s') : Inv s' := by
  unfold UserCache.findUser at hst
  split at hst
  · rename_i a c _ hfind
    split at hst
    · rename_i hfree
      cases hst
      obtain ⟨ha, -, rfl⟩ := h.cache.find_some hfind
      exact h.of_refs (h.cache.take (x := .held i) ha hfree) (refs_held rfl rfl rfl)
        (fun b _ => modUser_uid (f := fun u => { u with count := u.count + 1 }) rfl b) rfl rfl rfl
    · cases hst
  · cases hst
    exact h
  · cases hst

theorem Inv.getUid (h : Inv s) {t : TaskId} {i : Nat} (hst : getUid s t i = some s') : Inv s' := by
  rw [UserCache.getUid] at hst
  split at hst
  · rename_i a hcur
    split at hst
    · rename_i hfree
      cases hst
      exact h.of_refs (h.cache.take (x := .held i) (h.current hcur) hfree) (refs_held rfl rfl rfl)
        (fun b _ => modUser_uid (f := fun u => { u with count := u.count + 1 }) rfl b) rfl rfl rfl
    · cases hst
  · cases hst

/-- The step lemma. -/
theorem Inv.step (h : Inv s) {l : Label} (hst : step s l = some s') : Inv s' := by
  cases l with
  | getuserweight t uid =>
      obtain ⟨me, hme, rfl⟩ := Option.map_eq_some_iff.mp hst
      exact h.sysGetuserweight hme uid
  | setuserweight t uid weight =>
      obtain ⟨me, hme, rfl⟩ := Option.map_eq_some_iff.mp hst
      exact h.sysSetuserweight hme uid weight
  | allocUid t uid =>
      obtain ⟨me, hme, rfl⟩ := Option.map_eq_some_iff.mp hst
      obtain ⟨⟨r, hpc⟩, -⟩ := me_eq_some hme
      refine h.setPc ?_ ?_ (fun _ _ _ e => by cases e) (Or.inl rfl)
      · rw [hpc]; rfl
      · rw [hpc]; rfl
  | search t => exact h.search hst
  | allocate t new => exact h.allocate hst
  | insert t => exact h.insert hst
  | use t i => exact h.use hst
  | release t => exact h.release hst
  | findUser t uid i => exact h.findUser hst
  | freeUid t i =>
      unfold UserCache.step at hst
      dsimp only at hst
      split at hst
      · rename_i a _ hheld
        cases hst
        exact h.of_refs (h.cache.free (x := .held i) hheld) (refs_held rfl rfl rfl)
          (fun b _ => freeUid_uid _ _ _) rfl rfl rfl
      · cases hst
  | getUid t i => exact h.getUid hst
  | newTask t i =>
      unfold UserCache.step at hst
      dsimp only at hst
      split at hst
      · rename_i a r hcur hheld hpc
        cases hst
        have href : refs s (.call t) = none := by rw [refs, hpc]; rfl
        have hown : own s t = none := by rw [own, hpc]; rfl
        have hgone : refs { s with held := Function.update s.held i none } =
            Function.update (refs s) (.held i) none := refs_held rfl rfl rfl
        have hnew : refs { s with
            current := Function.update s.current t (some a)
            held := Function.update s.held i none } =
            Function.update (Function.update (refs s) (.held i) none) (.current t) (some a) := by
          rw [← hgone]
          exact refs_current rfl rfl rfl
        refine h.of_move ?_ (sameUids_refl _) rfl rfl rfl (fun _ _ _ e => by cases e) (Or.inl rfl)
        have hcall : Function.update (Function.update (refs s) (.held i) none) (.current t) (some a)
            (.call t) = none := by
          rw [Function.update_of_ne (by simp), Function.update_of_ne (by simp)]
          exact href
        show CacheOk s.cache (Function.update (refs _) (.call t) none) (latest s.sets)
          (Function.update (own s) t none)
        rw [hnew, update_same hcall, update_same hown]
        exact h.cache.move (x := .held i) hheld hcur
      · cases hst
  | quit t i =>
      unfold UserCache.step at hst
      dsimp only at hst
      split at hst
      · rename_i a hme
        split at hst
        · rename_i hfree
          cases hst
          obtain ⟨-, hcur⟩ := me_eq_some hme
          have hgone : refs { s with current := Function.update s.current t none } =
              Function.update (refs s) (.current t) none := refs_current rfl rfl rfl
          have hmove := h.cache.move (x := .current t) (y := .held i) hcur hfree
          rw [← hgone] at hmove
          exact h.of_refs hmove (refs_held rfl rfl rfl) (sameUids_refl _) rfl rfl rfl
        · cases hst
      · cases hst
  | switchUid t i =>
      unfold UserCache.step at hst
      dsimp only at hst
      split at hst
      · rename_i old new hme hheld
        cases hst
        obtain ⟨⟨r, hpc⟩, hcur⟩ := me_eq_some hme
        have href : refs s (.call t) = none := by rw [refs, hpc]; rfl
        have hown : own s t = none := by rw [own, hpc]; rfl
        -- the old reference goes to the call, then the new one to the task
        have hcall := h.cache.move (x := .current t) (y := .call t) hcur href
        have hmove := hcall.move (x := .held i) (y := .current t) (a := new)
          (by rw [Function.update_of_ne (by simp), Function.update_of_ne (by simp)]; exact hheld)
          (by rw [Function.update_of_ne (by simp), Function.update_self])
        refine h.of_move ?_ (sameUids_refl _) rfl rfl rfl (fun _ _ _ e => by cases e) (Or.inl rfl)
        rw [update_same (show own s t = (Pc.releasing old .nothing).own from hown)]
        have hgone : refs { s with held := Function.update s.held i none } =
            Function.update (refs s) (.held i) none := refs_held rfl rfl rfl
        have hnew : refs { s with
            current := Function.update s.current t (some new)
            held := Function.update s.held i none } =
            Function.update (Function.update (refs s) (.held i) none) (.current t) (some new) := by
          rw [← hgone]
          exact refs_current rfl rfl rfl
        show CacheOk s.cache (Function.update (refs _) (.call t) (some old)) _ _
        rw [hnew, Function.update_comm (by simp)]
        rw [Function.update_comm (by simp : Slot.call t ≠ .held i),
          Function.update_comm (by simp : Slot.current t ≠ .held i),
          Function.update_comm (by simp : Slot.current t ≠ .call t), Function.update_idem] at hmove
        exact hmove
      · cases hst
  | tick t =>
      obtain ⟨a, hcur, rfl⟩ := Option.map_eq_some_iff.mp hst
      refine h.of_refs (h.cache.tick (h.current hcur)) rfl (fun b _ => modUser_uid ?_ b) rfl rfl rfl
      rw [tickUser]
      split
      · rfl
      · rfl

end Steps

theorem Inv.init : Inv State.init where
  cache := by
    have hmem : ∀ b a, a ∈ State.init.cache.table b → b = uidhashfn 0 ∧ a = rootUser := by
      intro b a ha
      have ha : a ∈ if b = uidhashfn 0 then [rootUser] else [] := ha
      by_cases hb : b = uidhashfn 0
      · rw [if_pos hb] at ha
        exact ⟨hb, List.mem_singleton.mp ha⟩
      · rw [if_neg hb] at ha
        cases ha
    have hhashed : ∀ a, Hashed State.init.cache a ↔ a = rootUser := by
      intro a
      constructor
      · exact fun ha => (hmem _ a ha).2
      · rintro rfl
        show rootUser ∈ State.init.cache.table (uidhashfn 0)
        decide
    -- the only reference is the one of the first task
    have hrefs : ∀ x a, refs State.init x = some a ↔ x = .current 0 ∧ a = rootUser := by
      intro x a
      cases x with
      | held i => exact ⟨fun e => (by cases e), fun e => (by cases e.1)⟩
      | call t => exact ⟨fun e => (by cases e), fun e => (by cases e.1)⟩
      | current t =>
          show (if t = 0 then some rootUser else none) = some a ↔ _
          by_cases ht : t = 0
          · rw [if_pos ht, ht, Option.some.injEq]
            exact ⟨fun e => ⟨rfl, e.symm⟩, fun e => e.2.symm⟩
          · rw [if_neg ht]
            exact ⟨fun e => (by cases e), fun e => absurd (Slot.current.inj e.1) ht⟩
    refine ⟨?_, ?_, ?_, ?_, ?_, ?_, fun _ _ => rfl, fun _ _ => rfl, fun _ _ _ e => (by cases e),
      fun _ _ _ _ _ e => (by cases e)⟩
    · intro b
      show (if b = uidhashfn 0 then [rootUser] else []).Nodup
      split
      · exact List.nodup_singleton _
      · exact List.nodup_nil
    · intro b a ha
      obtain ⟨rfl, rfl⟩ := hmem b a ha
      exact ⟨rfl, rfl⟩
    · intro a a' ha ha' _
      rw [(hhashed a).mp ha, (hhashed a').mp ha']
    · refine Set.Finite.subset (Set.finite_singleton (Slot.current 0)) fun x hx => ?_
      obtain ⟨a, ha⟩ := Option.ne_none_iff_exists'.mp hx
      exact ((hrefs x a).mp ha).1
    · intro x a hx
      exact (hhashed a).mpr ((hrefs x a).mp hx).2
    · intro a ha
      have hitems : items (refs State.init) (fun b => b = a) = {Slot.current 0} := by
        ext x
        constructor
        · rintro ⟨b, hb, _⟩
          exact ((hrefs x b).mp hb).1
        · rintro rfl
          exact ⟨rootUser, (hrefs _ _).mpr ⟨rfl, rfl⟩, ((hhashed a).mp ha).symm⟩
      rw [Placement.count, hitems, Set.ncard_singleton]
      rfl
  pc := fun t => ⟨fun _ _ _ e => (by cases e), List.suffix_refl _, fun _ _ e => (by cases e)⟩

/-- Run lemma. -/
theorem Inv.reach {s : State} (h : system.Reach System.anyStep s) : Inv s := by
  refine h.invariant (I := Inv) ?_ ?_
  · rintro s rfl
    exact Inv.init
  · intro s l s' hinv _ hst
    exact hinv.step hst

/-! ## One call from its begin to its end -/

/-- The task that makes the step. -/
def Label.task : Label → TaskId
  | .getuserweight t _ | .setuserweight t _ _ | .allocUid t _ | .search t | .allocate t _ | .insert t
  | .use t _ | .release t | .findUser t _ _ | .freeUid t _ | .getUid t _ | .newTask t _ | .quit t _
  | .switchUid t _ | .tick t => t

def run (s : State) : List Label → Option State
  | [] => some s
  | l :: ls => (step s l).bind fun s => run s ls

theorem run_append {s s' : State} {ls ls' : List Label} (h : run s ls = some s') :
    run s (ls ++ ls') = run s' ls' := by
  induction ls generalizing s with
  | nil =>
      cases h
      rfl
  | cons l ls ih =>
      obtain ⟨m, hm, hrest⟩ := Option.bind_eq_some_iff.mp h
      show (step s l).bind (fun s => run s (ls ++ ls')) = run s' ls'
      rw [hm]
      exact ih hrest

theorem Inv.run {s s' : State} {ls : List Label} (h : Inv s) (hrun : run s ls = some s') :
    Inv s' := by
  induction ls generalizing s with
  | nil =>
      cases hrun
      exact h
  | cons l ls ih =>
      obtain ⟨m, hm, hrest⟩ := Option.bind_eq_some_iff.mp hrun
      exact ih (h.step hm) hrest

/-- `alloc_uid` returns when there is memory, without touching a weight. -/
theorem alloc_returns {s : State} {t : TaskId} {uid : Uid} {caller : Caller}
    (hpc : s.pc t = .searching uid caller) {new : Addr} (hnew : s.cache.allocated new = false) :
    ∃ ls s' a, (∀ l ∈ ls, Label.task l = t) ∧ run s ls = some s' ∧ s'.sets = s.sets ∧
      s'.start = s.start ∧ s'.pc t = .got uid a caller := by
  cases hfind : uidHashFind s.cache uid with
  | some p =>
      obtain ⟨a, c⟩ := p
      refine ⟨[.search t], { s with cache := c }.setPc t (.got uid a caller), a,
        by simp [Label.task], ?_, rfl, rfl, Function.update_self ..⟩
      simp only [run, step, search, hpc, hfind, Option.bind_some]
  | none =>
      have hsearch : search s t = some (s.setPc t (.missed uid caller)) := by
        simp only [search, hpc, hfind]
      have hpc₁ : (s.setPc t (.missed uid caller)).pc t = .missed uid caller :=
        Function.update_self ..
      obtain ⟨s₂, hs₂⟩ : ∃ s₂, s₂ = ({ s.setPc t (.missed uid caller) with
        cache := cacheAlloc s.cache new uid }.setPc t (.allocated uid new caller)) := ⟨_, rfl⟩
      have hallocate : allocate (s.setPc t (.missed uid caller)) t (some new) = some s₂ := by
        unfold allocate
        rw [hpc₁, hs₂]
        show (if s.cache.allocated new = true then none else _) = _
        rw [if_neg (by rw [hnew]; exact Bool.false_ne_true)]
        rfl
      have hpc₂ : s₂.pc t = .allocated uid new caller := by
        rw [hs₂]
        exact Function.update_self ..
      obtain ⟨s₃, a, hinsert, hsets, hstart, hpc₃⟩ : ∃ s₃ a, insert s₂ t = some s₃ ∧
          s₃.sets = s₂.sets ∧ s₃.start = s₂.start ∧ s₃.pc t = .got uid a caller := by
        cases hagain : uidHashFind s₂.cache uid with
        | some p =>
            obtain ⟨a, c⟩ := p
            refine ⟨{ s₂ with cache := cacheFree c new }.setPc t (.got uid a caller), a, ?_, rfl, rfl,
              Function.update_self ..⟩
            simp only [insert, hpc₂, hagain]
        | none =>
            refine ⟨{ s₂ with cache := uidHashInsert s₂.cache new uid }.setPc t (.got uid new caller),
              new, ?_, rfl, rfl, Function.update_self ..⟩
            simp only [insert, hpc₂, hagain]
      refine ⟨[.search t, .allocate t (some new), .insert t], s₃, a, by simp [Label.task], ?_, ?_, ?_,
        hpc₃⟩
      · simp only [run, step, hsearch, Option.bind_some, hallocate, hinsert]
      · rw [hsets, hs₂]
        rfl
      · rw [hstart, hs₂]
        rfl

/-- The last two steps of `sys_getuserweight`. -/
theorem get_returns {s : State} {t : TaskId} {uid : Uid} {a : Addr}
    (hpc : s.pc t = .got uid a .getuserweight) :
    ∃ s' v, run s [.use t 0, .release t] = some s' ∧ s'.sets = s.sets ∧ s'.start = s.start ∧
      s'.pc t = .ready (.weight uid v) := by
  obtain ⟨m, hm⟩ : ∃ m, m = s.setPc t (.releasing a (.weight uid (s.cache.user a).uwrrWeight)) :=
    ⟨_, rfl⟩
  have huse : use s t 0 = some m := by simp only [use, hpc, hm]
  have hpc' : m.pc t = .releasing a (.weight uid (s.cache.user a).uwrrWeight) := by
    rw [hm]
    exact Function.update_self ..
  refine ⟨{ m with cache := freeUid m.cache a }.setPc t
    (.ready (.weight uid (s.cache.user a).uwrrWeight)), _, ?_, ?_, ?_, Function.update_self ..⟩
  · simp only [run, step, huse, Option.bind_some, release, hpc']
  · show m.sets = s.sets
    rw [hm]
    rfl
  · show m.start = s.start
    rw [hm]
    rfl

/-- The last two steps of `sys_setuserweight`. -/
theorem set_returns {s : State} {t : TaskId} {uid : Uid} {a : Addr} {weight : Nat}
    (hpc : s.pc t = .got uid a (.setuserweight weight)) :
    ∃ s', run s [.use t 0, .release t] = some s' ∧ s'.sets = (uid, weight) :: s.sets ∧
      s'.pc t = .ready (.code 0) := by
  obtain ⟨m, hm⟩ : ∃ m, m = (setWeight s a uid weight).setPc t (.releasing a (.code 0)) := ⟨_, rfl⟩
  have huse : use s t 0 = some m := by simp only [use, hpc, hm]
  have hpc' : m.pc t = .releasing a (.code 0) := by
    rw [hm]
    exact Function.update_self ..
  refine ⟨{ m with cache := freeUid m.cache a }.setPc t (.ready (.code 0)), ?_, ?_,
    Function.update_self ..⟩
  · simp only [run, step, huse, Option.bind_some, release, hpc']
  · show m.sets = _
    rw [hm]
    rfl

/-- `sys_getuserweight` alone returns the latest weight. -/
theorem getuserweight_returns {s : State} (h : Inv s) {t : TaskId} {me : Addr}
    (hme : s.me t = some me) {uid : Int} (huid : 0 ≤ uid ∧ uid ≤ 65535) {new : Addr}
    (hnew : s.cache.allocated new = false) :
    ∃ ls s', (∀ l ∈ ls, Label.task l = t) ∧ run s (.getuserweight t uid :: ls) = some s' ∧
      s'.sets = s.sets ∧
      s'.pc t = .ready (.weight uid.toNat (latest s.sets uid.toNat)) := by
  obtain ⟨m, hm⟩ : ∃ m, m = sysGetuserweight s t me uid := ⟨_, rfl⟩
  have hcall : m = { s with start := Function.update s.start t s.sets }.setPc t
      (.searching uid.toNat .getuserweight) := by
    rw [hm, sysGetuserweight, if_neg (by omega), if_neg (by omega)]
  have hpc : m.pc t = .searching uid.toNat .getuserweight := by
    rw [hcall]
    exact Function.update_self ..
  have hnew' : m.cache.allocated new = false := by
    rw [hcall]
    exact hnew
  obtain ⟨ls, s₂, a, hls, hrun, hsets, hstart, hgot⟩ := alloc_returns hpc hnew'
  obtain ⟨s₃, v, hrun', hsets', hstart', hready⟩ := get_returns hgot
  have hwhole : run s (.getuserweight t uid :: (ls ++ [.use t 0, .release t])) = some s₃ := by
    show (step s (.getuserweight t uid)).bind _ = _
    have hstep : step s (.getuserweight t uid) = some m := by
      show (s.me t).map _ = _
      rw [hme, hm]
      rfl
    rw [hstep]
    show run m _ = _
    rw [run_append hrun]
    exact hrun'
  have hstart₃ : s₃.start t = s.sets := by
    rw [hstart', hstart, hcall]
    exact Function.update_self ..
  have hsets₃ : s₃.sets = s.sets := by
    rw [hsets', hsets, hcall]
    rfl
  refine ⟨_, s₃, ?_, hwhole, hsets₃, ?_⟩
  · intro l hl
    rcases List.mem_append.mp hl with hl | hl
    · exact hls l hl
    · simp only [List.mem_cons, List.not_mem_nil, or_false] at hl
      rcases hl with rfl | rfl
      · rfl
      · rfl
  · -- no weight was set in between
    obtain ⟨l, hl, hl', hval⟩ := ((h.run hwhole).pc t).answer uid.toNat v (by rw [hready]; rfl)
    rw [hstart₃] at hl
    rw [hsets₃] at hl'
    have hsame : l = s.sets := hl'.eq_of_length_le hl.length_le
    rw [hready, hval, hsame]

/-- `sys_setuserweight` by root, alone, is recorded as the latest. -/
theorem setuserweight_returns {s : State} {t : TaskId} {me : Addr} (hme : s.me t = some me)
    (hroot : (s.cache.user me).uid = 0) {uid weight : Int}
    (huid : uid = -1 ∨ 0 ≤ uid ∧ uid ≤ 65535) (hweight : 0 < weight) {new : Addr}
    (hnew : s.cache.allocated new = false) :
    ∃ ls s', (∀ l ∈ ls, Label.task l = t) ∧ run s (.setuserweight t uid weight :: ls) = some s' ∧
      s'.sets = (if uid = -1 then 0 else uid.toNat, weight.toNat) :: s.sets ∧
      s'.pc t = .ready (.code 0) := by
  obtain ⟨m, hm⟩ : ∃ m, m = sysSetuserweight s t me uid weight := ⟨_, rfl⟩
  have hstep : step s (.setuserweight t uid weight) = some m := by
    show (s.me t).map _ = _
    rw [hme, hm]
    rfl
  rcases huid with rfl | huid
  · refine ⟨[], m, fun _ hl => (by cases hl), ?_, ?_, ?_⟩
    · show (step s (.setuserweight t (-1) weight)).bind _ = _
      rw [hstep]
      rfl
    · rw [hm, sysSetuserweight, if_neg (by omega), if_neg (by omega), if_neg (by simp [hroot]),
        if_pos rfl, if_pos rfl, hroot]
      rfl
    · rw [hm, sysSetuserweight, if_neg (by omega), if_neg (by omega), if_neg (by simp [hroot]),
        if_pos rfl]
      exact Function.update_self ..
  · have hcall : m = s.setPc t (.searching uid.toNat (.setuserweight weight.toNat)) := by
      rw [hm, sysSetuserweight, if_neg (by omega), if_neg (by omega), if_neg (by simp [hroot]),
        if_neg (by omega)]
    have hpc : m.pc t = .searching uid.toNat (.setuserweight weight.toNat) := by
      rw [hcall]
      exact Function.update_self ..
    have hnew' : m.cache.allocated new = false := by
      rw [hcall]
      exact hnew
    obtain ⟨ls, s₂, a, hls, hrun, hsets, -, hgot⟩ := alloc_returns hpc hnew'
    obtain ⟨s₃, hrun', hsets', hready⟩ := set_returns hgot
    refine ⟨ls ++ [.use t 0, .release t], s₃, ?_, ?_, ?_, hready⟩
    · intro l hl
      rcases List.mem_append.mp hl with hl | hl
      · exact hls l hl
      · simp only [List.mem_cons, List.not_mem_nil, or_false] at hl
        rcases hl with rfl | rfl
        · rfl
        · rfl
    · show (step s (.setuserweight t uid weight)).bind _ = _
      rw [hstep]
      show run m _ = _
      rw [run_append hrun]
      exact hrun'
    · rw [hsets', hsets, hcall, if_neg (by omega)]
      rfl

/-! ## The history -/

/-- A step of a call of `sys_setuserweight` that returns 0. -/
def SetBy (s : State) (l : Label) (s' : State) (uid : Uid) (weight : Nat) : Prop :=
  (∃ t me, l = .setuserweight t (-1) weight ∧ s.me t = some me ∧ (s.cache.user me).uid = uid ∧
    s'.pc t = .ready (.code 0)) ∨
  ∃ t i a, l = .use t i ∧ s.pc t = .got uid a (.setuserweight weight) ∧
    s'.pc t = .releasing a (.code 0)

theorem sysSetuserweight_sets {s : State} {t : TaskId} {me : Addr} (hme : s.me t = some me)
    (uid weight : Int) :
    (sysSetuserweight s t me uid weight).sets = s.sets ∨
      ∃ v, (sysSetuserweight s t me uid weight).sets = ((s.cache.user me).uid, v) :: s.sets ∧
        SetBy s (.setuserweight t uid weight) (sysSetuserweight s t me uid weight)
          (s.cache.user me).uid v := by
  rw [sysSetuserweight]
  split
  · exact Or.inl rfl
  · rename_i hpos
    split
    · exact Or.inl rfl
    · split
      · exact Or.inl rfl
      · split
        · rename_i huid
          refine Or.inr ⟨weight.toNat, rfl, Or.inl ⟨t, me, ?_, hme, rfl, Function.update_self ..⟩⟩
          rw [huid, Int.toNat_of_nonneg (by omega)]
        · exact Or.inl rfl

/-- Nothing else writes the history. -/
theorem step_sets {s s' : State} {l : Label} (hst : step s l = some s') :
    s'.sets = s.sets ∨ ∃ uid v, s'.sets = (uid, v) :: s.sets ∧ SetBy s l s' uid v := by
  cases l with
  | getuserweight t uid =>
      obtain ⟨me, -, rfl⟩ := Option.map_eq_some_iff.mp hst
      left
      rw [sysGetuserweight]
      split
      · rfl
      · split
        · rfl
        · rfl
  | setuserweight t uid weight =>
      obtain ⟨me, hme, rfl⟩ := Option.map_eq_some_iff.mp hst
      rcases sysSetuserweight_sets hme uid weight with hsame | ⟨v, hsets, hby⟩
      · exact Or.inl hsame
      · exact Or.inr ⟨_, v, hsets, hby⟩
  | allocUid t uid =>
      obtain ⟨me, -, rfl⟩ := Option.map_eq_some_iff.mp hst
      exact Or.inl rfl
  | search t =>
      have hst : search s t = some s' := hst
      rw [search] at hst
      split at hst
      · split at hst
        · cases hst
          exact Or.inl rfl
        · cases hst
          exact Or.inl rfl
      · cases hst
  | allocate t new =>
      have hst : allocate s t new = some s' := hst
      unfold allocate at hst
      split at hst
      · cases hst
        exact Or.inl rfl
      · split at hst
        · cases hst
        · cases hst
          exact Or.inl rfl
      · cases hst
  | insert t =>
      have hst : insert s t = some s' := hst
      rw [insert] at hst
      split at hst
      · split at hst
        · cases hst
          exact Or.inl rfl
        · cases hst
          exact Or.inl rfl
      · cases hst
  | use t i =>
      have hst : use s t i = some s' := hst
      rw [use] at hst
      split at hst
      · split at hst
        · cases hst
          exact Or.inl rfl
        · cases hst
      · cases hst
        exact Or.inl rfl
      · rename_i uid a weight hpc
        cases hst
        exact Or.inr ⟨uid, weight, rfl, Or.inr ⟨t, i, a, rfl, hpc, Function.update_self ..⟩⟩
      · cases hst
  | release t =>
      have hst : release s t = some s' := hst
      rw [release] at hst
      split at hst
      · cases hst
        exact Or.inl rfl
      · cases hst
  | findUser t uid i =>
      have hst : findUser s t uid i = some s' := hst
      unfold findUser at hst
      split at hst
      · split at hst
        · cases hst
          exact Or.inl rfl
        · cases hst
      · cases hst
        exact Or.inl rfl
      · cases hst
  | getUid t i =>
      have hst : getUid s t i = some s' := hst
      rw [getUid] at hst
      split at hst
      · split at hst
        · cases hst
          exact Or.inl rfl
        · cases hst
      · cases hst
  | tick t =>
      obtain ⟨a, -, rfl⟩ := Option.map_eq_some_iff.mp hst
      exact Or.inl rfl
  | quit t i =>
      unfold step at hst
      dsimp only at hst
      split at hst
      · split at hst
        · cases hst
          exact Or.inl rfl
        · cases hst
      · cases hst
  | _ =>
      unfold step at hst
      dsimp only at hst
      split at hst
      · cases hst
        exact Or.inl rfl
      · cases hst

/-- **A user's weight is never lost.** In every state of every run, with every
interleaving of the calls:

* `uidhash_table` has at most one struct of each uid;
* the weight that `sys_getuserweight` of a uid has returned was the latest one
  set for it, or 10 if there was none, at some time during the call;
* a call that nobody interrupts returns the latest weight at its begin, whether
  the struct is in the table, has a count of 0 or has been freed;
* a call of `sys_setuserweight` by root is recorded as the latest, and the history
  is written by such calls only. -/
theorem user_weight_kept (s : State) (h : system.Reach System.anyStep s) :
    (∀ b b' a a', a ∈ s.cache.table b → a' ∈ s.cache.table b' →
      (s.cache.user a).uid = (s.cache.user a').uid → a = a' ∧ b = b') ∧
    (∀ b, (s.cache.table b).Nodup) ∧
    (∀ t uid v, s.pc t = .ready (.weight uid v) →
      ∃ l, s.start t <:+ l ∧ l <:+ s.sets ∧ v = latest l uid) ∧
    (∀ t me (uid : Int) new, s.me t = some me → 0 ≤ uid ∧ uid ≤ 65535 →
      s.cache.allocated new = false →
      ∃ ls s', (∀ l ∈ ls, Label.task l = t) ∧ run s (.getuserweight t uid :: ls) = some s' ∧
        s'.sets = s.sets ∧ s'.pc t = .ready (.weight uid.toNat (latest s.sets uid.toNat))) ∧
    (∀ t me (uid weight : Int) new, s.me t = some me → (s.cache.user me).uid = 0 →
      uid = -1 ∨ 0 ≤ uid ∧ uid ≤ 65535 → 0 < weight → s.cache.allocated new = false →
      ∃ ls s', (∀ l ∈ ls, Label.task l = t) ∧ run s (.setuserweight t uid weight :: ls) = some s' ∧
        s'.sets = (if uid = -1 then 0 else uid.toNat, weight.toNat) :: s.sets ∧
        s'.pc t = .ready (.code 0)) ∧
    (∀ l s', step s l = some s' →
      s'.sets = s.sets ∨ ∃ uid v, s'.sets = (uid, v) :: s.sets ∧ SetBy s l s' uid v) := by
  have hinv := Inv.reach h
  refine ⟨?_, hinv.cache.nodup, fun t uid v hpc => ?_,
    fun t me uid new hme huid hnew => getuserweight_returns hinv hme huid hnew,
    fun t me uid weight new hme hroot huid hweight hnew =>
      setuserweight_returns hme hroot huid hweight hnew, fun l s' => step_sets⟩
  · intro b b' a a' ha ha' huid
    have heq := hinv.cache.unique a a' (hinv.cache.hashed_of_mem ha) (hinv.cache.hashed_of_mem ha')
      huid
    refine ⟨heq, ?_⟩
    rw [← (hinv.cache.bucket b a ha).1, ← (hinv.cache.bucket b' a' ha').1, huid]
  · exact (hinv.pc t).answer uid v (by rw [hpc]; rfl)

theorem reach_run {s s' : State} {ls : List Label} (h : system.Reach System.anyStep s)
    (hrun : run s ls = some s') : system.Reach System.anyStep s' := by
  induction ls generalizing s with
  | nil =>
      cases hrun
      exact h
  | cons l ls ih =>
      obtain ⟨m, hm, hrest⟩ := Option.bind_eq_some_iff.mp hrun
      exact ih (h.step l trivial hm) hrest

/-- Root sets the weight of user 1000, whose struct is made for it and kept. -/
def weightRun : List Label :=
  [.setuserweight 0 1000 20, .search 0, .allocate 0 (some 1), .insert 0, .use 0 0, .release 0]

def weightSet : State := (run State.init weightRun).getD State.init

/-- Nobody has a reference on the struct, and the weight is still there. -/
theorem weightSet_kept :
    (weightSet.cache.user 1).count = 0 ∧
    ∃ ls s', run weightSet (.getuserweight 0 1000 :: ls) = some s' ∧
      s'.pc 0 = .ready (.weight 1000 20) := by
  have hrun : run State.init weightRun = some weightSet := by
    rw [weightSet]
    cases hr : run State.init weightRun with
    | none =>
        have hsome : (run State.init weightRun).isSome = true := by decide
        rw [hr] at hsome
        cases hsome
    | some s => rfl
  obtain ⟨-, -, -, hget, -, -⟩ := user_weight_kept weightSet (reach_run (.init rfl) hrun)
  obtain ⟨ls, s', -, hrun', -, hready⟩ := hget 0 rootUser 1000 2 (by decide) (by decide) (by decide)
  exact ⟨by decide, ls, s', hrun', hready⟩

end LinuxHacks.UserCache
