import LinuxHacks.Semaphore.Sections

/-!
# Who holds the spin lock when an operation returns

Every exit of a locked section unlocks, but one: the error exit of
`sthread_sem_destroy`. As long as no destroy takes the lock while the counter is
off its initial value, no operation returns with the lock, and whoever holds it
frees it by steps of its own (`LockInv`). A destroy that is refused sets
`destroyed` and keeps the lock, and from then on no thread ever gets it.

* `DestroyAt`: how far a destroy has come, and what it found;
* `LockInv.acquire`, `LockInv.advance`, `LockInv.unlocked`: the steps;
* `Stuck.step`: after a refused destroy the lock stays taken.
-/

namespace LinuxHacks.Semaphore

open LinuxHacks.Lib

/-- `t` executes the next statement of its section. -/
def SoloStep (t : ThreadId) (f f' : Locked) : Prop :=
  ∃ c, f.code t = some c ∧ f' = f.advance t c

/-- No thread leaves a section with the lock, the lock becomes free without the
help of other threads, and a destroy about to return -1 from a semaphore that it
found alive has left it as it was. -/
structure Released (f : Locked) : Prop where
  returning : ∀ t, (f.code t = none ∨ ∃ e, f.code t = some (.exit e)) → f.holder ≠ some t
  proceeds : f.mem.sem.spinLock = true → ∃ t f', f.holder = some t ∧
    Relation.ReflTransGen (SoloStep t) f f' ∧ f'.mem.sem.spinLock = false
  unchanged : ∀ t, f.holder = some t → f.mem.pc t = .destroy → (f.entry t).destroyed = false →
    f.code t = some (unlockAnd (.ret (-1))) ∨ f.code t = some (.exit (.ret (-1))) →
    f.mem.sem.destroyed = false ∧ f.mem.sem.semaphore = (f.entry t).semaphore ∧
      f.mem.sem.queue = (f.entry t).queue

/-- A destroy takes the lock only of a semaphore that is destroyed, or whose
counter has its initial value. -/
def NotRefused (f : Locked) (a : LockedLabel) : Prop :=
  ∀ t, a = .acquire t → f.mem.pc t = .destroy →
    f.mem.sem.destroyed = true ∨ f.mem.sem.semaphore = f.mem.sem.initialSemaphore

/-! ## The invariant -/

/-- A write of a section that keeps the lock and moves no thread. -/
def KeepsLock (g : State → State) : Prop :=
  ∀ s, (g s).sem.spinLock = s.sem.spinLock ∧ (g s).pc = s.pc

/-- How far a destroy has come that will not be refused. -/
inductive DestroyAt (s : State) (entry : Sem) : SemCode → Prop
  | check : s.sem.destroyed = entry.destroyed →
      s.sem.destroyed = true ∨ s.sem.semaphore = s.sem.initialSemaphore →
      DestroyAt s entry destroyCode
  | mark : s.sem.semaphore = s.sem.initialSemaphore → DestroyAt s entry destroyMark
  | compare : s.sem.semaphore = s.sem.initialSemaphore → DestroyAt s entry destroyCompare
  | success : DestroyAt s entry (unlockAnd (.ret 0))
  | successExit : DestroyAt s entry (.exit (.ret 0))
  | dead : entry.destroyed = true → DestroyAt s entry (unlockAnd (.ret (-1)))
  | deadExit : entry.destroyed = true → DestroyAt s entry (.exit (.ret (-1)))

structure LockInv (f : Locked) : Prop where
  word : f.mem.sem.spinLock = true ↔ ∃ t, f.holder = some t
  held : ∀ t, f.holder = some t → ∃ c, f.code t = some c ∧
    (c.Releases KeepsLock ∨ f.mem.pc t = .destroy ∧ ∀ e, c ≠ .exit e)
  free : ∀ t c, f.code t = some c → f.holder ≠ some t → ∃ e, c = .exit e
  place : ∀ t c, f.code t = some c → sectionCode t (f.mem.pc t) ≠ none
  destroying : ∀ t c, f.code t = some c → f.mem.pc t = .destroy →
    DestroyAt f.mem (f.entry t) c

theorem releases_unlockAnd (e : Exit) : (unlockAnd e).Releases KeepsLock := ⟨e, rfl⟩

theorem keepsLock_takeUnit : KeepsLock State.takeUnit := fun _ => ⟨rfl, rfl⟩

theorem keepsLock_wakeHead : KeepsLock State.wakeHead := fun _ => ⟨rfl, rfl⟩

/-- Every section but that of destroy unlocks before each of its exits. -/
theorem sectionCode_releases {t : ThreadId} {pc : Pc} {c : SemCode}
    (hc : sectionCode t pc = some c) (hpc : pc ≠ .destroy) : c.Releases KeepsLock := by
  have hok := releases_unlockAnd
  cases pc with
  | tryDown inDown =>
      cases hc
      exact ⟨hok _, ⟨keepsLock_takeUnit, hok _⟩, hok _⟩
  | recheck q =>
      cases hc
      exact ⟨hok _, ⟨keepsLock_takeUnit, hok _⟩, fun _ => ⟨rfl, rfl⟩, fun _ => ⟨rfl, rfl⟩, hok _⟩
  | woken q =>
      cases hc
      exact ⟨hok _, ⟨keepsLock_takeUnit, fun _ => ⟨rfl, rfl⟩, ⟨fun _ => ⟨rfl, rfl⟩, hok _⟩,
        keepsLock_wakeHead, hok _⟩, hok _⟩
  | up =>
      cases hc
      exact ⟨hok _, fun _ => ⟨rfl, rfl⟩, hok _, keepsLock_wakeHead, hok _⟩
  | destroy => exact absurd rfl hpc
  | _ => cases hc

theorem DestroyAt.frees {s : State} {entry : Sem} {c : SemCode} (h : DestroyAt s entry c)
    (hc : ∀ e, c ≠ .exit e) : c.Frees s := by
  have hcompare : ∀ s : State, s.sem.semaphore = s.sem.initialSemaphore →
      destroyCompare.Frees s := by
    intro s hs
    refine ⟨fun hne => absurd hs ?_, fun _ => ⟨_, rfl⟩⟩
    exact of_decide_eq_true hne
  cases h with
  | check _ hok =>
      refine ⟨fun _ => ⟨_, rfl⟩, fun halive => hcompare (setDestroyed s) ?_⟩
      rcases hok with hdead | hinit
      · exact absurd (hdead.symm.trans halive) (by simp)
      · exact hinit
  | mark hs => exact hcompare (setDestroyed s) hs
  | compare hs => exact hcompare s hs
  | success => exact ⟨_, rfl⟩
  | successExit => exact absurd rfl (hc _)
  | dead _ => exact ⟨_, rfl⟩
  | deadExit _ => exact absurd rfl (hc _)

/-- At an exit it does not matter what the others do to the semaphore. -/
theorem DestroyAt.exit {s s' : State} {entry : Sem} {e : Exit}
    (h : DestroyAt s entry (.exit e)) : DestroyAt s' entry (.exit e) := by
  cases h with
  | successExit => exact .successExit
  | deadExit hd => exact .deadExit hd

theorem DestroyAt.congr {s s' : State} {entry : Sem} {c : SemCode} (h : DestroyAt s entry c)
    (hdead : s'.sem.destroyed = s.sem.destroyed) (hsem : s'.sem.semaphore = s.sem.semaphore)
    (hinit : s'.sem.initialSemaphore = s.sem.initialSemaphore) : DestroyAt s' entry c := by
  cases h with
  | check hsame hok => exact .check (hdead.trans hsame) (by rw [hdead, hsem, hinit]; exact hok)
  | mark hs => exact .mark (by rw [hsem, hinit]; exact hs)
  | compare hs => exact .compare (by rw [hsem, hinit]; exact hs)
  | success => exact .success
  | successExit => exact .successExit
  | dead hd => exact .dead hd
  | deadExit hd => exact .deadExit hd

/-- A destroy that is not refused goes on to its `unlock`. -/
theorem DestroyAt.next {s s' : State} {entry : Sem} {c k : SemCode} (h : DestroyAt s entry c)
    (hk : c.next spinUnlock s = some (k, s')) (hlock : ∀ j, c ≠ .unlock j) :
    DestroyAt s' entry k ∧ (∀ e, k ≠ .exit e) ∧ s'.sem.spinLock = s.sem.spinLock ∧
      s'.pc = s.pc := by
  cases h with
  | check hsame hok =>
      cases hk
      by_cases hd : s.sem.destroyed = true
      · rw [if_pos hd]
        exact ⟨.dead (hsame.symm.trans hd), fun _ he => (by cases he), rfl, rfl⟩
      · rw [if_neg hd]
        exact ⟨.mark (hok.resolve_left hd), fun _ he => (by cases he), rfl, rfl⟩
  | mark hs =>
      cases hk
      exact ⟨.compare hs, fun _ he => (by cases he), rfl, rfl⟩
  | compare hs =>
      cases hk
      rw [if_neg (by simp [hs])]
      exact ⟨.success, fun _ he => (by cases he), rfl, rfl⟩
  | success => exact absurd rfl (hlock _)
  | dead _ => exact absurd rfl (hlock _)
  | successExit => cases hk
  | deadExit _ => cases hk

theorem DestroyAt.unlock {s : State} {entry : Sem} {j : SemCode}
    (h : DestroyAt s entry (.unlock j)) : ∃ e, j = .exit e := by
  generalize hc : Code.unlock j = c at h
  cases h with
  | success =>
      cases hc
      exact ⟨_, rfl⟩
  | dead _ =>
      cases hc
      exact ⟨_, rfl⟩
  | _ => cases hc

/-! ## Steps -/

section Steps

variable {f : Locked} {t : ThreadId}

/-- What a step without the lock may change of the semaphore: nothing but the
`next` field of a new element. -/
theorem step_unlocked {s s' : State} {a : Label} (ha : a.isUnlocked = true) (hst : Step s a s') :
    (s'.sem.spinLock = s.sem.spinLock ∧ s'.sem.destroyed = s.sem.destroyed ∧
      s'.sem.semaphore = s.sem.semaphore ∧ s'.sem.initialSemaphore = s.sem.initialSemaphore) ∧
      ∀ u, sectionCode u (s.pc u) ≠ none → s'.pc u = s.pc u := by
  have hother : ∀ {t : ThreadId} {pc : Pc}, sectionCode t (s.pc t) = none →
      ∀ u, sectionCode u (s.pc u) ≠ none → Function.update s.pc t pc u = s.pc u := by
    intro t pc ht u hu
    refine Function.update_of_ne ?_ _ _
    rintro rfl
    exact hu ht
  cases hst with
  | callTryDown hpc => exact ⟨⟨rfl, rfl, rfl, rfl⟩, hother (by rw [hpc]; rfl)⟩
  | callDown hpc => exact ⟨⟨rfl, rfl, rfl, rfl⟩, hother (by rw [hpc]; rfl)⟩
  | callUp hpc => exact ⟨⟨rfl, rfl, rfl, rfl⟩, hother (by rw [hpc]; rfl)⟩
  | callDestroy hpc => exact ⟨⟨rfl, rfl, rfl, rfl⟩, hother (by rw [hpc]; rfl)⟩
  | makeElem hpc _ => exact ⟨⟨rfl, rfl, rfl, rfl⟩, hother (by rw [hpc]; rfl)⟩
  | noMemory hpc => exact ⟨⟨rfl, rfl, rfl, rfl⟩, hother (by rw [hpc]; rfl)⟩
  | resume hpc _ => exact ⟨⟨rfl, rfl, rfl, rfl⟩, hother (by rw [hpc]; rfl)⟩
  | freeElem hpc => exact ⟨⟨rfl, rfl, rfl, rfl⟩, hother (by rw [hpc]; rfl)⟩
  | tryDown _ _ => cases ha
  | recheck _ _ => cases ha
  | rewake _ _ => cases ha
  | up _ _ => cases ha
  | destroy _ _ => cases ha

theorem LockInv.unlocked (h : LockInv f) {a : Label} {s' : State} (ha : a.isUnlocked = true)
    (hst : Step f.mem a s') : LockInv { f with mem := s' } := by
  obtain ⟨⟨hword, hdead, hsem, hinit⟩, hpc⟩ := step_unlocked ha hst
  have hstay : ∀ u c, f.code u = some c → s'.pc u = f.mem.pc u :=
    fun u c hc => hpc u (h.place u c hc)
  refine ⟨?_, ?_, h.free, ?_, ?_⟩
  · show s'.sem.spinLock = true ↔ _
    rw [hword]
    exact h.word
  · intro u hu
    obtain ⟨c, hc, hok⟩ := h.held u hu
    refine ⟨c, hc, ?_⟩
    show _ ∨ s'.pc u = .destroy ∧ _
    rw [hstay u c hc]
    exact hok
  · intro u c hc
    show sectionCode u (s'.pc u) ≠ none
    rw [hstay u c hc]
    exact h.place u c hc
  · intro u c hc hdes
    change s'.pc u = .destroy at hdes
    rw [hstay u c hc] at hdes
    exact (h.destroying u c hc hdes).congr hdead hsem hinit

/-- The sections after one thread has moved. -/
theorem update_code {o : Option SemCode} {u : ThreadId} {c : SemCode}
    (hu : Function.update f.code t o u = some c) :
    u = t ∧ o = some c ∨ u ≠ t ∧ f.code u = some c := by
  by_cases hut : u = t
  · rw [hut, Function.update_self] at hu
    exact Or.inl ⟨hut, hu⟩
  · rw [Function.update_of_ne hut] at hu
    exact Or.inr ⟨hut, hu⟩

theorem LockInv.acquire (h : LockInv f) {c : SemCode} (hc : sectionCode t (f.mem.pc t) = some c)
    (hfree : f.mem.sem.spinLock = false)
    (hok : f.mem.pc t = .destroy →
      f.mem.sem.destroyed = true ∨ f.mem.sem.semaphore = f.mem.sem.initialSemaphore) :
    LockInv (f.acquire t c) := by
  have hnone : ∀ u, f.holder ≠ some u := by
    intro u hu
    have hw := h.word.mpr ⟨u, hu⟩
    rw [hfree] at hw
    cases hw
  refine ⟨⟨fun _ => ⟨t, rfl⟩, fun _ => rfl⟩, ?_, ?_, ?_, ?_⟩
  · intro u hu
    cases hu
    refine ⟨c, Function.update_self .., ?_⟩
    by_cases hdes : f.mem.pc t = .destroy
    · refine Or.inr ⟨hdes, fun e he => ?_⟩
      rw [hdes] at hc
      cases hc
      cases he
    · exact Or.inl (sectionCode_releases hc hdes)
  · intro u c' hu hholder
    rcases update_code hu with ⟨rfl, -⟩ | ⟨-, hu⟩
    · exact absurd rfl hholder
    · exact h.free u c' hu (hnone u)
  · intro u c' hu
    rcases update_code hu with ⟨rfl, -⟩ | ⟨-, hu⟩
    · show sectionCode u (f.mem.pc u) ≠ none
      rw [hc]
      simp
    · exact h.place u c' hu
  · intro u c' hu hdes
    rcases update_code hu with ⟨rfl, ⟨⟩⟩ | ⟨hut, hu⟩
    · change f.mem.pc u = .destroy at hdes
      have hentry : (f.acquire u c).entry u = f.mem.sem := Function.update_self ..
      rw [hentry]
      rw [hdes] at hc
      cases hc
      exact .check rfl (hok hdes)
    · have hentry : (f.acquire t c).entry u = f.entry u := Function.update_of_ne hut _ _
      rw [hentry]
      obtain ⟨e, rfl⟩ := h.free u c' hu (hnone u)
      exact (h.destroying u _ hu hdes).exit

theorem LockInv.others (h : LockInv f) (ht : f.holder = some t) {u : ThreadId} (hut : u ≠ t)
    {c : SemCode} (hu : f.code u = some c) : ∃ e, c = .exit e := by
  refine h.free u c hu ?_
  rw [ht]
  rintro ⟨⟩
  exact hut rfl

/-- The holder goes on inside its section. -/
theorem LockInv.moves (h : LockInv f) (ht : f.holder = some t) {c k : SemCode}
    (hc : f.code t = some c) {s : State} (hword : s.sem.spinLock = f.mem.sem.spinLock)
    (hpc : s.pc = f.mem.pc)
    (hk : k.Releases KeepsLock ∨ f.mem.pc t = .destroy ∧ ∀ e, k ≠ .exit e)
    (hdes : f.mem.pc t = .destroy → DestroyAt s (f.entry t) k) :
    LockInv { f with mem := s, code := Function.update f.code t (some k) } := by
  refine ⟨?_, ?_, ?_, ?_, ?_⟩
  · show s.sem.spinLock = true ↔ _
    rw [hword]
    exact h.word
  · intro u hu
    obtain rfl : u = t := Option.some.inj (hu.symm.trans ht)
    refine ⟨k, Function.update_self .., ?_⟩
    show _ ∨ s.pc u = .destroy ∧ _
    rw [hpc]
    exact hk
  · intro u c' hu hholder
    rcases update_code hu with ⟨rfl, -⟩ | ⟨-, hu⟩
    · exact absurd ht hholder
    · exact h.free u c' hu hholder
  · intro u c' hu
    show sectionCode u (s.pc u) ≠ none
    rw [hpc]
    rcases update_code hu with ⟨rfl, -⟩ | ⟨-, hu⟩
    · exact h.place u c hc
    · exact h.place u c' hu
  · intro u c' hu hdes'
    change s.pc u = .destroy at hdes'
    rw [hpc] at hdes'
    rcases update_code hu with ⟨rfl, ⟨⟩⟩ | ⟨hut, hu⟩
    · exact hdes hdes'
    · obtain ⟨e, rfl⟩ := h.others ht hut hu
      exact (h.destroying u _ hu hdes').exit

/-- The return, or the way out to the unlocked code. -/
theorem LockInv.exits (h : LockInv f) {e : Exit} (hc : f.code t = some (.exit e)) :
    LockInv { f with mem := leave f.mem t e, code := Function.update f.code t none } := by
  have hcode : ∀ u c', Function.update f.code t none u = some c' → u ≠ t ∧ f.code u = some c' :=
    fun u c' hu => (update_code hu).resolve_left (fun hnone => by cases hnone.2)
  have hsem : (leave f.mem t e).sem = f.mem.sem := by cases e <;> rfl
  have hpc : ∀ u, u ≠ t → (leave f.mem t e).pc u = f.mem.pc u := by
    intro u hut
    cases e with
    | ret value => exact Function.update_of_ne hut _ _
    | goto pc => exact Function.update_of_ne hut _ _
  have hnot : f.holder ≠ some t := by
    intro ht
    obtain ⟨c, hc', hok⟩ := h.held t ht
    obtain rfl : Code.exit e = c := Option.some.inj (hc.symm.trans hc')
    rcases hok with hrel | ⟨-, hne⟩
    · exact hrel
    · exact hne e rfl
  refine ⟨?_, ?_, ?_, ?_, ?_⟩
  · show (leave f.mem t e).sem.spinLock = true ↔ _
    rw [hsem]
    exact h.word
  · intro u hu
    have hut : u ≠ t := by
      rintro rfl
      exact hnot hu
    obtain ⟨c, hcu, hok⟩ := h.held u hu
    refine ⟨c, (Function.update_of_ne hut _ _).trans hcu, ?_⟩
    show _ ∨ (leave f.mem t e).pc u = .destroy ∧ _
    rw [hpc u hut]
    exact hok
  · intro u c' hu
    exact h.free u c' (hcode u c' hu).2
  · intro u c' hu
    show sectionCode u ((leave f.mem t e).pc u) ≠ none
    rw [hpc u (hcode u c' hu).1]
    exact h.place u c' (hcode u c' hu).2
  · intro u c' hu hdes
    change (leave f.mem t e).pc u = .destroy at hdes
    rw [hpc u (hcode u c' hu).1] at hdes
    exact (h.destroying u c' (hcode u c' hu).2 hdes).congr (by rw [hsem]) (by rw [hsem])
      (by rw [hsem])

theorem LockInv.unlocks (h : LockInv f) {e : Exit} (hc : f.code t = some (unlockAnd e))
    (ht : f.holder = some t) :
    LockInv { f with
      mem := spinUnlock f.mem
      code := Function.update f.code t (some (.exit e))
      holder := none } := by
  refine ⟨by simp [spinUnlock], fun u hu => (by cases hu), ?_, ?_, ?_⟩
  · intro u c' hu _
    rcases update_code hu with ⟨-, ⟨⟩⟩ | ⟨hut, hu⟩
    · exact ⟨e, rfl⟩
    · exact h.others ht hut hu
  · intro u c' hu
    rcases update_code hu with ⟨rfl, -⟩ | ⟨-, hu⟩
    · exact h.place u _ hc
    · exact h.place u c' hu
  · intro u c' hu hdes
    rcases update_code hu with ⟨rfl, ⟨⟩⟩ | ⟨hut, hu⟩
    · have hat := h.destroying u _ hc hdes
      generalize hk : unlockAnd e = k at hat
      cases hat with
      | success =>
          cases hk
          exact .successExit
      | dead hd =>
          cases hk
          exact .deadExit hd
      | _ => cases hk
    · obtain ⟨e', rfl⟩ := h.others ht hut hu
      exact (h.destroying u _ hu hdes).exit

theorem advance_next {c k : SemCode} {s : State} (hk : c.next spinUnlock f.mem = some (k, s))
    (hlock : ∀ j, c ≠ .unlock j) :
    f.advance t c = { f with mem := s, code := Function.update f.code t (some k) } := by
  cases c with
  | exit e => cases hk
  | act g j =>
      cases hk
      rfl
  | test b yes no =>
      cases hk
      rfl
  | unlock j => exact absurd rfl (hlock j)

/-- One statement of a section. -/
theorem LockInv.advance (h : LockInv f) {c : SemCode} (hc : f.code t = some c) :
    LockInv (f.advance t c) := by
  by_cases hexit : ∃ e, c = .exit e
  · obtain ⟨e, rfl⟩ := hexit
    exact h.exits hc
  have ht : f.holder = some t := by
    by_contra hnot
    exact hexit (h.free t c hc hnot)
  have hrel : f.mem.pc t ≠ .destroy → c.Releases KeepsLock := by
    intro hdes
    obtain ⟨c', hc', hok⟩ := h.held t ht
    obtain rfl : c = c' := Option.some.inj (hc.symm.trans hc')
    exact hok.resolve_right (fun hd => hdes hd.1)
  by_cases hlock : ∃ j, c = .unlock j
  · obtain ⟨j, rfl⟩ := hlock
    have hj : ∃ e, j = .exit e := by
      by_cases hdes : f.mem.pc t = .destroy
      · exact (h.destroying t _ hc hdes).unlock
      · exact hrel hdes
    obtain ⟨e, rfl⟩ := hj
    exact h.unlocks hc ht
  · have hne : ∀ j, c ≠ .unlock j := fun j hj => hlock ⟨j, hj⟩
    obtain ⟨k, s, hk⟩ : ∃ k s, c.next spinUnlock f.mem = some (k, s) := by
      cases c with
      | exit e => exact absurd ⟨e, rfl⟩ hexit
      | _ => exact ⟨_, _, rfl⟩
    rw [advance_next hk hne]
    by_cases hdes : f.mem.pc t = .destroy
    · obtain ⟨hat, hon, hword, hpc⟩ := (h.destroying t c hc hdes).next hk hne
      exact h.moves ht hc hword hpc (Or.inr ⟨hdes, hon⟩) (fun _ => hat)
    · obtain ⟨hk', hs⟩ := (hrel hdes).next hk hne
      rcases hs with rfl | ⟨g, hg, rfl⟩
      · exact h.moves ht hc rfl rfl (Or.inl hk') (fun hd => absurd hd hdes)
      · exact h.moves ht hc (hg _).1 (hg _).2 (Or.inl hk') (fun hd => absurd hd hdes)

end Steps

theorem LockInv.step {f f' : Locked} {a : LockedLabel} (h : LockInv f) (hok : NotRefused f a)
    (hst : LockedStep f a f') : LockInv f' := by
  cases hst with
  | unlocked ha hst => exact h.unlocked ha hst
  | acquire _ hc hfree => exact h.acquire hc hfree (hok _ rfl)
  | advance hc => exact h.advance hc

/-- Run lemma. -/
theorem lockInv_reach {count : Int} {f : Locked} (h : (lockedSystem count).Reach NotRefused f) :
    LockInv f := by
  refine h.invariant (I := LockInv) ?_ (fun _ _ _ hI hok hst => hI.step hok hst)
  rintro f ⟨sem, hzero, rfl⟩
  have hfree : (semInit sem count).1.spinLock = false := by
    rw [semInit] at hzero ⊢
    split_ifs at hzero ⊢
    · simp at hzero
    · rfl
  exact ⟨by simp [hfree], fun _ hu => (by cases hu), fun _ _ hu => (by cases hu),
    fun _ _ hu => (by cases hu), fun _ _ hu => (by cases hu)⟩

/-! ## What the invariant is for -/

/-- A section that frees the lock does so by steps of its own thread. -/
theorem solo_frees {t : ThreadId} : ∀ {c : SemCode} {f : Locked}, f.code t = some c →
    c.Frees f.mem →
    ∃ f', Relation.ReflTransGen (SoloStep t) f f' ∧ f'.mem.sem.spinLock = false
  | .exit _, _, _, h => absurd h id
  | .act g k, f, hc, h => by
      obtain ⟨f', hrun, hfree⟩ := solo_frees (c := k) (f := f.advance t (.act g k))
        (Function.update_self ..) h
      exact ⟨f', .head ⟨_, hc, rfl⟩ hrun, hfree⟩
  | .test b yes no, f, hc, h => by
      have hnext : (f.advance t (.test b yes no)).code t = some (if b f.mem then yes else no) :=
        Function.update_self ..
      cases hb : b f.mem with
      | true =>
          rw [hb, if_pos rfl] at hnext
          obtain ⟨f', hrun, hfree⟩ := solo_frees hnext (h.1 hb)
          exact ⟨f', .head ⟨_, hc, rfl⟩ hrun, hfree⟩
      | false =>
          rw [hb, if_neg (by simp)] at hnext
          obtain ⟨f', hrun, hfree⟩ := solo_frees hnext (h.2 hb)
          exact ⟨f', .head ⟨_, hc, rfl⟩ hrun, hfree⟩
  | .unlock k, f, hc, _ => ⟨f.advance t (.unlock k), .single ⟨_, hc, rfl⟩, rfl⟩

theorem LockInv.released {f : Locked} (h : LockInv f) : Released f where
  returning := by
    intro t hcode ht
    obtain ⟨c, hc, hok⟩ := h.held t ht
    rcases hcode with hnone | ⟨e, he⟩
    · rw [hnone] at hc
      cases hc
    · obtain rfl : Code.exit e = c := Option.some.inj (he.symm.trans hc)
      rcases hok with hrel | ⟨-, hne⟩
      · exact hrel
      · exact hne e rfl
  proceeds := by
    intro hlock
    obtain ⟨t, ht⟩ := h.word.mp hlock
    obtain ⟨c, hc, hok⟩ := h.held t ht
    have hfrees : c.Frees f.mem := by
      rcases hok with hrel | ⟨hdes, hne⟩
      · exact hrel.frees f.mem
      · exact (h.destroying t c hc hdes).frees hne
    obtain ⟨f', hrun, hfree⟩ := solo_frees hc hfrees
    exact ⟨t, f', ht, hrun, hfree⟩
  unchanged := by
    intro t _ hdes halive hcode
    -- such a destroy has found the semaphore destroyed
    rcases hcode with hc | hc
    · have hat := h.destroying t _ hc hdes
      generalize hk : unlockAnd (.ret (-1)) = k at hat
      cases hat with
      | dead hd =>
          rw [hd] at halive
          cases halive
      | _ => cases hk
    · have hat := h.destroying t _ hc hdes
      generalize hk : Code.exit (Exit.ret (-1)) = k at hat
      cases hat with
      | deadExit hd =>
          rw [hd] at halive
          cases halive
      | _ => cases hk

theorem admitted_of_solo {count : Int} {t : ThreadId} {f f' : Locked} (h : SoloStep t f f') :
    (lockedSystem count).Admitted NotRefused f f' := by
  obtain ⟨c, hc, rfl⟩ := h
  exact ⟨.advance t, fun _ h => (by cases h), LockedStep.advance hc⟩

theorem admitted_any {count : Int} {f f' : Locked}
    (h : (lockedSystem count).Admitted NotRefused f f') :
    (lockedSystem count).Admitted System.anyStep f f' := by
  obtain ⟨a, -, hst⟩ := h
  exact ⟨a, trivial, hst⟩

/-! ## After a refused destroy -/

/-- Where the refused destroy of `t` stands. -/
inductive RefusedAt (s : State) : Option SemCode → Prop
  | check : s.sem.destroyed = false → s.sem.semaphore ≠ s.sem.initialSemaphore →
      RefusedAt s (some destroyCode)
  | mark : s.sem.semaphore ≠ s.sem.initialSemaphore → RefusedAt s (some destroyMark)
  | compare : s.sem.semaphore ≠ s.sem.initialSemaphore → RefusedAt s (some destroyCompare)
  | exit : RefusedAt s (some (.exit (.ret (-1))))
  | gone : RefusedAt s none

structure Stuck (t : ThreadId) (f : Locked) : Prop where
  locked : f.mem.sem.spinLock = true
  others : ∀ u c, u ≠ t → f.code u = some c → ∃ e, c = .exit e
  own : RefusedAt f.mem (f.code t)

theorem RefusedAt.congr {s s' : State} {o : Option SemCode} (h : RefusedAt s o)
    (hdead : s'.sem.destroyed = s.sem.destroyed) (hsem : s'.sem.semaphore = s.sem.semaphore)
    (hinit : s'.sem.initialSemaphore = s.sem.initialSemaphore) : RefusedAt s' o := by
  cases h with
  | check hd hs => exact .check (hdead.trans hd) (by rw [hsem, hinit]; exact hs)
  | mark hs => exact .mark (by rw [hsem, hinit]; exact hs)
  | compare hs => exact .compare (by rw [hsem, hinit]; exact hs)
  | exit => exact .exit
  | gone => exact .gone

/-- A refused destroy goes on to its exit, without an `unlock`. -/
theorem RefusedAt.next {s s' : State} {c k : SemCode} (h : RefusedAt s (some c))
    (hk : c.next spinUnlock s = some (k, s')) :
    RefusedAt s' (some k) ∧ s'.sem.spinLock = s.sem.spinLock ∧ ∀ j, c ≠ .unlock j := by
  cases h with
  | check hd hs =>
      cases hk
      rw [if_neg (by simp [hd])]
      exact ⟨.mark hs, rfl, fun _ he => (by cases he)⟩
  | mark hs =>
      cases hk
      exact ⟨.compare hs, rfl, fun _ he => (by cases he)⟩
  | compare hs =>
      cases hk
      rw [if_pos (decide_eq_true hs)]
      exact ⟨.exit, rfl, fun _ he => (by cases he)⟩
  | exit => cases hk

theorem Stuck.step {t : ThreadId} {f f' : Locked} {a : LockedLabel} (h : Stuck t f)
    (hst : LockedStep f a f') : Stuck t f' := by
  cases hst with
  | unlocked ha hst =>
      obtain ⟨⟨hword, hdead, hsem, hinit⟩, -⟩ := step_unlocked ha hst
      exact ⟨hword.trans h.locked, h.others, h.own.congr hdead hsem hinit⟩
  | acquire _ _ hfree =>
      rw [h.locked] at hfree
      cases hfree
  | @advance u c hc =>
      have hleave : ∀ e, (leave f.mem u e).sem = f.mem.sem := fun e => by cases e <;> rfl
      by_cases hut : u = t
      · subst hut
        have hothers : ∀ {o : Option SemCode} v c', v ≠ u →
            Function.update f.code u o v = some c' → ∃ e, c' = .exit e := by
          intro o v c' hv hv'
          rcases update_code hv' with ⟨rfl, -⟩ | ⟨-, hv'⟩
          · exact absurd rfl hv
          · exact h.others v c' hv hv'
        have hown := h.own
        rw [hc] at hown
        cases hnext : c.next spinUnlock f.mem with
        | none =>
            obtain ⟨e, rfl⟩ : ∃ e, c = .exit e := by
              cases c with
              | exit e => exact ⟨e, rfl⟩
              | _ => cases hnext
            refine ⟨?_, hothers, ?_⟩
            · show (leave f.mem u e).sem.spinLock = true
              rw [hleave]
              exact h.locked
            · show RefusedAt _ (Function.update f.code u none u)
              rw [Function.update_self]
              exact .gone
        | some r =>
            obtain ⟨hat, hword, hlock⟩ := hown.next hnext
            rw [advance_next hnext hlock]
            refine ⟨hword.trans h.locked, hothers, ?_⟩
            show RefusedAt r.2 (Function.update f.code u (some r.1) u)
            rw [Function.update_self]
            exact hat
      · obtain ⟨e, rfl⟩ := h.others u c hut hc
        refine ⟨?_, ?_, ?_⟩
        · show (leave f.mem u e).sem.spinLock = true
          rw [hleave]
          exact h.locked
        · intro v c' hv hv'
          rcases update_code hv' with ⟨-, hnone⟩ | ⟨-, hv'⟩
          · cases hnone
          · exact h.others v c' hv hv'
        · show RefusedAt (leave f.mem u e) (Function.update f.code u none t)
          rw [Function.update_of_ne (Ne.symm hut)]
          exact h.own.congr (by rw [hleave]) (by rw [hleave]) (by rw [hleave])

/-- The lock is never free again. -/
theorem Stuck.run {count : Int} {t : ThreadId} {f f' : Locked} (h : Stuck t f)
    (hrun : Relation.ReflTransGen ((lockedSystem count).Admitted System.anyStep) f f') :
    f'.mem.sem.spinLock = true :=
  (System.invariant_run (I := Stuck t) (fun _ _ _ hI _ hst => hI.step hst) hrun h).locked

theorem LockInv.stuck {f : Locked} {t : ThreadId} (h : LockInv f)
    (hfree : f.mem.sem.spinLock = false) (hd : f.mem.sem.destroyed = false)
    (hs : f.mem.sem.semaphore ≠ f.mem.sem.initialSemaphore) : Stuck t (f.acquire t destroyCode) := by
  refine ⟨rfl, ?_, ?_⟩
  · intro u c hut hu
    rcases update_code hu with ⟨rfl, -⟩ | ⟨-, hu⟩
    · exact absurd rfl hut
    · refine h.free u c hu (fun hholder => ?_)
      have hw := h.word.mpr ⟨u, hholder⟩
      rw [hfree] at hw
      cases hw
  · show RefusedAt (spinLock f.mem) (Function.update f.code t (some destroyCode) t)
    rw [Function.update_self]
    exact .check hd hs

/-- **No operation returns with the spin lock, exactly as long as no destroy is
refused.** `sthread_sem_init` leaves the lock free, or the memory alone. In every
run in which a destroy takes the lock only while the counter has its initial
value (or the semaphore is destroyed already), no thread that has left a section
holds the lock, and whoever holds it frees it by steps of its own. A destroy that
takes the lock otherwise breaks this: the lock is then taken for good. -/
theorem locks_released (count : Int) {f : Locked}
    (h : (lockedSystem count).Reach NotRefused f) :
    (∀ sem n, (semInit sem n).2 = 0 ∧ (semInit sem n).1.spinLock = false ∨
      (semInit sem n).2 = -1 ∧ (semInit sem n).1 = sem) ∧
    Released f ∧
    ∀ a f', LockedStep f a f' → (NotRefused f a ↔ Released f') ∧
      (¬ NotRefused f a → ∀ f'', Relation.ReflTransGen
        ((lockedSystem count).Admitted System.anyStep) f' f'' → f''.mem.sem.spinLock = true) := by
  have hinv := lockInv_reach h
  refine ⟨?_, hinv.released, fun a f' hst => ?_⟩
  · intro sem n
    rw [semInit]
    split_ifs
    · exact Or.inr ⟨rfl, rfl⟩
    · exact Or.inl ⟨rfl, rfl⟩
  have hrefused : ¬ NotRefused f a → ∃ t, Stuck t f' ∧ f'.holder = some t := by
    intro hnot
    simp only [NotRefused, not_forall, not_or] at hnot
    obtain ⟨t, rfl, hdes, hd, hs⟩ := hnot
    cases hst with
    | acquire _ hc hfree =>
        rw [hdes] at hc
        cases hc
        exact ⟨t, hinv.stuck hfree (by simpa using hd) hs, rfl⟩
  refine ⟨⟨fun hok => (hinv.step hok hst).released, fun hrel => ?_⟩, ?_⟩
  · by_contra hnot
    obtain ⟨t, hstuck, ht⟩ := hrefused hnot
    obtain ⟨u, f'', hu, hrun, hfree⟩ := hrel.proceeds hstuck.locked
    have hrun' : Relation.ReflTransGen ((lockedSystem count).Admitted System.anyStep) f' f'' :=
      Relation.ReflTransGen.mono (fun _ _ hs => admitted_any (admitted_of_solo hs)) f' f'' hrun
    rw [hstuck.run hrun'] at hfree
    cases hfree
  · intro hnot f'' hrun
    obtain ⟨t, hstuck, -⟩ := hrefused hnot
    exact hstuck.run hrun

/-! Thread 0 has taken the only unit when thread 1 destroys the semaphore. -/

/-- `t` executes `n` statements. -/
def soloRun (t : ThreadId) : Nat → Locked → Locked
  | 0, f => f
  | n + 1, f =>
      match f.code t with
      | none => f
      | some c => soloRun t n (f.advance t c)

theorem soloRun_solo (t : ThreadId) : ∀ (n : Nat) (f : Locked),
    Relation.ReflTransGen (SoloStep t) f (soloRun t n f)
  | 0, _ => .refl
  | n + 1, f => by
      rw [soloRun]
      cases hc : f.code t with
      | none => exact .refl
      | some c => exact .head ⟨c, hc, rfl⟩ (soloRun_solo t n _)

theorem soloRun_reach {count : Int} {f : Locked} (h : (lockedSystem count).Reach NotRefused f)
    (t : ThreadId) (n : Nat) : (lockedSystem count).Reach NotRefused (soloRun t n f) :=
  h.run (Relation.ReflTransGen.mono (fun _ _ => admitted_of_solo) f _ (soloRun_solo t n f))

def oneUnit : Locked := ⟨State.init 1, fun _ => none, none, fun _ => (State.init 1).sem⟩

def unitHeld : Locked :=
  soloRun 0 5 (Locked.acquire { oneUnit with mem := oneUnit.mem.goto 0 (.tryDown false) } 0
    (tryDownCode false))

/-- Thread 1 is about to take the lock. -/
def destroyCalled : Locked := { unitHeld with mem := unitHeld.mem.goto 1 .destroy }

theorem destroyCalled_reach : (lockedSystem 1).Reach NotRefused destroyCalled := by
  have hplain : ∀ {f f' : Locked} (a : Label), (lockedSystem 1).Reach NotRefused f →
      LockedStep f (.unlocked a) f' → (lockedSystem 1).Reach NotRefused f' :=
    fun a hf hst => hf.step (.unlocked a) (fun _ h => (by cases h)) hst
  have h0 : (lockedSystem 1).Reach NotRefused oneUnit := .init ⟨(State.init 1).sem, rfl, rfl⟩
  have h1 : (lockedSystem 1).Reach NotRefused
      { oneUnit with mem := oneUnit.mem.goto 0 (.tryDown false) } :=
    hplain (.callTryDown 0) h0 (.unlocked rfl (.callTryDown rfl))
  have hlock : (lockedSystem 1).step { oneUnit with mem := oneUnit.mem.goto 0 (.tryDown false) }
      (.acquire 0) (Locked.acquire { oneUnit with mem := oneUnit.mem.goto 0 (.tryDown false) } 0
        (tryDownCode false)) := LockedStep.acquire rfl rfl rfl
  have h2 := h1.step (.acquire 0) (fun u hu hdes => (by cases hu; cases hdes)) hlock
  exact hplain (.callDestroy 1) (soloRun_reach h2 0 5) (.unlocked rfl (.callDestroy rfl))

/-- Thread 1 has returned. -/
def destroyRefused : Locked := soloRun 1 4 (destroyCalled.acquire 1 destroyCode)

/-- While thread 1 has not taken the lock, everything is in order. -/
theorem destroyCalled_released : Released destroyCalled ∧ destroyCalled.mem.pc 1 = .destroy :=
  ⟨(locks_released 1 destroyCalled_reach).2.1, rfl⟩

/-- The destroy returns -1 from a live semaphore: `destroyed` is set, and no
thread gets the lock any more. -/
theorem destroy_keeps_lock :
    (lockedSystem 1).Reach System.anyStep destroyRefused ∧
      (destroyRefused.entry 1).destroyed = false ∧ destroyRefused.mem.pc 1 = .idle ∧
      destroyRefused.mem.returned 1 = -1 ∧ destroyRefused.mem.sem.destroyed = true ∧
      destroyRefused.holder = some 1 ∧
      (∀ f, Relation.ReflTransGen ((lockedSystem 1).Admitted System.anyStep) destroyRefused f →
        f.mem.sem.spinLock = true) ∧
      ¬ ∀ f, (lockedSystem 1).Reach System.anyStep f → Released f := by
  have hreach : (lockedSystem 1).Reach System.anyStep destroyCalled :=
    destroyCalled_reach.mono (fun _ _ _ => trivial)
  have hacquire : (lockedSystem 1).step destroyCalled (.acquire 1)
      (destroyCalled.acquire 1 destroyCode) := LockedStep.acquire rfl rfl rfl
  have hsolo : Relation.ReflTransGen ((lockedSystem 1).Admitted System.anyStep)
      (destroyCalled.acquire 1 destroyCode) destroyRefused :=
    Relation.ReflTransGen.mono (fun _ _ hs => admitted_any (admitted_of_solo hs)) _ _
      (soloRun_solo 1 4 _)
  have hend : (lockedSystem 1).Reach System.anyStep destroyRefused :=
    (hreach.step (.acquire 1) trivial hacquire).run hsolo
  have hstuck : Stuck 1 (destroyCalled.acquire 1 destroyCode) :=
    (lockInv_reach destroyCalled_reach).stuck rfl rfl (by decide)
  refine ⟨hend, rfl, rfl, rfl, rfl, rfl, fun f hrun => hstuck.run (hsolo.trans hrun), fun h => ?_⟩
  exact (h destroyRefused hend).returning 1 (Or.inl rfl) rfl

end LinuxHacks.Semaphore
