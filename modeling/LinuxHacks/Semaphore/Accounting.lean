import Mathlib.Data.Set.Card
import LinuxHacks.Semaphore.Queue

/-!
# The value of a semaphore, and who may take a unit

`UnitEffect s a s'` is what a step can do to the value of the semaphore. The
accounting and the absence of barging are both read off it. `counts_path` says
what `ups` and `downs` count: calls that return 0.
-/

namespace LinuxHacks.Semaphore

open LinuxHacks.Lib

theorem wrapInt_eq {x : Int} (hlo : -2 ^ 31 ≤ x) (hhi : x < 2 ^ 31) : wrapInt x = x := by
  rw [wrapInt, Int.bmod_eq_iff (by decide)]
  omega

/-! ## Effect of a step on the value -/

/-- The path by which a unit is taken: without queueing, while nobody is
queued, or at the head of the queue. -/
inductive TakenBy (s : State) (a : Label) (s' : State) : Prop
  | fast (t : ThreadId) : a = .tryDown t ∨ a = .recheck t → s.sem.queue.head = none →
      s'.dequeued = s.dequeued → TakenBy s a s'
  | head (t : ThreadId) (q : Elem) : a = .rewake t → s.sem.queue.head = some q →
      s.thread q = t → s'.dequeued = s.dequeued ++ [t] → TakenBy s a s'

inductive UnitEffect (s : State) (a : Label) (s' : State) : Prop
  | none : s'.sem.semaphore = s.sem.semaphore → s'.ups = s.ups → s'.downs = s.downs →
      UnitEffect s a s'
  | up (t : ThreadId) : a = .up t → s'.sem.semaphore = wrapInt (s.sem.semaphore + 1) →
      s'.ups = s.ups + 1 → s'.downs = s.downs → UnitEffect s a s'
  | down : 0 < s.sem.semaphore → s'.sem.semaphore = wrapInt (s.sem.semaphore - 1) →
      s'.ups = s.ups → s'.downs = s.downs + 1 → TakenBy s a s' → UnitEffect s a s'

theorem unitEffect_step {s s' : State} {a : Label} {l : List Elem} (h : QueueInv s l)
    (hok : neverDestroyed s a) (hst : Step s a s') : UnitEffect s a s' := by
  cases hst with
  | callTryDown _ => exact .none rfl rfl rfl
  | callDown _ => exact .none rfl rfl rfl
  | callUp _ => exact .none rfl rfl rfl
  | callDestroy _ => exact .none rfl rfl rfl
  | @tryDown t inDown _ _ =>
      unfold tryDown
      split
      case isTrue hc =>
          have hav : semAvail s.sem = true := (Bool.and_eq_true_iff.mp hc).2
          obtain ⟨hpos, rfl⟩ := h.avail_iff.mp hav
          exact .down hpos rfl rfl rfl (.fast t (Or.inl rfl) h.repr.head_eq rfl)
      case isFalse =>
          split
          · exact .none rfl rfl rfl
          · exact .none rfl rfl rfl
  | makeElem _ _ => exact .none rfl rfl rfl
  | noMemory _ => exact .none rfl rfl rfl
  | @recheck t q _ _ =>
      unfold recheck
      rw [if_neg (by rw [h.alive]; simp)]
      split
      case isTrue hav =>
          obtain ⟨hpos, rfl⟩ := h.avail_iff.mp hav
          exact .down hpos rfl rfl rfl (.fast t (Or.inr rfl) h.repr.head_eq rfl)
      case isFalse => exact .none rfl rfl rfl
  | resume _ _ => exact .none rfl rfl rfl
  | @rewake t q hpc _ =>
      unfold rewake
      rw [if_neg (by rw [h.alive]; simp)]
      split
      case isTrue hc =>
          have hown : s.thread q = t := (h.owned t q (by rw [hpc]; rfl)).2
          exact .down hc.1 rfl rfl rfl (.head t q rfl hc.2 hown rfl)
      case isFalse => exact .none rfl rfl rfl
  | freeElem _ => exact .none rfl rfl rfl
  | @up t _ _ =>
      unfold semUp
      rw [if_neg (by rw [h.alive]; simp)]
      exact .up t rfl rfl rfl rfl
  | @destroy t _ _ => exact absurd rfl (hok t)

/-! ## Accounting -/

/-- Nobody destroys the semaphore, and its value stays an `int`. -/
def staysBelow (count : Int) : State → Label → Prop :=
  fun s a => neverDestroyed s a ∧ ∀ t, a = .up t → count + (s.ups + 1) - s.downs < 2 ^ 31

/-- The value is the balance of ups and downs. -/
structure Balanced (count : Int) (s : State) : Prop where
  nonneg : 0 ≤ s.sem.semaphore
  below : s.sem.semaphore < 2 ^ 31
  balance : s.sem.semaphore = count + s.ups - s.downs

theorem Balanced.step {count : Int} {s s' : State} {a : Label} (h : Balanced count s)
    (hok : staysBelow count s a) (he : UnitEffect s a s') : Balanced count s' := by
  obtain ⟨hnonneg, hbelow, hbal⟩ := h
  cases he with
  | none hsem hups hdowns => exact ⟨by omega, by omega, by omega⟩
  | up t ha hsem hups hdowns =>
      have hmax := hok.2 t ha
      have hwrap : wrapInt (s.sem.semaphore + 1) = s.sem.semaphore + 1 :=
        wrapInt_eq (by omega) (by omega)
      rw [hwrap] at hsem
      exact ⟨by omega, by omega, by omega⟩
  | down hpos hsem hups hdowns _ =>
      have hwrap : wrapInt (s.sem.semaphore - 1) = s.sem.semaphore - 1 :=
        wrapInt_eq (by omega) (by omega)
      rw [hwrap] at hsem
      exact ⟨by omega, by omega, by omega⟩

theorem balanced_reach {count : Int} (hpos : 1 ≤ count) (hmax : count < 2 ^ 31) {s : State}
    (h : (system count).Reach (staysBelow count) s) : Balanced count s := by
  have hboth : (∃ l, QueueInv s l) ∧ Balanced count s := by
    refine h.invariant (I := fun s => (∃ l, QueueInv s l) ∧ Balanced count s) ?_ ?_
    · intro s hs
      rw [show s = State.init count from hs]
      refine ⟨⟨[], queueInv_init count⟩, ?_, ?_, ?_⟩
      · show 0 ≤ count
        omega
      · exact hmax
      · simp [State.init]
    · intro s a s' hI hok hst
      obtain ⟨⟨l, hq⟩, hb⟩ := hI
      exact ⟨queueInv_step hok.1 hst ⟨l, hq⟩, hb.step hok (unitEffect_step hq hok.1 hst)⟩
  exact hboth.2

/-! ## The queue as its callers see it -/

/-- The queue from `queuehead` holds the threads that enqueued and have not
taken their unit, in the order they enqueued, and `nextqtail` addresses the
slot behind the last of them. -/
structure QueueDiscipline (s : State) (l : List Elem) : Prop where
  chain : TailQueue.Chain s.sem.queue.next s.sem.queue.head l
  tail : s.sem.queue.tail = TailQueue.slotAfter l
  threads : ∀ t, t ∈ l.map s.thread ↔ ∃ q, s.pc t = .suspending q ∨ s.pc t = .woken q
  nodup : (l.map s.thread).Nodup
  fifo : s.enqueued = s.dequeued ++ l.map s.thread

theorem Pc.queued_eq_some {pc : Pc} {q : Elem} :
    pc.queued = some q ↔ pc = .suspending q ∨ pc = .woken q := by
  cases pc <;> simp [Pc.queued]

theorem QueueInv.discipline {s : State} {l : List Elem} (h : QueueInv s l) :
    QueueDiscipline s l where
  chain := h.repr.chain
  tail := h.repr.tail
  threads := by
    intro t
    rw [List.mem_map]
    constructor
    · rintro ⟨q, hq, ht⟩
      exact ⟨q, Pc.queued_eq_some.mp ((h.waiting t q).mpr ⟨hq, ht⟩)⟩
    · rintro ⟨q, hq⟩
      exact ⟨q, (h.waiting t q).mp (Pc.queued_eq_some.mpr hq)⟩
  nodup := by
    refine (List.nodup_map_iff_inj_on h.repr.nodup).mpr ?_
    intro p hp q hq hpq
    have hwp : (s.pc (s.thread p)).queued = some p := (h.waiting _ _).mpr ⟨hp, rfl⟩
    have hwq : (s.pc (s.thread p)).queued = some q := (h.waiting _ _).mpr ⟨hq, hpq.symm⟩
    exact Option.some.inj (hwp.symm.trans hwq)
  fifo := h.history

/-! ## The calls that succeed -/

/-- The step ends a call of `sthread_sem_up` that returns 0. -/
def upReturns : State × Label × State → Bool
  | (_, .up t, s') => decide (s'.returned t = 0)
  | _ => false

/-- The step ends a call of `sthread_sem_try_down` or `sthread_sem_down` that
returns 0. -/
def downReturns : State × Label × State → Bool
  | (_, .tryDown t, s') => decide (s'.pc t = .idle ∧ s'.returned t = 0)
  | (_, .freeElem t, s') => decide (s'.returned t = 0)
  | _ => false

/-- The call of `sthread_sem_down` has its unit, and only its element to free. -/
def Pc.finishing : Pc → Bool
  | .freeing _ => true
  | _ => false

def State.finishing (s : State) : Set ThreadId := {t | (s.pc t).finishing = true}

section Finishing

variable {s s' : State} {t : ThreadId} {pc : Pc}

theorem mem_finishing (hpc : s'.pc = Function.update s.pc t pc) (u : ThreadId) :
    u ∈ s'.finishing ↔ u = t ∧ pc.finishing = true ∨ u ≠ t ∧ u ∈ s.finishing := by
  show (s'.pc u).finishing = true ↔ u = t ∧ pc.finishing = true ∨ u ≠ t ∧ (s.pc u).finishing = true
  rw [hpc]
  by_cases hu : u = t
  · subst hu
    simp
  · simp [hu]

theorem finishing_goto (hpc : s'.pc = Function.update s.pc t pc)
    (hsame : pc.finishing = (s.pc t).finishing) : s'.finishing = s.finishing := by
  ext u
  rw [mem_finishing hpc, hsame]
  constructor
  · rintro (⟨rfl, hu⟩ | ⟨-, hu⟩)
    · exact hu
    · exact hu
  · intro hu
    by_cases hut : u = t
    · exact Or.inl ⟨hut, hut ▸ hu⟩
    · exact Or.inr ⟨hut, hu⟩

theorem finishing_insert (hpc : s'.pc = Function.update s.pc t pc) (hnew : pc.finishing = true) :
    s'.finishing = insert t s.finishing := by
  ext u
  rw [mem_finishing hpc, Set.mem_insert_iff]
  constructor
  · rintro (⟨rfl, -⟩ | ⟨-, hu⟩)
    · exact Or.inl rfl
    · exact Or.inr hu
  · intro hu
    by_cases hut : u = t
    · exact Or.inl ⟨hut, hnew⟩
    · exact Or.inr ⟨hut, hu.resolve_left hut⟩

theorem finishing_remove (hpc : s'.pc = Function.update s.pc t pc) (hnew : pc.finishing = false) :
    s'.finishing = s.finishing \ {t} := by
  ext u
  rw [mem_finishing hpc, hnew]
  constructor
  · rintro (⟨-, hu⟩ | ⟨hut, hu⟩)
    · cases hu
    · exact ⟨hu, hut⟩
  · rintro ⟨hu, hut⟩
    exact Or.inr ⟨hut, hu⟩

end Finishing

/-- What a step does to the counters of `downs`. -/
inductive DownEffect (s : State) (a : Label) (s' : State) : Prop
  | none : s'.downs = s.downs → downReturns (s, a, s') = false → s'.finishing = s.finishing →
      DownEffect s a s'
  | returns : s'.downs = s.downs + 1 → downReturns (s, a, s') = true →
      s'.finishing = s.finishing → DownEffect s a s'
  | takes (t : ThreadId) : s'.downs = s.downs + 1 → downReturns (s, a, s') = false →
      t ∉ s.finishing → s'.finishing = insert t s.finishing → DownEffect s a s'
  | frees (t : ThreadId) : s'.downs = s.downs → downReturns (s, a, s') = true →
      t ∈ s.finishing → s'.finishing = s.finishing \ {t} → DownEffect s a s'

theorem downEffect_step {s s' : State} {a : Label} (hst : Step s a s') : DownEffect s a s' := by
  have hsame : ∀ {t : ThreadId} {pc pc' : Pc}, s.pc t = pc → pc'.finishing = pc.finishing →
      pc'.finishing = (s.pc t).finishing := by
    intro t pc pc' h hpc
    rw [h, hpc]
  have hnew : ∀ {t : ThreadId} {pc : Pc}, s.pc t = pc → pc.finishing = false →
      t ∉ s.finishing := by
    intro t pc h hpc ht
    have htrue : (s.pc t).finishing = true := ht
    rw [h, hpc] at htrue
    cases htrue
  cases hst with
  | callTryDown h => exact .none rfl rfl (finishing_goto rfl (hsame h rfl))
  | callDown h => exact .none rfl rfl (finishing_goto rfl (hsame h rfl))
  | callUp h => exact .none rfl rfl (finishing_goto rfl (hsame h rfl))
  | callDestroy h => exact .none rfl rfl (finishing_goto rfl (hsame h rfl))
  | @tryDown t inDown h _ =>
      unfold tryDown
      split
      · refine .returns rfl ?_ (finishing_goto rfl (hsame h rfl))
        simp [downReturns, State.return]
      · split
        · refine .none rfl ?_ (finishing_goto rfl (hsame h rfl))
          simp [downReturns, State.goto]
        · refine .none rfl ?_ (finishing_goto rfl (hsame h rfl))
          simp [downReturns, State.return]
  | makeElem h _ => exact .none rfl rfl (finishing_goto rfl (hsame h rfl))
  | noMemory h => exact .none rfl rfl (finishing_goto rfl (hsame h rfl))
  | @recheck t q h _ =>
      unfold recheck
      split
      · exact .none rfl rfl (finishing_goto rfl (hsame h rfl))
      · split
        · exact .takes t rfl rfl (hnew h rfl) (finishing_insert rfl rfl)
        · exact .none rfl rfl (finishing_goto rfl (hsame h rfl))
  | resume h _ => exact .none rfl rfl (finishing_goto rfl (hsame h rfl))
  | @rewake t q h _ =>
      unfold rewake
      split
      · exact .none rfl rfl (finishing_goto rfl (hsame h rfl))
      · split
        · exact .takes t rfl rfl (hnew h rfl) (finishing_insert rfl rfl)
        · exact .none rfl rfl (finishing_goto rfl (hsame h rfl))
  | @freeElem t q h =>
      have ht : t ∈ s.finishing := congrArg Pc.finishing h
      refine .frees t rfl ?_ ht (finishing_remove rfl rfl)
      simp [downReturns, freeElem, State.return]
  | @up t h _ =>
      unfold semUp
      split
      · exact .none rfl rfl (finishing_goto rfl (hsame h rfl))
      · exact .none rfl rfl (finishing_goto rfl (hsame h rfl))
  | @destroy t h _ =>
      unfold semDestroy
      split
      · exact .none rfl rfl (finishing_goto rfl (hsame h rfl))
      · split
        · exact .none rfl rfl (finishing_goto rfl (hsame h rfl))
        · exact .none rfl rfl (finishing_goto rfl (hsame h rfl))

theorem ups_step {s s' : State} {a : Label} (hst : Step s a s') :
    s'.ups = s.ups + if upReturns (s, a, s') = true then 1 else 0 := by
  cases hst with
  | tryDown _ _ =>
      unfold tryDown
      split
      · rfl
      · split
        · rfl
        · rfl
  | recheck _ _ =>
      unfold recheck
      split
      · rfl
      · split
        · rfl
        · rfl
  | rewake _ _ =>
      unfold rewake
      split
      · rfl
      · split
        · rfl
        · rfl
  | up _ _ =>
      unfold semUp
      split
      · simp [upReturns, State.return]
      · simp [upReturns, State.return, State.wakeHead]
  | destroy _ _ =>
      unfold semDestroy
      split
      · rfl
      · split
        · rfl
        · rfl
  | _ => rfl

/-- **What the counters count.** `ups` is the number of calls of `sthread_sem_up` that
returned 0. `downs` is the number of downs that returned 0, together with those that
have their unit and are about to. -/
theorem counts_path {count : Int} {s : State} {l : List (State × Label × State)}
    (h : (system count).Path (State.init count) l s) :
    s.ups = l.countP upReturns ∧ s.finishing.Finite ∧
      s.downs = l.countP downReturns + s.finishing.ncard := by
  induction h with
  | nil =>
      have hnone : (State.init count).finishing = ∅ := by
        ext t
        refine ⟨fun ht => ?_, fun ht => ht.elim⟩
        cases ht
      rw [hnone, Set.ncard_empty]
      exact ⟨rfl, Set.finite_empty, rfl⟩
  | @snoc s s' l a _ hst ih =>
      obtain ⟨hups, hfin, hdowns⟩ := ih
      rw [List.countP_append, List.countP_append, List.countP_singleton, List.countP_singleton]
      refine ⟨(ups_step hst).trans (congrArg (· + _) hups), ?_⟩
      cases downEffect_step hst with
      | none hd hret hset =>
          rw [hd, hret, hset]
          exact ⟨hfin, hdowns⟩
      | returns hd hret hset =>
          rw [hd, hret, hset, if_pos rfl]
          exact ⟨hfin, by omega⟩
      | takes t hd hret hnew hset =>
          rw [hd, hret, hset, Set.ncard_insert_of_notMem hnew hfin]
          exact ⟨hfin.insert t, by simp only [Bool.false_eq_true, if_false]; omega⟩
      | frees t hd hret hmem hset =>
          have hcard := Set.ncard_sdiff_singleton_add_one hmem hfin
          rw [hd, hret, hset, if_pos rfl]
          exact ⟨hfin.sdiff, by omega⟩

/-- **Semaphore accounting and FIFO hand-off.** On a semaphore initialised
with a positive `count` and never destroyed, in every run:

* the value is the balance of ups and downs, and never negative, as long as the
  ups keep it below `2 ^ 31`;
* the ups are the calls of `sthread_sem_up` that returned 0, and the downs those of
  `sthread_sem_down` and `sthread_sem_try_down`, or the unit is taken and the return
  is to come;
* the queue is the list of the threads that still wait, in enqueue order, and
  those that left it left in that order;
* a unit is taken either while the queue is empty or by the thread at its head. -/
theorem semaphore_accounting_fifo (count : Int) (hpos : 1 ≤ count) (hmax : count < 2 ^ 31) :
    (∀ s, (system count).Reach (staysBelow count) s → s.sem.spinLock = false →
      0 ≤ s.sem.semaphore ∧ s.sem.semaphore = count + s.ups - s.downs) ∧
    (∀ l s, (system count).Path (State.init count) l s →
      s.ups = l.countP upReturns ∧ s.downs = l.countP downReturns + s.finishing.ncard) ∧
    (∀ s, (system count).Reach neverDestroyed s → s.sem.spinLock = false →
      ∃ l, QueueDiscipline s l) ∧
    (∀ s a s', (system count).Reach neverDestroyed s → neverDestroyed s a → Step s a s' →
      s'.downs ≠ s.downs → TakenBy s a s') := by
  refine ⟨?_, ?_, ?_, ?_⟩
  · intro s hs _
    have hb := balanced_reach hpos hmax hs
    exact ⟨hb.nonneg, hb.balance⟩
  · intro l s hpath
    obtain ⟨hups, _, hdowns⟩ := counts_path hpath
    exact ⟨hups, hdowns⟩
  · intro s hs _
    obtain ⟨l, hl⟩ := queueInv_reach hs
    exact ⟨l, hl.discipline⟩
  · intro s a s' hs hok hst hdowns
    obtain ⟨l, hl⟩ := queueInv_reach hs
    cases unitEffect_step hl hok hst with
    | none _ _ hsame => exact absurd hsame hdowns
    | up _ _ _ _ hsame => exact absurd hsame hdowns
    | down _ _ _ _ htaken => exact htaken

/-! A run: thread 0 takes the only unit, thread 1 queues behind it. -/

def afterFirstDown : State := tryDown ((State.init 1).goto 0 (.tryDown true)) 0 true

def secondQueued : State :=
  recheck (makeElem (tryDown (afterFirstDown.goto 1 (.tryDown true)) 1 true) 1 7) 1 7

theorem secondQueued_reach : (system 1).Reach (staysBelow 1) secondQueued := by
  have hrun : ∀ {s s' : State} (a : Label), (system 1).Reach (staysBelow 1) s →
      (∀ t, a ≠ .destroy t) → (∀ t, a ≠ .up t) → Step s a s' →
      (system 1).Reach (staysBelow 1) s' :=
    fun a hs hd hu hst => hs.step a ⟨hd, fun t ha => absurd ha (hu t)⟩ hst
  have h0 : (system 1).Reach (staysBelow 1) (State.init 1) := .init rfl
  have h1 := hrun (.callDown 0) h0 (by simp) (by simp) (.callDown rfl)
  have h2 := hrun (.tryDown 0) h1 (by simp) (by simp) (.tryDown rfl rfl)
  have h3 := hrun (.callDown 1) h2 (by simp) (by simp) (.callDown rfl)
  have h4 := hrun (.tryDown 1) h3 (by simp) (by simp) (.tryDown rfl rfl)
  have h5 := hrun (.makeElem 1) h4 (by simp) (by simp) (.makeElem (q := 7) rfl rfl)
  exact hrun (.recheck 1) h5 (by simp) (by simp) (.recheck rfl rfl)

theorem secondQueued_fifo :
    secondQueued.sem.semaphore = 1 + secondQueued.ups - secondQueued.downs ∧
      (∃ l, QueueDiscipline secondQueued l) ∧ secondQueued.sem.queue.head = some 7 := by
  have h := semaphore_accounting_fifo 1 (by decide) (by decide)
  have hreach : (system 1).Reach neverDestroyed secondQueued :=
    secondQueued_reach.mono (fun _ _ hok => hok.1)
  exact ⟨(h.1 _ secondQueued_reach rfl).2, h.2.2.1 _ hreach rfl, rfl⟩

end LinuxHacks.Semaphore
