import LinuxHacks.Semaphore.Library

/-!
# Wake-ups that stay in the pipe

`sthread_sem_up` writes to the pipe of the queue head each time it is called, and
the head reads one message before it leaves. The surplus stays in the pipe, and the
next `sthread_suspend` of the thread, in `sthread_create`, returns on it.

* `Prompt`: no semaphore wakes a thread that has been woken and has not gone back to
  sleep. In the runs that keep to it a pipe holds one message at most, and the
  message is for the call that its thread is in (`PipeInv`).
* Two ups in a row on a semaphore with a waiter are enough for the other runs.
-/

namespace LinuxHacks.Semaphore

open LinuxHacks.Lib

/-! ## What a section writes -/

/-- Whom a section wakes: the head of the queue, on an up, and the next one, when
the head leaves. -/
def State.wakes (s : State) : Label → Option ThreadId
  | .up _ => if s.sem.destroyed then none else s.sem.queue.head.map s.thread
  | .rewake t =>
      match s.pc t with
      | .woken q =>
          if s.sem.destroyed then none
          else if 0 < s.sem.semaphore ∧ s.sem.queue.head = some q then
            s.sem.queue.dequeue.head.map s.thread
          else none
      | _ => none
  | _ => none

/-- A step of a semaphore other than a return of `sthread_suspend`: the thread is
not suspended, no other thread moves, and one message is written at most. -/
structure SectionEffect (s : State) (a : Label) (s' : State) : Prop where
  running : ∀ q, s.pc a.thread ≠ .suspending q
  pc : ∀ t, t ≠ a.thread → s'.pc t = s.pc t
  tokens : ∀ t, s'.tokens t = s.tokens t + if s.wakes a = some t then 1 else 0

section Sections

variable {s s' : State} {t : ThreadId}

/-- A section that writes nothing. -/
theorem sectionEffect_silent {a : Label} {pc : Pc} (hrun : ∀ q, s.pc a.thread ≠ .suspending q)
    (hpc : s'.pc = Function.update s.pc a.thread pc) (htokens : s'.tokens = s.tokens)
    (hwakes : s.wakes a = none) : SectionEffect s a s' where
  running := hrun
  pc := fun t ht => by rw [hpc, Function.update_of_ne ht]
  tokens := fun t => by
    rw [htokens, hwakes]
    rfl

theorem sectionEffect_tryDown {inDown : Bool} (hpc : s.pc t = .tryDown inDown) :
    SectionEffect s (.tryDown t) (tryDown s t inDown) := by
  have hrun : ∀ q, s.pc t ≠ .suspending q := by
    rw [hpc]
    simp
  unfold tryDown
  split
  · exact sectionEffect_silent hrun rfl rfl rfl
  · split
    · exact sectionEffect_silent hrun rfl rfl rfl
    · exact sectionEffect_silent hrun rfl rfl rfl

theorem sectionEffect_recheck {q : Elem} (hpc : s.pc t = .recheck q) :
    SectionEffect s (.recheck t) (recheck s t q) := by
  have hrun : ∀ q, s.pc t ≠ .suspending q := by
    rw [hpc]
    simp
  unfold recheck
  split
  · exact sectionEffect_silent hrun rfl rfl rfl
  · split
    · exact sectionEffect_silent hrun rfl rfl rfl
    · exact sectionEffect_silent hrun rfl rfl rfl

theorem sectionEffect_rewake {q : Elem} (hpc : s.pc t = .woken q) :
    SectionEffect s (.rewake t) (rewake s t q) := by
  have hrun : ∀ q, s.pc t ≠ .suspending q := by
    rw [hpc]
    simp
  have hwakes : s.wakes (.rewake t) =
      if s.sem.destroyed then none
      else if 0 < s.sem.semaphore ∧ s.sem.queue.head = some q then
        s.sem.queue.dequeue.head.map s.thread
      else none := by
    rw [State.wakes, hpc]
  unfold rewake
  by_cases hd : s.sem.destroyed = true
  · rw [if_pos hd] at hwakes ⊢
    exact sectionEffect_silent hrun rfl rfl hwakes
  · rw [if_neg hd] at hwakes ⊢
    by_cases hhead : 0 < s.sem.semaphore ∧ s.sem.queue.head = some q
    · -- the head leaves, and wakes the next
      rw [if_pos hhead] at hwakes ⊢
      refine ⟨hrun, fun t' ht' => Function.update_of_ne ht' _ _, fun t' => ?_⟩
      rw [wakeHead_tokens, hwakes]
      rfl
    · rw [if_neg hhead] at hwakes ⊢
      exact sectionEffect_silent hrun rfl rfl hwakes

theorem sectionEffect_semUp (hpc : s.pc t = .up) : SectionEffect s (.up t) (semUp s t) := by
  have hrun : ∀ q, s.pc t ≠ .suspending q := by
    rw [hpc]
    simp
  unfold semUp
  by_cases hd : s.sem.destroyed = true
  · rw [if_pos hd]
    exact sectionEffect_silent hrun rfl rfl (if_pos hd)
  · rw [if_neg hd]
    refine ⟨hrun, fun t' ht' => Function.update_of_ne ht' _ _, fun t' => ?_⟩
    have hwakes : s.wakes (.up t) = s.sem.queue.head.map s.thread := if_neg hd
    refine (wakeHead_tokens _ t').trans ?_
    rw [hwakes]

theorem sectionEffect_semDestroy (hpc : s.pc t = .destroy) :
    SectionEffect s (.destroy t) (semDestroy s t) := by
  have hrun : ∀ q, s.pc t ≠ .suspending q := by
    rw [hpc]
    simp
  unfold semDestroy
  split
  · exact sectionEffect_silent hrun rfl rfl rfl
  · split
    · exact sectionEffect_silent hrun rfl rfl rfl
    · exact sectionEffect_silent hrun rfl rfl rfl

/-- Every step of a semaphore, but the returns of `sthread_suspend`. -/
theorem sectionEffect_step {a : Label} (hst : Step s a s') (ha : a ≠ .resume a.thread) :
    SectionEffect s a s' := by
  cases hst with
  | callTryDown hpc => exact sectionEffect_silent (by simp [Label.thread, hpc]) rfl rfl rfl
  | callDown hpc => exact sectionEffect_silent (by simp [Label.thread, hpc]) rfl rfl rfl
  | callUp hpc => exact sectionEffect_silent (by simp [Label.thread, hpc]) rfl rfl rfl
  | callDestroy hpc => exact sectionEffect_silent (by simp [Label.thread, hpc]) rfl rfl rfl
  | tryDown hpc _ => exact sectionEffect_tryDown hpc
  | makeElem hpc _ => exact sectionEffect_silent (by simp [Label.thread, hpc]) rfl rfl rfl
  | noMemory hpc => exact sectionEffect_silent (by simp [Label.thread, hpc]) rfl rfl rfl
  | recheck hpc _ => exact sectionEffect_recheck hpc
  | resume _ _ => exact absurd rfl ha
  | rewake hpc _ => exact sectionEffect_rewake hpc
  | freeElem hpc => exact sectionEffect_silent (by simp [Label.thread, hpc]) rfl rfl rfl
  | up hpc _ => exact sectionEffect_semUp hpc
  | destroy hpc _ => exact sectionEffect_semDestroy hpc

end Sections

/-! ## Prompt wake-ups -/

/-- In `sthread_suspend`, called by `sthread_sem_down`. -/
def Suspended (L : Library) (t : ThreadId) : Prop :=
  ∃ i q, L.activity t = .sem i (.suspending q)

/-- A semaphore wakes only threads that sleep and have no message to read. -/
def Prompt (L : Library) : LibLabel → Prop
  | .sem i a => ∀ t, (L.view i).wakes a = some t → Suspended L t ∧ L.pipe t = []
  | _ => True

/-- The request that the manager is at. -/
def Manager.current : Manager → Option Request
  | .idle => none
  | .starting r | .cloning r | .waking r => some r

/-- The requests whose callers have not been woken. -/
def Library.pending (L : Library) : List Request := L.manager.current.toList ++ L.mailbox

/-- The struct that a call of `sthread_create` has allocated and not given away. -/
def Activity.holds : Activity → Option ThreadId
  | .create (.writing a) | .create (.suspended a _) | .create (.checking a _) => some a
  | _ => none

/-- `do_create` has run for the request, and `status` is what it stored. -/
structure Answered (L : Library) (t newthr : ThreadId) (n : Nat) : Prop where
  done : (n, L.status t) ∈ L.done
  failed : L.status t ≠ 0 → L.started newthr = false

/-- The pipe of a thread, by what the thread does. -/
def PipeOk (L : Library) (t : ThreadId) : Activity → Prop
  | .sem _ (.suspending _) => L.pipe t = [] ∨ ∃ j, L.pipe t = [.semaphore j]
  | .create (.writing a) => L.pipe t = [] ∧ L.started a = false
  | .create (.suspended a n) =>
      (L.pipe t = [] ∧ ⟨t, a, n⟩ ∈ L.pending) ∨ (L.pipe t = [.manager] ∧ Answered L t a n)
  | .create (.checking a n) => L.pipe t = [] ∧ Answered L t a n
  | .create (.returning n _) => L.pipe t = [] ∧ (n, L.status t) ∈ L.done
  | _ => L.pipe t = []

structure PipeInv (L : Library) : Prop where
  threads : ∀ t, PipeOk L t (L.activity t)
  unstarted : ∀ t, L.started t = false → L.activity t = .idle
  structs : ∀ t, L.started t = true → L.structs t = true
  held : ∀ t a, (L.activity t).holds = some a → L.structs a = true
  holders : ∀ t t' a, (L.activity t).holds = some a → (L.activity t').holds = some a → t = t'
  pending : ∀ r ∈ L.pending,
    L.activity r.caller = .create (.suspended r.thread r.number) ∧ L.pipe r.caller = []
  nodup : (L.pending.map Request.caller).Nodup
  unhandled : ∀ r ∈ L.pending, L.manager ≠ .waking r → L.started r.thread = false
  cloning : ∀ r, L.manager = .cloning r → L.status r.caller = 0
  waking : ∀ r, L.manager = .waking r → Answered L r.caller r.thread r.number
  results : CreatesAnswered L

theorem PipeInv.init (count : SemId → Int) : PipeInv (Library.init count) where
  threads := fun _ => rfl
  unstarted := fun _ _ => rfl
  structs := fun _ ht => ht
  held := fun _ _ ha => by cases ha
  holders := fun _ _ _ ha => by cases ha
  pending := fun _ hr => by cases hr
  nodup := List.nodup_nil
  unhandled := fun _ hr => by cases hr
  cloning := fun _ hm => by cases hm
  waking := fun _ hm => by cases hm
  results := fun _ hr => by cases hr

section Pipes

variable {L L' : Library} {t : ThreadId}

/-- The pipe of a thread is as it should be, if nothing it depends on changes. -/
theorem PipeOk.mono {x : Activity} (h : PipeOk L t x) (hpipe : L'.pipe t = L.pipe t)
    (hstatus : L'.status t = L.status t) (hdone : ∀ p ∈ L.done, p ∈ L'.done)
    (hstarted : ∀ a, x.holds = some a → L'.started a = L.started a)
    (hpending : ∀ r ∈ L.pending, r.caller = t → r ∈ L'.pending) : PipeOk L' t x := by
  have hans : ∀ {a n}, x.holds = some a → Answered L t a n → Answered L' t a n := by
    intro a n ha hold
    refine ⟨hstatus ▸ hdone _ hold.done, fun hne => ?_⟩
    rw [hstarted a ha]
    exact hold.failed (hstatus ▸ hne)
  cases x with
  | idle => exact hpipe.trans h
  | sem i pc =>
      cases pc with
      | suspending q =>
          show L'.pipe t = [] ∨ ∃ j, L'.pipe t = [.semaphore j]
          rw [hpipe]
          exact h
      | _ => exact hpipe.trans h
  | create pc =>
      cases pc with
      | allocating => exact hpipe.trans h
      | writing a => exact ⟨hpipe.trans h.1, (hstarted a rfl).trans h.2⟩
      | suspended a n =>
          rcases h with ⟨hempty, hr⟩ | ⟨hreply, hold⟩
          · exact .inl ⟨hpipe.trans hempty, hpending _ hr rfl⟩
          · exact .inr ⟨hpipe.trans hreply, hans rfl hold⟩
      | checking a n => exact ⟨hpipe.trans h.1, hans rfl h.2⟩
      | returning n handle => exact ⟨hpipe.trans h.1, hstatus ▸ hdone _ h.2⟩

/-- A step of a thread. It is nobody's pending caller, frees only what it held, and
holds only what it held or has allocated. -/
theorem PipeInv.move (h : PipeInv L) {x : Activity} (hrun : L.started t = true)
    (hnot : ∀ r ∈ L.pending, r.caller ≠ t)
    (hact : L'.activity = Function.update L.activity t x)
    (hstarted : L'.started = L.started) (hstatus : L'.status = L.status)
    (hmailbox : L'.mailbox = L.mailbox) (hmanager : L'.manager = L.manager)
    (hdone : L'.done = L.done) (hself : PipeOk L' t x)
    (hothers : ∀ t', t' ≠ t → PipeOk L' t' (L.activity t'))
    (hpipe : ∀ r ∈ L.pending, L'.pipe r.caller = [])
    (hkeep : ∀ a, L.structs a = true → L'.structs a = true ∨
      ((L.activity t).holds = some a ∧ x.holds ≠ some a ∧ L.started a = false))
    (hheld : ∀ a, x.holds = some a → L'.structs a = true ∧
      ((L.activity t).holds = some a ∨ L.structs a = false))
    (hresults : CreatesAnswered L') : PipeInv L' := by
  have hpending : L'.pending = L.pending := by
    rw [Library.pending, Library.pending, hmailbox, hmanager]
  have hother : ∀ t', t' ≠ t → L'.activity t' = L.activity t' := by
    intro t' ht'
    rw [hact, Function.update_of_ne ht']
  have hself' : L'.activity t = x := by
    rw [hact, Function.update_self]
  have hans : ∀ {c a n}, Answered L c a n → Answered L' c a n := by
    intro c a n hold
    refine ⟨?_, ?_⟩
    · rw [hstatus, hdone]
      exact hold.done
    · rw [hstatus, hstarted]
      exact hold.failed
  -- what another thread holds, the thread neither frees nor allocates
  have hforeign : ∀ t' a, t' ≠ t → (L.activity t').holds = some a →
      L'.structs a = true ∧ x.holds ≠ some a := by
    intro t' a ht' ha
    refine ⟨?_, fun hx => ?_⟩
    · rcases hkeep a (h.held t' a ha) with hs | ⟨hmine, -⟩
      · exact hs
      · exact absurd (h.holders t' t a ha hmine) ht'
    · rcases (hheld a hx).2 with hmine | hfresh
      · exact ht' (h.holders t' t a ha hmine)
      · rw [h.held t' a ha] at hfresh
        cases hfresh
  refine
    { threads := fun t' => ?_
      unstarted := fun t' hs => ?_
      structs := fun t' hs => ?_
      held := fun t' a ha => ?_
      holders := fun t1 t2 a h1 h2 => ?_
      pending := fun r hr => ?_
      nodup := ?_
      unhandled := fun r hr hw => ?_
      cloning := fun r hm => ?_
      waking := fun r hm => ?_
      results := hresults }
  · by_cases ht' : t' = t
    · subst ht'
      rw [hself']
      exact hself
    · rw [hother t' ht']
      exact hothers t' ht'
  · rw [hstarted] at hs
    have hne : t' ≠ t := by
      rintro rfl
      rw [hrun] at hs
      cases hs
    rw [hother t' hne]
    exact h.unstarted t' hs
  · rw [hstarted] at hs
    rcases hkeep t' (h.structs t' hs) with hk | ⟨-, -, hno⟩
    · exact hk
    · rw [hs] at hno
      cases hno
  · by_cases ht' : t' = t
    · subst ht'
      rw [hself'] at ha
      exact (hheld a ha).1
    · rw [hother t' ht'] at ha
      exact (hforeign t' a ht' ha).1
  · by_cases ht1 : t1 = t
    · by_cases ht2 : t2 = t
      · rw [ht1, ht2]
      · rw [ht1, hself'] at h1
        rw [hother t2 ht2] at h2
        exact absurd h1 (hforeign t2 a ht2 h2).2
    · rw [hother t1 ht1] at h1
      by_cases ht2 : t2 = t
      · rw [ht2, hself'] at h2
        exact absurd h2 (hforeign t1 a ht1 h1).2
      · rw [hother t2 ht2] at h2
        exact h.holders t1 t2 a h1 h2
  · rw [hpending] at hr
    refine ⟨?_, hpipe r hr⟩
    rw [hother _ (hnot r hr)]
    exact (h.pending r hr).1
  · rw [hpending]
    exact h.nodup
  · rw [hstarted]
    exact h.unhandled r (hpending ▸ hr) (hmanager ▸ hw)
  · rw [hstatus]
    exact h.cloning r (hmanager ▸ hm)
  · exact hans (h.waking r (hmanager ▸ hm))

/-- A caller that waits for the manager makes no step of its own. -/
theorem PipeInv.not_pending (h : PipeInv L)
    (hact : ∀ a n, L.activity t ≠ .create (.suspended a n)) : ∀ r ∈ L.pending, r.caller ≠ t := by
  rintro r hr rfl
  exact hact _ _ (h.pending r hr).1

theorem PipeInv.started_of (h : PipeInv L) (hact : L.activity t ≠ .idle) : L.started t = true := by
  by_contra hs
  exact hact (h.unstarted t (Bool.eq_false_of_not_eq_true hs))

theorem pipeOk_ofSem {i : SemId} (hempty : L.pipe t = []) (pc : Pc) :
    PipeOk L t (.ofSem i pc) := by
  cases pc with
  | suspending q => exact .inl hempty
  | _ => exact hempty

theorem holds_ofSem (i : SemId) (pc : Pc) : (Activity.ofSem i pc).holds = none := by
  cases pc with
  | _ => rfl

/-- The pipe of a thread that is about to run a section is empty. -/
theorem PipeInv.section_empty (h : PipeInv L) {i : SemId} (hat : (L.activity t).AtSem i)
    (hrun : ∀ q, (L.activity t).semPc ≠ .suspending q) :
    L.pipe t = [] ∧ (L.activity t).holds = none ∧ ¬ Suspended L t := by
  have hok := h.threads t
  cases hact : L.activity t with
  | idle =>
      rw [hact] at hok
      refine ⟨hok, rfl, ?_⟩
      rintro ⟨j, q, hsus⟩
      rw [hact] at hsus
      cases hsus
  | sem j pc =>
      rw [hact] at hok hrun
      refine ⟨?_, rfl, ?_⟩
      · cases pc with
        | suspending q => exact absurd rfl (hrun q)
        | _ => exact hok
      · rintro ⟨j', q, hsus⟩
        rw [hact] at hsus
        obtain ⟨-, rfl⟩ := Activity.sem.inj hsus
        exact hrun q rfl
  | create pc =>
      rw [hact] at hat
      exact hat.elim

/-- A section of a semaphore, with a prompt wake-up or none. -/
theorem PipeInv.semStep (h : PipeInv L) {i : SemId} {a : Label} {s : State}
    (hrun : L.started a.thread = true) (hat : (L.activity a.thread).AtSem i)
    (ha : a ≠ .resume a.thread) (hst : Step (L.view i) a s) (hprompt : Prompt L (.sem i a)) :
    PipeInv (L.put i a.thread s) := by
  have heff := sectionEffect_step hst ha
  obtain ⟨hempty, hholds, hawake⟩ := h.section_empty hat heff.running
  have htokens : ∀ t, s.tokens t = if (L.view i).wakes a = some t then 1 else 0 :=
    fun t => (heff.tokens t).trans (Nat.zero_add _)
  -- whoever is not asleep in `sthread_sem_down` gets no message
  have hsame : ∀ t, ¬ Suspended L t → (L.put i a.thread s).pipe t = L.pipe t := by
    intro t ht
    show L.pipe t ++ List.replicate (s.tokens t) (.semaphore i) = L.pipe t
    rw [htokens, if_neg fun hw => ht (hprompt t hw).1]
    exact List.append_nil _
  refine h.move hrun ?_ rfl rfl rfl rfl rfl rfl ?_ ?_ ?_ (fun _ hs => .inl hs) ?_ h.results
  · refine h.not_pending fun b n hact => ?_
    rw [hact] at hat
    exact hat.elim
  · exact pipeOk_ofSem ((hsame _ hawake).trans hempty) _
  · intro t ht
    by_cases hw : (L.view i).wakes a = some t
    · obtain ⟨⟨j, q, hsus⟩, hp⟩ := hprompt t hw
      rw [hsus]
      right
      refine ⟨i, ?_⟩
      show L.pipe t ++ List.replicate (s.tokens t) (.semaphore i) = [.semaphore i]
      rw [htokens, if_pos hw, hp]
      rfl
    · refine (h.threads t).mono ?_ rfl (fun _ hp => hp) (fun _ _ => rfl) fun _ hr _ => hr
      show L.pipe t ++ List.replicate (s.tokens t) (.semaphore i) = L.pipe t
      rw [htokens, if_neg hw]
      exact List.append_nil _
  · intro r hr
    obtain ⟨hact, hp⟩ := h.pending r hr
    refine (hsame _ ?_).trans hp
    rintro ⟨j, q, hsus⟩
    rw [hact] at hsus
    cases hsus
  · intro b hb
    rw [holds_ofSem] at hb
    cases hb

/-- A step of a thread that touches no pipe but its own, and leaves that empty. -/
theorem PipeInv.own (h : PipeInv L) {x : Activity} {pipe : ThreadId → List Token}
    {structs : ThreadId → Bool} (hact : L.activity t ≠ .idle ∨ L.started t = true)
    (hnot : ∀ r ∈ L.pending, r.caller ≠ t)
    (hself : PipeOk { L with pipe := pipe, structs := structs } t x)
    (hpipe : ∀ t', t' ≠ t → pipe t' = L.pipe t')
    (hkeep : ∀ a, L.structs a = true → structs a = true ∨
      ((L.activity t).holds = some a ∧ x.holds ≠ some a ∧ L.started a = false))
    (hheld : ∀ a, x.holds = some a → structs a = true ∧
      ((L.activity t).holds = some a ∨ L.structs a = false)) :
    PipeInv { L with
      activity := Function.update L.activity t x
      pipe := pipe
      structs := structs } := by
  have hrun : L.started t = true := hact.elim h.started_of id
  refine h.move hrun hnot rfl rfl rfl rfl rfl rfl ?_ ?_ ?_ hkeep hheld h.results
  · exact PipeOk.mono hself rfl rfl (fun _ hp => hp) (fun _ _ => rfl) fun _ hr _ => hr
  · intro t' ht'
    exact (h.threads t').mono (hpipe t' ht') rfl (fun _ hp => hp) (fun _ _ => rfl)
      fun _ hr _ => hr
  · intro r hr
    exact (hpipe _ (hnot r hr)).trans (h.pending r hr).2

/-- The one message that a suspended thread reads is the only one. -/
theorem PipeInv.resume (h : PipeInv L) {i : SemId} {q : Elem} {m : Token} {rest : List Token}
    (hact : L.activity t = .sem i (.suspending q)) (hpipe : L.pipe t = m :: rest) :
    PipeInv { L with
      activity := Function.update L.activity t (.sem i (.woken q))
      pipe := Function.update L.pipe t rest } := by
  have hok := h.threads t
  rw [hact] at hok
  have hrest : rest = [] := by
    rcases hok with he | ⟨j, hj⟩
    · rw [hpipe] at he
      cases he
    · rw [hpipe] at hj
      exact (List.cons.inj hj).2
  subst hrest
  refine h.own (.inl (by simp [hact])) (h.not_pending (by simp [hact])) ?_
    (fun t' ht' => Function.update_of_ne ht' _ _) (fun _ hs => .inl hs) fun a ha => by cases ha
  exact Function.update_self t [] L.pipe

theorem PipeInv.callCreate (h : PipeInv L) (hrun : L.started t = true)
    (hact : L.activity t = .idle) : PipeInv (L.goto t .allocating) := by
  have hok := h.threads t
  rw [hact] at hok
  exact h.own (.inr hrun) (h.not_pending (by simp [hact])) hok (fun _ _ => rfl)
    (fun _ hs => .inl hs) fun a ha => by cases ha

theorem PipeInv.noMemory (h : PipeInv L) (hact : L.activity t = .create .allocating) :
    PipeInv { L with activity := Function.update L.activity t .idle } := by
  have hok := h.threads t
  rw [hact] at hok
  exact h.own (.inl (by simp [hact])) (h.not_pending (by simp [hact])) hok (fun _ _ => rfl)
    (fun _ hs => .inl hs) fun a ha => by cases ha

theorem PipeInv.allocate (h : PipeInv L) (hact : L.activity t = .create .allocating)
    {newthr : ThreadId} (hfree : L.structs newthr = false) :
    PipeInv (L.allocate t newthr) := by
  have hok := h.threads t
  rw [hact] at hok
  have hnew : L.started newthr = false := by
    by_contra hs
    rw [h.structs newthr (Bool.eq_true_of_not_eq_false hs)] at hfree
    cases hfree
  refine h.own (.inl (by simp [hact])) (h.not_pending (by simp [hact])) ⟨hok, hnew⟩
    (fun _ _ => rfl) (fun a hs => .inl ?_) fun a ha => ?_
  · show Function.update L.structs newthr true a = true
    by_cases han : a = newthr
    · rw [han, Function.update_self]
    · rw [Function.update_of_ne han, hs]
  · obtain rfl : newthr = a := Option.some.inj ha
    exact ⟨Function.update_self _ _ _, .inr hfree⟩

/-- The answer is the message that the caller reads. -/
theorem PipeInv.answered (h : PipeInv L) {newthr : ThreadId} {n : Nat} {m : Token}
    {rest : List Token} (hact : L.activity t = .create (.suspended newthr n))
    (hpipe : L.pipe t = m :: rest) :
    PipeInv ({ L with pipe := Function.update L.pipe t rest }.goto t (.checking newthr n)) := by
  have hok := h.threads t
  rw [hact] at hok
  rcases hok with ⟨he, -⟩ | ⟨hreply, hans⟩
  · rw [hpipe] at he
    cases he
  · rw [hpipe] at hreply
    obtain rfl : rest = [] := (List.cons.inj hreply).2
    refine h.own (.inl (by simp [hact])) ?_
      ⟨Function.update_self t [] L.pipe, hans.done, hans.failed⟩
      (fun t' ht' => Function.update_of_ne ht' _ _) (fun _ hs => .inl hs) fun a ha => ?_
    · rintro r hr rfl
      rw [(h.pending r hr).2] at hpipe
      cases hpipe
    · rw [hact]
      exact ⟨h.held t a (by rw [hact]; exact ha), .inl ha⟩

theorem PipeInv.check (h : PipeInv L) {newthr : ThreadId} {n : Nat}
    (hact : L.activity t = .create (.checking newthr n)) : PipeInv (L.check t newthr n) := by
  have hok := h.threads t
  rw [hact] at hok
  obtain ⟨hempty, hdone, hfailed⟩ := hok
  unfold Library.check
  by_cases hst : L.status t ≠ 0
  · -- the struct of a thread that was not started is freed
    rw [if_pos hst]
    refine h.own (.inl (by simp [hact])) (h.not_pending (by simp [hact])) ⟨hempty, hdone⟩
      (fun _ _ => rfl) (fun a hs => ?_) fun a ha => by cases ha
    by_cases han : a = newthr
    · subst han
      right
      refine ⟨by rw [hact]; rfl, ?_, hfailed hst⟩
      intro ha
      cases ha
    · left
      show Function.update L.structs newthr false a = true
      rw [Function.update_of_ne han, hs]
  · rw [if_neg hst]
    exact h.own (.inl (by simp [hact])) (h.not_pending (by simp [hact])) ⟨hempty, hdone⟩
      (fun _ _ => rfl) (fun _ hs => .inl hs) fun a ha => by cases ha

theorem PipeInv.return (h : PipeInv L) {n : Nat} {handle : Option ThreadId}
    (hact : L.activity t = .create (.returning n handle)) : PipeInv (L.return t n handle) := by
  have hok := h.threads t
  rw [hact] at hok
  obtain ⟨hempty, hdone⟩ := hok
  refine h.move (h.started_of (by simp [hact])) (h.not_pending (by simp [hact])) rfl rfl rfl rfl
    rfl rfl hempty (fun t' _ => ?_) (fun r hr => (h.pending r hr).2) (fun _ hs => .inl hs)
    (fun a ha => by cases ha) ?_
  · exact (h.threads t').mono rfl rfl (fun _ hp => hp) (fun _ _ => rfl) fun _ hr _ => hr
  · intro r hr
    rcases List.mem_append.mp hr with hold | hnew
    · exact h.results r hold
    · rw [List.mem_singleton.mp hnew]
      exact hdone

/-- A request joins those that the manager will see. -/
theorem PipeInv.request (h : PipeInv L) {newthr : ThreadId}
    (hact : L.activity t = .create (.writing newthr)) : PipeInv (L.request t newthr) := by
  have hok := h.threads t
  rw [hact] at hok
  obtain ⟨hempty, hnew⟩ := hok
  have hnot := h.not_pending (t := t) (by simp [hact])
  have hpending : (L.request t newthr).pending = L.pending ++ [⟨t, newthr, L.requests⟩] :=
    (List.append_assoc _ _ _).symm
  have hself : (L.request t newthr).activity t = .create (.suspended newthr L.requests) :=
    Function.update_self _ _ _
  have hother : ∀ t', t' ≠ t → (L.request t newthr).activity t' = L.activity t' :=
    fun t' ht' => Function.update_of_ne ht' _ _
  have hholds : ∀ t', ((L.request t newthr).activity t').holds = (L.activity t').holds := by
    intro t'
    by_cases ht' : t' = t
    · rw [ht', hself, hact]
      rfl
    · rw [hother t' ht']
  refine
    { h with
      threads := fun t' => ?_
      unstarted := fun t' hs => ?_
      held := fun t' a ha => h.held t' a (hholds t' ▸ ha)
      holders := fun t1 t2 a h1 h2 => h.holders t1 t2 a (hholds t1 ▸ h1) (hholds t2 ▸ h2)
      pending := fun r hr => ?_
      nodup := ?_
      unhandled := fun r hr hw => ?_
      waking := fun r hm => ?_ }
  · by_cases ht' : t' = t
    · rw [ht', hself]
      left
      refine ⟨hempty, ?_⟩
      rw [hpending]
      exact List.mem_append_right _ (List.mem_singleton.mpr rfl)
    · rw [hother t' ht']
      refine (h.threads t').mono rfl rfl (fun _ hp => hp) (fun _ _ => rfl) fun r hr _ => ?_
      rw [hpending]
      exact List.mem_append_left _ hr
  · have hne : t' ≠ t := by
      rintro rfl
      have hidle := h.unstarted t' hs
      rw [hact] at hidle
      cases hidle
    rw [hother t' hne]
    exact h.unstarted t' hs
  · rw [hpending] at hr
    rcases List.mem_append.mp hr with hold | hlast
    · rw [hother _ (hnot r hold)]
      exact h.pending r hold
    · rw [List.mem_singleton.mp hlast]
      exact ⟨hself, hempty⟩
  · rw [hpending, List.map_append, List.nodup_append]
    refine ⟨h.nodup, List.nodup_singleton _, ?_⟩
    intro c hc c' hc'
    obtain ⟨r, hr, rfl⟩ := List.mem_map.mp hc
    rw [List.mem_singleton.mp hc']
    exact hnot r hr
  · rw [hpending] at hr
    rcases List.mem_append.mp hr with hold | hlast
    · exact h.unhandled r hold hw
    · rw [List.mem_singleton.mp hlast]
      exact hnew
  · have hold := h.waking r hm
    exact ⟨hold.done, hold.failed⟩

/-! ### The manager -/

/-- The caller and the new thread of a request that the manager is at. -/
theorem PipeInv.current (h : PipeInv L) {r : Request} (hr : r ∈ L.pending)
    (hw : L.manager ≠ .waking r) :
    L.activity r.thread = .idle ∧ L.pipe r.thread = [] ∧ r.thread ≠ r.caller := by
  have hidle := h.unstarted _ (h.unhandled r hr hw)
  have hok := h.threads r.thread
  rw [hidle] at hok
  refine ⟨hidle, hok, fun heq => ?_⟩
  have hact := (h.pending r hr).1
  rw [← heq, hidle] at hact
  cases hact

/-- A thread that depends on its status is not the new thread of a request. -/
theorem PipeInv.eq_of_caller (h : PipeInv L) {r r' : Request} (hr : r ∈ L.pending)
    (hr' : r' ∈ L.pending) (heq : r.caller = r'.caller) : r = r' :=
  List.inj_on_of_nodup_map h.nodup hr hr' heq

theorem PipeInv.receive (h : PipeInv L) {r : Request} {rest : List Request}
    (hm : L.manager = .idle) (hbox : L.mailbox = r :: rest) :
    PipeInv { L with manager := .starting r, mailbox := rest } := by
  have hpending : ({ L with manager := .starting r, mailbox := rest } : Library).pending =
      L.pending := by
    rw [Library.pending, Library.pending, hm, hbox]
    rfl
  exact
    { h with
      threads := fun t => by
        refine (h.threads t).mono rfl rfl (fun _ hp => hp) (fun _ _ => rfl) fun r' hr' _ => ?_
        rw [hpending]
        exact hr'
      pending := fun r' hr' => h.pending r' (hpending ▸ hr')
      nodup := by
        rw [hpending]
        exact h.nodup
      unhandled := fun r' hr' _ => by
        refine h.unhandled r' (hpending ▸ hr') ?_
        rw [hm]
        simp
      cloning := fun r' hr' => by cases hr'
      waking := fun r' hr' => by cases hr' }

/-- `do_create` clears the status of its caller, who is asleep. -/
theorem PipeInv.start (h : PipeInv L) {r : Request} (hm : L.manager = .starting r) :
    PipeInv (L.start r) := by
  have hr : r ∈ L.pending := by
    rw [Library.pending, hm]
    exact List.mem_cons_self
  have hw : L.manager ≠ .waking r := by
    rw [hm]
    simp
  obtain ⟨hidle, -, hne⟩ := h.current hr hw
  have hpending : (L.start r).pending = L.pending := by
    rw [Library.pending, Library.pending, hm]
    rfl
  have hstatus : ∀ t, t ≠ r.caller → t ≠ r.thread → (L.start r).status t = L.status t := by
    intro t hc ht
    show Function.update (Function.update L.status r.caller 0) r.thread 0 t = L.status t
    rw [Function.update_of_ne ht, Function.update_of_ne hc]
  exact
    { h with
      threads := fun t => by
        by_cases hc : t = r.caller
        · obtain ⟨hact, hempty⟩ := h.pending r hr
          subst hc
          show PipeOk (L.start r) r.caller (L.activity r.caller)
          rw [hact]
          left
          refine ⟨hempty, ?_⟩
          rw [hpending]
          exact hr
        · by_cases ht : t = r.thread
          · subst ht
            have hok := h.threads r.thread
            show PipeOk (L.start r) r.thread (L.activity r.thread)
            rw [hidle] at hok ⊢
            exact hok
          · refine (h.threads t).mono rfl (hstatus t hc ht) (fun _ hp => hp) (fun _ _ => rfl)
              fun r' hr' _ => ?_
            rw [hpending]
            exact hr'
      pending := fun r' hr' => h.pending r' (hpending ▸ hr')
      nodup := by
        rw [hpending]
        exact h.nodup
      unhandled := fun r' hr' _ => by
        refine h.unhandled r' (hpending ▸ hr') ?_
        rw [hm]
        simp
      cloning := fun r' hr' => by
        obtain rfl : r = r' := Manager.cloning.inj hr'
        show Function.update (Function.update L.status r.caller 0) r.thread 0 r.caller = 0
        rw [Function.update_of_ne (Ne.symm hne), Function.update_self]
      waking := fun r' hr' => by cases hr' }

/-- The caller of the request still waits when the manager has gone on to wake it. -/
theorem pipeOk_waking {r : Request} (hact : L.activity r.caller =
      .create (.suspended r.thread r.number))
    (hempty : L'.pipe r.caller = []) (hm : L'.manager = .waking r) :
    PipeOk L' r.caller (L.activity r.caller) := by
  rw [hact]
  left
  refine ⟨hempty, ?_⟩
  rw [Library.pending, hm]
  exact List.mem_cons_self

/-- The new thread starts idle, with an empty pipe. -/
theorem PipeInv.finish_ok (h : PipeInv L) {r : Request} (hm : L.manager = .cloning r) :
    PipeInv (L.finish r true) := by
  have hpending : L.pending = r :: L.mailbox := by
    rw [Library.pending, hm]
    rfl
  have hr : r ∈ L.pending := by
    rw [hpending]
    exact List.mem_cons_self
  have hw : ∀ r', L.manager ≠ .waking r' := by
    intro r'
    rw [hm]
    simp
  have hpending' : (L.finish r true).pending = L.pending := hpending.symm
  obtain ⟨hidle, -, hne⟩ := h.current hr (hw r)
  obtain ⟨hact, hempty⟩ := h.pending r hr
  have hpipe : ∀ t, t ≠ r.thread → (L.finish r true).pipe t = L.pipe t :=
    fun t ht => Function.update_of_ne ht _ _
  have hstarted : ∀ t, t ≠ r.thread → (L.finish r true).started t = L.started t :=
    fun t ht => Function.update_of_ne ht _ _
  have hholds : (L.activity r.caller).holds = some r.thread := by
    rw [hact]
    rfl
  exact
    { threads := fun t => by
        by_cases ht : t = r.thread
        · rw [ht]
          show PipeOk (L.finish r true) r.thread (L.activity r.thread)
          rw [hidle]
          exact Function.update_self r.thread [] L.pipe
        · by_cases hc : t = r.caller
          · subst hc
            exact pipeOk_waking hact ((hpipe _ ht).trans hempty) rfl
          · refine (h.threads t).mono (hpipe t ht) rfl (fun _ hp => List.mem_append_left _ hp)
              (fun a ha => hstarted a ?_) fun r' hr' _ => hpending' ▸ hr'
            rintro rfl
            exact hc (h.holders t r.caller r.thread ha hholds)
      unstarted := fun t hs => by
        by_cases ht : t = r.thread
        · rw [ht]
          exact hidle
        · exact h.unstarted t ((hstarted t ht).symm.trans hs)
      structs := fun t hs => by
        by_cases ht : t = r.thread
        · rw [ht]
          exact h.held r.caller r.thread hholds
        · exact h.structs t ((hstarted t ht).symm.trans hs)
      held := h.held
      holders := h.holders
      pending := fun r' hr' => by
        obtain ⟨hact', hempty'⟩ := h.pending r' (hpending' ▸ hr')
        refine ⟨hact', (hpipe _ fun heq => ?_).trans hempty'⟩
        rw [heq, hidle] at hact'
        cases hact'
      nodup := hpending' ▸ h.nodup
      unhandled := fun r' hr' hnot => by
        have hr' : r' ∈ L.pending := hpending' ▸ hr'
        refine (hstarted _ fun heq => ?_).trans (h.unhandled r' hr' (hw r'))
        have hholds' : (L.activity r'.caller).holds = some r.thread := by
          rw [(h.pending r' hr').1, ← heq]
          rfl
        have hsame := h.eq_of_caller hr' hr (h.holders _ _ _ hholds' hholds)
        exact hnot (congrArg Manager.waking hsame.symm)
      cloning := fun r' hr' => by cases hr'
      waking := fun r' hr' => by
        obtain rfl : r = r' := Manager.waking.inj hr'
        refine ⟨List.mem_append_right _ (List.mem_singleton.mpr rfl), fun hst => ?_⟩
        exact absurd (h.cloning r hm) hst
      results := fun x hx => List.mem_append_left _ (h.results x hx) }

/-- A system call of `do_create` failed. -/
theorem PipeInv.finish_failed (h : PipeInv L) {r : Request} (hm : L.manager = .cloning r) :
    PipeInv (L.finish r false) := by
  have hpending : L.pending = r :: L.mailbox := by
    rw [Library.pending, hm]
    rfl
  have hr : r ∈ L.pending := by
    rw [hpending]
    exact List.mem_cons_self
  have hw : ∀ r', L.manager ≠ .waking r' := by
    intro r'
    rw [hm]
    simp
  have hpending' : (L.finish r false).pending = L.pending := hpending.symm
  obtain ⟨hact, hempty⟩ := h.pending r hr
  exact
    { h with
      threads := fun t => by
        by_cases hc : t = r.caller
        · subst hc
          exact pipeOk_waking hact hempty rfl
        · exact (h.threads t).mono rfl (Function.update_of_ne hc _ _)
            (fun _ hp => List.mem_append_left _ hp) (fun _ _ => rfl) fun r' hr' _ =>
              hpending' ▸ hr'
      pending := fun r' hr' => h.pending r' (hpending' ▸ hr')
      nodup := hpending' ▸ h.nodup
      unhandled := fun r' hr' _ => h.unhandled r' (hpending' ▸ hr') (hw r')
      cloning := fun r' hr' => by cases hr'
      waking := fun r' hr' => by
        obtain rfl : r = r' := Manager.waking.inj hr'
        have hstatus : (L.finish r false).status r.caller = -1 := Function.update_self _ _ _
        refine ⟨?_, fun _ => h.unhandled r hr (hw r)⟩
        rw [hstatus]
        exact List.mem_append_right _ (List.mem_singleton.mpr rfl)
      results := fun x hx => List.mem_append_left _ (h.results x hx) }

theorem PipeInv.reply (h : PipeInv L) {r : Request} (hm : L.manager = .waking r) :
    PipeInv (L.reply r) := by
  have hpending : L.pending = r :: L.mailbox := by
    rw [Library.pending, hm]
    rfl
  have hr : r ∈ L.pending := by
    rw [hpending]
    exact List.mem_cons_self
  obtain ⟨hact, hempty⟩ := h.pending r hr
  have hnodup := h.nodup
  rw [hpending, List.map_cons, List.nodup_cons] at hnodup
  have hother : ∀ r' ∈ L.mailbox, r'.caller ≠ r.caller := by
    intro r' hr' heq
    exact hnodup.1 (List.mem_map.mpr ⟨r', hr', heq⟩)
  have hmem : ∀ {r'}, r' ∈ L.mailbox → r' ∈ L.pending := by
    intro r' hr'
    rw [hpending]
    exact List.mem_cons_of_mem _ hr'
  have hpipe : ∀ t, t ≠ r.caller → (L.reply r).pipe t = L.pipe t :=
    fun t ht => Function.update_of_ne ht _ _
  exact
    { h with
      threads := fun t => by
        by_cases hc : t = r.caller
        · subst hc
          show PipeOk (L.reply r) r.caller (L.activity r.caller)
          rw [hact]
          right
          refine ⟨?_, (h.waking r hm).done, (h.waking r hm).failed⟩
          show Function.update L.pipe r.caller (L.pipe r.caller ++ [.manager]) r.caller = [.manager]
          rw [Function.update_self, hempty]
          rfl
        · refine (h.threads t).mono (hpipe t hc) rfl (fun _ hp => hp) (fun _ _ => rfl)
            fun r' hr' hcall => ?_
          rw [hpending] at hr'
          rcases List.mem_cons.mp hr' with rfl | hin
          · exact absurd hcall.symm hc
          · exact hin
      pending := fun r' hr' => by
        refine ⟨(h.pending r' (hmem hr')).1, ?_⟩
        exact (hpipe _ (hother r' hr')).trans (h.pending r' (hmem hr')).2
      nodup := hnodup.2
      unhandled := fun r' hr' _ => by
        refine h.unhandled r' (hmem hr') ?_
        rw [hm]
        intro heq
        obtain rfl : r = r' := Manager.waking.inj heq
        exact hother r hr' rfl
      cloning := fun r' hr' => by cases hr'
      waking := fun r' hr' => by cases hr' }

/-- Step lemma. -/
theorem PipeInv.step (h : PipeInv L) {a : LibLabel} (hok : Prompt L a) (hst : LibStep L a L') :
    PipeInv L' := by
  cases hst with
  | sem hrun hat ha hst => exact h.semStep hrun hat ha hst hok
  | resume hact hpipe => exact h.resume hact hpipe
  | callCreate hrun hact => exact h.callCreate hrun hact
  | allocate hact hfree => exact h.allocate hact hfree
  | noMemory hact => exact h.noMemory hact
  | request hact => exact h.request hact
  | answered hact hpipe => exact h.answered hact hpipe
  | check hact => exact h.check hact
  | «return» hact => exact h.return hact
  | receive hm hbox => exact h.receive hm hbox
  | start hm => exact h.start hm
  | @finish r ok hm =>
      cases ok with
      | true => exact h.finish_ok hm
      | false => exact h.finish_failed hm
  | reply hm => exact h.reply hm

end Pipes

/-- Run lemma. -/
theorem PipeInv.reach {count : SemId → Int} {L : Library} (h : (library count).Reach Prompt L) :
    PipeInv L := by
  refine h.invariant ?_ ?_
  · rintro L rfl
    exact PipeInv.init count
  · intro L a L' hinv hok hst
    exact hinv.step hok hst

/-- **Prompt wake-ups do not leak.** In every run in which a semaphore wakes only
threads that sleep in `sthread_sem_down` and have no message to read, every
`sthread_create` returns the status that `do_create` has stored for its own request,
and a thread that is back from `sthread_sem_down` has no semaphore's message in its
pipe. -/
theorem prompt_wakeups_do_not_leak (count : SemId → Int) {L : Library}
    (h : (library count).Reach Prompt L) : CreatesAnswered L ∧ NoStaleToken L := by
  have hinv := PipeInv.reach h
  refine ⟨hinv.results, fun t hidle i hi => ?_⟩
  have hok := hinv.threads t
  rw [hidle] at hok
  rw [show L.pipe t = [] from hok] at hi
  cases hi

/-! A run: the main thread creates thread 1 and takes the unit of a semaphore, and
thread 1 queues behind it. -/

/-- One section of semaphore 0. -/
def Library.sect (L : Library) (t : ThreadId) (f : State → State) : Library :=
  L.put 0 t (f (L.view 0))

/-- The main thread has created thread 1. -/
def twoThreads : Library :=
  let r : Request := ⟨0, 1, 0⟩
  let L := ((((Library.init fun _ => 1).goto 0 .allocating).allocate 0 1).request 0 1)
  let L := (({ L with manager := .starting r, mailbox := [] }.start r).finish r true).reply r
  let L := { L with pipe := Function.update L.pipe 0 [] }.goto 0 (.checking 1 0)
  (L.check 0 1 0).return 0 0 (some 1)

theorem twoThreads_reach : (library fun _ => 1).Reach Prompt twoThreads :=
  .step (.return 0)
    (.step (.check 0)
      (.step (.answered 0)
        (.step .reply
          (.step .finish
            (.step .start
              (.step .receive
                (.step (.request 0)
                  (.step (.allocate 0)
                    (.step (.callCreate 0) (.init rfl) trivial (.callCreate rfl rfl))
                    trivial (.allocate rfl rfl))
                  trivial (.request rfl))
                trivial (.receive rfl rfl))
              trivial (.start rfl))
            trivial (.finish rfl))
          trivial (.reply rfl))
        trivial (.answered rfl rfl))
      trivial (.check rfl))
    trivial (.return rfl)

theorem prompt_of_silent {L : Library} {i : SemId} {a : Label}
    (h : (L.view i).wakes a = none) : Prompt L (.sem i a) := by
  intro t ht
  rw [h] at ht
  cases ht

/-- Thread 0 has the unit, thread 1 sleeps in the queue. -/
def oneSleeps : Library :=
  let L := twoThreads.sect 0 (·.goto 0 (.tryDown true))
  let L := L.sect 0 (tryDown · 0 true)
  let L := L.sect 1 (·.goto 1 (.tryDown true))
  let L := L.sect 1 (tryDown · 1 true)
  let L := L.sect 1 (makeElem · 1 0)
  L.sect 1 (recheck · 1 0)

theorem oneSleeps_reach : (library fun _ => 1).Reach Prompt oneSleeps :=
  .step (.sem 0 (.recheck 1))
    (.step (.sem 0 (.makeElem 1))
      (.step (.sem 0 (.tryDown 1))
        (.step (.sem 0 (.callDown 1))
          (.step (.sem 0 (.tryDown 0))
            (.step (.sem 0 (.callDown 0)) twoThreads_reach (prompt_of_silent rfl)
              (.sem rfl trivial (by decide) (.callDown rfl)))
            (prompt_of_silent rfl) (.sem rfl rfl (by decide) (.tryDown rfl rfl)))
          (prompt_of_silent rfl) (.sem rfl trivial (by decide) (.callDown rfl)))
        (prompt_of_silent rfl) (.sem rfl rfl (by decide) (.tryDown rfl rfl)))
      (prompt_of_silent rfl) (.sem rfl rfl (by decide) (.makeElem rfl rfl)))
    (prompt_of_silent rfl) (.sem rfl rfl (by decide) (.recheck rfl rfl))

/-- Thread 0 ups once; thread 1 wakes up, takes the unit and returns. -/
def oneUp : Library :=
  let L := oneSleeps.sect 0 (·.goto 0 .up)
  let L := L.sect 0 (semUp · 0)
  let L := { L with
    activity := Function.update L.activity 1 (.sem 0 (.woken 0))
    pipe := Function.update L.pipe 1 [] }
  let L := L.sect 1 (rewake · 1 0)
  L.sect 1 (freeElem · 1 0)

theorem oneUp_reach : (library fun _ => 1).Reach Prompt oneUp :=
  .step (.sem 0 (.freeElem 1))
    (.step (.sem 0 (.rewake 1))
      (.step (.resume 1)
        (.step (.sem 0 (.up 0))
          (.step (.sem 0 (.callUp 0)) oneSleeps_reach (prompt_of_silent rfl)
            (.sem rfl trivial (by decide) (.callUp rfl)))
          (by
            rintro t ht
            obtain rfl : 1 = t := Option.some.inj ht
            exact ⟨⟨0, 0, rfl⟩, rfl⟩)
          (.sem rfl rfl (by decide) (.up rfl rfl)))
        trivial (.resume rfl rfl))
      (prompt_of_silent rfl) (.sem rfl rfl (by decide) (.rewake rfl rfl)))
    (prompt_of_silent rfl) (.sem rfl rfl (by decide) (.freeElem rfl))

theorem oneUp_no_leak : oneUp.returned 1 = 0 ∧ CreatesAnswered oneUp ∧ NoStaleToken oneUp :=
  ⟨rfl, prompt_wakeups_do_not_leak (fun _ => 1) oneUp_reach⟩

/-- Thread 0 ups twice; thread 1 reads one message, takes a unit and returns. -/
def twoUps : Library :=
  let L := oneSleeps.sect 0 (·.goto 0 .up)
  let L := L.sect 0 (semUp · 0)
  let L := L.sect 0 (·.goto 0 .up)
  let L := L.sect 0 (semUp · 0)
  let L := { L with
    activity := Function.update L.activity 1 (.sem 0 (.woken 0))
    pipe := Function.update L.pipe 1 [.semaphore 0] }
  let L := L.sect 1 (rewake · 1 0)
  L.sect 1 (freeElem · 1 0)

theorem twoUps_reach : (library fun _ => 1).Reach System.anyStep twoUps :=
  .step (.sem 0 (.freeElem 1))
    (.step (.sem 0 (.rewake 1))
      (.step (.resume 1)
        (.step (.sem 0 (.up 0))
          (.step (.sem 0 (.callUp 0))
            (.step (.sem 0 (.up 0))
              (.step (.sem 0 (.callUp 0)) (oneSleeps_reach.mono fun _ _ _ => trivial) trivial
                (.sem rfl trivial (by decide) (.callUp rfl)))
              trivial (.sem rfl rfl (by decide) (.up rfl rfl)))
            trivial (.sem rfl trivial (by decide) (.callUp rfl)))
          trivial (.sem rfl rfl (by decide) (.up rfl rfl)))
        trivial (.resume rfl rfl))
      trivial (.sem rfl rfl (by decide) (.rewake rfl rfl)))
    trivial (.sem rfl rfl (by decide) (.freeElem rfl))

/-- Thread 1 calls `sthread_create`; the manager has not read its request. -/
def earlyReturn : Library :=
  let L := ((twoUps.goto 1 .allocating).allocate 1 2).request 1 2
  let L := { L with pipe := Function.update L.pipe 1 [] }.goto 1 (.checking 2 1)
  (L.check 1 2 1).return 1 1 (some 2)

theorem earlyReturn_reach : (library fun _ => 1).Reach System.anyStep earlyReturn :=
  .step (.return 1)
    (.step (.check 1)
      (.step (.answered 1)
        (.step (.request 1)
          (.step (.allocate 1)
            (.step (.callCreate 1) twoUps_reach trivial (.callCreate rfl rfl))
            trivial (.allocate rfl rfl))
          trivial (.request rfl))
        trivial (.answered rfl rfl))
      trivial (.check rfl))
    trivial (.return rfl)

/-- After two ups `sthread_sem_down` returns 0 with a message left in the pipe, and the
next `sthread_create` returns 0 on it, before the manager has read the request. -/
theorem stale_token_answers_create :
    ((library fun _ => 1).Reach System.anyStep twoUps ∧ twoUps.returned 1 = 0 ∧
      ¬ NoStaleToken twoUps) ∧
    (library fun _ => 1).Reach System.anyStep earlyReturn ∧ ¬ CreatesAnswered earlyReturn := by
  refine ⟨⟨twoUps_reach, rfl, fun h => ?_⟩, earlyReturn_reach, fun h => ?_⟩
  · exact absurd (List.mem_singleton.mpr rfl) (h 1 rfl 0)
  · have hdone := h ⟨1, some 2, 0⟩ (by decide +kernel)
    exact absurd hdone (by decide +kernel)

end LinuxHacks.Semaphore
