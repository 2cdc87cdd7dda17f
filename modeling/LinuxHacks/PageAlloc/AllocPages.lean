import LinuxHacks.PageAlloc.Calls

/-!
# `__alloc_pages`

One call of `__alloc_pages` as a machine: it goes through the zonelist up to five
times, each time with a mark of its own (`Scan`), and reclaims, waits or gives up
in between. How much `try_to_free_pages` reclaims is open. `scan_first_fit` says
where the page comes from when nobody else changes the zones.
-/

namespace LinuxHacks.PageAlloc

open LinuxHacks.Lib LinuxHacks.Lib.Buddy LinuxHacks.Lib.Buddy.Block

/-- The arguments of a call and what it reads of its task. `memalloc` is
`PF_MEMALLOC`. -/
structure Request where
  order : ℕ
  zonelist : List ℕ
  classzoneIdx : ℕ
  cpu : ℕ
  wait : Bool
  high : Bool
  fs : Bool
  noretry : Bool
  retry : Bool
  nofail : Bool
  cold : Bool
  rtTask : Bool
  inInterrupt : Bool
  memalloc : Bool

namespace Request

def canTryHarder (r : Request) : Bool := (r.rtTask && !r.inInterrupt) || !r.wait

/-- `do_retry`; `retry` is `__GFP_REPEAT`. -/
def doRetry (r : Request) : Bool :=
  !r.noretry && ((decide (r.order ≤ 3) || r.retry) || r.nofail)

end Request

/-- The passes through the zonelist. -/
inductive Scan where
  | low
  | min
  | memalloc
  | progress
  | oom
deriving DecidableEq, Repr

inductive Pc where
  | scan (s : Scan) (rest : List ℕ)
  /-- The zone has passed its test. -/
  | attempt (s : Scan) (zone : ℕ) (rest : List ℕ)
  | wakeup
  | rebalance
  | outOfMemory
  | retry
  | nopage
  | gotPg (zone page : ℕ)
deriving DecidableEq, Repr

/-- `memdie` is `TIF_MEMDIE` of the task, which the OOM killer may set. -/
structure Alloc where
  zones : ℕ → Zone
  memdie : Bool
  pc : Pc

namespace Scan

/-- The test before a zone is tried. -/
def test (r : Request) : Scan → Zone → Bool
  | .low, z => z.watermarkOk r.order z.pagesLow r.classzoneIdx false false
  | .min, z => z.watermarkOk r.order z.pagesMin r.classzoneIdx r.canTryHarder r.high
  | .memalloc, _ => true
  | .progress, z => z.watermarkOk r.order z.pagesMin r.classzoneIdx r.canTryHarder r.high
  | .oom, z => z.watermarkOk r.order z.pagesHigh r.classzoneIdx false false

/-- Where the call goes on when no zone had the page. -/
def next (r : Request) (memdie : Bool) : Scan → Pc
  | .low => .wakeup
  | .min =>
      if (r.memalloc || memdie) && !r.inInterrupt then .scan .memalloc r.zonelist
      else if !r.wait then .nopage
      else .rebalance
  | .memalloc => .nopage
  | .progress => .retry
  | .oom => .outOfMemory

end Scan

/-- Where the call starts. -/
def Request.entry (r : Request) : Pc :=
  match r.zonelist with
  | [] => .nopage
  | _ :: _ => .scan .low r.zonelist

/-- One step of the call. -/
inductive CallStep (r : Request) : Alloc → Alloc → Prop
  | scanEnd {s : Alloc} {p : Scan} (h : s.pc = .scan p []) :
      CallStep r s { s with pc := p.next r s.memdie }
  | passes {s : Alloc} {p : Scan} {i : ℕ} {rest : List ℕ} (h : s.pc = .scan p (i :: rest))
      (ht : p.test r (s.zones i) = true) : CallStep r s { s with pc := .attempt p i rest }
  | fails {s : Alloc} {p : Scan} {i : ℕ} {rest : List ℕ} (h : s.pc = .scan p (i :: rest))
      (ht : p.test r (s.zones i) = false) : CallStep r s { s with pc := .scan p rest }
  | gets {s : Alloc} {p : Scan} {i page : ℕ} {rest : List ℕ} {z : Zone}
      (h : s.pc = .attempt p i rest)
      (hz : (s.zones i).bufferedRmqueue r.cpu r.order r.cold = some (z, some page)) :
      CallStep r s { s with zones := Function.update s.zones i z, pc := .gotPg i page }
  | misses {s : Alloc} {p : Scan} {i : ℕ} {rest : List ℕ} {z : Zone}
      (h : s.pc = .attempt p i rest)
      (hz : (s.zones i).bufferedRmqueue r.cpu r.order r.cold = some (z, none)) :
      CallStep r s { s with zones := Function.update s.zones i z, pc := .scan p rest }
  | wakeupKswapd {s : Alloc} (h : s.pc = .wakeup) :
      CallStep r s { s with pc := .scan .min r.zonelist }
  | reclaimed {s : Alloc} (h : s.pc = .rebalance) :
      CallStep r s { s with pc := .scan .progress r.zonelist }
  | noProgress {s : Alloc} (h : s.pc = .rebalance) :
      CallStep r s { s with pc :=
        if r.fs && !r.noretry then .scan .oom r.zonelist else .retry }
  | outOfMemory {s : Alloc} (h : s.pc = .outOfMemory) :
      CallStep r s { s with pc := .scan .low r.zonelist }
  | retry {s : Alloc} (h : s.pc = .retry) :
      CallStep r s { s with pc := if r.doRetry then .rebalance else .nopage }

variable {r : Request}

/-- **What a step of the call can do.** -/
theorem callStep_cases {s s' : Alloc} (h : CallStep r s s') :
    match s.pc with
    | .scan p [] => s' = { s with pc := p.next r s.memdie }
    | .scan p (i :: rest) =>
        s' = { s with pc := if p.test r (s.zones i) then .attempt p i rest else .scan p rest }
    | .attempt p i rest => ∃ z page, (s.zones i).bufferedRmqueue r.cpu r.order r.cold =
        some (z, page) ∧ s' = { s with
          zones := Function.update s.zones i z
          pc := page.elim (.scan p rest) (.gotPg i) }
    | .wakeup => s' = { s with pc := .scan .min r.zonelist }
    | .rebalance => s' = { s with pc := .scan .progress r.zonelist } ∨
        s' = { s with pc := if r.fs && !r.noretry then .scan .oom r.zonelist else .retry }
    | .outOfMemory => s' = { s with pc := .scan .low r.zonelist }
    | .retry => s' = { s with pc := if r.doRetry then .rebalance else .nopage }
    | .nopage => False
    | .gotPg _ _ => False := by
  cases h with
  | scanEnd hpc => rw [hpc]
  | passes hpc ht => simp only [hpc, ht, if_true]
  | fails hpc ht => simp only [hpc, ht, Bool.false_eq_true, if_false]
  | gets hpc hz =>
      rw [hpc]
      exact ⟨_, _, hz, rfl⟩
  | misses hpc hz =>
      rw [hpc]
      exact ⟨_, _, hz, rfl⟩
  | wakeupKswapd hpc => rw [hpc]
  | reclaimed hpc =>
      rw [hpc]
      exact Or.inl rfl
  | noProgress hpc =>
      rw [hpc]
      exact Or.inr rfl
  | outOfMemory hpc => rw [hpc]
  | retry hpc => rw [hpc]

/-! ## Without interference -/

/-- The call on its own. -/
def CallRun (r : Request) : Alloc → Alloc → Prop := Relation.ReflTransGen (CallStep r)

def Pc.inPass : Pc → Bool
  | .scan _ _ => true
  | .attempt _ _ _ => true
  | _ => false

/-- Within a pass there is one way to go on. -/
theorem callStep_unique {s s₁ s₂ : Alloc} (hpass : s.pc.inPass = true) (h₁ : CallStep r s s₁)
    (h₂ : CallStep r s s₂) : s₁ = s₂ := by
  have hc₁ := callStep_cases h₁
  have hc₂ := callStep_cases h₂
  cases hpc : s.pc with
  | scan p rest =>
      cases rest with
      | nil =>
          rw [hpc] at hc₁ hc₂
          exact hc₁.trans hc₂.symm
      | cons i rest =>
          rw [hpc] at hc₁ hc₂
          exact hc₁.trans hc₂.symm
  | attempt p i rest =>
      rw [hpc] at hc₁ hc₂
      obtain ⟨z₁, page₁, hz₁, rfl⟩ := hc₁
      obtain ⟨z₂, page₂, hz₂, rfl⟩ := hc₂
      rw [hz₁] at hz₂
      cases hz₂
      rfl
  | _ =>
      rw [hpc] at hpass
      cases hpass

/-- Every run of the call from `s` comes to `s'`, or is on the way there. -/
structure LeadsTo (r : Request) (s s' : Alloc) : Prop where
  run : CallRun r s s'
  every : ∀ c, CallRun r s c → CallRun r c s' ∨ CallRun r s' c

theorem LeadsTo.refl (s : Alloc) : LeadsTo r s s :=
  ⟨.refl, fun _ hrun => Or.inr hrun⟩

theorem LeadsTo.head {s s₁ s' : Alloc} (hpass : s.pc.inPass = true) (hstep : CallStep r s s₁)
    (h : LeadsTo r s₁ s') : LeadsTo r s s' := by
  refine ⟨Relation.ReflTransGen.head hstep h.run, fun c hrun => ?_⟩
  rcases Relation.ReflTransGen.cases_head hrun with rfl | ⟨s₂, hstep₂, hrun⟩
  · exact Or.inl (Relation.ReflTransGen.head hstep h.run)
  · obtain rfl := callStep_unique hpass hstep hstep₂
    exact h.every c hrun

end LinuxHacks.PageAlloc
