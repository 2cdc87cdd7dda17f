import Mathlib.Data.BitVec
import LinuxHacks.Barrier.Registry

/-!
# Barrier identifiers

`next_id` is a 32-bit counter that is never reset, stored unsigned in `bID`, and
read signed by the callers: a negative value is an error to the caller of
`sys_barriercreate`, and is refused by `sys_barrierwait` and
`sys_barrierdestroy`.

* `IdInv`: the counter is the number of creates, and until it reaches `2 ^ 31`
  the barriers in memory have distinct identifiers between 1 and it;
* `ids_usable_iff`: a run hands out usable identifiers exactly when it has fewer
  than `2 ^ 31` successful creates.
-/

namespace LinuxHacks.Barrier

open LinuxHacks.Lib

structure IdInv (r : Registry) : Prop where
  counter : r.nextId = BitVec.ofNat 32 r.creations
  range : r.creations < 2 ^ 31 → ∀ a, r.allocated a = true →
    0 < (r.barrier a).bID.toNat ∧ (r.barrier a).bID.toNat ≤ r.creations
  distinct : r.creations < 2 ^ 31 → ∀ a b, r.allocated a = true → r.allocated b = true →
    (r.barrier a).bID = (r.barrier b).bID → a = b

theorem Boot.ids {r : Registry} (h : Boot r) : IdInv r where
  counter := by
    rw [h.nextId, h.creations]
    rfl
  range _ a ha := by
    rw [h.allocated a] at ha
    cases ha
  distinct _ a _ ha := by
    rw [h.allocated a] at ha
    cases ha

/-! ## Steps -/

/-- No identifier is handed out; nodes may be freed. -/
structure IdFrame (r r' : Registry) : Prop where
  nextId : r'.nextId = r.nextId
  creations : r'.creations = r.creations
  allocated : ∀ a, r'.allocated a = true → r.allocated a = true
  bID : ∀ a, (r'.barrier a).bID = (r.barrier a).bID

theorem idFrame_runs {r : Registry} {c : Call} {b : BarrierT} {freed : Bool}
    {next : Option Call} (hok : SectionOk r c b freed next) :
    IdFrame r ((r.store c.node b freed).move c next) := by
  refine ⟨rfl, rfl, fun a ha => ((Registry.allocated_store (b := b)).mp ha).1, fun a => ?_⟩
  show ((r.store c.node b freed).barrier a).bID = _
  by_cases hac : a = c.node
  · rw [hac, Registry.store_self, hok.bID]
  · rw [Registry.store_of_ne hac]

/-- Only a create hands out an identifier. -/
theorem registryStep_ids {r r' : Registry} {l : RegistryLabel} (h : RegistryInv r)
    (hst : RegistryStep r l r') :
    (∃ num a, l = .create num (some a) ∧ 1 ≤ num ∧ r.allocated a = false ∧
      r' = (barriercreate r num (some a)).2) ∨ IdFrame r r' := by
  cases registryStep_effect h hst with
  | nothing => exact .inr ⟨rfl, rfl, fun _ ha => ha, fun _ => rfl⟩
  | @creates num a hl hnum hfree => exact .inl ⟨num, a, hl, hnum, hfree, rfl⟩
  | @enters c ha _ =>
      refine .inr ⟨rfl, rfl, fun _ ha => ha, fun a => ?_⟩
      show ((r.kernel.incRefcount c.node).barrier a).bID = _
      by_cases hac : a = c.node
      · rw [hac, Kernel.incRefcount_self]
      · rw [Kernel.incRefcount_of_ne _ hac]
  | unlinks _ _ => exact .inr ⟨rfl, rfl, fun _ ha => ha, fun _ => rfl⟩
  | runs _ hok => exact .inr (idFrame_runs hok)

theorem barriercreate_creations {r : Registry} {num : Int} {a : Addr} (hnum : 1 ≤ num) :
    (barriercreate r num (some a)).2.creations = r.creations + 1 := by
  rw [barriercreate_some hnum]

theorem IdInv.creates {r : Registry} (h : IdInv r) {num : Int} {a : Addr} (hnum : 1 ≤ num) :
    IdInv (barriercreate r num (some a)).2 := by
  have hnext : r.nextId + 1 = BitVec.ofNat 32 (r.creations + 1) := by
    rw [h.counter, BitVec.ofNat_add]
    rfl
  have hself : ((barriercreate r num (some a)).2.barrier a).bID = r.nextId + 1 := by
    rw [barriercreate_self hnum]
    rfl
  have hother : ∀ b, b ≠ a → (barriercreate r num (some a)).2.barrier b = r.barrier b :=
    fun b hb => barriercreate_of_ne hnum hb
  have hold : ∀ b, b ≠ a → (barriercreate r num (some a)).2.allocated b = true →
      r.allocated b = true := fun b hb h' => ((allocated_barriercreate hnum).mp h').resolve_left hb
  -- the new identifier is above all others
  have hnew : r.creations + 1 < 2 ^ 31 → (r.nextId + 1).toNat = r.creations + 1 := by
    intro hfew
    rw [hnext, BitVec.toNat_ofNat, Nat.mod_eq_of_lt (by omega)]
  refine ⟨?_, ?_, ?_⟩
  · rw [barriercreate_some hnum]
    exact hnext
  · rw [barriercreate_creations hnum]
    intro hfew b hb
    by_cases hba : b = a
    · rw [hba, hself, hnew hfew]
      omega
    · have hthis := h.range (by omega) b (hold b hba hb)
      rw [hother b hba]
      omega
  · rw [barriercreate_creations hnum]
    intro hfew b c hb hc e
    by_cases hba : b = a
    · by_cases hca : c = a
      · rw [hba, hca]
      · have hthis := (h.range (by omega) c (hold c hca hc)).2
        rw [hba, hself, hother c hca] at e
        rw [← e, hnew hfew] at hthis
        omega
    · by_cases hca : c = a
      · have hthis := (h.range (by omega) b (hold b hba hb)).2
        rw [hca, hself, hother b hba] at e
        rw [e, hnew hfew] at hthis
        omega
      · rw [hother b hba, hother c hca] at e
        exact h.distinct (by omega) b c (hold b hba hb) (hold c hca hc) e

theorem IdInv.frame {r r' : Registry} (h : IdInv r) (hf : IdFrame r r') : IdInv r' where
  counter := by rw [hf.nextId, hf.creations, h.counter]
  range hfew a ha := by
    rw [hf.creations] at hfew ⊢
    rw [hf.bID a]
    exact h.range hfew a (hf.allocated a ha)
  distinct hfew a b ha hb e := by
    rw [hf.creations] at hfew
    rw [hf.bID a, hf.bID b] at e
    exact h.distinct hfew a b (hf.allocated a ha) (hf.allocated b hb) e

theorem IdInv.step {r r' : Registry} {l : RegistryLabel} (h : IdInv r) (hinv : RegistryInv r)
    (hst : RegistryStep r l r') : IdInv r' := by
  rcases registryStep_ids hinv hst with ⟨num, a, -, hnum, -, rfl⟩ | hf
  · exact h.creates hnum
  · exact h.frame hf

theorem creations_mono {r r' : Registry} {l : RegistryLabel} (h : RegistryInv r)
    (hst : RegistryStep r l r') : r.creations ≤ r'.creations := by
  rcases registryStep_ids h hst with ⟨num, a, -, hnum, -, rfl⟩ | hf
  · rw [barriercreate_creations hnum]
    exact Nat.le_succ _
  · exact Nat.le_of_eq hf.creations.symm

/-! ## Usable identifiers -/

/-- With the value `id`, callers reach the barrier `a`: it is positive, no other
barrier in memory has it, and the lookups of `sys_barrierwait(id)` and
`sys_barrierdestroy(id)` take their reference on `a`. -/
structure Usable (r : Registry) (a : Addr) (id : Int) : Prop where
  positive : 0 < id
  unique : ∀ b, r.allocated b = true → b ≠ a → (r.barrier b).bID ≠ BitVec.ofInt 32 id
  wait : ∀ r', RegistryStep r (.lookupWait id) r' ↔
    r' = r.enter (r.kernel.incRefcount a) (.waitFound a)
  destroy : ∀ r', RegistryStep r (.lookupDestroy id) r' ↔
    r' = r.enter (r.kernel.incRefcount a) (.destroyFound a)

/-- One step of a run: a successful create returns a usable identifier, and after
the step every listed barrier has one. -/
structure IdsUsable (t : Registry × RegistryLabel × Registry) : Prop where
  created : ∀ num a, t.2.1 = .create num (some a) → 1 ≤ num →
    Usable t.2.2 a (barriercreate t.1 num (some a)).1
  listed : ∀ a ∈ t.2.2.list, Usable t.2.2 a (t.2.2.barrier a).bID.toInt

/-- Below `2 ^ 31` the signed reading of an identifier is the unsigned one. -/
theorem IdInv.toInt {r : Registry} (h : IdInv r) (hfew : r.creations < 2 ^ 31) {a : Addr}
    (ha : r.allocated a = true) : 0 < (r.barrier a).bID.toInt := by
  obtain ⟨hpos, hle⟩ := h.range hfew a ha
  rw [BitVec.toInt_eq_toNat_of_lt (by omega)]
  omega

/-- The lookup of a listed barrier's identifier stops at that barrier. -/
theorem IdInv.lookup {r : Registry} (h : IdInv r) (hinv : RegistryInv r)
    (hfew : r.creations < 2 ^ 31) {a : Addr} (ha : a ∈ r.list) :
    getBarrierNode r.kernel (r.barrier a).bID.toInt = (some a, r.kernel.incRefcount a) := by
  have hlive : r.kernel.Live (r.barrier a).bID.toInt :=
    ⟨a, ha, (BitVec.ofInt_toInt).symm⟩
  obtain ⟨b, hb, hid, hget⟩ := getBarrierNode_live hlive
  rw [BitVec.ofInt_toInt] at hid
  have hba : b = a := h.distinct hfew b a (hinv.linked b hb).1 (hinv.linked a ha).1 hid
  rw [hget, hba]

theorem IdInv.usable {r : Registry} (h : IdInv r) (hinv : RegistryInv r)
    (hfew : r.creations < 2 ^ 31) {a : Addr} (ha : a ∈ r.list) :
    Usable r a (r.barrier a).bID.toInt := by
  have halloc := (hinv.linked a ha).1
  have hpos := h.toInt hfew halloc
  have hget := h.lookup hinv hfew ha
  refine ⟨hpos, fun b hb hba hid => ?_, fun r' => ⟨fun hst => ?_, ?_⟩,
    fun r' => ⟨fun hst => ?_, ?_⟩⟩
  · rw [BitVec.ofInt_toInt] at hid
    exact hba (h.distinct hfew b a hb halloc hid)
  · cases hst with
    | lookupWait _ hfound =>
        rw [hget] at hfound
        cases hfound
        rfl
  · rintro rfl
    exact .lookupWait (Int.le_of_lt hpos) hget
  · cases hst with
    | lookupDestroy _ hfound =>
        rw [hget] at hfound
        cases hfound
        rfl
  · rintro rfl
    exact .lookupDestroy (Int.le_of_lt hpos) hget

theorem idsUsable_step {r r' : Registry} {l : RegistryLabel} (h : IdInv r)
    (hinv : RegistryInv r) (hst : RegistryStep r l r') (hfew : r'.creations < 2 ^ 31) :
    IdsUsable (r, l, r') := by
  have h' := h.step hinv hst
  have hinv' := hinv.step hst
  refine ⟨?_, fun a ha => h'.usable hinv' hfew ha⟩
  intro num a hl hnum
  have hl' : l = .create num (some a) := hl
  subst hl'
  cases hst with
  | create _ =>
      have ha : a ∈ (barriercreate r num (some a)).2.list := by
        rw [barriercreate_some hnum]
        exact List.mem_cons_self
      have huse := h'.usable hinv' hfew ha
      rw [barriercreate_self hnum] at huse
      show Usable _ a (barriercreate r num (some a)).1
      rw [show (barriercreate r num (some a)).1 = (r.nextId + 1).toInt by
        rw [barriercreate_some hnum]]
      exact huse

/-- The create that brings the counter to `2 ^ 31` returns a negative number. -/
theorem create_overflow {r : Registry} (h : IdInv r) {num : Int} {a : Addr} (hnum : 1 ≤ num)
    (hlast : r.creations + 1 = 2 ^ 31) :
    (barriercreate r num (some a)).1 = -2 ^ 31 := by
  rw [barriercreate_some hnum]
  show (r.nextId + 1).toInt = _
  have hnext : r.nextId = BitVec.ofNat 32 (2 ^ 31 - 1) := by
    rw [h.counter, show r.creations = 2 ^ 31 - 1 by omega]
  rw [hnext]
  decide

/-! ## Runs -/

theorem idInv_reach {ok : Registry → RegistryLabel → Prop} {r : Registry}
    (h : registrySystem.Reach ok r) : RegistryInv r ∧ IdInv r :=
  h.invariant (I := fun r => RegistryInv r ∧ IdInv r)
    (fun _ hboot => ⟨Boot.inv hboot, Boot.ids hboot⟩)
    fun _ _ _ hI _ hst => ⟨hI.1.step hst, hI.2.step hI.1 hst⟩

theorem ids_path {r₀ r : Registry} {l : List (Registry × RegistryLabel × Registry)}
    (h₀ : Boot r₀) (h : registrySystem.Path r₀ l r) : RegistryInv r ∧ IdInv r :=
  idInv_reach (h.reach (.init h₀))

/-- **Identifiers stay usable for `2 ^ 31 - 1` creates.** Every successful create of a
run returns a positive identifier that no other barrier has and by which wait and
destroy find exactly that barrier, as long as it is listed, if and only if fewer
than `2 ^ 31` creates succeed in the run. -/
theorem ids_usable_iff {r₀ r : Registry} {l : List (Registry × RegistryLabel × Registry)}
    (h₀ : Boot r₀) (h : registrySystem.Path r₀ l r) :
    (∀ t ∈ l, IdsUsable t) ↔ r.creations < 2 ^ 31 := by
  induction h with
  | nil => simp [h₀.creations]
  | @snoc r r' l a p hst ih =>
      obtain ⟨hinv, hids⟩ := ids_path h₀ p
      have hmono := creations_mono hinv hst
      constructor
      · intro hall
        have hfew : r.creations < 2 ^ 31 :=
          ih.mp fun t ht => hall t (List.mem_append_left _ ht)
        have hlast := hall (r, a, r') (by simp)
        rcases registryStep_ids hinv hst with ⟨num, b, rfl, hnum, -, rfl⟩ | hf
        · have hpos := (hlast.created num b rfl hnum).positive
          by_contra hlt
          have hcount := barriercreate_creations (r := r) (a := b) hnum
          have hover := create_overflow hids (a := b) hnum (by omega)
          rw [show (barriercreate (r, RegistryLabel.create num (some b),
            (barriercreate r num (some b)).2).1 num (some b)).1 = -2 ^ 31 from hover] at hpos
          omega
        · rw [hf.creations]
          exact hfew
      · intro hfew t ht
        rcases List.mem_append.mp ht with ht | ht
        · exact ih.mpr (by omega) t ht
        · rw [List.mem_singleton.mp ht]
          exact idsUsable_step hids hinv hst hfew

/-- The registry at boot. -/
def bootRegistry : Registry := ⟨⟨[], fun _ => BarrierT.create 1 0⟩, 0, fun _ => false, 0, 0⟩

theorem boot_bootRegistry : Boot bootRegistry := ⟨rfl, rfl, fun _ => rfl, rfl, rfl⟩

/-- A barrier, which a caller of `sys_barrierwait` has found. -/
def firstFound : Registry :=
  let r := (barriercreate bootRegistry 4 (some 0)).2
  r.enter (r.kernel.incRefcount 0) (.waitFound 0)

/-- The caller sleeps, and there is a second barrier. -/
def twoCreated : Registry := (barriercreate (arriveAt firstFound 0) 2 (some 1)).2

/-- A third one gets a usable identifier, and the others keep theirs. -/
theorem usable_third :
    IdsUsable (twoCreated, .create 3 (some 2), (barriercreate twoCreated 3 (some 2)).2) := by
  have hfirst : registrySystem.step bootRegistry (.create 4 (some 0))
      (barriercreate bootRegistry 4 (some 0)).2 := .create fun _ _ => rfl
  have hfound : registrySystem.step (barriercreate bootRegistry 4 (some 0)).2 (.lookupWait 1)
      firstFound := .lookupWait (by decide) rfl
  have harrive : registrySystem.step firstFound (.arrive 0) (arriveAt firstFound 0) :=
    .arrive (by decide)
  have hsecond : registrySystem.step (arriveAt firstFound 0) (.create 2 (some 1)) twoCreated := by
    refine .create fun a ha => ?_
    obtain rfl := Option.some.inj ha
    rfl
  have hthird : registrySystem.step twoCreated (.create 3 (some 2))
      (barriercreate twoCreated 3 (some 2)).2 := by
    refine .create fun a ha => ?_
    obtain rfl := Option.some.inj ha
    rfl
  have p := (((System.Path.nil.snoc hfirst).snoc hfound).snoc harrive).snoc hsecond
  exact (ids_usable_iff boot_bootRegistry (p.snoc hthird)).mpr (by decide) _
    (List.mem_append_right _ (List.mem_singleton_self _))

/-! ## A run past the last usable identifier -/

/-- Nothing listed, nothing in memory and no call in flight. -/
structure Idle (r : Registry) : Prop where
  list : r.list = []
  allocated : ∀ a, r.allocated a = false
  calls : r.calls = 0

/-- `sys_barrierdestroy(sys_barriercreate(1))`, before the counter overflows. -/
theorem create_destroy {r : Registry} (h : Idle r) (hids : IdInv r) (hinv : RegistryInv r)
    (hfew : r.creations + 1 < 2 ^ 31) :
    ∃ l r', registrySystem.Path r l r' ∧ Idle r' ∧ r'.creations = r.creations + 1 := by
  have hcreate : RegistryStep r (.create 1 (some 0)) (barriercreate r 1 (some 0)).2 :=
    .create fun a _ => h.allocated a
  have heq := barriercreate_some (r := r) (a := 0) (Int.le_refl 1)
  obtain ⟨r₁, hr₁⟩ : ∃ r₁, (barriercreate r 1 (some 0)).2 = r₁ := ⟨_, rfl⟩
  rw [hr₁] at hcreate
  have hfew₁ : r₁.creations < 2 ^ 31 := by
    rw [← hr₁, heq]
    exact hfew
  have hlist : r₁.list = [0] := by
    rw [← hr₁, heq]
    exact congrArg (0 :: ·) h.list
  have hmem : 0 ∈ r₁.list := by
    rw [hlist]
    exact List.mem_singleton_self 0
  have huse := (hids.step hinv hcreate).usable (hinv.step hcreate) hfew₁ hmem
  have hlookup := (huse.destroy _).mpr rfl
  have hunlink := RegistryStep.unlink
    (r := r₁.enter (r₁.kernel.incRefcount 0) (.destroyFound 0)) (Multiset.mem_cons_self _ _) hmem
  have hdestroy := RegistryStep.destroy
    (r := ((r₁.enter (r₁.kernel.incRefcount 0) (.destroyFound 0)).listDel 0).move
      (.destroyFound 0) (some (.destroyUnlinked 0))) (Multiset.mem_cons_self _ _)
  refine ⟨_, _, (((Lib.System.Path.nil.snoc hcreate).snoc hlookup).snoc hunlink).snoc hdestroy,
    ⟨?_, ?_, ?_⟩, ?_⟩
  · show r₁.list.erase 0 = []
    rw [hlist]
    rfl
  · intro a
    subst hr₁
    by_cases ha : a = 0
    · subst ha
      simp [heq, destroyAt, destroySection, leaveBarrier, Registry.store, Registry.move,
        Registry.listDel, Registry.enter, Kernel.incRefcount, BarrierT.create, Registry.barrier]
    · simp [heq, destroyAt, destroySection, leaveBarrier, Registry.store, Registry.move,
        Registry.listDel, Registry.enter, Kernel.incRefcount, BarrierT.create, Registry.barrier,
        Function.update_of_ne ha, h.allocated a]
  · subst hr₁
    simp [heq, destroyAt, Registry.store, Registry.move, Registry.listDel, Registry.enter,
      h.calls]
  · subst hr₁
    rw [heq]
    rfl

theorem create_destroy_run : ∀ n, n < 2 ^ 31 →
    ∃ l r, registrySystem.Path bootRegistry l r ∧ Idle r ∧ r.creations = n
  | 0, _ => ⟨[], bootRegistry, .nil, ⟨rfl, fun _ => rfl, rfl⟩, rfl⟩
  | n + 1, hn => by
      obtain ⟨l, r, p, hidle, hcount⟩ := create_destroy_run n (by omega)
      obtain ⟨hinv, hids⟩ := ids_path boot_bootRegistry p
      obtain ⟨l', r', p', hidle', hcount'⟩ := create_destroy hidle hids hinv (by omega)
      exact ⟨l ++ l', r', p.append p', hidle', by rw [hcount', hcount]⟩

/-- After `2 ^ 31 - 1` barriers created and destroyed one after the other, the next
create puts a barrier in the list and returns -2147483648, with which neither
`sys_barrierwait` nor `sys_barrierdestroy` gets to it. -/
theorem create_returns_negative :
    (∃ l r, registrySystem.Path bootRegistry l r ∧ Idle r ∧
      (barriercreate r 1 (some 0)).1 = -2147483648 ∧
      (barriercreate r 1 (some 0)).2.list = [0] ∧
      ∀ r', ¬ RegistryStep (barriercreate r 1 (some 0)).2 (.lookupWait (-2147483648)) r' ∧
        ¬ RegistryStep (barriercreate r 1 (some 0)).2 (.lookupDestroy (-2147483648)) r') ∧
    ¬ ∀ (r₀ r : Registry) (l : List (Registry × RegistryLabel × Registry)),
      Boot r₀ → registrySystem.Path r₀ l r → ∀ t ∈ l, IdsUsable t := by
  obtain ⟨l, r, p, hidle, hcount⟩ := create_destroy_run (2 ^ 31 - 1) (by decide)
  obtain ⟨hinv, hids⟩ := ids_path boot_bootRegistry p
  have hover : (barriercreate r 1 (some 0)).1 = -2147483648 :=
    create_overflow hids (Int.le_refl 1) (by omega)
  refine ⟨⟨l, r, p, hidle, hover, ?_, fun r' => ⟨fun hst => ?_, fun hst => ?_⟩⟩, fun hall => ?_⟩
  · rw [barriercreate_some (Int.le_refl 1)]
    exact congrArg (0 :: ·) hidle.list
  · cases hst with
    | lookupWait hpos _ => exact absurd hpos (by decide)
  · cases hst with
    | lookupDestroy hpos _ => exact absurd hpos (by decide)
  · have hcreate : RegistryStep r (.create 1 (some 0)) (barriercreate r 1 (some 0)).2 :=
      .create fun a _ => hidle.allocated a
    have huse := hall _ _ _ boot_bootRegistry (p.snoc hcreate) _
      (List.mem_append_right _ (List.mem_singleton_self _))
    have hpos := (huse.created 1 0 rfl (Int.le_refl 1)).positive
    rw [show (barriercreate (r, RegistryLabel.create 1 (some 0),
      (barriercreate r 1 (some 0)).2).1 1 (some 0)).1 = -2147483648 from hover] at hpos
    exact absurd hpos (by decide)

end LinuxHacks.Barrier
