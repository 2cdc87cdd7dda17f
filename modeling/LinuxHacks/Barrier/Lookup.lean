import Mathlib.Tactic
import LinuxHacks.Barrier.Model

/-!
# When the barrier lookup is exact

`_get_barrier_node` keeps one variable for "the node just visited" and "the
node found". When the list runs out without a match the variable still holds
the last node, so a lookup fails only on an empty list. `lookupExact_iff` is the
exact condition; `searchLoop_no_match` is the defect.
-/

namespace LinuxHacks.Barrier

/-! ## The search loop -/

/-- A match anywhere stops the loop at a matching node of the list. -/
theorem searchLoop_match {k : Kernel} {id : Int} : ∀ {l : List Addr} (objPtr : Option Addr),
    (∃ a ∈ l, (k.barrier a).bID = BitVec.ofInt 32 id) →
      ∃ a ∈ l, searchLoop k id l objPtr = some a ∧ (k.barrier a).bID = BitVec.ofInt 32 id
  | [], _, h => by simp at h
  | iter :: rest, _, h => by
      rw [searchLoop]
      by_cases hi : (k.barrier iter).bID = BitVec.ofInt 32 id
      · rw [if_pos hi]
        exact ⟨iter, List.mem_cons_self, rfl, hi⟩
      · rw [if_neg hi]
        have hrest : ∃ a ∈ rest, (k.barrier a).bID = BitVec.ofInt 32 id := by
          obtain ⟨a, ha, hid⟩ := h
          rcases List.mem_cons.mp ha with rfl | ha
          · exact absurd hid hi
          · exact ⟨a, ha, hid⟩
        obtain ⟨a, ha, hs, hid⟩ := searchLoop_match (some iter) hrest
        exact ⟨a, List.mem_cons_of_mem _ ha, hs, hid⟩

/-- Without a match the loop hands out the last node it visited. -/
theorem searchLoop_no_match {k : Kernel} {id : Int} : ∀ {l : List Addr} (objPtr : Option Addr),
    (¬ ∃ a ∈ l, (k.barrier a).bID = BitVec.ofInt 32 id) →
      searchLoop k id l objPtr = l.getLast?.or objPtr
  | [], objPtr, _ => by simp [searchLoop]
  | iter :: rest, _, h => by
      have hi : (k.barrier iter).bID ≠ BitVec.ofInt 32 id :=
        fun hid => h ⟨iter, List.mem_cons_self, hid⟩
      have hrest : ¬ ∃ a ∈ rest, (k.barrier a).bID = BitVec.ofInt 32 id := by
        rintro ⟨a, ha, hid⟩
        exact h ⟨a, List.mem_cons_of_mem _ ha, hid⟩
      rw [searchLoop, if_neg hi, searchLoop_no_match (some iter) hrest]
      cases rest with
      | nil => rfl
      | cons b rest => simp [List.getLast?_cons]

/-! ## Exactness -/

/-- The lookup of one identifier does what its callers rely on: it finds a node
with that identifier whenever one is linked and counts the reference on it
alone; otherwise it finds nothing, and `sys_barrierwait` and
`sys_barrierdestroy` refuse the identifier without touching any barrier. -/
structure LookupExact (k : Kernel) (id : Int) : Prop where
  found : k.Live id → ∃ a ∈ k.barrierList, (k.barrier a).bID = BitVec.ofInt 32 id ∧
    getBarrierNode k id = (some a, k.incRefcount a)
  missing : ¬ k.Live id → getBarrierNode k id = (none, k)
  wait : ¬ k.Live id → barrierwaitEnter k id = (.returned (-EINVAL), k)
  destroy : ¬ k.Live id → barrierdestroyId k id = (-EINVAL, k)

theorem getBarrierNode_live {k : Kernel} {id : Int} (h : k.Live id) :
    ∃ a ∈ k.barrierList, (k.barrier a).bID = BitVec.ofInt 32 id ∧
      getBarrierNode k id = (some a, k.incRefcount a) := by
  obtain ⟨a, ha, hs, hid⟩ := searchLoop_match none h
  exact ⟨a, ha, hid, by rw [getBarrierNode, hs]⟩

theorem getBarrierNode_not_live {k : Kernel} {id : Int} (h : ¬ k.Live id) :
    getBarrierNode k id =
      match k.barrierList.getLast? with
      | some a => (some a, k.incRefcount a)
      | none => (none, k) := by
  have hsearch := searchLoop_no_match none h
  rw [Option.or_none] at hsearch
  cases hlast : k.barrierList.getLast? with
  | none =>
      show getBarrierNode k id = (none, k)
      rw [getBarrierNode, hsearch, hlast]
  | some a =>
      show getBarrierNode k id = (some a, k.incRefcount a)
      rw [getBarrierNode, hsearch, hlast]

/-- **Exactness of the lookup.** It holds for precisely the identifiers that
are live, and, on an empty list, for all. -/
theorem lookupExact_iff (k : Kernel) (id : Int) (hid : 0 ≤ id) :
    LookupExact k id ↔ k.barrierList = [] ∨ k.Live id := by
  constructor
  · intro h
    by_cases hlive : k.Live id
    · exact Or.inr hlive
    · refine Or.inl (List.getLast?_eq_none_iff.mp ?_)
      have hnone := h.missing hlive
      rw [getBarrierNode_not_live hlive] at hnone
      cases hl : k.barrierList.getLast? with
      | none => rfl
      | some a => simp [hl] at hnone
  · rintro (hnil | hlive)
    · have hnot : ¬ k.Live id := by
        rintro ⟨a, ha, -⟩
        rw [hnil] at ha
        cases ha
      have hnone : getBarrierNode k id = (none, k) := by
        rw [getBarrierNode_not_live hnot, hnil]
        rfl
      refine ⟨fun h => absurd h hnot, fun _ => hnone, fun _ => ?_, fun _ => ?_⟩
      · rw [barrierwaitEnter, if_neg (by omega), hnone]
      · rw [barrierdestroyId, if_neg (by omega), hnone]
    · exact ⟨fun _ => getBarrierNode_live hlive, fun h => absurd hlive h,
        fun h => absurd hlive h, fun h => absurd hlive h⟩

/-- Three live barriers of size 4, with the identifiers 3, 2 and 1. -/
def threeBarriers : Kernel := ⟨[2, 1, 0], fun a => BarrierT.create 4 (BitVec.ofNat 32 (a + 1))⟩

/-- The condition is met in the middle of the list: identifier 2 is found. -/
theorem lookupExact_middle : LookupExact threeBarriers 2 :=
  (lookupExact_iff threeBarriers 2 (by decide)).mpr (Or.inr ⟨1, by decide, rfl⟩)

def oneBarrier : Kernel := ⟨[0], fun _ => BarrierT.create 4 1⟩

/-- With barrier 1 alone in the list, identifier 2 is "found": the lookup
returns barrier 1, and destroying 2 unlinks it. -/
theorem lookup_of_dead_id :
    getBarrierNode oneBarrier 2 = (some 0, oneBarrier.incRefcount 0) ∧
    (barrierdestroyId oneBarrier 2).1 = 0 ∧
    (barrierdestroyId oneBarrier 2).2.barrierList = [] ∧
    ((barrierdestroyId oneBarrier 2).2.barrier 0).destroyed = true ∧
    ¬ ∀ (k : Kernel) (id : Int), 0 ≤ id → LookupExact k id := by
  refine ⟨rfl, by decide, by decide, by decide, fun h => ?_⟩
  have hdead : ¬ oneBarrier.Live 2 := by
    rintro ⟨a, -, hid⟩
    exact absurd (show (1 : BitVec 32) = BitVec.ofInt 32 2 from hid) (by decide)
  have hnone := (h oneBarrier 2 (by decide)).missing hdead
  exact absurd (congrArg Prod.fst hnone) (by decide)

end LinuxHacks.Barrier
