import LinuxHacks.Lib.Placement
import LinuxHacks.Uwrr.Model

/-!
# Which queue a task is in

`loc` reads off the tasks where each one is: nowhere, or in one queue of one
array. `Holds` says that the arrays are exactly that, `Counted` that the
counters of the runqueue and the list of users are.

Both are stated for an arbitrary placement, because the source takes a task off
its queue before it changes `array` and `prio`: between `dequeue_task` and
`enqueue_task` the fields of the task say something else than the queues.
-/

namespace LinuxHacks.Uwrr

open LinuxHacks.Lib
open LinuxHacks.Lib.Placement

abbrev Loc := TaskId → Option (ArrayRef × Int)

def loc (task : TaskId → Task) : Loc :=
  fun p => (task p).array.map fun r => (r, (task p).prio)

/-- The array belongs to a user. -/
def ArrayRef.isUser : ArrayRef → Prop
  | .rq _ => False
  | .user _ => True

instance (r : ArrayRef) : Decidable r.isUser :=
  match r with
  | .rq _ => .isFalse id
  | .user _ => .isTrue trivial

theorem loc_update (task : TaskId → Task) (p : TaskId) (t : Task) :
    loc (Function.update task p t) =
      Function.update (loc task) p (t.array.map fun r => (r, t.prio)) := by
  funext q
  by_cases hq : q = p
  · rw [hq]
    simp only [loc, Function.update_self]
  · simp only [loc, Function.update_of_ne hq]

/-- A task that stays where it is. -/
theorem loc_update_same {task : TaskId → Task} {p : TaskId} {t : Task}
    (harray : t.array = (task p).array) (hprio : t.array ≠ none → t.prio = (task p).prio) :
    loc (Function.update task p t) = loc task := by
  rw [loc_update]
  funext q
  by_cases hq : q = p
  · rw [hq, Function.update_self]
    cases ht : t.array with
    | none => rw [loc, ← harray, ht]; rfl
    | some r =>
        have hpr : t.prio = (task p).prio := hprio (by rw [ht]; simp)
        rw [loc, ← harray, ht, hpr]
  · rw [Function.update_of_ne hq]

theorem loc_eq_some {task : TaskId → Task} {p : TaskId} {r : ArrayRef} {k : Int} :
    loc task p = some (r, k) ↔ (task p).array = some r ∧ (task p).prio = k := by
  cases h : (task p).array with
  | none => simp [loc, h]
  | some r' => simp [loc, h]

theorem loc_eq_none {task : TaskId → Task} {p : TaskId} :
    loc task p = none ↔ (task p).array = none := by
  simp [loc]

/-! ## The arrays -/

structure Holds (arrays : ArrayRef → PrioArray) (l : Loc) : Prop where
  nodup : ∀ r k, ((arrays r).queue k).Nodup
  mem : ∀ r k p, p ∈ (arrays r).queue k ↔ l p = some (r, k)
  bitmap : ∀ r k, (arrays r).bitmap k = true ↔ (arrays r).queue k ≠ []
  finitary : Finitary l
  nrActive : ∀ r, (arrays r).nrActive = count l (fun b => b.1 = r)

/-- One array changes, and with it the place of one task. -/
theorem Holds.update {arrays : ArrayRef → PrioArray} {l : Loc} (h : Holds arrays l) {p : TaskId}
    {r : ArrayRef} {n : Int} {b : Int → Bool} {q : Int → List TaskId}
    {o : Option (ArrayRef × Int)}
    (hnodup : ∀ k, (q k).Nodup)
    (hmem : ∀ k x, x ∈ q k ↔ Function.update l p o x = some (r, k))
    (hbitmap : ∀ k, b k = true ↔ q k ≠ [])
    (hnr : n = count (Function.update l p o) (fun b => b.1 = r))
    (hother : ∀ r' k, r' ≠ r → l p ≠ some (r', k) ∧ o ≠ some (r', k)) :
    Holds (Function.update arrays r ⟨n, b, q⟩) (Function.update l p o) where
  nodup := by
    intro r' k
    by_cases hr : r' = r
    · rw [hr, Function.update_self]
      exact hnodup k
    · rw [Function.update_of_ne hr]
      exact h.nodup r' k
  mem := by
    intro r' k x
    by_cases hr : r' = r
    · rw [hr, Function.update_self]
      exact hmem k x
    · rw [Function.update_of_ne hr, h.mem]
      by_cases hx : x = p
      · rw [hx, Function.update_self]
        obtain ⟨hl, ho⟩ := hother r' k hr
        exact ⟨fun e => absurd e hl, fun e => absurd e ho⟩
      · rw [Function.update_of_ne hx]
  bitmap := by
    intro r' k
    by_cases hr : r' = r
    · rw [hr, Function.update_self]
      exact hbitmap k
    · rw [Function.update_of_ne hr]
      exact h.bitmap r' k
  finitary := h.finitary.update p o
  nrActive := by
    intro r'
    by_cases hr : r' = r
    · rw [hr, Function.update_self]
      exact hnr
    · rw [Function.update_of_ne hr, h.nrActive, count, count]
      congr 2
      ext x
      by_cases hx : x = p
      · rw [hx, mem_items, mem_items, Function.update_self]
        constructor
        · rintro ⟨⟨_, k⟩, hb, rfl⟩
          exact absurd hb (hother _ k hr).1
        · rintro ⟨⟨_, k⟩, hb, rfl⟩
          exact absurd hb (hother _ k hr).2
      · rw [mem_items, mem_items, Function.update_of_ne hx]

theorem some_ne_of_ne {r r' : ArrayRef} (hr : r' ≠ r) (k k' : Int) :
    some (r, k) ≠ some (r', k') := by
  intro e
  cases e
  exact hr rfl

/-- The other queues of the array do not hold the task. -/
theorem Holds.erase_other {arrays : ArrayRef → PrioArray} {l : Loc} (h : Holds arrays l)
    {p : TaskId} {r : ArrayRef} {i k : Int} (hp : l p = some (r, i)) (hk : k ≠ i) :
    ((arrays r).queue k).erase p = (arrays r).queue k := by
  refine List.erase_of_not_mem ?_
  rw [h.mem, hp]
  intro e
  cases e
  exact hk rfl

theorem dequeueTask_arrays (s : State) (p : TaskId) (r : ArrayRef) :
    (dequeueTask s p r).arrays = Function.update s.arrays r
      ⟨(s.arrays r).nrActive - 1,
        if ((s.arrays r).queue (s.task p).prio).erase p = [] then
          Function.update (s.arrays r).bitmap (s.task p).prio false else (s.arrays r).bitmap,
        fun k => ((s.arrays r).queue k).erase p⟩ := by
  by_cases hempty : ((s.arrays r).queue (s.task p).prio).erase p = []
  · simp [dequeueTask, State.modArray, PrioArray.listDel, hempty]
  · simp [dequeueTask, State.modArray, PrioArray.listDel, hempty]

theorem Holds.dequeue {s : State} {l : Loc} (h : Holds s.arrays l) {p : TaskId} {r : ArrayRef}
    (hp : l p = some (r, (s.task p).prio)) :
    Holds (dequeueTask s p r).arrays (Function.update l p none) := by
  rw [dequeueTask_arrays]
  refine h.update ?_ ?_ ?_ ?_ ?_
  · intro k
    exact (h.nodup r k).erase p
  · intro k x
    rw [(h.nodup r k).mem_erase_iff, h.mem]
    by_cases hx : x = p
    · rw [hx, Function.update_self]
      exact ⟨fun e => absurd rfl e.1, fun e => (by cases e)⟩
    · rw [Function.update_of_ne hx]
      exact ⟨fun e => e.2, fun e => ⟨hx, e⟩⟩
  · intro k
    by_cases hk : k = (s.task p).prio
    · -- the bit is cleared exactly when the queue got empty
      rw [hk]
      by_cases hempty : ((s.arrays r).queue (s.task p).prio).erase p = []
      · rw [if_pos hempty, Function.update_self]
        exact ⟨fun e => (by cases e), fun e => absurd hempty e⟩
      · rw [if_neg hempty]
        refine ⟨fun _ => hempty, fun _ => (h.bitmap r _).mpr ?_⟩
        exact List.ne_nil_of_mem ((h.mem _ _ _).mpr hp)
    · rw [h.erase_other hp hk, ← h.bitmap r k]
      split
      · rw [Function.update_of_ne hk]
      · rfl
  · rw [h.nrActive, count_remove h.finitary hp (fun b => b.1 = r), if_pos rfl]
    push_cast
    omega
  · intro r' k hr
    rw [hp]
    exact ⟨some_ne_of_ne hr _ k, fun e => (by cases e)⟩

theorem Holds.enqueue {s : State} {l : Loc} (h : Holds s.arrays l) {p : TaskId} (hp : l p = none)
    (r : ArrayRef) :
    Holds (enqueueTask s p r).arrays (Function.update l p (some (r, (s.task p).prio))) := by
  have hnot : ∀ k, p ∉ (s.arrays r).queue k := by
    intro k hmem
    rw [h.mem, hp] at hmem
    cases hmem
  refine h.update ?_ ?_ ?_ ?_ ?_
  · intro k
    by_cases hk : k = (s.task p).prio
    · rw [hk, Function.update_self]
      exact List.Nodup.append (h.nodup r _) (List.nodup_singleton p)
        (List.disjoint_singleton.mpr (hnot _))
    · rw [Function.update_of_ne hk]
      exact h.nodup r k
  · intro k x
    by_cases hk : k = (s.task p).prio
    · rw [hk, Function.update_self, List.mem_append, List.mem_singleton, h.mem]
      by_cases hx : x = p
      · rw [hx, Function.update_self]
        exact ⟨fun _ => rfl, fun _ => Or.inr rfl⟩
      · rw [Function.update_of_ne hx]
        exact ⟨fun e => e.resolve_right hx, Or.inl⟩
    · rw [Function.update_of_ne hk, h.mem]
      by_cases hx : x = p
      · rw [hx, Function.update_self, hp]
        refine ⟨fun e => (by cases e), ?_⟩
        intro e
        cases e
        exact absurd rfl hk
      · rw [Function.update_of_ne hx]
  · intro k
    by_cases hk : k = (s.task p).prio
    · rw [hk, Function.update_self, Function.update_self]
      exact ⟨fun _ => List.append_ne_nil_of_right_ne_nil _ (List.cons_ne_nil _ _), fun _ => rfl⟩
    · rw [Function.update_of_ne hk, Function.update_of_ne hk]
      exact h.bitmap r k
  · rw [count_put h.finitary hp (fun b => b.1 = r), if_pos rfl, h.nrActive]
    push_cast
    rfl
  · intro r' k hr
    rw [hp]
    exact ⟨fun e => (by cases e), some_ne_of_ne hr _ k⟩

theorem Holds.requeue {s : State} {l : Loc} (h : Holds s.arrays l) {p : TaskId} {r : ArrayRef}
    (hp : l p = some (r, (s.task p).prio)) : Holds (requeueTask s p r).arrays l := by
  have hin : p ∈ (s.arrays r).queue (s.task p).prio := (h.mem _ _ _).mpr hp
  have hl : Function.update l p (some (r, (s.task p).prio)) = l := by
    rw [← hp, Function.update_eq_self]
  rw [← hl]
  refine h.update (b := (s.arrays r).bitmap) ?_ ?_ ?_ ?_ ?_
  · intro k
    by_cases hk : k = (s.task p).prio
    · rw [hk, Function.update_self]
      exact List.Nodup.append ((h.nodup r _).erase p) (List.nodup_singleton p)
        (List.disjoint_singleton.mpr (h.nodup r _).not_mem_erase)
    · rw [Function.update_of_ne hk]
      exact (h.nodup r k).erase p
  · intro k x
    rw [hl, ← h.mem r k x]
    by_cases hk : k = (s.task p).prio
    · rw [hk, Function.update_self, List.mem_append, List.mem_singleton]
      show x ∈ ((s.arrays r).queue (s.task p).prio).erase p ∨ x = p ↔ _
      rw [(h.nodup r _).mem_erase_iff]
      by_cases hx : x = p
      · rw [hx]
        exact ⟨fun _ => hin, fun _ => Or.inr rfl⟩
      · exact ⟨fun e => (e.resolve_right hx).2, fun e => Or.inl ⟨hx, e⟩⟩
    · rw [Function.update_of_ne hk]
      show x ∈ ((s.arrays r).queue k).erase p ↔ _
      rw [h.erase_other hp hk]
  · intro k
    rw [h.bitmap r k]
    by_cases hk : k = (s.task p).prio
    · rw [hk, Function.update_self]
      exact ⟨fun _ => List.append_ne_nil_of_right_ne_nil _ (List.cons_ne_nil _ _),
        fun _ => List.ne_nil_of_mem hin⟩
    · rw [Function.update_of_ne hk]
      show _ ↔ ((s.arrays r).queue k).erase p ≠ []
      rw [h.erase_other hp hk]
  · rw [hl, ← h.nrActive r]
    rfl
  · intro r' k hr
    rw [hp]
    exact ⟨some_ne_of_ne hr _ k, some_ne_of_ne hr _ k⟩

theorem mem_insertBefore {p q x : TaskId} {l : List TaskId} :
    x ∈ insertBefore p q l ↔ x ∈ l ∨ (x = p ∧ q ∈ l) := by
  induction l with
  | nil => simp [insertBefore]
  | cons y l ih =>
      rw [insertBefore]
      by_cases hy : y = q
      · rw [if_pos hy, List.mem_cons, hy]
        simp only [List.mem_cons, true_or, and_true]
        exact or_comm
      · rw [if_neg hy, List.mem_cons, ih, List.mem_cons, List.mem_cons]
        constructor
        · rintro (hx | hx | ⟨hx, hq⟩)
          · exact Or.inl (Or.inl hx)
          · exact Or.inl (Or.inr hx)
          · exact Or.inr ⟨hx, Or.inr hq⟩
        · rintro ((hx | hx) | ⟨hx, hq | hq⟩)
          · exact Or.inl hx
          · exact Or.inr (Or.inl hx)
          · exact absurd hq.symm hy
          · exact Or.inr (Or.inr ⟨hx, hq⟩)

theorem insertBefore_nodup {p q : TaskId} {l : List TaskId} (hl : l.Nodup) (hp : p ∉ l) :
    (insertBefore p q l).Nodup := by
  induction l with
  | nil => exact List.nodup_nil
  | cons y l ih =>
      obtain ⟨hy, hl⟩ := List.nodup_cons.mp hl
      obtain ⟨hpy, hpl⟩ := List.ne_and_not_mem_of_not_mem_cons hp
      rw [insertBefore]
      split
      · exact List.nodup_cons.mpr ⟨hp, List.nodup_cons.mpr ⟨hy, hl⟩⟩
      · refine List.nodup_cons.mpr ⟨?_, ih hl hpl⟩
        rw [mem_insertBefore]
        rintro (hmem | ⟨heq, _⟩)
        · exact hy hmem
        · exact hpy heq.symm

/-- The queue that holds `q` gets `p` as well. -/
theorem Holds.insertBefore {arrays : ArrayRef → PrioArray} {l : Loc} (h : Holds arrays l)
    {p q : TaskId} {r : ArrayRef} {i : Int} (hp : l p = none) (hq : l q = some (r, i)) :
    Holds (Function.update arrays r
        ⟨(arrays r).nrActive + 1, (arrays r).bitmap,
          fun k => Uwrr.insertBefore p q ((arrays r).queue k)⟩)
      (Function.update l p (some (r, i))) := by
  have hnot : ∀ k, p ∉ (arrays r).queue k := by
    intro k hmem
    rw [h.mem, hp] at hmem
    cases hmem
  have hqk : ∀ k, q ∈ (arrays r).queue k ↔ k = i := by
    intro k
    rw [h.mem, hq]
    constructor
    · intro e
      cases e
      rfl
    · rintro rfl
      rfl
  refine h.update ?_ ?_ ?_ ?_ ?_
  · intro k
    exact insertBefore_nodup (h.nodup r k) (hnot k)
  · intro k x
    rw [mem_insertBefore, hqk, h.mem]
    by_cases hx : x = p
    · rw [hx, Function.update_self, hp]
      constructor
      · rintro (e | ⟨_, rfl⟩)
        · cases e
        · rfl
      · intro e
        cases e
        exact Or.inr ⟨rfl, rfl⟩
    · rw [Function.update_of_ne hx]
      exact ⟨fun e => e.resolve_right fun e => hx e.1, Or.inl⟩
  · intro k
    rw [h.bitmap r k]
    constructor
    · intro hne
      obtain ⟨x, hx⟩ := List.exists_mem_of_ne_nil _ hne
      exact List.ne_nil_of_mem (mem_insertBefore.mpr (Or.inl hx))
    · intro hne
      obtain ⟨x, hx⟩ := List.exists_mem_of_ne_nil _ hne
      rcases mem_insertBefore.mp hx with hx | ⟨_, hx⟩
      · exact List.ne_nil_of_mem hx
      · exact List.ne_nil_of_mem hx
  · rw [count_put h.finitary hp (fun b => b.1 = r), if_pos rfl, h.nrActive]
    push_cast
    rfl
  · intro r' k hr
    rw [hp]
    exact ⟨fun e => (by cases e), some_ne_of_ne hr _ k⟩

theorem Holds.nrActive_eq_zero {arrays : ArrayRef → PrioArray} {l : Loc} (h : Holds arrays l)
    {r : ArrayRef} : (arrays r).nrActive = 0 ↔ ∀ p k, l p ≠ some (r, k) := by
  rw [h.nrActive, Nat.cast_eq_zero, ← Nat.le_zero, ← not_lt, count_pos_iff h.finitary]
  constructor
  · intro hno p k hp
    exact hno ⟨p, _, hp, rfl⟩
  · rintro hno ⟨p, ⟨_, k⟩, hp, rfl⟩
    exact hno p k hp

/-! ## The counters -/

structure Counts (nrRunning uwrrRunning : Int) (l : Loc) : Prop where
  nrRunning : nrRunning = count l (fun _ => True)
  uwrrRunning : uwrrRunning = count l (fun b => b.1.isUser)

theorem Counts.remove {n w : Int} {l : Loc} (h : Counts n w l) (hl : Finitary l) {p : TaskId}
    {r : ArrayRef} {k : Int} (hp : l p = some (r, k)) :
    Counts (n - 1) (w - if r.isUser then 1 else 0) (Function.update l p none) where
  nrRunning := by
    rw [h.nrRunning, count_remove hl hp (fun _ => True), if_pos trivial]
    push_cast
    omega
  uwrrRunning := by
    rw [h.uwrrRunning, count_remove hl hp (fun b => b.1.isUser)]
    push_cast
    omega

theorem Counts.insert {n w : Int} {l : Loc} (h : Counts n w l) (hl : Finitary l) {p : TaskId}
    (hp : l p = none) (r : ArrayRef) (k : Int) :
    Counts (n + 1) (w + if r.isUser then 1 else 0) (Function.update l p (some (r, k))) where
  nrRunning := by
    rw [h.nrRunning, count_put hl hp (fun _ => True), if_pos trivial]
    push_cast
    rfl
  uwrrRunning := by
    rw [h.uwrrRunning, count_put hl hp (fun b => b.1.isUser)]
    push_cast
    rfl

/-- Both arrays belong to the same user, or both to the runqueue. -/
def SameKind (r r' : ArrayRef) : Prop := ∀ u, r = .user u ↔ r' = .user u

theorem SameKind.rq (i j : Bool) : SameKind (.rq i) (.rq j) :=
  fun u => ⟨fun e => (by cases e), fun e => (by cases e)⟩

theorem SameKind.isUser {r r' : ArrayRef} (h : SameKind r r') : r.isUser ↔ r'.isUser := by
  cases r with
  | rq i =>
      cases r' with
      | rq j => exact Iff.rfl
      | user v => exact absurd ((h v).mpr rfl) (by simp)
  | user u =>
      rw [(h u).mp rfl]

/-- A task that moves between arrays of the same kind. -/
theorem Counts.move {n w : Int} {l : Loc} (h : Counts n w l) (hl : Finitary l) {p : TaskId}
    {r r' : ArrayRef} {k : Int} (hp : l p = some (r, k)) (hr : SameKind r r') (k' : Int) :
    Counts n w (Function.update l p (some (r', k'))) := by
  have hins := (h.remove hl hp).insert (hl.update p none) (Function.update_self ..) r' k'
  rw [Function.update_idem, sub_add_cancel] at hins
  by_cases hu : r.isUser
  · rwa [if_pos hu, if_pos (hr.isUser.mp hu), sub_add_cancel] at hins
  · rwa [if_neg hu, if_neg (fun e => hu (hr.isUser.mpr e)), sub_zero, add_zero] at hins

/-! ## The list of users -/

/-- The user has a task in its array. -/
def Occupied (l : Loc) (u : UserId) : Prop := ∃ p k, l p = some (.user u, k)

structure Linked (userlist : List UserId) (l : Loc) : Prop where
  nodup : userlist.Nodup
  mem : ∀ u, u ∈ userlist ↔ Occupied l u

theorem occupied_iff_count {l : Loc} (hl : Finitary l) {u : UserId} :
    Occupied l u ↔ 0 < count l (fun b => b.1 = .user u) := by
  rw [count_pos_iff hl]
  constructor
  · rintro ⟨p, k, hp⟩
    exact ⟨p, _, hp, rfl⟩
  · rintro ⟨p, ⟨_, k⟩, hp, rfl⟩
    exact ⟨p, k, hp⟩

theorem occupied_put {l : Loc} {p : TaskId} (hp : l p = none) (r : ArrayRef) (k : Int)
    (u : UserId) :
    Occupied (Function.update l p (some (r, k))) u ↔ Occupied l u ∨ r = .user u := by
  constructor
  · rintro ⟨q, i, hq⟩
    by_cases hqp : q = p
    · rw [hqp, Function.update_self] at hq
      cases hq
      exact Or.inr rfl
    · rw [Function.update_of_ne hqp] at hq
      exact Or.inl ⟨q, i, hq⟩
  · rintro (⟨q, i, hq⟩ | rfl)
    · refine ⟨q, i, ?_⟩
      have hqp : q ≠ p := by
        rintro rfl
        rw [hp] at hq
        cases hq
      rw [Function.update_of_ne hqp]
      exact hq
    · exact ⟨p, k, Function.update_self ..⟩

theorem occupied_remove_other {l : Loc} {p : TaskId} {r : ArrayRef} {k : Int}
    (hp : l p = some (r, k)) {u : UserId} (hr : r ≠ .user u) :
    Occupied (Function.update l p none) u ↔ Occupied l u := by
  have hput := occupied_put (Function.update_self p none l) r k u
  rw [Function.update_idem, ← hp, Function.update_eq_self] at hput
  rw [hput]
  exact ⟨Or.inl, fun e => e.resolve_right hr⟩

theorem occupied_move {l : Loc} {p : TaskId} {r r' : ArrayRef} {k : Int}
    (hp : l p = some (r, k)) (hr : SameKind r r') (k' : Int) (u : UserId) :
    Occupied (Function.update l p (some (r', k'))) u ↔ Occupied l u := by
  have hput := occupied_put (Function.update_self p none l) r' k' u
  have hback := occupied_put (Function.update_self p none l) r k u
  rw [Function.update_idem] at hput
  rw [Function.update_idem, ← hp, Function.update_eq_self] at hback
  rw [hput, hback, hr u]

/-- The last task of a user leaves. -/
theorem occupied_remove_self {l : Loc} (hl : Finitary l) {p : TaskId} {u : UserId} {k : Int}
    (hp : l p = some (.user u, k)) :
    Occupied (Function.update l p none) u ↔ count l (fun b => b.1 = .user u) ≠ 1 := by
  have hrem := count_remove hl hp (fun b => b.1 = .user u)
  rw [if_pos rfl] at hrem
  rw [occupied_iff_count (hl.update p none), hrem]
  omega

theorem Linked.of_iff {userlist : List UserId} {l l' : Loc} (h : Linked userlist l)
    (hiff : ∀ u, Occupied l' u ↔ Occupied l u) : Linked userlist l' :=
  ⟨h.nodup, fun u => (h.mem u).trans (hiff u).symm⟩

/-- `deactivate_task`: the user is unlinked with its last task. -/
theorem Linked.remove {userlist : List UserId} {l : Loc} (h : Linked userlist l)
    (hl : Finitary l) {p : TaskId} {u : UserId} {k : Int} (hp : l p = some (.user u, k)) :
    Linked (if (count l (fun b => b.1 = .user u) : Int) = 1 then userlist.erase u else userlist)
      (Function.update l p none) := by
  have hother : ∀ v, v ≠ u → (Occupied (Function.update l p none) v ↔ Occupied l v) := by
    intro v hv
    refine occupied_remove_other hp ?_
    intro e
    cases e
    exact hv rfl
  have hself := occupied_remove_self hl hp
  by_cases hone : (count l (fun b => b.1 = .user u) : Int) = 1
  · rw [if_pos hone]
    refine ⟨h.nodup.erase u, fun v => ?_⟩
    rw [h.nodup.mem_erase_iff]
    by_cases hv : v = u
    · rw [hv, hself]
      exact ⟨fun e => absurd rfl e.1, fun e => absurd (by exact_mod_cast hone) e⟩
    · rw [hother v hv, h.mem]
      exact ⟨fun e => e.2, fun e => ⟨hv, e⟩⟩
  · rw [if_neg hone]
    refine h.of_iff fun v => ?_
    by_cases hv : v = u
    · rw [hv, hself]
      exact ⟨fun _ => ⟨p, k, hp⟩, fun _ e => hone (by exact_mod_cast e)⟩
    · exact hother v hv

/-- `__activate_task`: the user is linked with its first task. -/
theorem Linked.insert {userlist : List UserId} {l : Loc} (h : Linked userlist l) {p : TaskId}
    (hp : l p = none) (u : UserId) (k : Int) :
    Linked (if u ∈ userlist then userlist else userlist ++ [u])
      (Function.update l p (some (.user u, k))) := by
  have hocc : ∀ v, Occupied (Function.update l p (some (.user u, k))) v ↔ v ∈ userlist ∨ v = u := by
    intro v
    rw [occupied_put hp, h.mem, ArrayRef.user.injEq, eq_comm (a := u)]
  split
  · rename_i hu
    refine ⟨h.nodup, fun v => ?_⟩
    rw [hocc]
    exact ⟨Or.inl, fun e => e.elim id fun e => e ▸ hu⟩
  · rename_i hu
    refine ⟨List.Nodup.append h.nodup (List.nodup_singleton u) (List.disjoint_singleton.mpr hu),
      fun v => ?_⟩
    rw [hocc, List.mem_append, List.mem_singleton]

end LinuxHacks.Uwrr
