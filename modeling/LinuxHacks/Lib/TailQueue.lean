import Mathlib.Data.List.Nodup
import Mathlib.Logic.Function.Basic
import Mathlib.Tactic

/-!
# Singly linked queues with a pointer to the tail slot

The queue of C programs that append through `T **tail`: `head` points to the
first cell, each cell has a `next` pointer, and `tail` addresses the slot where
the next cell is to be stored: the head pointer itself while the queue is
empty, the last cell's `next` afterwards.

`TailQueue.Represents q l` says that the cells reachable from `head` are `l`, in
this order, and that `tail` addresses the right slot. The rules: `enqueue`
appends a fresh cell, `dequeue` removes the first, and writes to cells outside
the queue do not disturb it.
-/

namespace LinuxHacks.Lib

universe u

/-- What a tail pointer can address. -/
inductive Slot (α : Type u) where
  | head
  | next (a : α)
deriving DecidableEq, Repr

/-- Head pointer, tail pointer, and the `next` field of every cell. -/
structure TailQueue (α : Type u) where
  head : Option α
  next : α → Option α
  tail : Slot α

namespace TailQueue

variable {α : Type u}

def empty : TailQueue α := ⟨none, fun _ => none, .head⟩

/-- `head = head->next`, and `tail = &head` if that empties the queue. -/
def dequeue (q : TailQueue α) : TailQueue α :=
  match q.head with
  | none => q
  | some a =>
      { q with
        head := q.next a
        tail := if q.next a = none then .head else q.tail }

/-- The cells from a pointer on. -/
inductive Chain (next : α → Option α) : Option α → List α → Prop
  | nil : Chain next none []
  | cons {a : α} {l : List α} : Chain next (next a) l → Chain next (some a) (a :: l)

/-- The slot after the cells of `l`. -/
def slotAfter (l : List α) : Slot α :=
  match l.getLast? with
  | none => .head
  | some a => .next a

structure Represents (q : TailQueue α) (l : List α) : Prop where
  chain : Chain q.next q.head l
  nodup : l.Nodup
  tail : q.tail = slotAfter l

theorem represents_empty : Represents (empty : TailQueue α) [] :=
  ⟨.nil, List.nodup_nil, rfl⟩

theorem Represents.head_eq {q : TailQueue α} {l : List α} (h : q.Represents l) :
    q.head = l.head? := by
  have hc := h.chain
  cases l with
  | nil =>
      generalize q.head = p at hc
      cases hc
      rfl
  | cons a l =>
      generalize q.head = p at hc
      cases hc
      rfl

theorem slotAfter_append (l : List α) (a : α) : slotAfter (l ++ [a]) = .next a := by
  simp [slotAfter]

/-- **Dequeue removes the first cell.** -/
theorem Represents.dequeue {q : TailQueue α} {a : α} {l : List α} (h : q.Represents (a :: l)) :
    q.dequeue.Represents l := by
  have hhead : q.head = some a := h.head_eq
  have hchain : Chain q.next (q.next a) l := by
    have hc := h.chain
    rw [hhead] at hc
    cases hc with
    | cons hc => exact hc
  have hq : q.dequeue =
      { q with head := q.next a, tail := if q.next a = none then .head else q.tail } := by
    rw [TailQueue.dequeue, hhead]
  rw [hq]
  refine ⟨hchain, (List.nodup_cons.mp h.nodup).2, ?_⟩
  cases l with
  | nil =>
      generalize q.next a = p at hchain ⊢
      cases hchain
      rfl
  | cons b l =>
      have hne : q.next a ≠ none := by
        intro hnone
        rw [hnone] at hchain
        cases hchain
      show (if q.next a = none then Slot.head else q.tail) = slotAfter (b :: l)
      rw [if_neg hne, h.tail, slotAfter, slotAfter, List.getLast?_cons_cons]

section Writes

variable [DecidableEq α]

/-- `a->next = NULL` for a cell that is being made. -/
def clearNext (q : TailQueue α) (a : α) : TailQueue α :=
  { q with next := Function.update q.next a none }

/-- `*tail = a; tail = &a->next`. -/
def enqueue (q : TailQueue α) (a : α) : TailQueue α :=
  match q.tail with
  | .head => { q with head := some a, tail := .next a }
  | .next b => { q with next := Function.update q.next b (some a), tail := .next a }

/-- A write to the `next` field of a cell outside the chain. -/
theorem Chain.update {next : α → Option α} {b : α} {v : Option α} :
    ∀ {l : List α} {p : Option α}, Chain next p l → b ∉ l →
      Chain (Function.update next b v) p l
  | [], _, h, _ => by
      cases h
      exact .nil
  | a :: l, _, h, hb => by
      rw [List.mem_cons, not_or] at hb
      cases h with
      | cons h =>
          refine .cons ?_
          rw [Function.update_of_ne (Ne.symm hb.1)]
          exact Chain.update h hb.2

/-- Linking a fresh cell behind the last one. -/
theorem Chain.link {next : α → Option α} {a b : α} (hnext : next a = none) :
    ∀ {l : List α} {p : Option α}, Chain next p (l ++ [b]) → (l ++ [b]).Nodup →
      a ∉ l ++ [b] → Chain (Function.update next b (some a)) p (l ++ [b] ++ [a])
  | [], _, h, _, ha => by
      cases h with
      | cons _ =>
          have hab : a ≠ b := by simpa using ha
          refine .cons ?_
          rw [Function.update_self]
          refine .cons ?_
          rw [Function.update_of_ne hab, hnext]
          exact .nil
  | c :: l, _, h, hnd, ha => by
      cases h with
      | cons h =>
          have hcb : c ≠ b := by
            rintro rfl
            exact (List.nodup_cons.mp hnd).1 (by simp)
          refine .cons ?_
          rw [Function.update_of_ne hcb]
          exact Chain.link hnext h (List.nodup_cons.mp hnd).2
            (fun h => ha (List.mem_cons_of_mem _ h))

theorem Represents.clearNext {q : TailQueue α} {l : List α} (h : q.Represents l) {a : α}
    (ha : a ∉ l) : (q.clearNext a).Represents l :=
  ⟨h.chain.update ha, h.nodup, h.tail⟩

/-- **Enqueue appends.** -/
theorem Represents.enqueue {q : TailQueue α} {l : List α} (h : q.Represents l) {a : α}
    (ha : a ∉ l) (hnext : q.next a = none) : (q.enqueue a).Represents (l ++ [a]) := by
  have hnd : (l ++ [a]).Nodup := List.nodup_append.mpr
    ⟨h.nodup, List.nodup_singleton a, fun x hx y hy hxy =>
      ha (by rw [List.mem_singleton.mp hy] at hxy; exact hxy ▸ hx)⟩
  rcases List.eq_nil_or_concat l with rfl | ⟨l', b, rfl⟩
  · have htail : q.tail = .head := h.tail
    have hq : q.enqueue a = { q with head := some a, tail := .next a } := by
      rw [TailQueue.enqueue, htail]
    rw [hq]
    refine ⟨.cons ?_, hnd, rfl⟩
    rw [show ({ q with head := some a, tail := .next a } : TailQueue α).next = q.next from rfl,
      hnext]
    exact .nil
  · rw [List.concat_eq_append] at *
    have htail : q.tail = .next b := by rw [h.tail, slotAfter_append]
    have hq : q.enqueue a =
        { q with next := Function.update q.next b (some a), tail := .next a } := by
      rw [TailQueue.enqueue, htail]
    rw [hq]
    exact ⟨Chain.link hnext h.chain h.nodup ha, hnd, (slotAfter_append _ _).symm⟩

/-- Appending writes no `next` field outside the queue. -/
theorem Represents.enqueue_next {q : TailQueue α} {l : List α} (h : q.Represents l) {a b : α}
    (hb : b ∉ l) : (q.enqueue a).next b = q.next b := by
  rcases List.eq_nil_or_concat l with rfl | ⟨l', c, rfl⟩
  · have htail : q.tail = .head := h.tail
    rw [TailQueue.enqueue, htail]
  · rw [List.concat_eq_append] at *
    have htail : q.tail = .next c := by rw [h.tail, slotAfter_append]
    have hbc : b ≠ c := by
      rintro rfl
      exact hb (by simp)
    rw [TailQueue.enqueue, htail]
    exact Function.update_of_ne hbc _ _

end Writes

@[simp] theorem dequeue_next (q : TailQueue α) : q.dequeue.next = q.next := by
  cases hq : q.head <;> simp [dequeue, hq]

end TailQueue

end LinuxHacks.Lib
