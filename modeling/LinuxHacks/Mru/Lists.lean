import LinuxHacks.Mru.Model

/-!
# The three-list invariant of a zone

`ZoneInv z`: the flags of a page say which list it is on, and the counters are
the lengths of the lists.

Every locked section comes down to two moves: a page leaves the LRU
(`Zone.leave`) and a page that is not on it enters at the head of the list its
new flags name (`Zone.enter`). The sections that update a counter only at their
end keep the invariant of the zone with that update already made
(`Zone.addNr`).
-/

namespace LinuxHacks.Mru

/-- The list that the flags of a page on the LRU name. -/
def Flags.kind (f : Flags) : ListKind :=
  if f.active then .active else if f.mruvictim then .safety else .inactive

structure ZoneInv (z : Zone) : Prop where
  nodup : ∀ k, (z.list k).Nodup
  mem : ∀ k p, p ∈ z.list k ↔ (z.flags p).lru = true ∧ (z.flags p).kind = k
  notBoth : ∀ p, ¬ ((z.flags p).active = true ∧ (z.flags p).mruvictim = true)
  offLru : ∀ p, (z.flags p).lru = false → (z.flags p).mruvictim = false
  count : ∀ k, z.nr k = (z.list k).length

/-- A zone without pages. -/
def Zone.empty : Zone := ⟨fun _ => [], fun _ => 0, 0, fun _ => ⟨false, false, false, false⟩⟩

theorem ZoneInv.empty : ZoneInv Zone.empty := by
  refine ⟨?_, ?_, ?_, ?_, ?_⟩ <;> simp [Zone.empty]

theorem Flags.kind_active {f : Flags} (h : f.active = true) : f.kind = .active := by
  simp [Flags.kind, h]

theorem Flags.kind_safety {f : Flags} (ha : f.active = false) (hm : f.mruvictim = true) :
    f.kind = .safety := by
  simp [Flags.kind, ha, hm]

theorem Flags.kind_inactive {f : Flags} (ha : f.active = false) (hm : f.mruvictim = false) :
    f.kind = .inactive := by
  simp [Flags.kind, ha, hm]

/-! ## The two moves -/

/-- `p` leaves the LRU with flags `f`. -/
def Zone.leave (z : Zone) (p : Page) (f : Flags) : Zone :=
  ((z.listDel p).addNr (z.flags p).kind (-1)).setFlags p f

/-- `p` enters the LRU at the head of the list its flags `f` name. -/
def Zone.enter (z : Zone) (p : Page) (f : Flags) : Zone :=
  ((z.listAdd f.kind p).addNr f.kind 1).setFlags p f

section Moves

variable {z : Zone} {p : Page} {f : Flags}

theorem ZoneInv.leave (h : ZoneInv z) (hp : (z.flags p).lru = true) (hlru : f.lru = false)
    (hmru : f.mruvictim = false) : ZoneInv (z.leave p f) where
  nodup := fun k => (h.nodup k).erase p
  mem := by
    intro k q
    show q ∈ (z.list k).erase p ↔
      (Function.update z.flags p f q).lru = true ∧ (Function.update z.flags p f q).kind = k
    rw [(h.nodup k).mem_erase_iff]
    by_cases hq : q = p
    · simp [hq, hlru]
    · rw [Function.update_of_ne hq, ← h.mem k q]
      simp [hq]
  notBoth := by
    intro q
    show ¬ ((Function.update z.flags p f q).active = true ∧
      (Function.update z.flags p f q).mruvictim = true)
    by_cases hq : q = p
    · simp [hq, hmru]
    · rw [Function.update_of_ne hq]
      exact h.notBoth q
  offLru := by
    intro q hq
    change (Function.update z.flags p f q).lru = false at hq
    show (Function.update z.flags p f q).mruvictim = false
    by_cases hqp : q = p
    · simp [hqp, hmru]
    · rw [Function.update_of_ne hqp] at hq ⊢
      exact h.offLru q hq
  count := by
    intro k
    show Function.update z.nr (z.flags p).kind (z.nr (z.flags p).kind + -1) k =
      (((z.list k).erase p).length : Int)
    by_cases hk : k = (z.flags p).kind
    · have hmem : p ∈ z.list k := (h.mem k p).mpr ⟨hp, hk.symm⟩
      have hpos := List.length_pos_of_mem hmem
      rw [← hk, Function.update_self, h.count k, List.length_erase_of_mem hmem]
      omega
    · have hmem : p ∉ z.list k := fun hm => hk ((h.mem k p).mp hm).2.symm
      rw [Function.update_of_ne hk, h.count k, List.erase_of_not_mem hmem]

theorem ZoneInv.enter (h : ZoneInv z) (hp : (z.flags p).lru = false) (hlru : f.lru = true)
    (hboth : ¬ (f.active = true ∧ f.mruvictim = true)) : ZoneInv (z.enter p f) := by
  have hnot : ∀ k, p ∉ z.list k := by
    intro k hk
    rw [((h.mem k p).mp hk).1] at hp
    cases hp
  refine ⟨?_, ?_, ?_, ?_, ?_⟩
  · intro k
    show (Function.update z.list f.kind (p :: z.list f.kind) k).Nodup
    by_cases hk : k = f.kind
    · rw [hk, Function.update_self]
      exact List.nodup_cons.mpr ⟨hnot _, h.nodup _⟩
    · rw [Function.update_of_ne hk]
      exact h.nodup k
  · intro k q
    show q ∈ Function.update z.list f.kind (p :: z.list f.kind) k ↔
      (Function.update z.flags p f q).lru = true ∧ (Function.update z.flags p f q).kind = k
    by_cases hk : k = f.kind
    · rw [hk, Function.update_self, List.mem_cons]
      by_cases hq : q = p
      · simp [hq, hlru]
      · rw [Function.update_of_ne hq, ← h.mem f.kind q]
        simp [hq]
    · rw [Function.update_of_ne hk]
      by_cases hq : q = p
      · rw [hq, Function.update_self]
        exact ⟨fun hm => absurd hm (hnot k), fun hm => absurd hm.2.symm hk⟩
      · rw [Function.update_of_ne hq]
        exact h.mem k q
  · intro q
    show ¬ ((Function.update z.flags p f q).active = true ∧
      (Function.update z.flags p f q).mruvictim = true)
    by_cases hq : q = p
    · rw [hq, Function.update_self]
      exact hboth
    · rw [Function.update_of_ne hq]
      exact h.notBoth q
  · intro q hq
    change (Function.update z.flags p f q).lru = false at hq
    show (Function.update z.flags p f q).mruvictim = false
    by_cases hqp : q = p
    · rw [hqp, Function.update_self, hlru] at hq
      cases hq
    · rw [Function.update_of_ne hqp] at hq ⊢
      exact h.offLru q hq
  · intro k
    show Function.update z.nr f.kind (z.nr f.kind + 1) k =
      ((Function.update z.list f.kind (p :: z.list f.kind) k).length : Int)
    by_cases hk : k = f.kind
    · rw [hk, Function.update_self, Function.update_self, h.count, List.length_cons]
      push_cast
      ring
    · rw [Function.update_of_ne hk, Function.update_of_ne hk]
      exact h.count k

/-- Reordering the lists keeps the invariant. -/
theorem ZoneInv.perm {z' : Zone} (h : ZoneInv z) (hlist : ∀ k, (z'.list k).Perm (z.list k))
    (hnr : z'.nr = z.nr) (hflags : z'.flags = z.flags) : ZoneInv z' where
  nodup := fun k => (hlist k).nodup_iff.mpr (h.nodup k)
  mem := fun k p => by rw [(hlist k).mem_iff, hflags]; exact h.mem k p
  notBoth := by rw [hflags]; exact h.notBoth
  offLru := by rw [hflags]; exact h.offLru
  count := fun k => by rw [hnr, (hlist k).length_eq]; exact h.count k

/-- Only the list a page is on loses it. -/
theorem ZoneInv.listDel_perm (h : ZoneInv z) {k : ListKind} (hp : p ∈ z.list k) {l : List Page}
    (hl : l.Perm (p :: (z.list k).erase p)) (j : ListKind) :
    (Function.update (z.listDel p).list k l j).Perm (z.list j) := by
  by_cases hj : j = k
  · rw [hj, Function.update_self]
    exact hl.trans (List.perm_cons_erase hp).symm
  · have hnot : p ∉ z.list j := by
      intro hm
      exact hj (((h.mem j p).mp hm).2.symm.trans ((h.mem k p).mp hp).2)
    rw [Function.update_of_ne hj]
    show ((z.list j).erase p).Perm (z.list j)
    rw [List.erase_of_not_mem hnot]

/-- New flags for a page that stays where it is: `PG_lru` and `PG_mruvictim` as
before, and `PG_active` too unless the page is isolated. -/
theorem ZoneInv.reflag (h : ZoneInv z) (hlru : f.lru = (z.flags p).lru)
    (hmru : f.mruvictim = (z.flags p).mruvictim)
    (hact : f.active = (z.flags p).active ∨ (z.flags p).lru = false) :
    ZoneInv (z.setFlags p f) := by
  have hself : (z.setFlags p f).flags p = f := Function.update_self ..
  have hother : ∀ q, q ≠ p → (z.setFlags p f).flags q = z.flags q :=
    fun q hq => Function.update_of_ne hq _ _
  refine ⟨h.nodup, ?_, ?_, ?_, h.count⟩
  · intro k q
    by_cases hq : q = p
    · rw [hq, hself]
      show p ∈ z.list k ↔ _
      rw [h.mem k p, hlru]
      refine and_congr_right (fun hp => ?_)
      rcases hact with hact | hoff
      · rw [Flags.kind, Flags.kind, hact, hmru]
      · rw [hoff] at hp
        cases hp
    · rw [hother q hq]
      exact h.mem k q
  · intro q
    by_cases hq : q = p
    · rw [hq, hself, hmru]
      rcases hact with hact | hoff
      · rw [hact]
        exact h.notBoth p
      · rw [h.offLru p hoff]
        simp
    · rw [hother q hq]
      exact h.notBoth q
  · intro q hq
    by_cases hqp : q = p
    · rw [hqp, hself] at hq ⊢
      rw [hmru]
      exact h.offLru p (hlru.symm.trans hq)
    · rw [hother q hqp] at hq ⊢
      exact h.offLru q hq

end Moves

end LinuxHacks.Mru
