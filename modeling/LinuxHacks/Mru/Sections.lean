import LinuxHacks.Mru.Lists

/-!
# The locked sections keep the three-list invariant

One lemma per section: it reaches no `BUG`, keeps `ZoneInv`, and says what
became of the flags of the pages. `LruMove` is the case of a section that
touches pages on the LRU only.
-/

namespace LinuxHacks.Mru

open Zone

/-- Pages off the LRU are left alone, and a page taken off it is inactive. -/
structure LruMove (z z' : Zone) : Prop where
  off : ∀ p, (z.flags p).lru = false →
    (z'.flags p).lru = false ∧ (z'.flags p).active = (z.flags p).active
  left : ∀ p, (z.flags p).lru = true → (z'.flags p).lru = false → (z'.flags p).active = false

theorem LruMove.refl (z : Zone) : LruMove z z :=
  ⟨fun _ h => ⟨h, rfl⟩, fun p h h' => by rw [h] at h'; cases h'⟩

theorem LruMove.trans {z₁ z₂ z₃ : Zone} (h₁ : LruMove z₁ z₂) (h₂ : LruMove z₂ z₃) :
    LruMove z₁ z₃ where
  off := by
    intro p hp
    obtain ⟨hoff, hact⟩ := h₁.off p hp
    obtain ⟨hoff', hact'⟩ := h₂.off p hoff
    exact ⟨hoff', hact'.trans hact⟩
  left := by
    intro p hp hp'
    cases hmid : (z₂.flags p).lru with
    | true => exact h₂.left p hmid hp'
    | false => exact (h₂.off p hmid).2.trans (h₁.left p hp hmid)

/-- One page of the LRU gets new flags. -/
theorem LruMove.one {z z' : Zone} {p : Page} (hp : (z.flags p).lru = true)
    (hother : ∀ q, q ≠ p → z'.flags q = z.flags q)
    (hself : (z'.flags p).lru = true ∨ (z'.flags p).active = false) : LruMove z z' where
  off := by
    intro q hq
    have hqp : q ≠ p := by
      rintro rfl
      rw [hp] at hq
      cases hq
    rw [hother q hqp]
    exact ⟨hq, rfl⟩
  left := by
    intro q hq hq'
    by_cases hqp : q = p
    · rw [hqp] at hq' ⊢
      rcases hself with hself | hself
      · rw [hself] at hq'
        cases hq'
      · exact hself
    · rw [hother q hqp, hq] at hq'
      cases hq'

/-- A page of the LRU goes to the head of the list its new flags name. -/
def Zone.move (z : Zone) (p : Page) (f : Flags) : Zone :=
  (z.leave p { z.flags p with lru := false, mruvictim := false }).enter p f

theorem ZoneInv.move {z : Zone} {p : Page} {f : Flags} (h : ZoneInv z)
    (hp : (z.flags p).lru = true) (hlru : f.lru = true)
    (hboth : ¬ (f.active = true ∧ f.mruvictim = true)) :
    ZoneInv (z.move p f) ∧ LruMove z (z.move p f) := by
  refine ⟨(h.leave hp rfl rfl).enter ?_ hlru hboth, LruMove.one hp ?_ (Or.inl ?_)⟩
  · show (Function.update z.flags p _ p).lru = false
    rw [Function.update_self]
  · intro q hq
    show Function.update (Function.update z.flags p _) p _ q = _
    rw [Function.update_of_ne hq, Function.update_of_ne hq]
  · show (Function.update (Function.update z.flags p _) p _ p).lru = true
    rw [Function.update_self]
    exact hlru

section Sections

variable {z : Zone} {p : Page}

/-! ## `swap.c` -/

/-- `PG_active` replaces `PG_mruvictim`. -/
def activatedFlags (f : Flags) : Flags := { f with active := true, mruvictim := false }

theorem activatePage_eq (hp : (z.flags p).lru = true) (ha : (z.flags p).active = false) :
    z.activatePage p = z.move p (activatedFlags (z.flags p)) := by
  have hkind : (activatedFlags (z.flags p)).kind = .active := Flags.kind_active rfl
  rw [activatePage, if_pos (by simp [hp, ha]), move, enter, hkind]
  cases hm : (z.flags p).mruvictim with
  | true =>
      rw [if_pos rfl, leave, Flags.kind_safety ha hm]
      ext1 <;> simp [delPageFromSafetyList, addPageToActiveList, setActive, setMruvictim,
        setFlags, listDel, listAdd, addNr, activatedFlags]
  | false =>
      rw [if_neg (by simp), leave, Flags.kind_inactive ha hm]
      ext1 <;> simp [delPageFromInactiveList, addPageToActiveList, setActive, setFlags,
        listDel, listAdd, addNr, activatedFlags, hm]

theorem ZoneInv.activatePage (h : ZoneInv z) (p : Page) :
    ZoneInv (z.activatePage p) ∧ LruMove z (z.activatePage p) := by
  by_cases hc : (z.flags p).lru = true ∧ (z.flags p).active = false
  · obtain ⟨hp, ha⟩ := hc
    rw [activatePage_eq hp ha]
    exact h.move hp hp (by simp [activatedFlags])
  · have heq : z.activatePage p = z := by
      rw [Zone.activatePage, if_neg]
      simpa using hc
    rw [heq]
    exact ⟨h, LruMove.refl z⟩

theorem ZoneInv.rotatePage (h : ZoneInv z) (p : Page) :
    ZoneInv (z.rotatePage p) ∧ LruMove z (z.rotatePage p) := by
  have hmove : ∀ k, (z.flags p).lru = true → (z.flags p).kind = k →
      ZoneInv ((z.listDel p).listAddTail k p) ∧ LruMove z ((z.listDel p).listAddTail k p) := by
    intro k hp hk
    refine ⟨h.perm (h.listDel_perm ((h.mem k p).mpr ⟨hp, hk⟩) ?_) rfl rfl, ?_⟩
    · exact List.perm_append_singleton p _
    · exact ⟨fun _ hq => ⟨hq, rfl⟩, fun q hq hq' => by
        change (z.flags q).lru = false at hq'
        rw [hq] at hq'
        cases hq'⟩
  unfold Zone.rotatePage
  by_cases hc : (z.flags p).lru = true ∧ (z.flags p).active = false
  · obtain ⟨hp, ha⟩ := hc
    rw [if_pos (by simp [hp, ha])]
    cases hm : (z.flags p).mruvictim with
    | true => exact hmove .safety hp (Flags.kind_safety ha hm)
    | false => exact hmove .inactive hp (Flags.kind_inactive ha hm)
  · rw [if_neg (by simpa using hc)]
    exact ⟨h, LruMove.refl z⟩

theorem releasePage_eq (hp : (z.flags p).lru = true)
    (hboth : ¬ ((z.flags p).active = true ∧ (z.flags p).mruvictim = true)) :
    z.releasePage p =
      z.leave p { z.flags p with lru := false, active := false, mruvictim := false } := by
  have hself : (z.setLru p false).flags p = { z.flags p with lru := false } :=
    Function.update_self ..
  rw [releasePage, if_pos hp, delPageFromLru, leave, hself]
  cases ha : (z.flags p).active with
  | true =>
      have hm : (z.flags p).mruvictim = false := by simpa [ha] using hboth
      rw [if_pos (by simp), Flags.kind_active ha]
      ext1 <;> simp [setLru, setActive, setFlags, listDel, addNr, hm]
  | false =>
      rw [if_neg (by simp)]
      cases hm : (z.flags p).mruvictim with
      | true =>
          rw [if_pos (by simp), Flags.kind_safety ha hm]
          ext1 <;> simp [setLru, setMruvictim, setFlags, listDel, addNr, ha]
      | false =>
          rw [if_neg (by simp), Flags.kind_inactive ha hm]
          ext1 <;> simp [setLru, setFlags, listDel, addNr, ha, hm]

theorem ZoneInv.releasePage (h : ZoneInv z) (p : Page) :
    ZoneInv (z.releasePage p) ∧ LruMove z (z.releasePage p) := by
  cases hp : (z.flags p).lru with
  | true =>
      rw [releasePage_eq hp (h.notBoth p)]
      refine ⟨h.leave hp rfl rfl, LruMove.one hp ?_ (Or.inr ?_)⟩
      · exact fun q hq => Function.update_of_ne hq _ _
      · show (Function.update z.flags p _ p).active = false
        rw [Function.update_self]
  | false =>
      have heq : z.releasePage p = z := by rw [Zone.releasePage, if_neg (by simp [hp])]
      rw [heq]
      exact ⟨h, LruMove.refl z⟩

/-- The pages `ps` came onto the LRU, all others are as before. -/
structure Entered (z z' : Zone) (ps : List Page) : Prop where
  on : ∀ p ∈ ps, (z'.flags p).lru = true
  other : ∀ p, p ∉ ps → z'.flags p = z.flags p

theorem Entered.nil (z : Zone) : Entered z z [] := ⟨by simp, fun _ _ => rfl⟩

theorem Entered.cons {z z₁ z' : Zone} {p : Page} {ps : List Page}
    (hp : (z₁.flags p).lru = true) (hother : ∀ q, q ≠ p → z₁.flags q = z.flags q)
    (h : Entered z₁ z' ps) : Entered z z' (p :: ps) where
  on := by
    intro q hq
    by_cases hps : q ∈ ps
    · exact h.on q hps
    · rcases List.mem_cons.mp hq with rfl | hq
      · rw [h.other q hps]
        exact hp
      · exact absurd hq hps
  other := by
    intro q hq
    rw [List.mem_cons, not_or] at hq
    rw [h.other q hq.2, hother q hq.1]

/-- One iteration of a loop that puts the pages `p :: ps` on the LRU: what was
known of the flags of `ps` still holds. -/
theorem ZoneInv.enterNext {f : Flags} {ps : List Page} {P : Flags → Prop} (h : ZoneInv z)
    (hp : (z.flags p).lru = false) (hlru : f.lru = true)
    (hboth : ¬ (f.active = true ∧ f.mruvictim = true)) (hnot : p ∉ ps)
    (hps : ∀ q ∈ ps, P (z.flags q)) :
    ZoneInv (z.enter p f) ∧ (∀ q ∈ ps, P ((z.enter p f).flags q)) ∧
      ∀ z' done, Entered (z.enter p f) z' done → Entered z z' (p :: done) := by
  have hother : ∀ q, q ≠ p → (z.enter p f).flags q = z.flags q :=
    fun q hq => Function.update_of_ne hq _ _
  refine ⟨h.enter hp hlru hboth, ?_, ?_⟩
  · intro q hq
    have hqp : q ≠ p := by
      rintro rfl
      exact hnot hq
    rw [hother q hqp]
    exact hps q hq
  · intro z' done hent
    refine Entered.cons ?_ hother hent
    show (Function.update z.flags p f p).lru = true
    rw [Function.update_self, hlru]

theorem ZoneInv.pagevecLruAdd : ∀ {ps : List Page} {z : Zone}, ZoneInv z → ps.Nodup →
    (∀ p ∈ ps, (z.flags p).lru = false ∧ (z.flags p).active = false) →
    ∃ z', z.pagevecLruAdd ps = some z' ∧ ZoneInv z' ∧ Entered z z' ps
  | [], z, h, _, _ => ⟨z, rfl, h, Entered.nil z⟩
  | p :: ps, z, h, hnd, hnew => by
      obtain ⟨hlru, hact⟩ := hnew p List.mem_cons_self
      obtain ⟨hnot, hnd'⟩ := List.nodup_cons.mp hnd
      have hkind : Flags.kind { z.flags p with lru := true } = .inactive :=
        Flags.kind_inactive hact (h.offLru p hlru)
      have heq : (z.setLru p true).addPageToInactiveList p =
          z.enter p { z.flags p with lru := true } := by
        rw [Zone.enter, hkind]
        rfl
      obtain ⟨hinv, hrest, hcons⟩ := h.enterNext (f := { z.flags p with lru := true })
        (P := fun f => f.lru = false ∧ f.active = false) hlru rfl (by simp [hact]) hnot
        (fun q hq => hnew q (List.mem_cons_of_mem _ hq))
      obtain ⟨z', hz', hinv', hent⟩ := ZoneInv.pagevecLruAdd hinv hnd' hrest
      refine ⟨z', ?_, hinv', hcons z' ps hent⟩
      rw [Zone.pagevecLruAdd, if_neg (by simp [hlru]), heq, hz']

theorem ZoneInv.pagevecLruAddActive : ∀ {ps : List Page} {z : Zone}, ZoneInv z → ps.Nodup →
    (∀ p ∈ ps, (z.flags p).lru = false ∧ (z.flags p).active = false) →
    ∃ z', z.pagevecLruAddActive ps = some z' ∧ ZoneInv z' ∧ Entered z z' ps
  | [], z, h, _, _ => ⟨z, rfl, h, Entered.nil z⟩
  | p :: ps, z, h, hnd, hnew => by
      obtain ⟨hlru, hact⟩ := hnew p List.mem_cons_self
      obtain ⟨hnot, hnd'⟩ := List.nodup_cons.mp hnd
      have hmru := h.offLru p hlru
      have heq : ((z.setLru p true).setActive p true).addPageToActiveList p =
          z.enter p { z.flags p with lru := true, active := true } := by
        rw [Zone.enter, Flags.kind_active rfl]
        ext1 <;> simp [setLru, setActive, setFlags, addPageToActiveList, listAdd, addNr]
      obtain ⟨hinv, hrest, hcons⟩ := h.enterNext
        (f := { z.flags p with lru := true, active := true })
        (P := fun f => f.lru = false ∧ f.active = false) hlru rfl (by simp [hmru]) hnot
        (fun q hq => hnew q (List.mem_cons_of_mem _ hq))
      obtain ⟨z', hz', hinv', hent⟩ := ZoneInv.pagevecLruAddActive hinv hnd' hrest
      refine ⟨z', ?_, hinv', hcons z' ps hent⟩
      rw [Zone.pagevecLruAddActive, if_neg (by simp [hlru]), if_neg (by simp [hact]),
        if_neg (by simp [hmru]), heq, hz']

/-! ## Putting pages back -/

theorem ZoneInv.putBackLoop (pagevecSize : Nat) : ∀ {l : List Page} {z : Zone} (nr : Nat),
    ZoneInv z → l.Nodup → (∀ p ∈ l, (z.flags p).lru = false) →
    ∃ z' done rest nr', z.putBackLoop pagevecSize l nr = some (z', rest, nr') ∧
      l = done ++ rest ∧ ZoneInv z' ∧ Entered z z' done
  | [], z, nr, h, _, _ => ⟨z, [], [], nr, rfl, rfl, h, Entered.nil z⟩
  | p :: l, z, nr, h, hnd, hoff => by
      have hlru := hoff p List.mem_cons_self
      have hmru := h.offLru p hlru
      obtain ⟨hnot, hnd'⟩ := List.nodup_cons.mp hnd
      have hself : (z.setLru p true).flags p = { z.flags p with lru := true } :=
        Function.update_self ..
      have heq : (if ((z.setLru p true).flags p).active then
            (z.setLru p true).addPageToActiveList p
          else (z.setLru p true).addPageToInactiveList p) =
          z.enter p { z.flags p with lru := true } := by
        rw [hself, Zone.enter]
        by_cases hact : (z.flags p).active = true
        · have hkind : Flags.kind { z.flags p with lru := true } = .active :=
            Flags.kind_active hact
          rw [if_pos hact, hkind]
          rfl
        · have hkind : Flags.kind { z.flags p with lru := true } = .inactive :=
            Flags.kind_inactive (by simpa using hact) hmru
          rw [if_neg hact, hkind]
          rfl
      obtain ⟨hinv, hrest, hcons⟩ := h.enterNext (f := { z.flags p with lru := true })
        (P := fun f => f.lru = false) hlru rfl (by simp [hmru]) hnot
        (fun q hq => hoff q (List.mem_cons_of_mem _ hq))
      by_cases hfull : pagevecSize ≤ nr + 1
      · refine ⟨_, [p], l, 0, ?_, rfl, hinv, hcons _ [] (Entered.nil _)⟩
        rw [Zone.putBackLoop, if_neg (by simp [hlru])]
        simp only [heq, if_pos hfull]
      · obtain ⟨z', done, rest, nr', hz', hl, hinv', hent⟩ :=
          ZoneInv.putBackLoop pagevecSize (nr + 1) hinv hnd' hrest
        refine ⟨z', p :: done, rest, nr', ?_, by simp [hl], hinv', hcons z' done hent⟩
        rw [Zone.putBackLoop, if_neg (by simp [hlru])]
        simp only [heq, if_neg hfull]
        exact hz'

theorem addNr_zero (z : Zone) (k : ListKind) : z.addNr k 0 = z := by
  ext1 <;> simp [addNr]

/-- The pages moved so far are on their list but not yet in its counter. -/
theorem ZoneInv.refillLoop {k : ListKind} (hk : k ≠ .safety) (pagevecSize : Nat) :
    ∀ {l : List Page} {z : Zone} (nr pgmoved : Nat), ZoneInv (z.addNr k pgmoved) → l.Nodup →
      (∀ p ∈ l, (z.flags p).lru = false ∧ (z.flags p).active = true) →
      ∃ z' done rest nr' pgmoved',
        z.refillLoop k pagevecSize l nr pgmoved = some (z', rest, nr', pgmoved') ∧
        l = done ++ rest ∧ ZoneInv (z'.addNr k pgmoved') ∧ Entered z z' done
  | [], z, nr, pgmoved, h, _, _ => ⟨z, [], [], nr, pgmoved, rfl, rfl, h, Entered.nil z⟩
  | p :: l, z, nr, pgmoved, h, hnd, hoff => by
      obtain ⟨hlru, hact⟩ := hoff p List.mem_cons_self
      have hmru : (z.flags p).mruvictim = false := h.offLru p hlru
      obtain ⟨hnot, hnd'⟩ := List.nodup_cons.mp hnd
      obtain ⟨f, hf⟩ : ∃ f : Flags,
          f = { z.flags p with lru := true, active := decide (k = .active) } := ⟨_, rfl⟩
      have hkind : f.kind = k := by
        rw [hf]
        cases k with
        | active => exact Flags.kind_active rfl
        | inactive => exact Flags.kind_inactive rfl hmru
        | safety => exact absurd rfl hk
      obtain ⟨z₁, hz₁⟩ : ∃ z₁, z₁ =
          ((z.setLru p true).setActive p (decide (k = .active))).listAdd k p := ⟨_, rfl⟩
      have hsame : z₁.flags = ((z.addNr k pgmoved).enter p f).flags := by
        rw [hz₁, hf]
        simp [setLru, setActive, setFlags, listAdd, Zone.enter, addNr]
      have heq : z₁.addNr k (pgmoved + 1 : Nat) = (z.addNr k pgmoved).enter p f := by
        rw [Zone.enter, hkind, hz₁, hf]
        ext1 <;> simp [setLru, setActive, setFlags, listAdd, addNr, add_assoc]
      obtain ⟨hinv, hrest, hcons⟩ := h.enterNext (f := f)
        (P := fun f => f.lru = false ∧ f.active = true) hlru (by rw [hf]) (by simp [hf, hmru])
        hnot (fun q hq => hoff q (List.mem_cons_of_mem _ hq))
      rw [← heq] at hinv
      have hent₁ : ∀ z' done, Entered z₁ z' done → Entered z z' (p :: done) := by
        intro z' done hent
        have hent' := hcons z' done ⟨hent.on, fun q hq => by rw [hent.other q hq, hsame]⟩
        exact ⟨hent'.on, hent'.other⟩
      have hloop : z.refillLoop k pagevecSize (p :: l) nr pgmoved =
          if pagevecSize ≤ nr + 1 then some (z₁, l, 0, pgmoved + 1)
          else z₁.refillLoop k pagevecSize l (nr + 1) (pgmoved + 1) := by
        rw [Zone.refillLoop, if_neg (by simp [hlru]), if_neg (by simp [hact]), hz₁]
      rw [hloop]
      by_cases hfull : pagevecSize ≤ nr + 1
      · rw [if_pos hfull]
        exact ⟨z₁, [p], l, 0, pgmoved + 1, rfl, rfl, hinv, hent₁ _ [] (Entered.nil _)⟩
      · rw [if_neg hfull]
        obtain ⟨z', done, rest, nr', pgmoved', hz', hl, hinv', hent⟩ :=
          ZoneInv.refillLoop hk pagevecSize (nr + 1) (pgmoved + 1) hinv hnd'
            (by rw [hsame]; exact hrest)
        exact ⟨z', p :: done, rest, nr', pgmoved', hz', by simp [hl], hinv', hent₁ z' done hent⟩

theorem ZoneInv.refillSection {k : ListKind} (hk : k ≠ .safety) (pagevecSize : Nat)
    {l : List Page} (nr : Nat) (h : ZoneInv z) (hnd : l.Nodup)
    (hoff : ∀ p ∈ l, (z.flags p).lru = false ∧ (z.flags p).active = true) :
    ∃ z' done rest nr', z.refillSection k pagevecSize l nr = some (z', rest, nr') ∧
      l = done ++ rest ∧ ZoneInv z' ∧ Entered z z' done := by
  have h₀ : ZoneInv (z.addNr k ((0 : Nat) : Int)) := by
    rw [Nat.cast_zero, addNr_zero]
    exact h
  obtain ⟨z', done, rest, nr', pgmoved, hz', hl, hinv, hent⟩ :=
    ZoneInv.refillLoop hk pagevecSize nr 0 h₀ hnd hoff
  refine ⟨z'.addNr k pgmoved, done, rest, nr', ?_, hl, hinv, ⟨hent.on, hent.other⟩⟩
  rw [Zone.refillSection, hz']
  rfl

/-! ## `scan_active_for_mru` -/

/-- `PG_mruvictim` replaces `PG_active`. -/
def victimFlags (f : Flags) : Flags := { f with active := false, mruvictim := true }

/-- What an iteration of the scan does with an active page. -/
theorem victim_move (hkind : (z.flags p).kind = .active) :
    ((z.delPageFromActiveList p).setActive p false).addPageToSafetyList p =
      z.move p (victimFlags (z.flags p)) := by
  have hkindF : (victimFlags (z.flags p)).kind = .safety := Flags.kind_safety rfl rfl
  rw [Zone.move, Zone.enter, hkindF, Zone.leave, hkind]
  ext1 <;> simp [delPageFromActiveList, addPageToSafetyList, setActive, setMruvictim,
    setFlags, listDel, listAdd, addNr, victimFlags]

theorem scanLoop_cons {listSizeTarget n : Nat} {l : List Page} (hl : z.list .active = p :: l)
    (hc : z.nr .safety < listSizeTarget ∧ 0 < z.nr .active) (hkind : (z.flags p).kind = .active) :
    z.scanLoop listSizeTarget (n + 1) =
      (z.move p (victimFlags (z.flags p))).scanLoop listSizeTarget n := by
  rw [Zone.scanLoop, if_pos hc]
  simp only [hl]
  rw [victim_move hkind]

theorem ZoneInv.scanLoop (listSizeTarget : Nat) : ∀ (n : Nat) {z : Zone}, ZoneInv z →
    ∃ z', z.scanLoop listSizeTarget n = some z' ∧ ZoneInv z' ∧ LruMove z z'
  | 0, z, h => ⟨z, rfl, h, LruMove.refl z⟩
  | n + 1, z, h => by
      by_cases hc : z.nr .safety < listSizeTarget ∧ 0 < z.nr .active
      · cases hl : z.list .active with
        | nil =>
            have hcount := h.count .active
            rw [hl] at hcount
            exact absurd hc.2 (by simp [hcount])
        | cons p l =>
            have hmem : p ∈ z.list .active := by rw [hl]; exact List.mem_cons_self
            obtain ⟨hlru, hkind⟩ := (h.mem .active p).mp hmem
            obtain ⟨hinv, hmove⟩ := h.move (f := victimFlags (z.flags p)) hlru hlru
              (by simp [victimFlags])
            obtain ⟨z', hz', hinv', hmove'⟩ := ZoneInv.scanLoop listSizeTarget n hinv
            exact ⟨z', by rw [scanLoop_cons hl hc hkind, hz'], hinv', hmove.trans hmove'⟩
      · refine ⟨z, ?_, h, LruMove.refl z⟩
        rw [Zone.scanLoop, if_neg hc]

theorem ZoneInv.scanActiveForMru (h : ZoneInv z) (nrToScan swapClusterMax : Nat) :
    ∃ z' n, z.scanActiveForMru nrToScan swapClusterMax = some (z', n) ∧ ZoneInv z' ∧
      LruMove z z' := by
  obtain ⟨z', hz', hinv, hmove⟩ :=
    h.scanLoop (nrToScan + swapClusterMax) (z.nr .active).toNat
  rw [Zone.scanActiveForMru, hz']
  exact ⟨z', _, rfl, hinv, hmove⟩

/-! ## Isolating pages -/

/-- The flags of a page isolated from list `k`. -/
def isolatedFlags (k : ListKind) (f : Flags) : Flags :=
  { f with lru := false, mruvictim := if k = .safety then false else f.mruvictim }

/-- The pages `ps` of list `k` were taken off the LRU. -/
structure Taken (k : ListKind) (z z' : Zone) (ps : List Page) : Prop where
  nodup : ps.Nodup
  came : ∀ p ∈ ps, (z.flags p).lru = true ∧ (z.flags p).kind = k
  flags : ∀ p ∈ ps, z'.flags p = isolatedFlags k (z.flags p)
  other : ∀ p, p ∉ ps → z'.flags p = z.flags p

theorem Taken.nil (k : ListKind) (z : Zone) : Taken k z z [] :=
  ⟨List.nodup_nil, by simp, by simp, fun _ _ => rfl⟩

theorem Taken.snoc {k : ListKind} {z z₁ z₂ : Zone} {ps : List Page} {p : Page}
    (h : Taken k z z₁ ps) (hlru : (z₁.flags p).lru = true) (hkind : (z₁.flags p).kind = k)
    (hself : z₂.flags p = isolatedFlags k (z₁.flags p))
    (hother : ∀ q, q ≠ p → z₂.flags q = z₁.flags q) : Taken k z z₂ (ps ++ [p]) := by
  have hnot : p ∉ ps := by
    intro hp
    rw [h.flags p hp] at hlru
    cases hlru
  have hp : z₁.flags p = z.flags p := h.other p hnot
  have hne : ∀ q ∈ ps, q ≠ p := by
    rintro q hq rfl
    exact hnot hq
  refine ⟨?_, ?_, ?_, ?_⟩
  · exact List.nodup_append.mpr ⟨h.nodup, List.nodup_singleton p, fun a ha b hb hab =>
      hne a ha (hab.trans (List.mem_singleton.mp hb))⟩
  · intro q hq
    rcases List.mem_append.mp hq with hq | hq
    · exact h.came q hq
    · rw [List.mem_singleton.mp hq, ← hp]
      exact ⟨hlru, hkind⟩
  · intro q hq
    rcases List.mem_append.mp hq with hq | hq
    · rw [hother q (hne q hq)]
      exact h.flags q hq
    · rw [List.mem_singleton.mp hq, hself, hp]
  · intro q hq
    rw [List.mem_append, List.mem_singleton, not_or] at hq
    rw [hother q hq.2, h.other q hq.1]

/-- The zone after the first half of an iteration, `p` off its list. -/
def Zone.takeOff (z : Zone) (k : ListKind) (p : Page) : Zone :=
  { z with
    list := fun j => (z.list j).erase p
    flags := Function.update z.flags p (isolatedFlags k (z.flags p)) }

/-- One iteration: the page is taken, or goes to the head of its list. -/
theorem isolateLoop_succ {k : ListKind} {testone : Nat → Bool} {n : Nat} {r : Isolation}
    {p : Page} (hlast : (r.zone.list k).getLast? = some p)
    (hlru : (r.zone.flags p).lru = true) (hkind : (r.zone.flags p).kind = k) :
    isolateLoop k testone (n + 1) r =
      if testone n then
        isolateLoop k testone n
          ⟨(r.zone.listDel p).listAdd k p, r.taken, r.scanned + 1⟩
      else isolateLoop k testone n ⟨r.zone.takeOff k p, r.taken ++ [p], r.scanned + 1⟩ := by
  obtain ⟨z, taken, scanned⟩ := r
  change (z.flags p).lru = true at hlru
  change (z.flags p).kind = k at hkind
  rw [isolateLoop]
  simp only [hlast]
  rw [if_neg (by simp [hlru])]
  have hoff : (if k = .safety then ((z.setLru p false).listDel p).setMruvictim p false
      else (z.setLru p false).listDel p) = z.takeOff k p := by
    split
    · ext1 <;> simp_all [setLru, setMruvictim, setFlags, listDel, takeOff, isolatedFlags]
    · ext1 <;> simp_all [setLru, setFlags, listDel, takeOff, isolatedFlags]
  have hon : (if k = .safety then (((z.takeOff k p).setLru p true).listAdd k p).setMruvictim p true
      else ((z.takeOff k p).setLru p true).listAdd k p) = (z.listDel p).listAdd k p := by
    have hmru : k = .safety → (z.flags p).mruvictim = true := by
      intro hk
      rw [hk] at hkind
      revert hkind
      rw [Flags.kind]
      cases (z.flags p).active <;> cases (z.flags p).mruvictim <;> simp
    have hflags : ∀ f : Flags, f = z.flags p → Function.update z.flags p f = z.flags := by
      rintro f rfl
      exact Function.update_eq_self p z.flags
    split
    case isTrue hk =>
        have hm := hmru hk
        ext1
        · simp [setLru, setMruvictim, setFlags, listDel, listAdd, takeOff]
        · rfl
        · rfl
        · simp only [setLru, setMruvictim, setFlags, listDel, listAdd, takeOff,
            Function.update_idem, Function.update_self]
          refine hflags _ ?_
          rw [isolatedFlags]
          cases hf : z.flags p
          simp_all
    case isFalse hk =>
        ext1
        · simp [setLru, setFlags, listDel, listAdd, takeOff]
        · rfl
        · rfl
        · simp only [setLru, setFlags, listDel, listAdd, takeOff, Function.update_idem,
            Function.update_self]
          refine hflags _ ?_
          rw [isolatedFlags]
          cases hf : z.flags p
          simp_all
  simp only [hoff, hon]

/-- One iteration, with the taken pages off their list but still in its
counter: a page goes to the head of its list, or off it. -/
theorem ZoneInv.isolateStep {k : ListKind} {r : Isolation}
    (h : ZoneInv (r.zone.addNr k (-r.taken.length))) (hmem : p ∈ r.zone.list k) :
    ZoneInv (((r.zone.listDel p).listAdd k p).addNr k (-r.taken.length)) ∧
      ZoneInv ((r.zone.takeOff k p).addNr k (-(r.taken ++ [p]).length)) := by
  obtain ⟨hlru, hkind⟩ : (r.zone.flags p).lru = true ∧ (r.zone.flags p).kind = k :=
    (h.mem k p).mp hmem
  refine ⟨h.perm (h.listDel_perm hmem (List.Perm.refl _)) rfl rfl, ?_⟩
  have heq : (r.zone.takeOff k p).addNr k (-(r.taken ++ [p]).length) =
      (r.zone.addNr k (-r.taken.length)).leave p (isolatedFlags k (r.zone.flags p)) := by
    rw [Zone.leave, show ((r.zone.addNr k (-r.taken.length)).flags p).kind = k from hkind]
    ext1
    · rfl
    · simp only [takeOff, addNr, listDel, setFlags, Function.update_idem,
        Function.update_self, List.length_append, List.length_singleton]
      congr 1
      push_cast
      ring
    · rfl
    · rfl
  have hmru : (isolatedFlags k (r.zone.flags p)).mruvictim = false := by
    rw [isolatedFlags]
    by_cases hk : k = .safety
    · simp [hk]
    · have hm : (r.zone.flags p).mruvictim = false := by
        have hb : ¬ ((r.zone.flags p).active = true ∧
          (r.zone.flags p).mruvictim = true) := h.notBoth p
        rw [Flags.kind] at hkind
        cases ha : (r.zone.flags p).active <;>
          cases hm : (r.zone.flags p).mruvictim <;> simp_all
      simp [hk, hm]
  rw [heq]
  exact h.leave hlru rfl hmru

/-- The taken pages are off their list but still in its counter. -/
theorem ZoneInv.isolateLoop {k : ListKind} (testone : Nat → Bool) {z₀ : Zone} :
    ∀ (n : Nat) {r : Isolation}, ZoneInv (r.zone.addNr k (-r.taken.length)) →
      Taken k z₀ r.zone r.taken →
      ∃ r', isolateLoop k testone n r = some r' ∧
        ZoneInv (r'.zone.addNr k (-r'.taken.length)) ∧ Taken k z₀ r'.zone r'.taken
  | 0, r, h, ht => ⟨r, rfl, h, ht⟩
  | n + 1, r, h, ht => by
      cases hlast : (r.zone.list k).getLast? with
      | none =>
          refine ⟨r, ?_, h, ht⟩
          rw [Zone.isolateLoop]
          simp only [hlast]
      | some p =>
          have hmem : p ∈ r.zone.list k := List.mem_of_getLast? hlast
          obtain ⟨hlru, hkind⟩ : (r.zone.flags p).lru = true ∧ (r.zone.flags p).kind = k :=
            (h.mem k p).mp hmem
          obtain ⟨hback, htake⟩ := h.isolateStep hmem
          rw [isolateLoop_succ hlast hlru hkind]
          cases testone n with
          | true =>
              rw [if_pos rfl]
              exact ZoneInv.isolateLoop testone n hback ⟨ht.nodup, ht.came, ht.flags, ht.other⟩
          | false =>
              rw [if_neg (by simp)]
              refine ZoneInv.isolateLoop testone n htake (ht.snoc hlru hkind ?_ ?_)
              · exact Function.update_self ..
              · exact fun q hq => Function.update_of_ne hq _ _

/-- The loop from the start, with its own zone. -/
theorem ZoneInv.isolateAll (h : ZoneInv z) (k : ListKind) (n : Nat) (testone : Nat → Bool) :
    ∃ r, Zone.isolateLoop k testone n ⟨z, [], 0⟩ = some r ∧
      ZoneInv (r.zone.addNr k (-r.taken.length)) ∧ Taken k z r.zone r.taken := by
  apply ZoneInv.isolateLoop testone (r := ⟨z, [], 0⟩) n _ (Taken.nil k z)
  show ZoneInv (z.addNr k (-(([] : List Page).length : Int)))
  rw [List.length_nil, Nat.cast_zero, neg_zero, addNr_zero]
  exact h

theorem ZoneInv.isolateCache (h : ZoneInv z) (k : ListKind) (swapClusterMax : Nat)
    (testone : Nat → Bool) :
    ∃ r, z.isolateCache k swapClusterMax testone = some r ∧ ZoneInv r.zone ∧
      Taken k z r.zone r.taken := by
  obtain ⟨r, hr, hinv, ht⟩ := h.isolateAll k swapClusterMax testone
  rw [Zone.isolateCache, hr]
  exact ⟨_, rfl, hinv.perm (fun _ => List.Perm.refl _) rfl rfl,
    ⟨ht.nodup, ht.came, ht.flags, ht.other⟩⟩

theorem ZoneInv.isolateActive (h : ZoneInv z) (nrPages : Nat) (testone : Nat → Bool) :
    ∃ r, z.isolateActive nrPages testone = some r ∧ ZoneInv r.zone ∧
      Taken .active z r.zone r.taken := by
  obtain ⟨r, hr, hinv, ht⟩ := h.isolateAll .active nrPages testone
  rw [Zone.isolateActive, hr]
  exact ⟨_, rfl, hinv.perm (fun _ => List.Perm.refl _) rfl rfl,
    ⟨ht.nodup, ht.came, ht.flags, ht.other⟩⟩

end Sections

end LinuxHacks.Mru
