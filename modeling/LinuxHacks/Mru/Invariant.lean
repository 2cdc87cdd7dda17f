import LinuxHacks.Mru.Sections

/-!
# The three-list invariant over every run

Besides the zone, the invariant follows the isolated pages: each is off the
LRU, in the private lists of one task only and once, and `PG_active` is as the
code that isolated it expects. A page that is neither on the LRU nor isolated
has `PG_active` clear, so that adding it to a list starts from clean flags.
-/

namespace LinuxHacks.Mru

open LinuxHacks.Lib

/-- What a task relies on about `PG_active` of its isolated pages. -/
def Pc.Roles (flags : Page → Flags) : Pc → Prop
  | .shrinkList _ _ _ pageList _ freedPvec =>
      (∀ p ∈ pageList, (flags p).active = false) ∧ ∀ p ∈ freedPvec, (flags p).active = false
  | .refillSort lHold lInactive lActive =>
      ∀ p ∈ lHold ++ (lInactive ++ lActive), (flags p).active = true
  | .refillInactive _ lInactive lActive => ∀ p ∈ lInactive ++ lActive, (flags p).active = true
  | .refillActive _ lActive => ∀ p ∈ lActive, (flags p).active = true
  | _ => True

theorem Pc.Roles.congr {f g : Page → Flags} {pc : Pc} (h : pc.Roles f)
    (hfg : ∀ p ∈ pc.held, (g p).active = (f p).active) : pc.Roles g := by
  cases pc with
  | shrinkList c maxScan nr pageList retPages freedPvec =>
      refine ⟨fun p hp => ?_, fun p hp => ?_⟩
      · rw [hfg p (List.mem_append_left _ hp)]
        exact h.1 p hp
      · rw [hfg p (List.mem_append_right _ (List.mem_append_right _ hp))]
        exact h.2 p hp
  | refillSort lHold lInactive lActive => exact fun p hp => (hfg p hp).trans (h p hp)
  | refillInactive nr lInactive lActive => exact fun p hp => (hfg p hp).trans (h p hp)
  | refillActive nr lActive => exact fun p hp => (hfg p hp).trans (h p hp)
  | _ => trivial

structure Inv (s : State) : Prop where
  zone : ZoneInv s.zone
  nodup : ∀ t, (s.pc t).held.Nodup
  off : ∀ t, ∀ p ∈ (s.pc t).held, (s.zone.flags p).lru = false
  apart : ∀ t t' p, p ∈ (s.pc t).held → p ∈ (s.pc t').held → t = t'
  roles : ∀ t, (s.pc t).Roles s.zone.flags
  clean : ∀ p, (s.zone.flags p).lru = false → (∀ t, p ∉ (s.pc t).held) →
    (s.zone.flags p).active = false
  noBug : s.bug = false

theorem inv_init : Inv State.init where
  zone := ZoneInv.empty
  nodup := by simp [State.init, Pc.held]
  off := by simp [State.init, Pc.held]
  apart := by simp [State.init, Pc.held]
  roles := by simp [State.init, Pc.Roles]
  clean := by simp [State.init]
  noBug := rfl

section Steps

variable {s : State} {t : Task}

/-- A step of `t` to zone `z` and program counter `pc`: pages it newly holds
come from the LRU, and the pages of other tasks keep `PG_lru` and `PG_active`. -/
theorem Inv.set (h : Inv s) {z : Zone} {pc : Pc} (hz : ZoneInv z) (hnodup : pc.held.Nodup)
    (hoff : ∀ p ∈ pc.held, (z.flags p).lru = false) (hroles : pc.Roles z.flags)
    (hcame : ∀ p ∈ pc.held, p ∈ (s.pc t).held ∨ (s.zone.flags p).lru = true)
    (hothers : ∀ t' p, t' ≠ t → p ∈ (s.pc t').held →
      (z.flags p).lru = false ∧ (z.flags p).active = (s.zone.flags p).active)
    (hclean : ∀ p, (z.flags p).lru = false → p ∉ pc.held → (∀ t', t' ≠ t → p ∉ (s.pc t').held) →
      (z.flags p).active = false) : Inv (s.set t z pc) := by
  have hself : (s.set t z pc).pc t = pc := Function.update_self ..
  have hother : ∀ t', t' ≠ t → (s.set t z pc).pc t' = s.pc t' :=
    fun t' ht => Function.update_of_ne ht _ _
  -- nobody else holds a page of `pc`
  have hmine : ∀ t' p, t' ≠ t → p ∈ (s.pc t').held → p ∉ pc.held := by
    intro t' p ht hp hpc
    rcases hcame p hpc with hold | hlru
    · exact ht (h.apart t' t p hp hold)
    · rw [h.off t' p hp] at hlru
      cases hlru
  refine ⟨hz, ?_, ?_, ?_, ?_, ?_, h.noBug⟩
  · intro t'
    by_cases ht : t' = t
    · rw [ht, hself]
      exact hnodup
    · rw [hother t' ht]
      exact h.nodup t'
  · intro t' p hp
    by_cases ht : t' = t
    · rw [ht, hself] at hp
      exact hoff p hp
    · rw [hother t' ht] at hp
      exact (hothers t' p ht hp).1
  · intro t₁ t₂ p h₁ h₂
    by_cases ht₁ : t₁ = t <;> by_cases ht₂ : t₂ = t
    · rw [ht₁, ht₂]
    · rw [ht₁, hself] at h₁
      rw [hother t₂ ht₂] at h₂
      exact absurd h₁ (hmine t₂ p ht₂ h₂)
    · rw [ht₂, hself] at h₂
      rw [hother t₁ ht₁] at h₁
      exact absurd h₂ (hmine t₁ p ht₁ h₁)
    · rw [hother t₁ ht₁] at h₁
      rw [hother t₂ ht₂] at h₂
      exact h.apart t₁ t₂ p h₁ h₂
  · intro t'
    by_cases ht : t' = t
    · rw [ht, hself]
      exact hroles
    · rw [hother t' ht]
      exact (h.roles t').congr (fun p hp => (hothers t' p ht hp).2)
  · intro p hp hnone
    refine hclean p hp ?_ ?_
    · rw [← hself]
      exact hnone t
    · intro t' ht
      rw [← hother t' ht]
      exact hnone t'

/-- A section that touches pages on the LRU only. -/
theorem Inv.lruMove (h : Inv s) {z : Zone} {pc : Pc} (hz : ZoneInv z) (hmove : LruMove s.zone z)
    (hheld : pc.held.Perm (s.pc t).held) (hroles : pc.Roles s.zone.flags) :
    Inv (s.set t z pc) := by
  have hkeep : ∀ t' p, p ∈ (s.pc t').held →
      (z.flags p).lru = false ∧ (z.flags p).active = (s.zone.flags p).active :=
    fun t' p hp => hmove.off p (h.off t' p hp)
  refine h.set hz (hheld.nodup_iff.mpr (h.nodup t)) ?_ ?_ ?_ ?_ ?_
  · exact fun p hp => (hkeep t p (hheld.mem_iff.mp hp)).1
  · exact hroles.congr (fun p hp => (hkeep t p (hheld.mem_iff.mp hp)).2)
  · exact fun p hp => Or.inl (hheld.mem_iff.mp hp)
  · exact fun t' p _ hp => hkeep t' p hp
  · intro p hp hpc hnone
    cases hlru : (s.zone.flags p).lru with
    | true => exact hmove.left p hlru hp
    | false =>
        rw [(hmove.off p hlru).2]
        refine h.clean p hlru ?_
        intro t' ht'
        by_cases ht : t' = t
        · rw [ht] at ht'
          exact hpc (hheld.mem_iff.mpr ht')
        · exact hnone t' ht ht'

/-- An action outside the lock that changes only where the task stands. -/
theorem Inv.goto (h : Inv s) {pc : Pc} (hheld : pc.held.Perm (s.pc t).held)
    (hroles : pc.Roles s.zone.flags) : Inv (s.set t s.zone pc) :=
  h.lruMove h.zone (LruMove.refl s.zone) hheld hroles

/-- A section of a task that holds nothing before and after. -/
theorem Inv.lruSection (h : Inv s) {z : Zone} {pc : Pc} (hz : ZoneInv z ∧ LruMove s.zone z)
    (hbefore : (s.pc t).held = []) (hafter : pc.held = []) (hroles : pc.Roles s.zone.flags) :
    Inv (s.set t z pc) :=
  h.lruMove hz.1 hz.2 (by rw [hbefore, hafter]) hroles

/-- A section that puts pages on the LRU: pages the task held, or new ones. -/
theorem Inv.entered (h : Inv s) {z : Zone} {pc : Pc} {done : List Page} (hz : ZoneInv z)
    (hent : Entered s.zone z done) (hroles : pc.Roles s.zone.flags)
    (hmine : ∀ p ∈ done, ∀ t', t' ≠ t → p ∉ (s.pc t').held) (hnodup : pc.held.Nodup)
    (hheld : ∀ p, p ∈ pc.held ↔ p ∈ (s.pc t).held ∧ p ∉ done) : Inv (s.set t z pc) := by
  refine h.set hz hnodup ?_ ?_ ?_ ?_ ?_
  · intro p hp
    obtain ⟨hp, hdone⟩ := (hheld p).mp hp
    rw [hent.other p hdone]
    exact h.off t p hp
  · refine hroles.congr (fun p hp => ?_)
    rw [hent.other p ((hheld p).mp hp).2]
  · exact fun p hp => Or.inl ((hheld p).mp hp).1
  · intro t' p ht hp
    have hdone : p ∉ done := fun hdone => hmine p hdone t' ht hp
    rw [hent.other p hdone]
    exact ⟨h.off t' p hp, rfl⟩
  · intro p hp hpc hnone
    have hdone : p ∉ done := by
      intro hdone
      rw [hent.on p hdone] at hp
      cases hp
    rw [hent.other p hdone] at hp ⊢
    refine h.clean p hp ?_
    intro t' ht'
    by_cases ht : t' = t
    · rw [ht] at ht'
      exact hpc ((hheld p).mpr ⟨ht', hdone⟩)
    · exact hnone t' ht ht'

/-- A section that isolates pages, by a task that held none. -/
theorem Inv.taken (h : Inv s) {z : Zone} {pc : Pc} {k : ListKind} {ps : List Page}
    (hz : ZoneInv z) (ht : Taken k s.zone z ps) (hnone : (s.pc t).held = [])
    (hheld : pc.held = ps) (hroles : pc.Roles z.flags) : Inv (s.set t z pc) := by
  have hother : ∀ t' p, p ∈ (s.pc t').held → p ∉ ps := by
    intro t' p hp hps
    have hlru := (ht.came p hps).1
    rw [h.off t' p hp] at hlru
    cases hlru
  refine h.set hz (by rw [hheld]; exact ht.nodup) ?_ hroles ?_ ?_ ?_
  · intro p hp
    rw [hheld] at hp
    rw [ht.flags p hp]
    rfl
  · intro p hp
    rw [hheld] at hp
    exact Or.inr (ht.came p hp).1
  · intro t' p _ hp
    rw [ht.other p (hother t' p hp)]
    exact ⟨h.off t' p hp, rfl⟩
  · intro p hp hpc hothers
    rw [hheld] at hpc
    rw [ht.other p hpc] at hp ⊢
    refine h.clean p hp ?_
    intro t' ht'
    by_cases htt : t' = t
    · rw [htt, hnone] at ht'
      cases ht'
    · exact hothers t' htt ht'

/-! ## `shrink_list` -/

theorem Inv.shrinkPage (h : Inv s) {c : Cache} {maxScan : Int} {nr : Nat} {p : Page}
    {pageList retPages freedPvec : List Page} (outcome : Outcome)
    (hpc : s.pc t = .shrinkList c maxScan nr (p :: pageList) retPages freedPvec) :
    ∃ s', shrinkPage s t c maxScan nr p pageList retPages freedPvec outcome = some s' ∧
      Inv s' := by
  have hroles : (s.pc t).Roles s.zone.flags := h.roles t
  have hheld : p ∈ (s.pc t).held := by rw [hpc]; exact List.mem_cons_self
  rw [hpc] at hroles
  have hlru : (s.zone.flags p).lru = false := h.off t p hheld
  have hact : (s.zone.flags p).active = false := hroles.1 p List.mem_cons_self
  have hrest : ∀ q ∈ pageList, (s.zone.flags q).active = false :=
    fun q hq => hroles.1 q (List.mem_cons_of_mem _ hq)
  have hkeep : (pageList ++ ((retPages ++ [p]) ++ freedPvec)).Perm (s.pc t).held := by
    rw [hpc]
    show List.Perm _ (p :: pageList ++ (retPages ++ freedPvec))
    rw [List.append_assoc, List.cons_append]
    exact (List.perm_append_left_iff _ |>.mpr List.perm_middle).trans List.perm_middle
  cases outcome with
  | locked =>
      rw [Mru.shrinkPage, if_neg (by simp [hlru])]
      refine ⟨_, rfl, h.goto ?_ ?_⟩
      · exact hkeep
      · exact ⟨hrest, hroles.2⟩
  | keep =>
      rw [Mru.shrinkPage, if_neg (by simp [hact]), if_neg (by simp [hlru])]
      refine ⟨_, rfl, h.goto ?_ ?_⟩
      · exact hkeep
      · exact ⟨hrest, hroles.2⟩
  | activate =>
      rw [Mru.shrinkPage, if_neg (by simp [hact]), if_neg (by simp [hlru])]
      refine ⟨_, rfl, ?_⟩
      have hself : ((s.zone.setActive p true).flags p).lru = false := by
        show (Function.update s.zone.flags p _ p).lru = false
        rw [Function.update_self]
        exact hlru
      have hother : ∀ q, q ≠ p → (s.zone.setActive p true).flags q = s.zone.flags q :=
        fun q hq => Function.update_of_ne hq _ _
      have hoff : ∀ q ∈ (s.pc t).held, ((s.zone.setActive p true).flags q).lru = false := by
        intro q hq
        by_cases hqp : q = p
        · rw [hqp]
          exact hself
        · rw [hother q hqp]
          exact h.off t q hq
      -- `p` occurs once among the pages of the task
      have hnd : (p :: (pageList ++ (retPages ++ freedPvec))).Nodup := by
        have hnd := h.nodup t
        rw [hpc] at hnd
        exact hnd
      have hnot : p ∉ pageList ++ (retPages ++ freedPvec) := (List.nodup_cons.mp hnd).1
      refine h.set (h.zone.reflag rfl rfl (Or.inr hlru)) (hkeep.nodup_iff.mpr (h.nodup t))
        (fun q hq => hoff q (hkeep.mem_iff.mp hq)) ⟨?_, ?_⟩
        (fun q hq => Or.inl (hkeep.mem_iff.mp hq)) ?_ ?_
      · intro q hq
        have hqp : q ≠ p := by
          rintro rfl
          exact hnot (List.mem_append_left _ hq)
        rw [hother q hqp]
        exact hrest q hq
      · intro q hq
        have hqp : q ≠ p := by
          rintro rfl
          exact hnot (List.mem_append_right _ (List.mem_append_right _ hq))
        rw [hother q hqp]
        exact hroles.2 q hq
      · intro t' q ht hq
        have hqp : q ≠ p := by
          rintro rfl
          exact ht (h.apart t' t q hq hheld)
        rw [hother q hqp]
        exact ⟨h.off t' q hq, rfl⟩
      · intro q hq hpc' hnone
        have hqt : q ∉ (s.pc t).held := fun hm => hpc' (hkeep.mem_iff.mpr hm)
        have hqp : q ≠ p := by
          rintro rfl
          exact hqt hheld
        rw [hother q hqp] at hq ⊢
        refine h.clean q hq (fun t' => ?_)
        by_cases ht : t' = t
        · rw [ht]
          exact hqt
        · exact hnone t' ht
  | free =>
      rw [Mru.shrinkPage, if_neg (by simp [hact])]
      refine ⟨_, rfl, h.goto ?_ ⟨hrest, ?_⟩⟩
      · rw [hpc]
        show (pageList ++ (retPages ++ (freedPvec ++ [p]))).Perm
          (p :: pageList ++ (retPages ++ freedPvec))
        rw [← List.append_assoc, ← List.append_assoc, ← List.append_assoc, List.cons_append]
        exact List.perm_append_singleton p _
      · intro q hq
        rcases List.mem_append.mp hq with hq | hq
        · exact hroles.2 q hq
        · rw [List.mem_singleton.mp hq]
          exact hact

theorem Inv.releaseNonlru (h : Inv s) {c : Cache} {maxScan : Int} {nr : Nat}
    {pageList retPages freedPvec : List Page}
    (hpc : s.pc t = .shrinkList c maxScan nr pageList retPages freedPvec) :
    ∃ s', releaseNonlru s t c maxScan nr pageList retPages freedPvec = some s' ∧ Inv s' := by
  have hroles : (s.pc t).Roles s.zone.flags := h.roles t
  have hoff : ∀ p ∈ (s.pc t).held, (s.zone.flags p).lru = false := h.off t
  have hnd : (s.pc t).held.Nodup := h.nodup t
  rw [hpc] at hroles hoff hnd
  have hsub : ∀ p ∈ pageList ++ (retPages ++ []), p ∈ pageList ++ (retPages ++ freedPvec) := by
    intro p hp
    rw [List.append_nil] at hp
    rw [← List.append_assoc]
    exact List.mem_append_left _ hp
  refine ⟨_, if_neg ?_, h.set h.zone ?_ (fun p hp => hoff p (hsub p hp)) ⟨hroles.1, by simp⟩
    ?_ (fun t' p _ hp => ⟨h.off t' p hp, rfl⟩) ?_⟩
  · simp only [List.any_eq_true, not_exists, not_and, Bool.not_eq_true]
    intro p hp
    exact hoff p (List.mem_append_right _ (List.mem_append_right _ hp))
  · have hnd' : (pageList ++ retPages ++ freedPvec).Nodup := by
      rw [List.append_assoc]
      exact hnd
    show (pageList ++ (retPages ++ [])).Nodup
    rw [List.append_nil]
    exact (List.nodup_append.mp hnd').1
  · intro p hp
    rw [hpc]
    exact Or.inl (hsub p hp)
  · intro p hp hkeep hnone
    by_cases hfreed : p ∈ freedPvec
    · exact hroles.2 p hfreed
    · refine h.clean p hp (fun t' => ?_)
      by_cases ht : t' = t
      · rw [ht, hpc]
        intro hm
        apply hkeep
        show p ∈ pageList ++ (retPages ++ [])
        rw [List.append_nil]
        rcases List.mem_append.mp hm with hm | hm
        · exact List.mem_append_left _ hm
        · rcases List.mem_append.mp hm with hm | hm
          · exact List.mem_append_right _ hm
          · exact absurd hm hfreed
      · exact hnone t' ht

/-! ## Isolation and its end -/

theorem Cache.kind_ne_active (c : Cache) : c.kind ≠ .active := by
  cases c <;> simp [Cache.kind]

theorem Flags.active_of_kind {f : Flags} : f.kind = .active ↔ f.active = true := by
  unfold Flags.kind
  cases f.active <;> cases f.mruvictim <;> simp

theorem Inv.afterIsolate (h : Inv s) {c : Cache} {maxScan : Int} {nr : Nat} {r : Zone.Isolation}
    (hpc : s.pc t = .shrink c maxScan nr) (hz : ZoneInv r.zone)
    (ht : Taken c.kind s.zone r.zone r.taken) : Inv (afterIsolate s t c maxScan nr r) := by
  have hnone : (s.pc t).held = [] := by rw [hpc]; rfl
  unfold Mru.afterIsolate
  split
  case isTrue hempty => exact h.taken hz ht hnone hempty.symm trivial
  case isFalse =>
      refine h.taken hz ht hnone (by simp [Pc.held]) ⟨?_, by simp⟩
      intro p hp
      have hkind := (ht.came p hp).2
      rw [ht.flags p hp]
      show (s.zone.flags p).active = false
      rw [← Bool.not_eq_true]
      intro hact
      exact c.kind_ne_active (hkind.symm.trans (Flags.active_of_kind.mpr hact))

/-- Pages of the task go back to the LRU from the front of a private list. -/
theorem Inv.putBack (h : Inv s) {z : Zone} {pc : Pc} {done rest : List Page} (hz : ZoneInv z)
    (hent : Entered s.zone z done) (hheld : (s.pc t).held = done ++ rest) (hrest : pc.held = rest)
    (hroles : pc.Roles s.zone.flags) : Inv (s.set t z pc) := by
  have hnd := h.nodup t
  rw [hheld] at hnd
  obtain ⟨_, hndr, hdisj⟩ := List.nodup_append.mp hnd
  refine h.entered hz hent hroles ?_ (by rw [hrest]; exact hndr) ?_
  · intro p hp t' ht hp'
    have hmine : p ∈ (s.pc t).held := by
      rw [hheld]
      exact List.mem_append_left _ hp
    exact ht (h.apart t' t p hp' hmine)
  · intro p
    rw [hrest, hheld, List.mem_append]
    constructor
    · exact fun hp => ⟨Or.inr hp, fun hdone => hdisj p hdone p hp rfl⟩
    · rintro ⟨hp | hp, hdone⟩
      · exact absurd hp hdone
      · exact hp

/-- New pages are on no list and in nobody's hands. -/
theorem Inv.added (h : Inv s) {z : Zone} {ps : List Page} (hpc : s.pc t = .idle)
    (hnew : ∀ p ∈ ps, s.New p) (hz : ZoneInv z) (hent : Entered s.zone z ps) :
    Inv (s.set t z .idle) := by
  refine h.entered hz hent trivial (fun p hp t' _ => (hnew p hp).2 t') List.nodup_nil ?_
  intro p
  rw [hpc]
  simp [Pc.held]

theorem State.New.clean (h : Inv s) {p : Page} (hp : s.New p) :
    (s.zone.flags p).lru = false ∧ (s.zone.flags p).active = false :=
  ⟨hp.1, h.clean p hp.1 hp.2⟩

theorem LruMove.setReferenced (z : Zone) (p : Page) (b : Bool) :
    LruMove z (z.setReferenced p b) := by
  have hsame : ∀ q, ((z.setReferenced p b).flags q).lru = (z.flags q).lru ∧
      ((z.setReferenced p b).flags q).active = (z.flags q).active := by
    intro q
    show (Function.update z.flags p _ q).lru = _ ∧ (Function.update z.flags p _ q).active = _
    by_cases hq : q = p
    · rw [hq, Function.update_self]
      exact ⟨rfl, rfl⟩
    · rw [Function.update_of_ne hq]
      exact ⟨rfl, rfl⟩
  refine ⟨fun q hq => ⟨(hsame q).1.trans hq, (hsame q).2⟩, fun q hq hq' => ?_⟩
  rw [(hsame q).1, hq] at hq'
  cases hq'

theorem Inv.setReferenced (h : Inv s) (p : Page) (b : Bool) :
    ZoneInv (s.zone.setReferenced p b) ∧ LruMove s.zone (s.zone.setReferenced p b) :=
  ⟨h.zone.reflag rfl rfl (Or.inl rfl), LruMove.setReferenced s.zone p b⟩

end Steps

/-- **One step keeps the invariant, and reaches no `BUG`.** -/
theorem inv_step {params : Params} {s s' : State} {t : Task} (h : Inv s)
    (hst : Step params s t s') : Inv s' := by
  cases hst with
  | @lruAdd ps hpc hnd hnew =>
      obtain ⟨z, hz, hinv, hent⟩ :=
        h.zone.pagevecLruAdd hnd (fun p hp => State.New.clean h (hnew p hp))
      rw [hz]
      exact h.added hpc hnew hinv hent
  | @lruAddActive ps hpc hnd hnew =>
      obtain ⟨z, hz, hinv, hent⟩ :=
        h.zone.pagevecLruAddActive hnd (fun p hp => State.New.clean h (hnew p hp))
      rw [hz]
      exact h.added hpc hnew hinv hent
  | @activate p hpc =>
      exact h.lruSection (h.zone.activatePage p) (by rw [hpc]; rfl) rfl trivial
  | @release p hpc =>
      exact h.lruSection (h.zone.releasePage p) (by rw [hpc]; rfl) rfl trivial
  | markTests hpc _ _ _ => exact h.goto (by rw [hpc]; exact .refl _) trivial
  | @markSet p hpc _ =>
      exact h.lruSection (h.setReferenced p true) (by rw [hpc]; rfl) rfl trivial
  | @markActivate p hpc =>
      exact h.lruSection (h.zone.activatePage p) (by rw [hpc]; rfl) rfl trivial
  | @markClear p hpc =>
      exact h.lruSection (h.setReferenced p false) (by rw [hpc]; rfl) rfl trivial
  | rotateTests hpc _ _ => exact h.goto (by rw [hpc]; exact .refl _) trivial
  | @rotate p hpc =>
      exact h.lruSection (h.zone.rotatePage p) (by rw [hpc]; rfl) rfl trivial
  | @scan nrToScan hpc =>
      obtain ⟨z, n, hz, hinv, hmove⟩ := h.zone.scanActiveForMru nrToScan params.swapClusterMax
      rw [hz]
      exact h.lruSection ⟨hinv, hmove⟩ (by rw [hpc]; rfl) rfl trivial
  | grabPage hpc _ => exact h.goto (by rw [hpc]; exact .refl _) trivial
  | grabNone hpc _ => exact h.goto (by rw [hpc]; exact .refl _) trivial
  | @grabActivate n p hpc =>
      exact h.lruSection (h.zone.activatePage p) (by rw [hpc]; rfl) rfl trivial
  | grabDone hpc => exact h.goto (by rw [hpc]; exact .refl _) trivial
  | shrinkCall hpc => exact h.goto (by rw [hpc]; exact .refl _) trivial
  | shrinkDone hpc _ => exact h.goto (by rw [hpc]; exact .refl _) trivial
  | @isolate c maxScan nr testone hpc _ =>
      obtain ⟨r, hr, hinv, ht⟩ := h.zone.isolateCache c.kind params.swapClusterMax testone
      rw [hr]
      exact h.afterIsolate hpc hinv ht
  | @shrinkPage c maxScan nr p pageList retPages freedPvec outcome hpc =>
      obtain ⟨s', hs', hinv⟩ := h.shrinkPage outcome hpc
      rw [hs']
      exact hinv
  | releaseNonlru hpc =>
      obtain ⟨s', hs', hinv⟩ := h.releaseNonlru hpc
      rw [hs']
      exact hinv
  | @shrinkListDone c maxScan nr retPages hpc =>
      refine h.goto ?_ trivial
      rw [hpc]
      show retPages.Perm ([] ++ (retPages ++ []))
      rw [List.nil_append, List.append_nil]
  | @putBack c maxScan nr pageList hpc =>
      have hnd : pageList.Nodup := by
        have := h.nodup t
        rwa [hpc] at this
      have hoff : ∀ p ∈ pageList, (s.zone.flags p).lru = false := by
        have := h.off t
        rwa [hpc] at this
      obtain ⟨z, done, rest, nr', hz, hl, hinv, hent⟩ :=
        h.zone.putBackLoop params.pagevecSize nr hnd hoff
      rw [hz]
      exact h.putBack hinv hent (by rw [hpc]; exact hl) rfl trivial
  | putBackDone hpc => exact h.goto (by rw [hpc]; exact .refl _) trivial
  | @refillIsolate nrPages testone hpc =>
      obtain ⟨r, hr, hinv, ht⟩ := h.zone.isolateActive nrPages testone
      rw [hr]
      refine h.taken hinv ht (by rw [hpc]; rfl) (by simp [Pc.held]) ?_
      intro p hp
      rw [List.append_nil, List.append_nil] at hp
      rw [ht.flags p hp]
      exact Flags.active_of_kind.mp (ht.came p hp).2
  | @refillSort p lHold lInactive lActive inUse hpc =>
      have hroles := h.roles t
      rw [hpc] at hroles
      -- either way the page changes from one private list to another
      have hperm : (if inUse then Pc.refillSort lHold lInactive (lActive ++ [p])
          else Pc.refillSort lHold (lInactive ++ [p]) lActive).held.Perm (s.pc t).held := by
        rw [hpc]
        cases inUse with
        | true =>
            show (lHold ++ (lInactive ++ (lActive ++ [p]))).Perm
              (p :: lHold ++ (lInactive ++ lActive))
            rw [← List.append_assoc, ← List.append_assoc, List.append_assoc lHold]
            exact List.perm_append_singleton p _
        | false =>
            show (lHold ++ (lInactive ++ [p] ++ lActive)).Perm
              (p :: lHold ++ (lInactive ++ lActive))
            rw [List.append_assoc lInactive]
            exact (List.perm_append_left_iff _ |>.mpr List.perm_middle).trans List.perm_middle
      refine h.goto hperm ?_
      have hall : ∀ q ∈ (s.pc t).held, (s.zone.flags q).active = true := by
        rw [hpc]
        exact hroles
      cases inUse with
      | true => exact fun q hq => hall q (hperm.mem_iff.mp hq)
      | false => exact fun q hq => hall q (hperm.mem_iff.mp hq)
  | @refillSorted lInactive lActive hpc =>
      have hroles := h.roles t
      rw [hpc] at hroles
      exact h.goto (by rw [hpc]; exact .refl _) hroles
  | @refillInactive nr lInactive lActive hpc =>
      have hroles := h.roles t
      have hnd := h.nodup t
      have hoff := h.off t
      rw [hpc] at hroles hnd hoff
      obtain ⟨z, done, rest, nr', hz, hl, hinv, hent⟩ :=
        h.zone.refillSection (by simp : ListKind.inactive ≠ .safety) params.pagevecSize nr
          (List.nodup_append.mp hnd).1
          (fun p hp => ⟨hoff p (List.mem_append_left _ hp), hroles p (List.mem_append_left _ hp)⟩)
      have hheld : (s.pc t).held = done ++ (rest ++ lActive) := by
        rw [hpc, ← List.append_assoc, ← hl]
        rfl
      rw [hz]
      refine h.putBack hinv hent hheld rfl ?_
      intro p hp
      refine hroles p ?_
      rw [hl, List.append_assoc]
      exact List.mem_append_right _ hp
  | @refillInactiveDone nr lActive hpc =>
      have hroles := h.roles t
      rw [hpc] at hroles
      exact h.goto (by rw [hpc]; exact .refl _) hroles
  | @refillActive nr lActive hpc =>
      have hroles := h.roles t
      have hnd : (s.pc t).held.Nodup := h.nodup t
      have hoff := h.off t
      rw [hpc] at hroles hnd hoff
      change lActive.Nodup at hnd
      obtain ⟨z, done, rest, nr', hz, hl, hinv, hent⟩ :=
        h.zone.refillSection (by simp : ListKind.active ≠ .safety) params.pagevecSize nr hnd
          (fun p hp => ⟨hoff p hp, hroles p hp⟩)
      rw [hz]
      refine h.putBack hinv hent (by rw [hpc]; exact hl) rfl ?_
      intro p hp
      refine hroles p ?_
      rw [hl]
      exact List.mem_append_right _ hp
  | refillDone hpc => exact h.goto (by rw [hpc]; exact .refl _) trivial

theorem inv_reach {params : Params} {s : State}
    (h : (system params).Reach System.anyStep s) : Inv s :=
  h.invariant (I := Inv) (fun _ hs => by rw [show _ = State.init from hs]; exact inv_init)
    (fun _ _ _ hI _ hst => inv_step hI hst)

/-! ## The invariant as the callers see it -/

/-- **Three-list page invariant.** In every state every run reaches between two
sections: a page with `PG_lru` is on exactly one of the three lists, the one
its flags name, and never has both flags; the counters are the lengths; a page
without `PG_lru` does not have `PG_mruvictim`; `safety_list_consistency` finds
nothing to correct; and no `BUG` was reached. -/
theorem three_list_invariant (params : Params) (s : State)
    (h : (system params).Reach System.anyStep s) :
    (∀ p, (s.zone.flags p).lru = true →
      (p ∈ s.zone.list .active ↔ (s.zone.flags p).active = true) ∧
      (p ∈ s.zone.list .safety ↔ (s.zone.flags p).mruvictim = true) ∧
      (p ∈ s.zone.list .inactive ↔
        (s.zone.flags p).active = false ∧ (s.zone.flags p).mruvictim = false) ∧
      ¬ ((s.zone.flags p).active = true ∧ (s.zone.flags p).mruvictim = true) ∧
      ∃ k, (s.zone.list k).count p = 1 ∧ ∀ j, j ≠ k → p ∉ s.zone.list j) ∧
    (∀ p k, p ∈ s.zone.list k → (s.zone.flags p).lru = true) ∧
    (∀ k, s.zone.nr k = (s.zone.list k).length) ∧
    (∀ p, (s.zone.flags p).lru = false → (s.zone.flags p).mruvictim = false) ∧
    s.zone.safetyListConsistency = (0, s.zone) ∧ s.bug = false := by
  have hI := inv_reach h
  have hz := hI.zone
  refine ⟨?_, fun p k hp => ((hz.mem k p).mp hp).1, hz.count, hz.offLru, ?_, hI.noBug⟩
  · intro p hp
    have hb := hz.notBoth p
    have hkind : ∀ k, p ∈ s.zone.list k ↔ (s.zone.flags p).kind = k := by
      intro k
      rw [hz.mem k p]
      simp [hp]
    refine ⟨?_, ?_, ?_, hb, (s.zone.flags p).kind, ?_, ?_⟩
    · rw [hkind]
      exact Flags.active_of_kind
    · rw [hkind, Flags.kind]
      cases ha : (s.zone.flags p).active <;> cases hm : (s.zone.flags p).mruvictim <;> simp_all
    · rw [hkind, Flags.kind]
      cases ha : (s.zone.flags p).active <;> cases hm : (s.zone.flags p).mruvictim <;> simp_all
    · exact List.count_eq_one_of_mem (hz.nodup _) ((hkind _).mpr rfl)
    · exact fun j hj hm => hj ((hkind j).mp hm).symm
  · rw [Zone.safetyListConsistency, if_neg (by simp [hz.count .safety])]

/-! Two pages are added to the active list and scanned into the safety list. -/

def smallParams : Params := ⟨32, 14⟩

def twoActive : State :=
  State.init.orBug (State.init.zone.pagevecLruAddActive [5, 6]) fun z => State.init.set 0 z .idle

def twoVictims : State :=
  twoActive.orBug (twoActive.zone.scanActiveForMru 1 smallParams.swapClusterMax)
    fun r => twoActive.set 0 r.1 (.grab r.2)

theorem twoVictims_reach : (system smallParams).Reach System.anyStep twoVictims := by
  have h₀ : (system smallParams).Reach System.anyStep State.init := .init rfl
  have hnew : ∀ p ∈ [5, 6], State.init.New p := by simp [State.New, State.init, Pc.held]
  have h₁ : (system smallParams).Reach System.anyStep twoActive :=
    h₀.step 0 trivial (Step.lruAddActive rfl (by decide) hnew)
  exact h₁.step 0 trivial (Step.scan rfl)

theorem twoVictims_lists :
    twoVictims.zone.list .safety = [5, 6] ∧
      twoVictims.zone.nr .safety = (twoVictims.zone.list .safety).length ∧
      twoVictims.zone.safetyListConsistency = (0, twoVictims.zone) := by
  obtain ⟨_, _, hcount, _, hcons, _⟩ := three_list_invariant smallParams twoVictims twoVictims_reach
  exact ⟨by decide, hcount .safety, hcons⟩

end LinuxHacks.Mru
