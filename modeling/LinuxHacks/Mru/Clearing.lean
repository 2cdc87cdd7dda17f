import LinuxHacks.Mru.Order

/-!
# `clear_safety_list` among other CPUs (`HW5/mm/vmscan.c`)

`clear_safety_list` walks over `safety_list` without `lru_lock`. A step is one
read of a `next` pointer by the walk, the test and the `activate_page` of its
loop, or a step of another CPU: `activate_page`, the release of a page, an
isolation of `shrink_cache_mru`.

The page whose `next` pointer the walk reads next (`Walk.saved`) has to be on
the safety list when it is read. Nothing sees to that: another CPU can move the
page meanwhile, and the walk goes on along the list the page came to.

* `Inv`: the saved page is on the safety list, and every page of that list is
  still ahead of the walk;
* `Inv.step`: steps that are `Harmless` keep it;
* `Inv.finishes`: from there the walk alone ends, with no page left;
* `Lost`, `Missed`: after any other step it does not.
-/

namespace LinuxHacks.Mru

open LinuxHacks.Lib Zone

/-! ## Nodes and the walk -/

/-- What a `next` pointer leads to. -/
inductive Node where
  | page (p : Page)
  /-- The head of a list of the zone. -/
  | head (k : ListKind)
  /-- `page_list` on the stack of a CPU that isolated pages. -/
  | pageList (i : Nat)
  /-- What `list_del` leaves behind. -/
  | poison
deriving DecidableEq, Repr

/-- Where the walk stands. -/
inductive Walk where
  /-- Before `safety_list.next` is read. -/
  | start
  /-- `thispage` is read, its `next` is not. -/
  | first (thispage : Node)
  /-- Before the test of the loop and the `activate_page` of its body. -/
  | test (thispage tmp : Node)
  /-- After it: `thispage = tmp`, and the `next` of that page is read. -/
  | advance (tmp : Node)
  | done
  /-- A node that is no page is used as one; the model stops here. -/
  | astray (n : Node)
deriving DecidableEq, Repr

structure ClearState where
  zone : Zone
  /-- The `page_list` of each isolation, from its head. -/
  isolated : List (List Page)
  walk : Walk
  /-- The pages that were on the safety list in every state so far. -/
  stayed : List Page

namespace ClearState

/-- The node after `p` on the list `l` with head `listHead`. -/
def after (l : List Page) (p : Page) (listHead : Node) : Node :=
  match nextOf l p with
  | some q => .page q
  | none => listHead

def firstOf (l : List Page) (listHead : Node) : Node :=
  match l with
  | [] => listHead
  | p :: _ => .page p

/-- The `next` pointer of a node. -/
def next (s : ClearState) : Node → Node
  | .page p =>
      if p ∈ s.zone.list .active then after (s.zone.list .active) p (.head .active)
      else if p ∈ s.zone.list .inactive then after (s.zone.list .inactive) p (.head .inactive)
      else if p ∈ s.zone.list .safety then after (s.zone.list .safety) p (.head .safety)
      else
        match s.isolated.findIdx? (fun l => decide (p ∈ l)) with
        | some i => after (s.isolated.getD i []) p (.pageList i)
        | none => .poison
  | .head k => firstOf (s.zone.list k) (.head k)
  | .pageList i => firstOf (s.isolated.getD i []) (.pageList i)
  | .poison => .poison

/-- A section that changed the zone. -/
def moved (s : ClearState) (z : Zone) : ClearState :=
  { s with zone := z, stayed := s.stayed.filter (fun p => decide (p ∈ z.list .safety)) }

/-- One step of `list_for_each_entry_safe` and its body. -/
def walkStep (s : ClearState) : ClearState :=
  match s.walk with
  | .start => { s with walk := .first (s.next (.head .safety)) }
  | .first thispage => { s with walk := .test thispage (s.next thispage) }
  | .test (.head .safety) _ => { s with walk := .done }
  | .test (.page p) tmp => { s.moved (s.zone.activatePage p) with walk := .advance tmp }
  | .test n _ => { s with walk := .astray n }
  | .advance tmp => { s with walk := .test tmp (s.next tmp) }
  | .done => s
  | .astray _ => s

end ClearState

inductive Act where
  | walk
  | activate (p : Page)
  | release (p : Page)
  | isolate (testone : Nat → Bool)

inductive ClearStep (params : Params) : ClearState → Act → ClearState → Prop
  | walk {s : ClearState} : ClearStep params s .walk s.walkStep
  | activate {s : ClearState} {p : Page} :
      ClearStep params s (.activate p) (s.moved (s.zone.activatePage p))
  | release {s : ClearState} {p : Page} :
      ClearStep params s (.release p) (s.moved (s.zone.releasePage p))
  | isolate {s : ClearState} {testone : Nat → Bool} {r : Zone.Isolation} :
      s.zone.isolateCache .safety params.swapClusterMax testone = some r →
      ClearStep params s (.isolate testone)
        { s.moved r.zone with isolated := s.isolated ++ [r.taken.reverse] }

/-- `clear_safety_list` is called on a zone whose invariant holds. -/
def clearSystem (params : Params) : System ClearState Act where
  init := fun s => ZoneInv s.zone ∧ s.isolated = [] ∧ s.walk = .start ∧
    s.stayed = s.zone.list .safety
  step := ClearStep params

/-- The walk ends when the other CPUs stop, and no page that was on the safety
list all the time is left there. -/
def ClearState.Finishes (s : ClearState) : Prop :=
  ∃ n, (ClearState.walkStep^[n] s).walk = .done ∧ (ClearState.walkStep^[n] s).stayed = []

/-! ## The condition on the steps of other CPUs -/

def Node.page? : Node → Option Page
  | .page p => some p
  | _ => none

/-- The page whose `next` pointer is read next. -/
def Walk.saved : Walk → Option Page
  | .first n => n.page?
  | .test (.page _) tmp => tmp.page?
  | .advance tmp => tmp.page?
  | _ => none

/-- The pages of the safety list from a node on. -/
def pagesFrom (z : Zone) : Node → List Page
  | .page p => (z.list .safety).dropWhile (fun q => decide (q ≠ p))
  | _ => []

/-- The pages the walk comes to when no other CPU moves a page. -/
def Walk.ahead (z : Zone) : Walk → List Page
  | .start => z.list .safety
  | .first n => pagesFrom z n
  | .test (.page p) tmp => p :: pagesFrom z tmp
  | .advance tmp => pagesFrom z tmp
  | _ => []

/-- Another CPU leaves the saved page on the safety list, and puts no page that is
ahead of the walk back behind it. -/
def Harmless (params : Params) (s : ClearState) : Act → Prop
  | .walk => True
  | .activate p => s.walk.saved ≠ some p
  | .release p => s.walk.saved ≠ some p
  | .isolate testone =>
      ∀ r, s.zone.isolateCache .safety params.swapClusterMax testone = some r →
        (∀ p, s.walk.saved = some p → p ∈ r.zone.list .safety) ∧
        ∀ p ∈ s.walk.ahead s.zone, p ∈ r.zone.list .safety → p ∈ s.walk.ahead r.zone

/-! ## Reading a `next` pointer -/

section Next

variable {s : ClearState} {z : Zone} {p q r : Page} {l l₁ l₂ : List Page}

theorem nextOf_split (hp : p ∉ l₁) : nextOf (l₁ ++ p :: l₂) p = l₂.head? := by
  induction l₁ with
  | nil => simp [nextOf]
  | cons a l₁ ih =>
      rw [List.mem_cons, not_or] at hp
      rw [List.cons_append, nextOf, if_neg (Ne.symm hp.1)]
      exact ih hp.2

theorem dropWhile_split (hp : p ∉ l₁) :
    (l₁ ++ p :: l₂).dropWhile (fun q => decide (q ≠ p)) = p :: l₂ := by
  induction l₁ with
  | nil => simp
  | cons a l₁ ih =>
      rw [List.mem_cons, not_or] at hp
      rw [List.cons_append, List.dropWhile_cons_of_pos (by simpa using Ne.symm hp.1)]
      exact ih hp.2

theorem exists_split (hp : p ∈ l) : ∃ l₁ l₂, l = l₁ ++ p :: l₂ ∧ p ∉ l₁ := by
  obtain ⟨l₁, l₂, hnot, heq⟩ := List.eq_append_cons_of_mem hp
  exact ⟨l₁, l₂, hnot, heq⟩

/-- A node of the safety list: a page on it, or its head. -/
def OnSafety (z : Zone) : Node → Prop
  | .page p => p ∈ z.list .safety
  | .head k => k = .safety
  | _ => False

theorem next_safety (hz : ZoneInv s.zone) (hp : p ∈ s.zone.list .safety) :
    s.next (.page p) = ClearState.after (s.zone.list .safety) p (.head .safety) := by
  rw [ClearState.next, if_neg (hz.not_mem hp (by simp)), if_neg (hz.not_mem hp (by simp)),
    if_pos hp]

/-- From a page of the safety list a step leads along that list. -/
theorem pagesFrom_next (hz : ZoneInv s.zone) (hp : p ∈ s.zone.list .safety) :
    OnSafety s.zone (s.next (.page p)) ∧ s.next (.page p) ≠ .page p ∧
      pagesFrom s.zone (.page p) = p :: pagesFrom s.zone (s.next (.page p)) := by
  obtain ⟨l₁, l₂, hl, hnot⟩ := exists_split hp
  have hnd := hz.nodup .safety
  rw [hl] at hnd
  obtain ⟨_, hnd₂, hdisj⟩ := List.nodup_append.mp hnd
  obtain ⟨hp₂, _⟩ := List.nodup_cons.mp hnd₂
  rw [next_safety hz hp, ClearState.after, hl, nextOf_split hnot]
  cases l₂ with
  | nil =>
      refine ⟨rfl, by simp, ?_⟩
      show (s.zone.list .safety).dropWhile _ = [p]
      rw [hl, dropWhile_split hnot]
  | cons q l₂ =>
      refine ⟨?_, ?_, ?_⟩
      · show q ∈ s.zone.list .safety
        rw [hl]
        simp
      · intro h
        cases h
        exact hp₂ List.mem_cons_self
      · -- the same list, cut at `p` and at `q`
        have hq : q ∉ l₁ ++ [p] := by
          intro hm
          rcases List.mem_append.mp hm with hm | hm
          · exact hdisj q hm q (by simp) rfl
          · rw [List.mem_singleton.mp hm] at hp₂
            exact hp₂ List.mem_cons_self
        show (s.zone.list .safety).dropWhile _ = p :: (s.zone.list .safety).dropWhile _
        rw [hl, dropWhile_split hnot]
        have hcut : (l₁ ++ [p] ++ q :: l₂).dropWhile (fun r => decide (r ≠ q)) = q :: l₂ :=
          dropWhile_split hq
        rw [List.append_assoc, List.singleton_append] at hcut
        rw [hcut]

theorem next_head (s : ClearState) :
    OnSafety s.zone (s.next (.head .safety)) ∧
      pagesFrom s.zone (s.next (.head .safety)) = s.zone.list .safety := by
  rw [ClearState.next]
  cases hl : s.zone.list .safety with
  | nil => exact ⟨rfl, rfl⟩
  | cons p l =>
      refine ⟨?_, ?_⟩
      · show p ∈ s.zone.list .safety
        rw [hl]
        exact List.mem_cons_self
      · show (s.zone.list .safety).dropWhile _ = p :: l
        rw [hl]
        simp

/-! ## What a section does to the pages ahead -/

theorem dropWhile_erase_sublist (hqp : q ≠ p) :
    ((l.erase p).dropWhile (fun r => decide (r ≠ q))).Sublist
      (l.dropWhile (fun r => decide (r ≠ q))) := by
  induction l with
  | nil => exact List.Sublist.refl _
  | cons a l ih =>
      by_cases hap : a = p
      · rw [hap, List.erase_cons_head, List.dropWhile_cons_of_pos (by simpa using Ne.symm hqp)]
      · rw [List.erase_cons_tail (by simpa using hap)]
        by_cases haq : a = q
        · rw [haq, List.dropWhile_cons_of_neg (by simp), List.dropWhile_cons_of_neg (by simp)]
          exact (List.erase_sublist).cons_cons _
        · rw [List.dropWhile_cons_of_pos (by simpa using haq),
            List.dropWhile_cons_of_pos (by simpa using haq)]
          exact ih

theorem mem_dropWhile_erase (hqp : q ≠ p) (hrp : r ≠ p)
    (hr : r ∈ l.dropWhile (fun a => decide (a ≠ q))) :
    r ∈ (l.erase p).dropWhile (fun a => decide (a ≠ q)) := by
  induction l with
  | nil => exact hr
  | cons a l ih =>
      by_cases hap : a = p
      · rw [hap, List.dropWhile_cons_of_pos (by simpa using Ne.symm hqp)] at hr
        rw [hap, List.erase_cons_head]
        exact hr
      · rw [List.erase_cons_tail (by simpa using hap)]
        by_cases haq : a = q
        · rw [haq, List.dropWhile_cons_of_neg (by simp)] at hr ⊢
          rcases List.mem_cons.mp hr with hr | hr
          · exact List.mem_cons.mpr (Or.inl hr)
          · exact List.mem_cons_of_mem _ ((List.mem_erase_of_ne hrp).mpr hr)
        · rw [List.dropWhile_cons_of_pos (by simpa using haq)] at hr ⊢
          exact ih hr

/-- A section that takes `p` off the safety list. -/
structure Takes (z z' : Zone) (p : Page) : Prop where
  zone : ZoneInv z'
  list : z'.list .safety = (z.list .safety).erase p
  off : ∀ q, (z.flags q).lru = false → (z'.flags q).lru = false

theorem ZoneInv.takes_activate (hz : ZoneInv z) (p : Page) : Takes z (z.activatePage p) p :=
  ⟨(hz.activatePage p).1, hz.activatePage_list (by simp) p,
    fun q hq => ((hz.activatePage p).2.off q hq).1⟩

theorem ZoneInv.takes_release (hz : ZoneInv z) (p : Page) : Takes z (z.releasePage p) p := by
  refine ⟨(hz.releasePage p).1, ?_, fun q hq => ((hz.releasePage p).2.off q hq).1⟩
  cases hp : (z.flags p).lru with
  | true =>
      rw [releasePage_eq hp (hz.notBoth p)]
      rfl
  | false =>
      have heq : z.releasePage p = z := by rw [Zone.releasePage, if_neg (by simp [hp])]
      rw [heq, List.erase_of_not_mem]
      intro hm
      have hon := ((hz.mem .safety p).mp hm).1
      rw [hp] at hon
      cases hon

theorem Takes.onSafety {z' : Zone} (h : Takes z z' p) {n : Node} (hn : OnSafety z n)
    (hne : n ≠ .page p) : OnSafety z' n := by
  cases n with
  | page q =>
      show q ∈ z'.list .safety
      rw [h.list]
      exact (List.mem_erase_of_ne (fun hq => hne (by rw [hq]))).mpr hn
  | head k => exact hn
  | pageList i => exact hn
  | poison => exact hn

/-- Pages other than `p` are ahead after the section as before. -/
theorem Takes.mem_pagesFrom {z' : Zone} (h : Takes z z' p) {n : Node} (hne : n ≠ .page p)
    (hrp : r ≠ p) : r ∈ pagesFrom z' n ↔ r ∈ pagesFrom z n := by
  cases n with
  | page q =>
      have hqp : q ≠ p := fun hq => hne (by rw [hq])
      show r ∈ (z'.list .safety).dropWhile _ ↔ r ∈ (z.list .safety).dropWhile _
      rw [h.list]
      exact ⟨fun hr => (dropWhile_erase_sublist hqp).subset hr, mem_dropWhile_erase hqp hrp⟩
  | _ => exact Iff.rfl

theorem Takes.length_pagesFrom {z' : Zone} (h : Takes z z' p) {n : Node} (hne : n ≠ .page p) :
    (pagesFrom z' n).length ≤ (pagesFrom z n).length := by
  cases n with
  | page q =>
      show ((z'.list .safety).dropWhile _).length ≤ ((z.list .safety).dropWhile _).length
      rw [h.list]
      exact (dropWhile_erase_sublist (fun hq => hne (by rw [hq]))).length_le
  | _ => exact le_rfl

end Next

/-! ## The walk alone -/

def WalkOk (z : Zone) : Walk → Prop
  | .first n => OnSafety z n
  | .test (.page p) tmp => OnSafety z tmp ∧ tmp ≠ .page p
  | .test n _ => n = .head .safety
  | .advance tmp => OnSafety z tmp
  | .astray _ => False
  | _ => True

/-- The walk is on the safety list, and no page came to that list. -/
structure Sound (s : ClearState) : Prop where
  zone : ZoneInv s.zone
  isolated : ∀ l ∈ s.isolated, ∀ p ∈ l, (s.zone.flags p).lru = false
  walk : WalkOk s.zone s.walk
  stayed : ∀ p, p ∈ s.stayed ↔ p ∈ s.zone.list .safety

/-- Besides, the walk still comes to every page of the list. -/
structure ClearInv (s : ClearState) : Prop extends Sound s where
  ahead : ∀ p ∈ s.zone.list .safety, p ∈ s.walk.ahead s.zone

/-- A bound on the steps the walk takes alone. -/
def ClearState.steps (s : ClearState) : Nat :=
  match s.walk with
  | .start => 2 * (s.walk.ahead s.zone).length + 3
  | .first _ => 2 * (s.walk.ahead s.zone).length + 2
  | .test _ _ => 2 * (s.walk.ahead s.zone).length + 1
  | .advance _ => 2 * (s.walk.ahead s.zone).length + 2
  | _ => 0

section Alone

variable {s s' : ClearState} {z z' : Zone} {p q : Page}

theorem OnSafety.cases {n : Node} (h : OnSafety z n) :
    (∃ p, n = .page p ∧ p ∈ z.list .safety) ∨ n = .head .safety := by
  cases n with
  | page p => exact Or.inl ⟨p, rfl, h⟩
  | head k =>
      cases (show k = .safety from h)
      exact Or.inr rfl
  | pageList i => exact absurd h id
  | poison => exact absurd h id

/-- A section that takes no page to the safety list. -/
theorem Sound.moved (h : Sound s) {w : Walk} (hz : ZoneInv z')
    (hsub : ∀ q ∈ z'.list .safety, q ∈ s.zone.list .safety)
    (hoff : ∀ q, (s.zone.flags q).lru = false → (z'.flags q).lru = false)
    (hwalk : WalkOk z' w) : Sound { s.moved z' with walk := w } where
  zone := hz
  isolated := fun l hl q hq => hoff q (h.isolated l hl q hq)
  walk := hwalk
  stayed := by
    intro q
    show q ∈ s.stayed.filter _ ↔ q ∈ z'.list .safety
    rw [List.mem_filter, decide_eq_true_eq, h.stayed q]
    exact ⟨fun hq => hq.2, fun hq => ⟨hsub q hq, hq⟩⟩

theorem Sound.goto (h : Sound s) {w : Walk} (hwalk : WalkOk s.zone w) :
    Sound { s with walk := w } :=
  ⟨h.zone, h.isolated, hwalk, h.stayed⟩

/-- What a step of the walk does: it comes closer to its end, takes at most a
page that was ahead, and keeps the others ahead. -/
structure WalkStepped (s s' : ClearState) : Prop where
  sound : Sound s'
  closer : s.walk = .done ∨ s'.steps < s.steps
  sub : ∀ q ∈ s'.zone.list .safety, q ∈ s.zone.list .safety
  left : ∀ q ∈ s.zone.list .safety, q ∈ s.walk.ahead s.zone ∨ q ∈ s'.zone.list .safety
  ahead : ∀ q ∈ s'.zone.list .safety, q ∈ s'.walk.ahead s'.zone ↔ q ∈ s.walk.ahead s.zone

/-- A read of a `next` pointer. -/
theorem Sound.read (h : Sound s) {w : Walk} (hwalk : WalkOk s.zone w)
    (hcloser : { s with walk := w }.steps < s.steps)
    (hahead : w.ahead s.zone = s.walk.ahead s.zone) : WalkStepped s { s with walk := w } where
  sound := h.goto hwalk
  closer := Or.inr hcloser
  sub := fun _ hq => hq
  left := fun _ hq => Or.inr hq
  ahead := fun q _ => by rw [hahead]

/-- `thispage` is `n` and its `next` pointer is read: the end of the first two
reads, and of each advance. -/
theorem Sound.readNext (h : Sound s) {n : Node} (hn : OnSafety s.zone n)
    (hahead : s.walk.ahead s.zone = pagesFrom s.zone n)
    (hsteps : s.steps = 2 * (pagesFrom s.zone n).length + 2) :
    WalkStepped s { s with walk := .test n (s.next n) } := by
  rcases hn.cases with ⟨p, rfl, hp⟩ | rfl
  · obtain ⟨hon, hne, hfrom⟩ := pagesFrom_next h.zone hp
    have heq : (Walk.test (.page p) (s.next (.page p))).ahead s.zone =
        pagesFrom s.zone (.page p) := hfrom.symm
    refine h.read ⟨hon, hne⟩ ?_ (heq.trans hahead.symm)
    rw [hsteps]
    show 2 * ((Walk.test (.page p) (s.next (.page p))).ahead s.zone).length + 1 < _
    rw [heq]
    omega
  · refine h.read rfl ?_ hahead.symm
    rw [hsteps]
    show 2 * 0 + 1 < _
    omega

theorem Sound.walkStep (h : Sound s) : WalkStepped s s.walkStep := by
  obtain ⟨zone, isolated, walk, stayed⟩ := s
  cases walk with
  | start =>
      obtain ⟨hon, hfrom⟩ := next_head ⟨zone, isolated, .start, stayed⟩
      refine h.read hon ?_ hfrom
      show 2 * (pagesFrom zone _).length + 2 < 2 * (zone.list .safety).length + 3
      rw [hfrom]
      show 2 * (zone.list .safety).length + 2 < _
      omega
  | first n => exact h.readNext h.walk rfl rfl
  | advance tmp => exact h.readNext h.walk rfl rfl
  | test n tmp =>
      have hpos := h.walk
      cases n with
      | page p =>
          obtain ⟨hon, hne⟩ := hpos
          have ht := h.zone.takes_activate p
          refine ⟨h.moved ht.zone ?_ ht.off (ht.onSafety hon hne), Or.inr ?_, ?_, ?_, ?_⟩
          · intro q hq
            rw [ht.list] at hq
            exact List.mem_of_mem_erase hq
          · show 2 * (pagesFrom (zone.activatePage p) tmp).length + 2 <
              2 * (p :: pagesFrom zone tmp).length + 1
            have hlen : (pagesFrom (zone.activatePage p) tmp).length ≤
              (pagesFrom zone tmp).length := ht.length_pagesFrom hne
            rw [List.length_cons]
            omega
          · intro q hq
            change q ∈ (zone.activatePage p).list .safety at hq
            rw [ht.list] at hq
            exact List.mem_of_mem_erase hq
          · intro q hq
            by_cases hqp : q = p
            · exact Or.inl (List.mem_cons.mpr (Or.inl hqp))
            · refine Or.inr ?_
              show q ∈ (zone.activatePage p).list .safety
              rw [ht.list]
              exact (List.mem_erase_of_ne hqp).mpr hq
          · intro q hq
            have hqp : q ≠ p := by
              rintro rfl
              change q ∈ (zone.activatePage q).list .safety at hq
              rw [ht.list] at hq
              exact (h.zone.nodup .safety).not_mem_erase hq
            show q ∈ pagesFrom (zone.activatePage p) tmp ↔ q ∈ p :: pagesFrom zone tmp
            rw [ht.mem_pagesFrom hne hqp, List.mem_cons]
            exact ⟨Or.inr, fun hq => hq.resolve_left hqp⟩
      | head k =>
          cases (show Node.head k = Node.head .safety from hpos)
          exact ⟨h.goto trivial, Or.inr (Nat.succ_pos _), fun _ hq => hq, fun _ hq => Or.inr hq,
            fun _ _ => Iff.rfl⟩
      | pageList i => cases (show Node.pageList i = Node.head .safety from hpos)
      | poison => cases (show Node.poison = Node.head .safety from hpos)
  | done => exact ⟨h, Or.inl rfl, fun _ hq => hq, fun _ hq => Or.inr hq, fun _ _ => Iff.rfl⟩
  | astray n => exact absurd h.walk id

theorem Sound.walks (h : Sound s) (n : Nat) : Sound (ClearState.walkStep^[n] s) := by
  induction n with
  | zero => exact h
  | succ n ih =>
      rw [Function.iterate_succ_apply']
      exact ih.walkStep.sound

theorem Sound.ends (h : Sound s) : ∃ n, (ClearState.walkStep^[n] s).walk = .done := by
  obtain ⟨bound, hbound⟩ : ∃ bound, s.steps ≤ bound := ⟨_, le_rfl⟩
  induction bound generalizing s with
  | zero =>
      rcases h.walkStep.closer with hdone | hless
      · exact ⟨0, hdone⟩
      · omega
  | succ bound ih =>
      rcases h.walkStep.closer with hdone | hless
      · exact ⟨0, hdone⟩
      · obtain ⟨n, hn⟩ := ih h.walkStep.sound (by omega)
        exact ⟨n + 1, by rw [Function.iterate_succ_apply]; exact hn⟩

theorem ClearInv.walkStep (h : ClearInv s) : ClearInv s.walkStep := by
  have hstep := h.toSound.walkStep
  exact ⟨hstep.sound, fun p hp => (hstep.ahead p hp).mpr (h.ahead p (hstep.sub p hp))⟩

theorem ClearInv.stayed_done (h : ClearInv s) (hdone : s.walk = .done) : s.stayed = [] := by
  rw [List.eq_nil_iff_forall_not_mem]
  intro p hp
  have hahead := h.ahead p ((h.stayed p).mp hp)
  rw [hdone] at hahead
  cases hahead

/-- **From a state of the invariant the walk alone ends, and no page is left.** -/
theorem ClearInv.finishes (h : ClearInv s) : s.Finishes := by
  obtain ⟨n, hdone⟩ := h.toSound.ends
  have hinv : ∀ m, ClearInv (ClearState.walkStep^[m] s) := by
    intro m
    induction m with
    | zero => exact h
    | succ m ih =>
        rw [Function.iterate_succ_apply']
        exact ih.walkStep
  exact ⟨n, hdone, (hinv n).stayed_done hdone⟩

/-- A page of the safety list that the walk has passed stays there. -/
theorem Sound.missed (h : Sound s) (hp : p ∈ s.zone.list .safety)
    (hnot : p ∉ s.walk.ahead s.zone) : ¬ s.Finishes := by
  have hstays : ∀ n, p ∈ (ClearState.walkStep^[n] s).zone.list .safety ∧
      p ∉ (ClearState.walkStep^[n] s).walk.ahead (ClearState.walkStep^[n] s).zone := by
    intro n
    induction n with
    | zero => exact ⟨hp, hnot⟩
    | succ n ih =>
        rw [Function.iterate_succ_apply']
        have hstep := (h.walks n).walkStep
        have hleft := (hstep.left p ih.1).resolve_left ih.2
        exact ⟨hleft, fun ha => ih.2 ((hstep.ahead p hleft).mp ha)⟩
  rintro ⟨n, _, hnil⟩
  have hmem := ((h.walks n).stayed p).mpr (hstays n).1
  rw [hnil] at hmem
  cases hmem

/-! ## A walk that lost the list -/

/-- The node whose `next` pointer is read next, or already the one to be tested, is not
on the safety list. -/
def LostWalk (z : Zone) : Walk → Prop
  | .first n => ¬ OnSafety z n
  | .test (.page _) tmp => ¬ OnSafety z tmp
  | .test n _ => n ≠ .head .safety
  | .advance tmp => ¬ OnSafety z tmp
  | .astray _ => True
  | _ => False

structure Lost (s : ClearState) : Prop where
  zone : ZoneInv s.zone
  isolated : ∀ l ∈ s.isolated, ∀ p ∈ l, (s.zone.flags p).lru = false
  walk : LostWalk s.zone s.walk

theorem mem_of_nextOf : ∀ {l : List Page}, nextOf l p = some q → q ∈ l
  | [], h => by cases h
  | a :: l, h => by
      rw [nextOf] at h
      split at h
      · exact List.mem_cons_of_mem _ (List.mem_of_mem_head? h)
      · exact List.mem_cons_of_mem _ (mem_of_nextOf h)

theorem after_lost {l : List Page} {n : Node} (hl : ∀ q ∈ l, q ∉ z.list .safety)
    (hn : ¬ OnSafety z n) : ¬ OnSafety z (ClearState.after l p n) := by
  rw [ClearState.after]
  cases hnext : nextOf l p with
  | none => exact hn
  | some q => exact hl q (mem_of_nextOf hnext)

/-- No `next` pointer leads from another list back to the safety list. -/
theorem Lost.next (h : Lost s) (hp : p ∉ s.zone.list .safety) :
    ¬ OnSafety s.zone (s.next (.page p)) := by
  have hother : ∀ k, k ≠ .safety → ∀ q ∈ s.zone.list k, q ∉ s.zone.list .safety :=
    fun k hk q hq => h.zone.not_mem hq hk.symm
  rw [ClearState.next]
  by_cases hactive : p ∈ s.zone.list .active
  · rw [if_pos hactive]
    exact after_lost (hother .active (by simp)) (by simp [OnSafety])
  · rw [if_neg hactive]
    by_cases hinactive : p ∈ s.zone.list .inactive
    · rw [if_pos hinactive]
      exact after_lost (hother .inactive (by simp)) (by simp [OnSafety])
    · rw [if_neg hinactive, if_neg hp]
      cases hi : s.isolated.findIdx? (fun l => decide (p ∈ l)) with
      | none => exact id
      | some i =>
          refine after_lost ?_ id
          intro q hq hq'
          have hlen : i < s.isolated.length := (List.findIdx?_eq_some_iff_getElem.mp hi).1
          have hmem : s.isolated.getD i [] ∈ s.isolated := by
            rw [List.getD_eq_getElem?_getD, List.getElem?_eq_getElem hlen]
            exact List.getElem_mem hlen
          have hon := ((h.zone.mem .safety q).mp hq').1
          rw [h.isolated _ hmem q hq] at hon
          cases hon

theorem Lost.readNext (h : Lost s) {n : Node} (hn : ¬ OnSafety s.zone n) :
    Lost { s with walk := .test n (s.next n) } := by
  refine ⟨h.zone, h.isolated, ?_⟩
  cases n with
  | page p => exact h.next hn
  | head k => exact fun hk => hn (by cases hk; rfl)
  | pageList i => exact fun hk => by cases hk
  | poison => exact fun hk => by cases hk

theorem Lost.walkStep (h : Lost s) : Lost s.walkStep := by
  obtain ⟨zone, isolated, walk, stayed⟩ := s
  cases walk with
  | start => exact absurd h.walk id
  | first n => exact h.readNext h.walk
  | advance tmp => exact h.readNext h.walk
  | test n tmp =>
      have hpos := h.walk
      cases n with
      | page p =>
          have ht := h.zone.takes_activate p
          refine ⟨ht.zone, fun l hl q hq => ht.off q (h.isolated l hl q hq), ?_⟩
          show ¬ OnSafety (zone.activatePage p) tmp
          intro hon
          rcases hon.cases with ⟨q, rfl, hq⟩ | rfl
          · rw [ht.list] at hq
            exact hpos (List.mem_of_mem_erase hq)
          · exact hpos rfl
      | head k =>
          cases k with
          | safety => exact absurd rfl hpos
          | active => exact ⟨h.zone, h.isolated, trivial⟩
          | inactive => exact ⟨h.zone, h.isolated, trivial⟩
      | pageList i => exact ⟨h.zone, h.isolated, trivial⟩
      | poison => exact ⟨h.zone, h.isolated, trivial⟩
  | done => exact absurd h.walk id
  | astray n => exact h

/-- **A lost walk never ends.** -/
theorem Lost.never_done (h : Lost s) : ¬ s.Finishes := by
  have hlost : ∀ n, Lost (ClearState.walkStep^[n] s) := by
    intro n
    induction n with
    | zero => exact h
    | succ n ih =>
        rw [Function.iterate_succ_apply']
        exact ih.walkStep
  rintro ⟨n, hdone, _⟩
  have hw := (hlost n).walk
  rw [hdone] at hw
  exact hw

theorem lostWalk_of_saved {w : Walk} (hw : w.saved = some p) (hp : p ∉ z.list .safety) :
    LostWalk z w := by
  have hpage : ∀ n : Node, n.page? = some p → ¬ OnSafety z n := by
    intro n hn
    cases n with
    | page q =>
        cases Option.some.inj hn
        exact hp
    | _ => cases hn
  cases w with
  | first n => exact hpage n hw
  | test n tmp =>
      cases n with
      | page q => exact hpage tmp hw
      | _ => cases hw
  | advance tmp => exact hpage tmp hw
  | _ => cases hw

/-! ## The steps of other CPUs -/

/-- The walk stays on the safety list when the saved page does. -/
theorem WalkOk.keep {w : Walk} (h : WalkOk z w)
    (hsaved : ∀ p, w.saved = some p → p ∈ z'.list .safety) : WalkOk z' w := by
  have hnode : ∀ n : Node, OnSafety z n → (∀ p, n.page? = some p → p ∈ z'.list .safety) →
      OnSafety z' n := by
    intro n hn hp
    rcases hn.cases with ⟨q, rfl, _⟩ | rfl
    · exact hp q rfl
    · rfl
  cases w with
  | first n => exact hnode n h hsaved
  | test n tmp =>
      cases n with
      | page q => exact ⟨hnode tmp h.1 hsaved, h.2⟩
      | _ => exact h
  | advance tmp => exact hnode tmp h hsaved
  | _ => exact h

theorem Walk.saved_onSafety {w : Walk} (h : WalkOk z w) (hw : w.saved = some p) :
    p ∈ z.list .safety := by
  have hnode : ∀ n : Node, OnSafety z n → n.page? = some p → p ∈ z.list .safety := by
    intro n hn hp
    rcases hn.cases with ⟨q, rfl, hq⟩ | rfl
    · cases Option.some.inj hp
      exact hq
    · cases hp
  cases w with
  | first n => exact hnode n h hw
  | test n tmp =>
      cases n with
      | page q => exact hnode tmp h.1 hw
      | _ => cases hw
  | advance tmp => exact hnode tmp h hw
  | _ => cases hw

/-- What is ahead of the walk, after a section that takes one page other than
the saved one. -/
theorem Takes.mem_ahead (ht : Takes z z' p) {w : Walk} (hw : w.saved ≠ some p) (hqp : q ≠ p)
    (hq : q ∈ w.ahead z) : q ∈ w.ahead z' := by
  have hnode : ∀ n : Node, n.page? ≠ some p → n ≠ .page p := by
    rintro n hn rfl
    exact hn rfl
  cases w with
  | start =>
      show q ∈ z'.list .safety
      rw [ht.list]
      exact (List.mem_erase_of_ne hqp).mpr hq
  | first n => exact (ht.mem_pagesFrom (hnode n hw) hqp).mpr hq
  | test n tmp =>
      cases n with
      | page r =>
          rcases List.mem_cons.mp hq with hq | hq
          · exact List.mem_cons.mpr (Or.inl hq)
          · exact List.mem_cons_of_mem _ ((ht.mem_pagesFrom (hnode tmp hw) hqp).mpr hq)
      | _ => cases hq
  | advance tmp => exact (ht.mem_pagesFrom (hnode tmp hw) hqp).mpr hq
  | _ => cases hq

/-- `activate_page` and the release of a page by another CPU. -/
theorem ClearInv.takes (h : ClearInv s) (ht : Takes s.zone z' p) :
    (s.walk.saved ≠ some p → ClearInv (s.moved z')) ∧
      (s.walk.saved = some p → Lost (s.moved z')) := by
  have hsub : ∀ q ∈ z'.list .safety, q ∈ s.zone.list .safety := by
    intro q hq
    rw [ht.list] at hq
    exact List.mem_of_mem_erase hq
  constructor
  · intro hsaved
    refine ⟨h.toSound.moved ht.zone hsub ht.off (h.walk.keep ?_), ?_⟩
    · intro q hq
      rw [ht.list]
      refine (List.mem_erase_of_ne ?_).mpr (Walk.saved_onSafety h.walk hq)
      rintro rfl
      exact hsaved hq
    · intro q hq
      refine ht.mem_ahead hsaved ?_ (h.ahead q (hsub q hq))
      rintro rfl
      change q ∈ z'.list .safety at hq
      rw [ht.list] at hq
      exact (h.zone.nodup .safety).not_mem_erase hq
  · intro hsaved
    refine ⟨ht.zone, fun l hl q hq => ht.off q (h.isolated l hl q hq), lostWalk_of_saved hsaved ?_⟩
    show p ∉ z'.list .safety
    rw [ht.list]
    exact (h.zone.nodup .safety).not_mem_erase

/-- An isolation by another CPU takes pages of the safety list only. -/
theorem isolated_sub {swapClusterMax : Nat} {testone : Nat → Bool} {r : Zone.Isolation}
    (hz : ZoneInv z) (hr : z.isolateCache .safety swapClusterMax testone = some r) :
    ZoneInv r.zone ∧ (∀ q ∈ r.zone.list .safety, q ∈ z.list .safety) ∧
      (∀ q, (z.flags q).lru = false → (r.zone.flags q).lru = false) ∧
      ∀ q ∈ r.taken, (r.zone.flags q).lru = false := by
  obtain ⟨r', hr', hz', ht⟩ := hz.isolateCache .safety swapClusterMax testone
  cases Option.some.inj (hr.symm.trans hr')
  have htaken : ∀ q ∈ r.taken, (r.zone.flags q).lru = false := by
    intro q hq
    rw [ht.flags q hq]
    rfl
  refine ⟨hz', ?_, ?_, htaken⟩
  · intro q hq
    have hmem := (hz'.mem .safety q).mp hq
    have hnot : q ∉ r.taken := by
      intro hq'
      rw [htaken q hq'] at hmem
      cases hmem.1
    rw [ht.other q hnot] at hmem
    exact (hz.mem .safety q).mpr hmem
  · intro q hq
    have hnot : q ∉ r.taken := by
      intro hq'
      rw [(ht.came q hq').1] at hq
      cases hq
    rw [ht.other q hnot]
    exact hq

theorem ClearInv.isolates {params : Params} {testone : Nat → Bool} {r : Zone.Isolation}
    (h : ClearInv s)
    (hr : s.zone.isolateCache .safety params.swapClusterMax testone = some r)
    (hs' : s' = { s.moved r.zone with isolated := s.isolated ++ [r.taken.reverse] }) :
    (Harmless params s (.isolate testone) → ClearInv s') ∧
      (¬ Harmless params s (.isolate testone) → ¬ s'.Finishes) := by
  obtain ⟨hz, hsub, hoff, htaken⟩ := isolated_sub h.zone hr
  have hisolated : ∀ l ∈ s.isolated ++ [r.taken.reverse], ∀ p ∈ l,
      (r.zone.flags p).lru = false := by
    intro l hl q hq
    rcases List.mem_append.mp hl with hl | hl
    · exact hoff q (h.isolated l hl q hq)
    · rw [List.mem_singleton.mp hl, List.mem_reverse] at hq
      exact htaken q hq
  have hsound : (∀ p, s.walk.saved = some p → p ∈ r.zone.list .safety) → Sound s' := by
    intro hsaved
    have hmoved := h.toSound.moved hz hsub hoff (h.walk.keep hsaved)
    rw [hs']
    exact ⟨hz, hisolated, hmoved.walk, hmoved.stayed⟩
  have hzone : s'.zone = r.zone ∧ s'.walk = s.walk := by
    rw [hs']
    exact ⟨rfl, rfl⟩
  constructor
  · intro hharm
    obtain ⟨hsaved, hahead⟩ := hharm r hr
    refine ⟨hsound hsaved, ?_⟩
    rw [hzone.1, hzone.2]
    exact fun q hq => hahead q (h.ahead q (hsub q hq)) hq
  · intro hharm
    by_cases hsaved : ∀ p, s.walk.saved = some p → p ∈ r.zone.list .safety
    · -- the saved page is still there: some page ahead was put back behind the walk
      have hbehind : ¬ ∀ p ∈ s.walk.ahead s.zone, p ∈ r.zone.list .safety →
          p ∈ s.walk.ahead r.zone := by
        intro hahead
        refine hharm (fun r' hr' => ?_)
        cases Option.some.inj (hr.symm.trans hr')
        exact ⟨hsaved, hahead⟩
      simp only [not_forall] at hbehind
      obtain ⟨p, _, hp, hnot⟩ := hbehind
      refine (hsound hsaved).missed (p := p) ?_ ?_
      · rw [hzone.1]
        exact hp
      · rw [hzone.1, hzone.2]
        exact hnot
    · simp only [not_forall] at hsaved
      obtain ⟨p, hp, hnot⟩ := hsaved
      refine Lost.never_done ⟨?_, ?_, ?_⟩
      · rw [hzone.1]
        exact hz
      · rw [hs']
        exact hisolated
      · rw [hzone.1, hzone.2]
        exact lostWalk_of_saved hp hnot

/-- **One step keeps the invariant, or spoils the walk.** -/
theorem ClearInv.step {params : Params} {a : Act} (h : ClearInv s)
    (hst : ClearStep params s a s') :
    (Harmless params s a → ClearInv s') ∧ (¬ Harmless params s a → ¬ s'.Finishes) := by
  cases hst with
  | walk => exact ⟨fun _ => h.walkStep, fun hn => absurd trivial hn⟩
  | @activate p =>
      obtain ⟨hkeep, hlost⟩ := h.takes (h.zone.takes_activate p)
      exact ⟨hkeep, fun hn => (hlost (not_not.mp hn)).never_done⟩
  | @release p =>
      obtain ⟨hkeep, hlost⟩ := h.takes (h.zone.takes_release p)
      exact ⟨hkeep, fun hn => (hlost (not_not.mp hn)).never_done⟩
  | isolate hr => exact h.isolates hr rfl

end Alone

theorem clearInv_reach {params : Params} {s : ClearState}
    (h : (clearSystem params).Reach (Harmless params) s) : ClearInv s := by
  refine h.invariant (I := ClearInv) ?_ (fun _ _ _ hI hok hst => (hI.step hst).1 hok)
  rintro s ⟨hz, hisolated, hwalk, hstayed⟩
  refine ⟨⟨hz, ?_, ?_, ?_⟩, ?_⟩
  · rw [hisolated]
    simp
  · rw [hwalk]
    trivial
  · intro p
    rw [hstayed]
  · rw [hwalk]
    exact fun p hp => hp

/-- **Emptying the safety list is safe exactly as long as the other CPUs leave
the saved page where it is.** In every state of a run whose steps are harmless,
the walk has used no node but pages of the zone as a page, it ends once the
other CPUs stop, and at its end no page that was on the safety list all the time
is there. The first step that is not harmless spoils it: alone, the walk then
does not end, or leaves such a page. -/
theorem clear_safety_list_safe (params : Params) (s : ClearState)
    (h : (clearSystem params).Reach (Harmless params) s) :
    (∀ n, s.walk ≠ .astray n) ∧ s.Finishes ∧ (s.walk = .done → s.stayed = []) ∧
      ∀ a s', ClearStep params s a s' → (Harmless params s a ↔ s'.Finishes) := by
  have hI := clearInv_reach h
  refine ⟨?_, hI.finishes, hI.stayed_done, ?_⟩
  · intro n hn
    have hw := hI.walk
    rw [hn] at hw
    exact hw
  · intro a s' hst
    obtain ⟨hkeep, hspoil⟩ := hI.step hst
    refine ⟨fun hok => (hkeep hok).finishes, fun hfin => ?_⟩
    by_contra hn
    exact hspoil hn hfin

/-! ## Two runs over the safety list `[5, 6]` -/

def victim : Flags := ⟨true, false, true, false⟩

/-- Pages 5 and 6 on the safety list, and the walk about to begin. -/
def twoSaved : ClearState where
  zone := (Zone.empty.enter 6 victim).enter 5 victim
  isolated := []
  walk := .start
  stayed := [5, 6]

theorem twoSaved_init (params : Params) : (clearSystem params).init twoSaved := by
  have hone : ZoneInv (Zone.empty.enter 6 victim) := ZoneInv.empty.enter rfl rfl (by decide)
  exact ⟨hone.enter (by decide) rfl (by decide), rfl, rfl, rfl⟩

theorem reach_walkStep {params : Params} {ok : ClearState → Act → Prop} {s : ClearState}
    (h : (clearSystem params).Reach ok s) (hok : ok s .walk) :
    (clearSystem params).Reach ok s.walkStep :=
  h.step .walk hok ClearStep.walk

/-- The walk has read page 5 and its `next`, page 6. -/
def twoRead : ClearState := twoSaved.walkStep.walkStep

theorem twoRead_reach (params : Params) :
    (clearSystem params).Reach (Harmless params) twoRead :=
  reach_walkStep (reach_walkStep (.init (twoSaved_init params)) trivial) trivial

/-- Another CPU activates page 5, which the walk has read already. -/
theorem twoRead_activate :
    (twoRead.moved (twoRead.zone.activatePage 5)).Finishes := by
  obtain ⟨_, _, _, hstep⟩ := clear_safety_list_safe ⟨32, 14⟩ twoRead (twoRead_reach _)
  refine (hstep (.activate 5) _ .activate).mp ?_
  show twoRead.walk.saved ≠ some 5
  decide

/-- Another CPU activates page 6, and the walk goes on. -/
def escaped : ClearState :=
  (twoRead.moved (twoRead.zone.activatePage 6)).walkStep.walkStep.walkStep.walkStep.walkStep

/-- **The walk escapes.** The `next` of page 6 leads to the head of the active list,
which is then used as a page. -/
theorem clear_safety_list_escapes :
    (clearSystem ⟨32, 14⟩).Reach System.anyStep escaped ∧
      escaped.walk = .astray (.head .active) ∧ ¬ escaped.Finishes := by
  have hread : (clearSystem ⟨32, 14⟩).Reach System.anyStep twoRead :=
    (twoRead_reach _).mono (fun _ _ _ => trivial)
  have hmoved : (clearSystem ⟨32, 14⟩).Reach System.anyStep
      (twoRead.moved (twoRead.zone.activatePage 6)) :=
    hread.step (.activate 6) trivial ClearStep.activate
  have hlost : Lost (twoRead.moved (twoRead.zone.activatePage 6)) := by
    have hI := clearInv_reach (twoRead_reach ⟨32, 14⟩)
    exact (hI.takes (hI.zone.takes_activate 6)).2 (by decide)
  refine ⟨?_, by decide, ?_⟩
  · exact reach_walkStep (reach_walkStep (reach_walkStep (reach_walkStep
      (reach_walkStep hmoved trivial) trivial) trivial) trivial) trivial
  · exact hlost.walkStep.walkStep.walkStep.walkStep.walkStep.never_done

end LinuxHacks.Mru
