import LinuxHacks.Tags.Adding

/-!
# The result of `ext2_rmtag`

The loop overwrites its parameter `taglen`, so an entry is taken for the word
when it agrees with it over its own length (`Agrees`): the tag itself, but also
each prefix of the word. `rmtag_exact` says when the call nevertheless removes
the word and nothing else.
-/

namespace LinuxHacks.Tags

open LinuxHacks.Lib

/-! ## The comparison -/

/-- The stored tag `t` is the word or a prefix of it, or it goes on with a NUL
where the word ends. -/
def Agrees (w : Word) (t : Bytes) : Prop := t <+: w.bytes ∨ w.bytes ++ [0] <+: t

instance (w : Word) : DecidablePred (Agrees w) := fun t =>
  inferInstanceAs (Decidable (t <+: w.bytes ∨ w.bytes ++ [0] <+: t))

/-- `strncmp` over the whole of `a`, against a NUL-terminated word. -/
theorem strncmpEq_length_iff : ∀ (a w : Bytes), 0 ∉ w →
    (strncmpEq a (w ++ [0]) a.length = some true ↔ a <+: w ∨ w ++ [0] <+: a)
  | [], w, _ => by simp [strncmpEq]
  | x :: a, [], _ => by
      rw [List.nil_append, List.length_cons, strncmpEq]
      by_cases hx : x = 0
      · simp [hx]
      · simp [hx, List.cons_prefix_cons, Ne.symm hx]
  | x :: a, y :: w, hw => by
      have hw' : 0 ∉ w := fun h => hw (List.mem_cons_of_mem _ h)
      have hy : y ≠ 0 := by
        rintro rfl
        exact hw List.mem_cons_self
      rw [List.cons_append, List.length_cons, strncmpEq, List.cons_prefix_cons,
        List.cons_prefix_cons]
      by_cases hxy : x = y
      · subst hxy
        rw [if_neg (by simp), if_neg hy, strncmpEq_length_iff a w hw']
        simp
      · rw [if_pos hxy]
        simp [hxy, Ne.symm hxy]

theorem takes_iff_agrees (w : Word) (t : Bytes) : Takes w t ↔ Agrees w t :=
  strncmpEq_length_iff t w.bytes w.noNul

theorem agrees_self (w : Word) : Agrees w w.bytes := Or.inl (List.prefix_refl _)

/-! ## Exact removal -/

/-- The word leaves the list of tags and nothing else does, the last one with
its block; a word that is not a tag is refused and nothing changes. -/
def RemovesExactly (s : State) (now : Nat) (ts : List Bytes) (w : Word) : Prop :=
  ∃ e s', ext2Rmtag s now w = some (e, s') ∧
    (w.bytes ∈ ts → e = 0 ∧ FileHolds s' (ts.erase w.bytes) ∧
      (ts.length = 1 → s'.iFileTags = 0)) ∧
    (w.bytes ∉ ts → e = -EINVAL ∧ s'.block = s.block ∧ s'.iFileTags = s.iFileTags)

/-- A refused call is right when the word is not a tag. -/
theorem removesExactly_iff_of_refused {s : State} {now : Nat} {ts : List Bytes} {w : Word}
    (hr : ext2Rmtag s now w = some (-EINVAL, s)) :
    RemovesExactly s now ts w ↔ w.bytes ∉ ts := by
  constructor
  · rintro ⟨e, s', hr', hin, _⟩ hmem
    rw [hr] at hr'
    cases hr'
    exact absurd (hin hmem).1 (by decide)
  · intro hnot
    exact ⟨-EINVAL, s, hr, fun h => absurd h hnot, fun _ => ⟨rfl, rfl, rfl⟩⟩

/-- A call that removed the one entry `t` it took is right when the word is a
tag, which is `t` then. -/
theorem removesExactly_iff_of_removed {s s' : State} {now : Nat} (pre post : List Bytes)
    {t : Bytes} {w : Word} (hr : ext2Rmtag s now w = some (0, s'))
    (hrest : ∀ u ∈ pre ++ post, ¬ Agrees w u) (hholds : FileHolds s' (pre ++ post))
    (hlast : (pre ++ t :: post).length = 1 → s'.iFileTags = 0) :
    RemovesExactly s now (pre ++ t :: post) w ↔ w.bytes ∈ pre ++ t :: post := by
  constructor
  · rintro ⟨e, s₁, hr₁, _, hout⟩
    rw [hr] at hr₁
    cases hr₁
    by_contra hnot
    exact absurd (hout hnot).1 (by decide)
  · intro hmem
    have hpre : w.bytes ∉ pre := fun h => hrest _ (List.mem_append_left _ h) (agrees_self w)
    have hpost : w.bytes ∉ post := fun h => hrest _ (List.mem_append_right _ h) (agrees_self w)
    have ht : w.bytes = t := by
      rcases List.mem_append.mp hmem with h | h
      · exact absurd h hpre
      · rcases List.mem_cons.mp h with h | h
        · exact h
        · exact absurd h hpost
    have herase : (pre ++ t :: post).erase w.bytes = pre ++ post := by
      rw [List.erase_append_right _ hpre, ht, List.erase_cons_head]
    refine ⟨0, s', hr, fun _ => ⟨rfl, ?_, hlast⟩, fun hnot => absurd hmem hnot⟩
    rw [herase]
    exact hholds

/-- How many entries are taken for the word, when it is one. -/
theorem countP_agrees_one (pre post : List Bytes) {t : Bytes} {w : Word} (ht : Agrees w t)
    (hrest : ∀ u ∈ pre ++ post, ¬ Agrees w u) :
    (pre ++ t :: post).countP (Agrees w ·) = 1 := by
  have hnone : (pre ++ post).countP (Agrees w ·) = 0 := by
    rw [List.countP_eq_zero]
    intro u hu
    simpa using hrest u hu
  rw [List.countP_append] at hnone ⊢
  rw [List.countP_cons_of_pos (by simpa using ht)]
  omega

/-- A second entry taken for the word. -/
theorem countP_agrees_two (pre post : List Bytes) {t : Bytes} {w : Word} (ht : Agrees w t)
    (hu : ∃ u ∈ pre, Agrees w u) : (pre ++ t :: post).countP (Agrees w ·) ≠ 1 := by
  obtain ⟨u, hmem, hu⟩ := hu
  have hpos : 0 < pre.countP (Agrees w ·) :=
    List.countP_pos_iff.mpr ⟨u, hmem, by simpa using hu⟩
  rw [List.countP_append, List.countP_cons_of_pos (by simpa using ht)]
  omega

/-- **When a removal is exact.** Exactly when one stored tag agrees with a word
that is a tag, and not exactly one with a word that is none. -/
theorem rmtag_exact {s : State} {ts : List Bytes} (now : Nat) (w : Word) (hd : DeviceOk s)
    (htagged : s.iFileTags ≠ 0) (hdec : Decodes (s.block s.iFileTags) ts) :
    RemovesExactly s now ts w ↔ (w.bytes ∈ ts ↔ ts.countP (Agrees w ·) = 1) := by
  obtain ⟨r, hr, hout⟩ := ext2Rmtag_tagged now w hd htagged hdec
  cases hout with
  | missing hnone =>
      have hnot : w.bytes ∉ ts := fun h =>
        hnone _ h ((takes_iff_agrees w w.bytes).mpr (agrees_self w))
      have hcount : ts.countP (Agrees w ·) = 0 := by
        rw [List.countP_eq_zero]
        intro t ht
        simpa using fun h => hnone t ht ((takes_iff_agrees w t).mpr h)
      rw [removesExactly_iff_of_refused hr, hcount]
      simp
  | twice pre t post hts ht hu =>
      subst hts
      obtain ⟨u, hmem, hu⟩ := hu
      have hcount := countP_agrees_two _ post ((takes_iff_agrees w t).mp ht)
        ⟨u, hmem, (takes_iff_agrees w u).mp hu⟩
      rw [removesExactly_iff_of_refused hr]
      exact (iff_false_right hcount).symm
  | last t s' hts ht _ _ htags _ =>
      subst hts
      have hcount : [t].countP (Agrees w ·) = 1 :=
        countP_agrees_one [] [] ((takes_iff_agrees w t).mp ht) (by simp)
      have hright := removesExactly_iff_of_removed [] [] (t := t) hr (by simp)
        (Or.inl ⟨htags, rfl⟩) (fun _ => htags)
      exact hright.trans (iff_true_right hcount).symm
  | removed pre t post s' hts ht hrest hne _ htags _ hdec' =>
      subst hts
      have hrest' : ∀ u ∈ pre ++ post, ¬ Agrees w u := fun u hu h =>
        hrest u hu ((takes_iff_agrees w u).mpr h)
      have hcount := countP_agrees_one pre post ((takes_iff_agrees w t).mp ht) hrest'
      have hholds : FileHolds s' (pre ++ post) := by
        refine Or.inr ⟨?_, ?_⟩
        · rw [htags]
          exact htagged
        · rw [htags]
          exact hdec'
      have hlast : (pre ++ t :: post).length = 1 → s'.iFileTags = 0 := by
        intro hlen
        have hpos := List.length_pos_iff.mpr hne
        simp only [List.length_append, List.length_cons] at hlen hpos
        omega
      have hright := removesExactly_iff_of_removed pre post (t := t) hr hrest' hholds hlast
      exact hright.trans (iff_true_right hcount).symm

/-- The word `ab`, of which the tag `a` is a prefix. -/
def wordAB : Word := ⟨[97, 98], by decide, by decide⟩

def wordBC : Word := ⟨[98, 99], by decide, by decide⟩

/-- The tags `a`, `bc` and `d`. -/
def threeTagsBlock : Bytes := [1, 0, 97, 2, 0, 98, 99, 1, 0, 100, 0, 0] ++ List.replicate 1012 7

theorem threeTags_ok : DeviceOk (deviceWith threeTagsBlock) :=
  deviceWith_ok (by rw [threeTagsBlock, List.length_append, List.length_replicate]; rfl)

theorem threeTags_decodes : Decodes ((deviceWith threeTagsBlock).block 5)
    [[97], [98, 99], [100]] :=
  ⟨by decide, by decide, by decide, ⟨List.replicate 1012 7, rfl⟩⟩

/-- The tag in the middle goes, and the other two stay in their order. -/
theorem threeTags_rmtag :
    RemovesExactly (deviceWith threeTagsBlock) 1 [[97], [98, 99], [100]] wordBC ∧
      [[97], [98, 99], [100]].erase wordBC.bytes = [[97], [100]] :=
  ⟨(rmtag_exact 1 wordBC threeTags_ok (by decide) threeTags_decodes).mpr (by decide), by decide⟩

/-- Removing `ab` from a file with the tag `a` removes `a`. -/
theorem prefix_removed : ¬ RemovesExactly taggedDevice 1 [[97]] wordAB := by
  rintro ⟨e, s', hr, _, hout⟩
  have hzero : (ext2Rmtag taggedDevice 1 wordAB).map Prod.fst = some 0 := by decide +kernel
  rw [hr] at hzero
  have hrefused : e = -EINVAL := (hout (by decide)).1
  have hremoved : e = 0 := Option.some.inj hzero
  rw [hremoved] at hrefused
  exact absurd hrefused (by decide)

end LinuxHacks.Tags
