import LinuxHacks.Tags.Outcomes

/-!
# Every sequence of tag calls keeps the format

Each outcome of a call leaves the file without a tag block or with one that
decodes to some list of tags, and so does every sequence of calls.
-/

namespace LinuxHacks.Tags

open LinuxHacks.Lib

/-! ## One call -/

/-- No tag block, or a well-formed one. -/
def FileOk (s : State) : Prop := s.iFileTags = 0 ∨ WellFormed (s.block s.iFileTags)

def Op.Sized (sBlocksize : Nat) : Op → Prop
  | .add _ new _ => new.Sized sBlocksize
  | .rm _ _ => True

/-- What every call keeps. -/
structure Kept (s s' : State) : Prop where
  device : DeviceOk s'
  sBlocksize : s'.sBlocksize = s.sBlocksize
  file : FileOk s'

/-- The file's block holds `ts` after the call. -/
theorem Within.kept {s s' : State} {id : Nat} {ts : List Bytes} (h : Within s s' id)
    (htags : s'.iFileTags = id) (hdec : Decodes (s'.block id) ts) : Kept s s' := by
  refine ⟨h.device, h.sBlocksize, Or.inr ⟨ts, ?_⟩⟩
  rw [htags]
  exact hdec

theorem Within.kept_untagged {s s' : State} {id : Nat} (h : Within s s' id)
    (htags : s'.iFileTags = 0) : Kept s s' :=
  ⟨h.device, h.sBlocksize, Or.inl htags⟩

theorem ext2Addtag_kept {s : State} (now : Nat) {new : NewBlock} (w : Word) (hd : DeviceOk s)
    (hf : FileOk s) (hnew : new.Sized s.sBlocksize) :
    ∃ r, ext2Addtag s now new w = some r ∧ Kept s r.2 := by
  by_cases hnone : s.iFileTags = 0
  · obtain ⟨r, hr, hout⟩ := ext2Addtag_untagged now new w hd hnone hnew
    refine ⟨r, hr, ?_⟩
    cases hout with
    | refused _ => exact ⟨hd, rfl, hf⟩
    | noBlock _ _ _ => exact ⟨hd, rfl, hf⟩
    | written id data s' _ _ hwithin htags _ hdec => exact hwithin.kept htags hdec
  · obtain ⟨ts, hdec⟩ := hf.resolve_left hnone
    obtain ⟨r, hr, hout⟩ := ext2Addtag_tagged now new w hd hnone hdec
    refine ⟨r, hr, ?_⟩
    cases hout with
    | present _ => exact ⟨hd, rfl, hf⟩
    | refused _ _ => exact ⟨hd, rfl, hf⟩
    | written s' _ _ hwithin htags _ hdec' => exact hwithin.kept htags hdec'

theorem ext2Rmtag_kept {s : State} (now : Nat) (w : Word) (hd : DeviceOk s) (hf : FileOk s) :
    ∃ r, ext2Rmtag s now w = some r ∧ Kept s r.2 := by
  by_cases hnone : s.iFileTags = 0
  · obtain ⟨r, hr, hout⟩ := ext2Rmtag_untagged now w hd hnone
    exact ⟨r, hr, hout.within.kept_untagged hout.iFileTags⟩
  · obtain ⟨ts, hdec⟩ := hf.resolve_left hnone
    obtain ⟨r, hr, hout⟩ := ext2Rmtag_tagged now w hd hnone hdec
    refine ⟨r, hr, ?_⟩
    cases hout with
    | missing _ => exact ⟨hd, rfl, hf⟩
    | twice _ _ _ _ _ _ => exact ⟨hd, rfl, hf⟩
    | last t s' _ _ hwithin _ htags _ => exact hwithin.kept_untagged htags
    | removed pre t post s' _ _ _ _ hwithin htags _ hdec' => exact hwithin.kept htags hdec'

theorem Op.run_kept {s : State} (op : Op) (hd : DeviceOk s) (hf : FileOk s)
    (hop : op.Sized s.sBlocksize) : ∃ r, op.run s = some r ∧ Kept s r.2 := by
  cases op with
  | add now new w => exact ext2Addtag_kept now w hd hf hop
  | rm now w => exact ext2Rmtag_kept now w hd hf

/-! ## Every run -/

/-- **Tag block format invariant.** From a file without a tag block or with a
well-formed one, every sequence of additions and removals, successful or
failing and whatever the allocator does, runs without touching a byte outside
the buffers and ends with no tag block or a well-formed one. -/
theorem tag_format_invariant (ops : List Op) (s : State) (hd : DeviceOk s)
    (hops : ∀ op ∈ ops, op.Sized s.sBlocksize)
    (hf : s.iFileTags = 0 ∨ WellFormed (s.block s.iFileTags)) :
    ∃ s', runOps ops s = some s' ∧
      (s'.iFileTags = 0 ∨ WellFormed (s'.block s'.iFileTags)) := by
  induction ops generalizing s with
  | nil => exact ⟨s, rfl, hf⟩
  | cons op ops ih =>
      obtain ⟨r, hr, hkept⟩ := op.run_kept hd hf (hops op List.mem_cons_self)
      have hrest : ∀ op ∈ ops, op.Sized r.2.sBlocksize := by
        intro op' hop'
        rw [hkept.sBlocksize]
        exact hops op' (List.mem_cons_of_mem _ hop')
      obtain ⟨s', hs', hfile⟩ := ih r.2 hkept.device hrest hkept.file
      refine ⟨s', ?_, hfile⟩
      rw [runOps, hr]
      exact hs'

/-! Blocks of eight bytes; the allocator hands out block 5 full of stale bytes. -/

def smallDevice : State where
  sBlocksize := 8
  block := fun _ => List.replicate 8 7
  iFileTags := 0
  iCtime := 0
  dirtied := []
  freed := []

def wordA : Word := ⟨[97], by decide, by decide⟩

def wordB : Word := ⟨[98], by decide, by decide⟩

/-- Two additions, a repeated one, and the removal of the first tag. -/
def smallCalls : List Op :=
  [.add 1 (.block 5 (List.replicate 8 7)) wordA, .add 2 (.error (-ENOSPC)) wordB,
    .add 3 (.error (-ENOSPC)) wordB, .rm 4 wordA]

theorem smallDevice_calls : ∃ s', runOps smallCalls smallDevice = some s' ∧
    (s'.iFileTags = 0 ∨ WellFormed (s'.block s'.iFileTags)) := by
  refine tag_format_invariant smallCalls smallDevice ⟨fun _ => rfl, by decide⟩ ?_ (Or.inl rfl)
  intro op hop
  simp only [smallCalls, List.mem_cons, List.not_mem_nil, or_false] at hop
  rcases hop with rfl | rfl | rfl | rfl
  · rfl
  · trivial
  · trivial
  · trivial

example : (runOps smallCalls smallDevice).map (fun s => (s.iFileTags, s.block 5)) =
    some (5, [1, 0, 98, 0, 0, 98, 0, 0]) := by
  decide

end LinuxHacks.Tags
