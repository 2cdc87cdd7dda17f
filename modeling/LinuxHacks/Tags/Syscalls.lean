import LinuxHacks.Tags.Reading

/-!
# The word of `sys_addtag` and `sys_rmtag` (`HW6/fs/inode.c`)

Both calls copy the user's word into a buffer of `len + 1` bytes and put a NUL
behind it. The sum is a `size_t`, so that for the largest `len` the request is
for 0 bytes: `copy_inside` says when every byte that is written lies in the
buffer, and `handsOn_word` that the word arrives whole wherever the sum does not
wrap.

`kmalloc` and `strncpy_from_user` are not part of the repository. The first
answers a request with `NULL` or a buffer at least as large (`TagCall.fits`), the
second as `UserWord` lists.
-/

namespace LinuxHacks.Tags

open LinuxHacks.Lib

/-- What `strncpy_from_user(dst, src, count)` does: it copies a string with its
NUL, or the first `count` bytes of a longer one, or meets an unreadable byte. -/
inductive UserWord (count : Nat) where
  | string (s : Bytes) (noNul : 0 ∉ s) (lt : s.length < count)
  | cut (s : Bytes) (noNul : 0 ∉ s) (len : s.length = count)
  | fault (s : Bytes) (le : s.length ≤ count)

/-- The bytes stored at `dst`. -/
def UserWord.stored {count : Nat} : UserWord count → Bytes
  | .string s _ _ => s ++ [0]
  | .cut s _ _ => s
  | .fault s _ => s

/-- The return value, in 32 bits. -/
def UserWord.result {count : Nat} : UserWord count → Nat
  | .string s _ _ => s.length
  | .cut s _ _ => s.length
  | .fault _ _ => sizeTOfInt (-EFAULT)

/-- One call: the argument `len`, where the path leads, the buffer that
`kmalloc(len+1)` returns, and the user's word. -/
structure TagCall where
  len : Nat
  len_lt : len < 2 ^ 32
  lookup : PathLookup
  memWord : Option Bytes
  fits : ∀ mem, memWord = some mem → sizeT (len + 1) ≤ mem.length ∧ mem.length < 2 ^ 32
  word : UserWord len

/-- `real_len`, an `int`. -/
def TagCall.realLen (c : TagCall) : Int := intOfSizeT c.word.result

/-- From `kmalloc` to the terminator: an error, or `mem_word` and `real_len`. -/
def copyWord (c : TagCall) : Option (Except Int (Bytes × Int)) :=
  match c.memWord with
  | none => some (.error (-ENOMEM))
  | some mem => do
      let mem₁ ← memcpy mem 0 c.word.stored
      if c.realLen < 0 then some (.error (-EFAULT))
      else do
        let mem₂ ← memcpy mem₁ c.len [0]
        some (.ok (mem₂, c.realLen))

/-- A system call that hands the word to the operation `iOp` of the inode. -/
def tagSyscall {α : Type} (c : TagCall) (iOp : Bytes → Int → Option (Int × α)) (a : α) :
    Option (Int × α) :=
  if c.len = 0 then some (-EINVAL, a)
  else
    match c.lookup with
    | .failed error => some (error, a)
    | .found hasOp => do
        match ← copyWord c with
        | .error error => some (error, a)
        | .ok (memWord, realLen) => if hasOp then iOp memWord realLen else some (-ENOSYS, a)

def sysAddtag {α : Type} (c : TagCall) (addTag : Bytes → Int → Option (Int × α)) (a : α) :
    Option (Int × α) :=
  tagSyscall c addTag a

def sysRmtag {α : Type} (c : TagCall) (rmTag : Bytes → Int → Option (Int × α)) (a : α) :
    Option (Int × α) :=
  tagSyscall c rmTag a

/-! ## The word -/

/-- The word gets past the check of `real_len`: it could be read, and its length
is a non-negative `int`. -/
def UserWord.Accepted {count : Nat} : UserWord count → Prop
  | .string s _ _ => s.length < 2 ^ 31
  | .cut s _ _ => s.length < 2 ^ 31
  | .fault _ _ => False

theorem UserWord.length_stored_le {count : Nat} (u : UserWord count) : u.stored.length ≤ count := by
  cases u with
  | string s _ hlt =>
      rw [stored, List.length_append, List.length_singleton]
      exact hlt
  | cut s _ hlen => exact hlen.le
  | fault s hle => exact hle

/-- An accepted word with its NUL, which the call itself adds behind a cut one. -/
theorem UserWord.Accepted.word {count : Nat} {u : UserWord count} (h : u.Accepted) :
    ∃ w : Word, intOfSizeT u.result = w.bytes.length ∧ w.bytes.length ≤ count ∧
      (u.stored = w.cstr ∨ u.stored = w.bytes ∧ w.bytes.length = count) := by
  cases u with
  | string s hnul hlt => exact ⟨⟨s, hnul, h⟩, if_pos h, hlt.le, Or.inl rfl⟩
  | cut s hnul hlen => exact ⟨⟨s, hnul, h⟩, if_pos h, hlen.le, Or.inr ⟨rfl, hlen⟩⟩
  | fault s hle => exact absurd h id

theorem UserWord.result_neg {count : Nat} {u : UserWord count} (hcount : count < 2 ^ 32)
    (h : ¬ u.Accepted) : intOfSizeT u.result < 0 := by
  cases u with
  | string s _ hlt =>
      have hlong : ¬ s.length < 2 ^ 31 := h
      rw [result, intOfSizeT, if_neg hlong]
      omega
  | cut s _ hlen =>
      have hlong : ¬ s.length < 2 ^ 31 := h
      rw [result, intOfSizeT, if_neg hlong]
      omega
  | fault s _ =>
      rw [result]
      decide

theorem realLen_nonneg_iff (c : TagCall) : ¬ c.realLen < 0 ↔ c.word.Accepted := by
  constructor
  · intro h
    by_contra hrefused
    exact h (UserWord.result_neg c.len_lt hrefused)
  · intro h
    obtain ⟨w, hlen, _⟩ := h.word
    rw [TagCall.realLen, hlen]
    omega

/-- The buffer with the terminator. -/
theorem memcpy_terminator {mem : Bytes} {len : Nat} (hlen : len < mem.length) :
    memcpy mem len [0] = some (mem.take len ++ 0 :: mem.drop (len + 1)) := by
  rw [memcpy_of_le (by rw [List.length_singleton]; omega)]
  rfl

/-! ## The bounds -/

/-- An operation that reports what it was given. -/
def record (memWord : Bytes) (realLen : Int) : Option (Int × Option (Bytes × Int)) :=
  some (0, some (memWord, realLen))

/-- Every byte the call writes to `mem_word` lies in it, and the length handed on
is between 0 and `len`. -/
def CopyInside (c : TagCall)
    (sys : TagCall → (Bytes → Int → Option (Int × Option (Bytes × Int))) →
      Option (Bytes × Int) → Option (Int × Option (Bytes × Int))) : Prop :=
  ∃ e given, sys c record none = some (e, given) ∧
    ∀ memWord realLen, given = some (memWord, realLen) → 0 ≤ realLen ∧ realLen ≤ c.len

/-- The request wraps to 0 bytes and is granted, and the copy goes beyond the
buffer or the call goes on to write the terminator. -/
def TagCall.Overflows (c : TagCall) : Prop :=
  c.len + 1 = 2 ^ 32 ∧ (∃ hasOp, c.lookup = .found hasOp) ∧
    ∃ mem, c.memWord = some mem ∧ (mem.length < c.word.stored.length ∨ c.word.Accepted)

/-- The copy, where it does not overflow. -/
theorem copyWord_of_not_overflows {c : TagCall} {hasOp : Bool} (hlookup : c.lookup = .found hasOp)
    (h : ¬ c.Overflows) : ∃ r, copyWord c = some r ∧
      ∀ memWord realLen, r = .ok (memWord, realLen) → 0 ≤ realLen ∧ realLen ≤ c.len := by
  have hlt := c.len_lt
  cases hmem : c.memWord with
  | none => exact ⟨.error (-ENOMEM), by rw [copyWord, hmem], fun _ _ hr => by cases hr⟩
  | some mem =>
      obtain ⟨hfits, hsmall⟩ := c.fits mem hmem
      have hstored := c.word.length_stored_le
      have hroom : c.word.stored.length ≤ mem.length := by
        by_cases hwrap : c.len + 1 = 2 ^ 32
        · by_contra hover
          exact h ⟨hwrap, ⟨hasOp, hlookup⟩, mem, hmem, Or.inl (by omega)⟩
        · rw [sizeT_of_lt (by omega)] at hfits
          omega
      obtain ⟨mem₁, hcopy⟩ : ∃ mem₁, memcpy mem 0 c.word.stored = some mem₁ :=
        ⟨_, memcpy_of_le (by omega)⟩
      rw [copyWord, hmem]
      dsimp only
      rw [hcopy]
      simp only [Option.bind_eq_bind, Option.bind_some]
      by_cases hneg : c.realLen < 0
      · rw [if_pos hneg]
        exact ⟨_, rfl, fun _ _ hr => by cases hr⟩
      have haccepted := (realLen_nonneg_iff c).mp hneg
      have hwrap : ¬ c.len + 1 = 2 ^ 32 :=
        fun hwrap => h ⟨hwrap, ⟨hasOp, hlookup⟩, mem, hmem, Or.inr haccepted⟩
      rw [sizeT_of_lt (by omega)] at hfits
      have hnul := memcpy_terminator (show c.len < mem₁.length by
        rw [length_memcpy hcopy]
        omega)
      rw [if_neg hneg, hnul]
      refine ⟨_, rfl, ?_⟩
      intro memWord realLen hr
      cases hr
      obtain ⟨w, hlen, hle, _⟩ := haccepted.word
      rw [TagCall.realLen, hlen]
      omega

/-- The overflow, in the copy or at the terminator. -/
theorem copyWord_of_overflows {c : TagCall} (h : c.Overflows) : copyWord c = none := by
  obtain ⟨hwrap, _, mem, hmem, hover⟩ := h
  obtain ⟨_, hsmall⟩ := c.fits mem hmem
  rw [copyWord, hmem]
  dsimp only
  by_cases hroom : c.word.stored.length ≤ mem.length
  · obtain ⟨mem₁, hcopy⟩ : ∃ mem₁, memcpy mem 0 c.word.stored = some mem₁ :=
      ⟨_, memcpy_of_le (by omega)⟩
    have haccepted := hover.resolve_left (by omega)
    have hnul : memcpy mem₁ c.len [0] = none :=
      if_neg (by rw [length_memcpy hcopy, List.length_singleton]; omega)
    rw [hcopy]
    simp only [Option.bind_eq_bind, Option.bind_some]
    rw [if_neg ((realLen_nonneg_iff c).mpr haccepted), hnul]
    rfl
  · have hcopy : memcpy mem 0 c.word.stored = none := if_neg (by omega)
    rw [hcopy]
    rfl

theorem tagSyscall_inside (c : TagCall) : CopyInside c tagSyscall ↔ ¬ c.Overflows := by
  constructor
  · rintro ⟨e, given, hr, _⟩ hover
    obtain ⟨hwrap, ⟨hasOp, hlookup⟩, _⟩ := id hover
    rw [tagSyscall, if_neg (by omega), hlookup] at hr
    dsimp only at hr
    rw [copyWord_of_overflows hover] at hr
    cases hr
  · intro h
    unfold CopyInside tagSyscall
    by_cases hempty : c.len = 0
    · rw [if_pos hempty]
      exact ⟨_, _, rfl, fun _ _ hr => by cases hr⟩
    rw [if_neg hempty]
    cases hlookup : c.lookup with
    | failed error => exact ⟨_, _, rfl, fun _ _ hr => by cases hr⟩
    | found hasOp =>
        obtain ⟨r, hr, hbounds⟩ := copyWord_of_not_overflows hlookup h
        rw [hr]
        simp only [Option.bind_eq_bind, Option.bind_some]
        cases r with
        | error error => exact ⟨_, _, rfl, fun _ _ hr => by cases hr⟩
        | ok word =>
            obtain ⟨memWord, realLen⟩ := word
            cases hasOp with
            | false => exact ⟨_, _, rfl, fun _ _ hr => by cases hr⟩
            | true =>
                refine ⟨_, _, rfl, ?_⟩
                intro memWord' realLen' hgiven
                cases hgiven
                exact hbounds _ _ rfl

/-- **When the word stays inside its buffer.** Exactly when the size of the
request does not wrap, or is not granted, or the word is refused before a byte
is written outside. -/
theorem copy_inside (c : TagCall) :
    (CopyInside c sysAddtag ↔ ¬ c.Overflows) ∧ (CopyInside c sysRmtag ↔ ¬ c.Overflows) :=
  ⟨tagSyscall_inside c, tagSyscall_inside c⟩

/-- The largest `len`; `kmalloc(0)` returns its smallest buffer. -/
def largestLen : TagCall where
  len := 2 ^ 32 - 1
  len_lt := by decide
  lookup := .found true
  memWord := some (List.replicate 32 0)
  fits := by
    intro mem hmem
    cases hmem
    rw [List.length_replicate]
    decide
  word := .string [110, 101, 103] (by decide) (by decide)

/-- The terminator of a three-letter word goes to `mem_word[0xFFFFFFFF]`, which is not
in the buffer. -/
theorem terminator_outside : ¬ CopyInside largestLen sysAddtag := by
  rintro ⟨e, given, hr, _⟩
  have hover : largestLen.Overflows :=
    ⟨rfl, ⟨true, rfl⟩, _, rfl, Or.inr (show 3 < 2 ^ 31 by decide)⟩
  rw [sysAddtag, tagSyscall, if_neg (by decide)] at hr
  have hnone := copyWord_of_overflows hover
  simp only [largestLen] at hr hnone
  rw [hnone] at hr
  cases hr

/-- Where the request does not wrap, the operation is given a tag, with a NUL
behind it. -/
theorem handsOn_word {α : Type} {c : TagCall} {mem : Bytes} (hlen : c.len ≠ 0)
    (hlookup : c.lookup = .found true) (hmem : c.memWord = some mem) (hwrap : c.len + 1 < 2 ^ 32)
    (haccepted : c.word.Accepted) (iOp : Bytes → Int → Option (Int × α)) (a : α) :
    ∃ (w : Word) (memWord : Bytes), w.cstr <+: memWord ∧
      tagSyscall c iOp a = iOp memWord w.bytes.length := by
  obtain ⟨hfits, _⟩ := c.fits mem hmem
  rw [sizeT_of_lt hwrap] at hfits
  have hstored := c.word.length_stored_le
  obtain ⟨w, hrealLen, hle, hbytes⟩ := haccepted.word
  have hcopy := memcpy_of_le (show 0 + c.word.stored.length ≤ mem.length by omega)
  rw [List.take_zero, List.nil_append, Nat.zero_add] at hcopy
  generalize hmem₁ : c.word.stored ++ mem.drop c.word.stored.length = mem₁ at hcopy
  have hnul := memcpy_terminator (show c.len < mem₁.length by
    rw [length_memcpy hcopy]
    omega)
  have hcall : tagSyscall c iOp a =
      iOp (mem₁.take c.len ++ 0 :: mem₁.drop (c.len + 1)) w.bytes.length := by
    rw [tagSyscall, if_neg hlen, hlookup]
    dsimp only
    rw [copyWord, hmem]
    dsimp only
    rw [hcopy]
    simp only [Option.bind_eq_bind, Option.bind_some]
    rw [if_neg ((realLen_nonneg_iff c).mpr haccepted), hnul, TagCall.realLen, hrealLen]
    rfl
  refine ⟨w, _, ?_, hcall⟩
  rcases hbytes with hstring | ⟨hcut, hfull⟩
  · -- the NUL was copied with the word
    rw [hstring] at hmem₁ hstored
    have htake : mem₁.take c.len = w.cstr ++ (mem.drop w.cstr.length).take
        (c.len - w.cstr.length) := by
      rw [← hmem₁, List.take_append, List.take_of_length_le hstored]
    rw [htake, List.append_assoc]
    exact List.prefix_append _ _
  · -- the terminator is the NUL
    rw [hcut] at hmem₁
    rw [← hmem₁, ← hfull, List.take_left, Word.cstr]
    exact ⟨_, by rw [List.append_assoc]; rfl⟩

end LinuxHacks.Tags
