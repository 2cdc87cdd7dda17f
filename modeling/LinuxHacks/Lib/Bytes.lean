import Mathlib.Tactic

/-!
# Byte buffers with bounds-checked access

The memory operations a C program applies to a buffer it holds by its start and
its size. Each returns `none` when it would touch a byte outside the buffer, so
that "stays inside" and "computes this" are one equation.

The rules are stated for buffers written as a concatenation, with the access at
the boundary of two parts: `readLe16_append`, `memcpy_append`,
`memmove_append`, and `strncmpEq_eq` for the comparison of a stored string with
a NUL-terminated word.
-/

namespace LinuxHacks.Lib

abbrev Bytes := List UInt8

/-! ## Operations -/

/-- The two bytes of a little-endian 16-bit number; larger numbers are cut. -/
def le16 (n : Nat) : Bytes := [UInt8.ofNat n, UInt8.ofNat (n / 256)]

/-- Two bytes read as a little-endian number. -/
def readLe16 (b : Bytes) (off : Nat) : Option Nat :=
  match b.drop off with
  | lo :: hi :: _ => some (lo.toNat + 256 * hi.toNat)
  | _ => none

/-- `memcpy(b + off, src, |src|)`. -/
def memcpy (b : Bytes) (off : Nat) (src : Bytes) : Option Bytes :=
  if off + src.length ≤ b.length then
    some (b.take off ++ (src ++ b.drop (off + src.length)))
  else none

/-- `memmove(b + dst, b + src, n)`. -/
def memmove (b : Bytes) (dst src n : Nat) : Option Bytes :=
  if src + n ≤ b.length then memcpy b dst ((b.drop src).take n) else none

/-- `strncmp(a, b, n) == 0`: equal up to `n` bytes or up to a common NUL. -/
def strncmpEq : Bytes → Bytes → Nat → Option Bool
  | _, _, 0 => some true
  | x :: a, y :: b, n + 1 =>
      if x ≠ y then some false
      else if x = 0 then some true
      else strncmpEq a b n
  | _, _, _ + 1 => none

/-- The `n` bytes that `strncpy(dst, src, n)` stores: those of `src`, and from
its first NUL on only NULs. -/
def strncpy : Bytes → Nat → Option Bytes
  | _, 0 => some []
  | [], _ + 1 => none
  | x :: src, n + 1 =>
      if x = 0 then some (List.replicate (n + 1) 0)
      else (strncpy src n).map (x :: ·)

/-! ## Rules -/

@[simp] theorem length_le16 (n : Nat) : (le16 n).length = 2 := rfl

theorem readLe16_append (pre post : Bytes) {n : Nat} (hn : n < 65536) :
    readLe16 (pre ++ (le16 n ++ post)) pre.length = some n := by
  rw [readLe16, List.drop_left]
  show some ((UInt8.ofNat n).toNat + 256 * (UInt8.ofNat (n / 256)).toNat) = some n
  rw [UInt8.toNat_ofNat', UInt8.toNat_ofNat']
  congr 1
  omega

theorem readLe16_of_le {b : Bytes} {off : Nat} (h : off + 2 ≤ b.length) :
    ∃ n, n < 65536 ∧ readLe16 b off = some n := by
  have hlen : 2 ≤ (b.drop off).length := by
    rw [List.length_drop]
    omega
  unfold readLe16
  match b.drop off, hlen with
  | lo :: hi :: _, _ =>
      refine ⟨lo.toNat + 256 * hi.toNat, ?_, rfl⟩
      have hlo := lo.toNat_lt
      have hhi := hi.toNat_lt
      omega

theorem memcpy_append (pre old post src : Bytes) (h : old.length = src.length) :
    memcpy (pre ++ (old ++ post)) pre.length src = some (pre ++ (src ++ post)) := by
  have hdrop : (pre ++ (old ++ post)).drop (pre.length + src.length) = post := by
    rw [← h, ← List.length_append, ← List.append_assoc, List.drop_left]
  rw [memcpy, if_pos (by simp only [List.length_append]; omega), List.take_left, hdrop]

theorem memcpy_of_le {b src : Bytes} {off : Nat} (h : off + src.length ≤ b.length) :
    memcpy b off src = some (b.take off ++ (src ++ b.drop (off + src.length))) :=
  if_pos h

theorem length_memcpy {b src b' : Bytes} {off : Nat} (h : memcpy b off src = some b') :
    b'.length = b.length := by
  unfold memcpy at h
  split at h
  case isTrue hle =>
      cases h
      simp only [List.length_append, List.length_take, List.length_drop]
      omega
  case isFalse => cases h

theorem length_memmove {b b' : Bytes} {dst src n : Nat} (h : memmove b dst src n = some b') :
    b'.length = b.length := by
  unfold memmove at h
  split at h
  case isTrue => exact length_memcpy h
  case isFalse => cases h

theorem memmove_of_le {b : Bytes} {dst src n : Nat} (hsrc : src + n ≤ b.length)
    (hdst : dst + n ≤ b.length) : ∃ b', memmove b dst src n = some b' := by
  have hlen : ((b.drop src).take n).length = n := by
    rw [List.length_take, List.length_drop]
    omega
  rw [memmove, if_pos hsrc, memcpy_of_le (by rw [hlen]; exact hdst)]
  exact ⟨_, rfl⟩

/-- Closing a gap: everything behind `mid` moves over it, and as many stale
bytes stay at the end. -/
theorem memmove_append (pre mid post : Bytes) :
    memmove (pre ++ (mid ++ post)) pre.length (pre.length + mid.length) post.length =
      some (pre ++ (post ++ (mid ++ post).drop post.length)) := by
  have hmoved : ((pre ++ (mid ++ post)).drop (pre.length + mid.length)).take post.length =
      post := by
    rw [← List.length_append, ← List.append_assoc, List.drop_left, List.take_length]
  rw [memmove, if_pos (by simp only [List.length_append]; omega), hmoved]
  have hsplit : mid ++ post =
      (mid ++ post).take post.length ++ (mid ++ post).drop post.length :=
    (List.take_append_drop _ _).symm
  rw [hsplit]
  rw [memcpy_append pre _ _ post (by
    rw [List.length_take, List.length_append]
    omega), ← hsplit]

theorem strncmpEq_of_le : ∀ {a w : Bytes} {n : Nat}, n ≤ a.length → 0 ∉ w →
    ∃ r, strncmpEq a (w ++ [0]) n = some r
  | _, _, 0, _, _ => ⟨true, by simp [strncmpEq]⟩
  | x :: a, [], n + 1, _, _ => by
      by_cases hx : x = 0
      · exact ⟨true, by simp [strncmpEq, hx]⟩
      · exact ⟨false, by simp [strncmpEq, hx]⟩
  | x :: a, y :: w, n + 1, hn, hw => by
      have hn' : n ≤ a.length := by simpa using hn
      have hw' : 0 ∉ w := fun h => hw (List.mem_cons_of_mem _ h)
      by_cases hxy : x = y
      · by_cases hx : x = 0
        · exact ⟨true, by simp [strncmpEq, hxy, hxy ▸ hx]⟩
        · obtain ⟨r, hr⟩ := strncmpEq_of_le hn' hw'
          refine ⟨r, ?_⟩
          rw [List.cons_append, strncmpEq, if_neg (by simp [hxy]), if_neg hx, hr]
      · exact ⟨false, by simp [strncmpEq, hxy]⟩

/-- Only the first `n` bytes are compared. -/
theorem strncmpEq_append : ∀ (a post b : Bytes),
    strncmpEq (a ++ post) b a.length = strncmpEq a b a.length
  | [], _, _ => by simp [strncmpEq]
  | x :: a, post, [] => by simp [strncmpEq]
  | x :: a, post, y :: b => by
      rw [List.cons_append, List.length_cons, strncmpEq, strncmpEq, strncmpEq_append a post b]

/-- Against a NUL-free word of the compared length, `strncmp` is equality. -/
theorem strncmpEq_eq : ∀ {a w : Bytes}, a.length = w.length → 0 ∉ w → ∀ (post : Bytes),
    strncmpEq (a ++ post) (w ++ [0]) w.length = some (decide (a = w))
  | [], [], _, _, post => by simp [strncmpEq]
  | x :: a, y :: w, h, hw, post => by
      have h' : a.length = w.length := by simpa using h
      have hw' : 0 ∉ w := fun h => hw (List.mem_cons_of_mem _ h)
      have hy : y ≠ 0 := by
        rintro rfl
        exact hw List.mem_cons_self
      rw [List.cons_append, List.cons_append, List.length_cons, strncmpEq]
      by_cases hxy : x = y
      · rw [if_neg (by simp [hxy]), if_neg (by rw [hxy]; exact hy), strncmpEq_eq h' hw' post]
        simp [hxy]
      · rw [if_pos hxy]
        simp [hxy]

/-- A string with NULs from its first NUL on. -/
def padNul (t : Bytes) : Bytes :=
  t.takeWhile (· ≠ 0) ++ List.replicate (t.length - (t.takeWhile (· ≠ 0)).length) 0

@[simp] theorem length_padNul (t : Bytes) : (padNul t).length = t.length := by
  have hle := (List.takeWhile_sublist (l := t) (· ≠ 0)).length_le
  rw [padNul, List.length_append, List.length_replicate]
  omega

theorem padNul_cons_of_ne {x : UInt8} (t : Bytes) (hx : x ≠ 0) :
    padNul (x :: t) = x :: padNul t := by
  rw [padNul, List.takeWhile_cons_of_pos (by simpa using hx), List.cons_append, List.length_cons,
    List.length_cons, Nat.add_sub_add_right, padNul]

theorem takeWhile_append_nul {t : Bytes} (ht : 0 ∉ t) (rest : Bytes) :
    (t ++ 0 :: rest).takeWhile (· ≠ 0) = t := by
  induction t with
  | nil => rfl
  | cons x t ih =>
      have hx : x ≠ 0 := by
        rintro rfl
        exact ht List.mem_cons_self
      rw [List.cons_append, List.takeWhile_cons_of_pos (by simpa using hx),
        ih fun h => ht (List.mem_cons_of_mem _ h)]

theorem padNul_of_noNul {t : Bytes} (ht : 0 ∉ t) : padNul t = t := by
  induction t with
  | nil => rfl
  | cons x t ih =>
      have hx : x ≠ 0 := by
        rintro rfl
        exact ht List.mem_cons_self
      rw [padNul_cons_of_ne t hx, ih fun h => ht (List.mem_cons_of_mem _ h)]

/-- Only the first `n` bytes are copied. -/
theorem strncpy_append : ∀ (t post : Bytes), strncpy (t ++ post) t.length = some (padNul t)
  | [], post => by
      rw [List.length_nil, strncpy]
      rfl
  | x :: t, post => by
      rw [List.cons_append, List.length_cons, strncpy]
      by_cases hx : x = 0
      · rw [if_pos hx, padNul, List.takeWhile_cons_of_neg (by simpa using hx)]
        rfl
      · rw [if_neg hx, strncpy_append t post, padNul_cons_of_ne t hx]
        rfl

end LinuxHacks.Lib
