import Wildpath.Text.Utf8

/-!
# Encoded text is decoded

The bytes of a text decode to that text. A character takes one to four bytes, by the size of its
number; each of the four forms is read by its own branch, and the numbers that the branches leave
out are those of no character.
-/

set_option autoImplicit false

namespace Wildpath.Utf8

theorem toNat_toUInt8 {n : Nat} (small : n < 256) : n.toUInt8.toNat = n := by
  simp [Nat.mod_eq_of_lt small]

/-- The byte after the first one that carries the last six bits of a number. -/
def tail (n : Nat) : UInt8 := (0x80 + n % 64).toUInt8

theorem toNat_tail (n : Nat) : (tail n).toNat = 0x80 + n % 64 := toNat_toUInt8 (by omega)

@[simp] theorem isTail_tail (n : Nat) : isTail (tail n) = true := by
  simp only [isTail, UInt8.le_iff_toNat_le, toNat_tail, Bool.and_eq_true, decide_eq_true_eq]
  have small : n % 64 < 64 := Nat.mod_lt n (by decide)
  exact ⟨Nat.le_add_right _ _, Nat.le_of_lt_succ (Nat.add_lt_add_left small _)⟩

@[simp] theorem tailBits_tail (n : Nat) : tailBits (tail n) = n % 64 := by
  rw [tailBits, toNat_tail]
  omega

/-- Four first bytes ask for more than the bits of a tail. -/
theorem isSecond_tail {a : UInt8} {n : Nat} (e0 : a.toNat = 0xe0 → 0x20 ≤ n % 64)
    (ed : a.toNat = 0xed → n % 64 < 0x20) (f0 : a.toNat = 0xf0 → 0x10 ≤ n % 64)
    (f4 : a.toNat = 0xf4 → n % 64 < 0x10) : isSecond a (tail n) = true := by
  simp only [isSecond, isTail_tail, UInt8.le_iff_toNat_le, toNat_tail, bne_iff_ne, ne_eq,
    ← UInt8.toNat_inj, Bool.and_eq_true, Bool.or_eq_true, decide_eq_true_eq, true_and]
  refine ⟨⟨⟨?_, ?_⟩, ?_⟩, ?_⟩ <;> simp <;> omega

variable (position : Nat) {n : Nat} (rest : List UInt8)

theorem decodeFrom_one (high : n < 0x80) :
    decodeFrom position (n.toUInt8 :: rest) =
      (Char.ofNat n :: ·) <$> decodeFrom (position + 1) rest := by
  have first : n.toUInt8.toNat = n := toNat_toUInt8 (by omega)
  have short : n.toUInt8 < 0x80 := by
    rw [UInt8.lt_iff_toNat_lt, first]
    exact high
  simp only [decodeFrom.eq_def position, short, if_true, first]
  rfl

theorem decodeFrom_two (low : 0x80 ≤ n) (high : n < 0x800) :
    decodeFrom position ((0xc0 + n / 64).toUInt8 :: tail n :: rest) =
      (Char.ofNat n :: ·) <$> decodeFrom (position + 2) rest := by
  have first : (0xc0 + n / 64).toUInt8.toNat = 0xc0 + n / 64 := toNat_toUInt8 (by omega)
  generalize (0xc0 + n / 64).toUInt8 = a at *
  have long : ¬a < 0x80 := by simp [UInt8.lt_iff_toNat_lt, first]; omega
  have starts : ¬(a < 0xc2 ∨ 0xf4 < a) := by simp [UInt8.lt_iff_toNat_lt, first]; omega
  have follows : isSecond a (tail n) = true := by apply isSecond_tail <;> omega
  have ends : a < 0xe0 := by simp [UInt8.lt_iff_toNat_lt, first]; omega
  have value : a.toNat % 32 * 64 + n % 64 = n := by omega
  simp [decodeFrom.eq_def position, long, starts, follows, ends, value]

theorem decodeFrom_three (low : 0x800 ≤ n) (high : n < 0x10000)
    (char : n < 0xd800 ∨ 0xdfff < n) :
    decodeFrom position ((0xe0 + n / 4096).toUInt8 :: tail (n / 64) :: tail n :: rest) =
      (Char.ofNat n :: ·) <$> decodeFrom (position + 3) rest := by
  have first : (0xe0 + n / 4096).toUInt8.toNat = 0xe0 + n / 4096 := toNat_toUInt8 (by omega)
  generalize (0xe0 + n / 4096).toUInt8 = a at *
  have long : ¬a < 0x80 := by simp [UInt8.lt_iff_toNat_lt, first]; omega
  have starts : ¬(a < 0xc2 ∨ 0xf4 < a) := by simp [UInt8.lt_iff_toNat_lt, first]; omega
  have follows : isSecond a (tail (n / 64)) = true := by apply isSecond_tail <;> omega
  have longer : ¬a < 0xe0 := by simp [UInt8.lt_iff_toNat_lt, first]
  have ends : a < 0xf0 := by simp [UInt8.lt_iff_toNat_lt, first]; omega
  have value : a.toNat % 16 * 4096 + n / 64 % 64 * 64 + n % 64 = n := by omega
  simp [decodeFrom.eq_def position, long, starts, follows, longer, ends, value]

theorem decodeFrom_four (low : 0x10000 ≤ n) (high : n < 0x110000) :
    decodeFrom position ((0xf0 + n / 262144).toUInt8 :: tail (n / 4096) :: tail (n / 64) ::
        tail n :: rest) =
      (Char.ofNat n :: ·) <$> decodeFrom (position + 4) rest := by
  have first : (0xf0 + n / 262144).toUInt8.toNat = 0xf0 + n / 262144 := toNat_toUInt8 (by omega)
  generalize (0xf0 + n / 262144).toUInt8 = a at *
  have long : ¬a < 0x80 := by simp [UInt8.lt_iff_toNat_lt, first]; omega
  have starts : ¬(a < 0xc2 ∨ 0xf4 < a) := by simp [UInt8.lt_iff_toNat_lt, first]; omega
  have follows : isSecond a (tail (n / 4096)) = true := by apply isSecond_tail <;> omega
  have longer : ¬a < 0xe0 := by simp [UInt8.lt_iff_toNat_lt, first]; omega
  have longest : ¬a < 0xf0 := by simp [UInt8.lt_iff_toNat_lt, first]
  have value : a.toNat % 8 * 262144 + n / 4096 % 64 * 4096 + n / 64 % 64 * 64 + n % 64 = n := by
    omega
  simp [decodeFrom.eq_def position, long, starts, follows, longer, longest, value]

theorem decodeFrom_encodeChar (c : Char) :
    decodeFrom position (encodeChar c ++ rest) =
      (c :: ·) <$> decodeFrom (position + (encodeChar c).length) rest := by
  have char : c.toNat < 0xd800 ∨ 0xdfff < c.toNat ∧ c.toNat < 0x110000 := c.valid
  have same : Char.ofNat c.toNat = c := Char.ofNat_toNat c
  unfold encodeChar
  dsimp only
  split
  · next high =>
    have read := decodeFrom_one position rest high
    rw [same] at read
    exact read
  · next low =>
    have low := Nat.le_of_not_lt low
    split
    · next high =>
      have read := decodeFrom_two position rest low high
      rw [same] at read
      exact read
    · next low =>
      have low := Nat.le_of_not_lt low
      split
      · next high =>
        have read := decodeFrom_three position rest low high (char.imp_right And.left)
        rw [same] at read
        exact read
      · next low =>
        have read := decodeFrom_four position rest (Nat.le_of_not_lt low) (by omega)
        rw [same] at read
        exact read

theorem decodeFrom_encode (s : Text) : decodeFrom position (encode s) = .ok s := by
  induction s generalizing position with
  | nil => rfl
  | cons c rest ih =>
    rw [encode, List.flatMap_cons, ← encode, decodeFrom_encodeChar, ih]
    rfl

theorem decode_encode (s : Text) : decode (encode s) = .ok s := decodeFrom_encode 0 s

/-- A text is encoded if each of its characters is. -/
theorem stray?_eq_none_iff {byteOf : Char → Option UInt8} {position : Nat} {text : Text} :
    stray? byteOf position text = none ↔ ∀ c ∈ text, byteOf c = none := by
  fun_induction stray? byteOf position text with
  | case1 => simp
  | case2 position c rest encoded ih => simp [ih, encoded]
  | case3 position c rest first stray => simp [stray]

end Wildpath.Utf8
