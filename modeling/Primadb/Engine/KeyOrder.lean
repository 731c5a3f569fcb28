import Primadb.Db.Overlap

/-!
# Storage keys keep the order of what they encode

Index entries are found by comparing texts, so the text of a scalar has to order
like the scalar. Hexadecimal digits order like the numbers they stand for; texts
are written byte by byte, doubles as a number whose order is the numerical one.
-/

namespace Primadb

/-- Sixteen digits in ascending order. -/
theorem digitChar_lt_iff : ∀ m < 16, ∀ n < 16,
    (m.digitChar < n.digitChar ↔ m < n) ∧ (m.digitChar = n.digitChar ↔ m = n) := by
  decide

/-- The two digits of a byte order like the byte. -/
theorem hexByte_lt_iff (x y : UInt8) (left right : List Char) :
    hexByte x.toNat ++ left < hexByte y.toNat ++ right ↔ x < y ∨ x = y ∧ left < right := by
  have hx := x.toNat_lt
  have hy := y.toNat_lt
  obtain ⟨hhigh, hhigh'⟩ := digitChar_lt_iff (x.toNat / 16 % 16) (by omega)
    (y.toNat / 16 % 16) (by omega)
  obtain ⟨hlow, hlow'⟩ := digitChar_lt_iff (x.toNat % 16) (by omega) (y.toNat % 16) (by omega)
  simp only [hexByte, List.cons_append, List.nil_append, List.cons_lt_cons_iff, hhigh, hhigh',
    hlow, hlow', UInt8.lt_iff_toNat_lt, ← UInt8.toNat_inj]
  constructor
  · rintro (h | ⟨h, h' | ⟨h', hrest⟩⟩)
    · exact Or.inl (by omega)
    · exact Or.inl (by omega)
    · exact Or.inr ⟨by omega, hrest⟩
  · rintro (h | ⟨h, hrest⟩)
    · omega
    · exact Or.inr ⟨by omega, Or.inr ⟨by omega, hrest⟩⟩

/-- The bytes of a text. -/
def utf8Bytes (text : String) : List UInt8 := text.toList.flatMap String.utf8EncodeChar

/-- Digits written byte by byte order like the bytes. -/
theorem flatMap_hexByte_lt_iff (left right : List UInt8) :
    left.flatMap (fun byte => hexByte byte.toNat) < right.flatMap (fun byte => hexByte byte.toNat)
      ↔ left < right := by
  induction left generalizing right with
  | nil => cases right <;> simp [hexByte]
  | cons x left ih =>
    cases right with
    | nil => simp [hexByte]
    | cons y right =>
      rw [List.flatMap_cons, List.flatMap_cons, hexByte_lt_iff, ih, List.cons_lt_cons_iff]

/-- Encoded components order like the bytes of the components. -/
theorem encodeComponent_lt_iff (a b : String) :
    encodeComponent a < encodeComponent b ↔ utf8Bytes a < utf8Bytes b := by
  rw [String.lt_iff_toList_lt, encodeComponent, encodeComponent, String.toList_ofList,
    String.toList_ofList, flatMap_hexByte_lt_iff]
  rfl

/-- A digit reads back as its value, and no digit is a sign. -/
theorem hexDigitValue_digitChar :
    ∀ n < 16, hexDigitValue n.digitChar = some n ∧ n.digitChar ≠ '+' := by
  decide

/-- A byte reads back from its two digits. -/
theorem byteFromHex_digits (byte : UInt8) :
    byteFromHex (byte.toNat / 16 % 16).digitChar (byte.toNat % 16).digitChar = some byte := by
  have hbyte := byte.toNat_lt
  obtain ⟨hhigh, hsign⟩ := hexDigitValue_digitChar (byte.toNat / 16 % 16) (by omega)
  obtain ⟨hlow, -⟩ := hexDigitValue_digitChar (byte.toNat % 16) (by omega)
  have hsum : 16 * (byte.toNat / 16 % 16) + byte.toNat % 16 = byte.toNat := by omega
  rw [byteFromHex, if_neg hsign, hhigh, hlow]
  change some (UInt8.ofNat (16 * (byte.toNat / 16 % 16) + byte.toNat % 16)) = some byte
  rw [hsum, UInt8.ofNat_toNat]

/-- Bytes read back from their digits. -/
theorem bytesFromHex_flatMap (bytes : List UInt8) :
    bytesFromHex (bytes.flatMap fun byte => hexByte byte.toNat) = some bytes := by
  induction bytes with
  | nil => rfl
  | cons byte bytes ih =>
    rw [List.flatMap_cons, hexByte, List.cons_append, List.cons_append, List.nil_append,
      bytesFromHex, byteFromHex_digits, ih]
    rfl

private theorem fromUTF8_utf8Bytes (text : String) :
    String.fromUTF8? ⟨(utf8Bytes text).toArray⟩ = some text := by
  have hbytes : (⟨(utf8Bytes text).toArray⟩ : ByteArray) = text.toByteArray := by
    rw [← String.utf8Encode_toList, List.utf8Encode]
    apply ByteArray.ext
    rw [List.data_toByteArray]
    rfl
  rw [hbytes, String.fromUTF8?, dif_pos text.isValidUTF8]
  rfl

/-- A component reads back from its encoding. -/
theorem decodeComponent_encodeComponent (text : String) :
    decodeComponent (encodeComponent text) = some text := by
  rw [decodeComponent, encodeComponent, String.toList_ofList]
  change (bytesFromHex ((utf8Bytes text).flatMap _) >>= _) = _
  rw [bytesFromHex_flatMap]
  exact fromUTF8_utf8Bytes text

/-- Of two lists of one length the smaller stays smaller whatever follows. -/
theorem append_lt_append {left right : List Char} (hlength : left.length = right.length)
    (h : left < right) (s t : List Char) : left ++ s < right ++ t := by
  induction left generalizing right with
  | nil =>
    obtain rfl := List.length_eq_zero_iff.mp hlength.symm
    exact absurd h (lt_irrefl _)
  | cons a left ih =>
    obtain ⟨b, right, rfl⟩ := List.exists_cons_of_length_eq_add_one hlength.symm
    rw [List.cons_append, List.cons_append, List.cons_lt_cons_iff]
    rcases List.cons_lt_cons_iff.mp h with hab | ⟨hab, hrest⟩
    · exact Or.inl hab
    · exact Or.inr ⟨hab, ih (by simpa using hlength) hrest⟩

/-- Hexadecimal digits padded to a width. -/
def hexPadded (width n : ℕ) : List Char :=
  List.replicate (width - (Nat.toDigits 16 n).length) '0' ++ Nat.toDigits 16 n

/-- The last digit of a padded number. -/
theorem hexPadded_succ (width n : ℕ) :
    hexPadded (width + 2) n = hexPadded (width + 1) (n / 16) ++ [(n % 16).digitChar] := by
  by_cases hn : n < 16
  · have hzero : n / 16 = 0 := by omega
    rw [hexPadded, hexPadded, hzero, Nat.toDigits_of_lt_base hn, Nat.mod_eq_of_lt hn]
    simp [List.replicate_succ']
  · rw [hexPadded, hexPadded, Nat.toDigits_of_base_le (by omega) (by omega)]
    simp

/-- A number that fits has as many digits as the width. -/
theorem length_hexPadded {width n : ℕ} (hn : n < 16 ^ (width + 1)) :
    (hexPadded (width + 1) n).length = width + 1 := by
  have hlength := (Nat.length_toDigits_le_iff (b := 16) (by omega) (by omega)).mpr hn
  rw [hexPadded, List.length_append, List.length_replicate]
  omega

/-- Padded numbers order like the numbers. -/
theorem hexPadded_lt {width m n : ℕ} (hn : n < 16 ^ (width + 1)) (h : m < n) :
    hexPadded (width + 1) m < hexPadded (width + 1) n := by
  induction width generalizing m n with
  | zero =>
    have hn : n < 16 := by simpa using hn
    rw [hexPadded, hexPadded, Nat.toDigits_of_lt_base hn, Nat.toDigits_of_lt_base (h.trans hn)]
    simpa [List.cons_lt_cons_iff] using (digitChar_lt_iff m (h.trans hn) n hn).1.mpr h
  | succ width ih =>
    have hdiv : n / 16 < 16 ^ (width + 1) := Nat.div_lt_of_lt_mul (by rwa [← pow_succ'])
    rw [hexPadded_succ, hexPadded_succ]
    rcases (Nat.div_le_div_right h.le).lt_or_eq with hlt | heq
    · refine append_lt_append ?_ (ih hdiv hlt) _ _
      rw [length_hexPadded hdiv, length_hexPadded (hlt.trans hdiv)]
    · rw [heq]
      refine List.append_left_lt (List.cons_lt_cons_iff.mpr (Or.inl ?_))
      exact (digitChar_lt_iff _ (by omega) _ (by omega)).1.mpr (by omega)

/-- The magnitude of a double, in units of its least positive value, from all bits but the
sign. -/
def f64Magnitude (bits : ℕ) : ℕ :=
  let exponent := bits / 2 ^ 52
  let fraction := bits % 2 ^ 52
  if exponent = 0 then fraction else (2 ^ 52 + fraction) * 2 ^ (exponent - 1)

/-- The number a finite double stands for; the formula is total, so nothing asks for finiteness. -/
def f64Value (bits : UInt64) : ℚ :=
  if bits.toNat < 2 ^ 63 then f64Magnitude bits.toNat * 2 ^ (-1074 : ℤ)
  else -(f64Magnitude (bits.toNat - 2 ^ 63) * 2 ^ (-1074 : ℤ))

/-- Magnitudes order like the bits without the sign. -/
theorem f64Magnitude_strictMono : StrictMono f64Magnitude := by
  refine strictMono_nat_of_lt_succ fun n => ?_
  by_cases hlast : n % 2 ^ 52 + 1 < 2 ^ 52
  · have hexponent : (n + 1) / 2 ^ 52 = n / 2 ^ 52 := by omega
    have hfraction : (n + 1) % 2 ^ 52 = n % 2 ^ 52 + 1 := by omega
    simp only [f64Magnitude, hexponent, hfraction]
    split
    · omega
    · exact Nat.mul_lt_mul_of_pos_right (by omega) (Nat.two_pow_pos _)
  · -- The fraction wraps around and the exponent grows.
    have hexponent : (n + 1) / 2 ^ 52 = n / 2 ^ 52 + 1 := by omega
    have hfraction : (n + 1) % 2 ^ 52 = 0 := by omega
    simp only [f64Magnitude, hexponent, hfraction]
    rw [if_neg (Nat.succ_ne_zero _), Nat.add_sub_cancel]
    by_cases hzero : n / 2 ^ 52 = 0
    · rw [if_pos hzero, hzero]
      omega
    · obtain ⟨e, he⟩ := Nat.exists_eq_succ_of_ne_zero hzero
      rw [if_neg hzero, he, Nat.succ_sub_one, Nat.add_zero, @Nat.pow_succ' 2 e, ← Nat.mul_assoc]
      exact Nat.mul_lt_mul_of_pos_right (by omega) (Nat.two_pow_pos _)

/-- The number whose digits are the text of a double. -/
def sortableBits (bits : ℕ) : ℕ := if bits < 2 ^ 63 then bits + 2 ^ 63 else 2 ^ 64 - 1 - bits

/-- Doubles order like the numbers written for them. -/
theorem sortableBits_lt {x y : UInt64} (h : f64Value x < f64Value y) :
    sortableBits x.toNat < sortableBits y.toNat := by
  have hx := x.toNat_lt
  have hy := y.toNat_lt
  have hunit : (0 : ℚ) < 2 ^ (-1074 : ℤ) := zpow_pos (by norm_num) _
  have hnonneg : ∀ n : ℕ, (0 : ℚ) ≤ n * 2 ^ (-1074 : ℤ) := fun n =>
    mul_nonneg n.cast_nonneg hunit.le
  simp only [f64Value] at h
  simp only [sortableBits]
  by_cases hxs : x.toNat < 2 ^ 63 <;> by_cases hys : y.toNat < 2 ^ 63
  · rw [if_pos hxs, if_pos hys, mul_lt_mul_iff_left₀ hunit, Nat.cast_lt,
      f64Magnitude_strictMono.lt_iff_lt] at h
    rw [if_pos hxs, if_pos hys]
    omega
  · rw [if_pos hxs, if_neg hys] at h
    exact absurd h (not_lt.mpr ((neg_nonpos.mpr (hnonneg _)).trans (hnonneg _)))
  · rw [if_neg hxs, if_pos hys]
    omega
  · rw [if_neg hxs, if_neg hys, neg_lt_neg_iff, mul_lt_mul_iff_left₀ hunit, Nat.cast_lt,
      f64Magnitude_strictMono.lt_iff_lt] at h
    rw [if_neg hxs, if_neg hys]
    omega

/-- Different bit patterns are written as different numbers. -/
theorem sortableBits_injective {x y : UInt64} (h : sortableBits x.toNat = sortableBits y.toNat) :
    x = y := by
  have hx := x.toNat_lt
  have hy := y.toNat_lt
  refine UInt64.toNat_inj.mp ?_
  simp only [sortableBits] at h
  split at h <;> split at h <;> omega

/-- The text of a double. -/
def f64Key (bits : UInt64) : String := "n_" ++ hex16 (sortableBits bits.toNat)

/-- Texts of doubles order like the numbers written. -/
theorem f64Key_lt {x y : UInt64} (h : sortableBits x.toNat < sortableBits y.toNat) :
    f64Key x < f64Key y := by
  have hbound : sortableBits y.toNat < 16 ^ (15 + 1) := by
    have hy := y.toNat_lt
    simp only [sortableBits]
    split <;> omega
  rw [String.lt_iff_toList_lt, f64Key, f64Key, String.toList_append, String.toList_append]
  refine List.append_left_lt ?_
  rw [hex16, hex16, String.toList_ofList, String.toList_ofList]
  exact hexPadded_lt hbound h

/-- The texts of strings order like their bytes, a smaller double has a smaller text, different
bit patterns have different texts, and components read back from their encoding. -/
theorem sortable_keys_ordered (a b : String) (x y : UInt64) :
    (∃ left right, sortableScalarKey (.string a) = some left ∧
      sortableScalarKey (.string b) = some right ∧
      (left < right ↔ utf8Bytes a < utf8Bytes b)) ∧
    (∃ left right, sortableScalarKey (.number (.float x)) = some left ∧
      sortableScalarKey (.number (.float y)) = some right ∧
      (f64Value x < f64Value y → left < right) ∧ (x ≠ y → left ≠ right)) ∧
    Function.Injective encodeComponent ∧
    decodeComponent (encodeComponent a) = some a := by
  refine ⟨⟨_, _, rfl, rfl, ?_⟩, ⟨f64Key x, f64Key y, rfl, rfl, ?_, ?_⟩, ?_, ?_⟩
  · rw [← encodeComponent_lt_iff, String.lt_iff_toList_lt, String.lt_iff_toList_lt,
      String.toList_append, String.toList_append]
    simp
  · exact fun h => f64Key_lt (sortableBits_lt h)
  · intro hne heq
    rcases lt_trichotomy (sortableBits x.toNat) (sortableBits y.toNat) with h | h | h
    · exact (f64Key_lt h).ne heq
    · exact hne (sortableBits_injective h)
    · exact (f64Key_lt h).ne' heq
  · intro s t h
    have hs := decodeComponent_encodeComponent s
    rw [h, decodeComponent_encodeComponent] at hs
    exact (Option.some.inj hs).symm
  · exact decodeComponent_encodeComponent a

end Primadb
