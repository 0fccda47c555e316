import ElmNavigator.Text.Utf8

/-!
# Decoding what was encoded

The bytes of a text decode to the text, without a replacement.  The decoder goes
from character to character, so it is enough to follow it through the bytes of
one character, whatever comes behind them.
-/

namespace ElmNavigator
namespace Text

/-!
## One character
-/

theorem toNat_ofNat_of_lt {n : Nat} (h : n < 256) : (UInt8.ofNat n).toNat = n := by
  rw [UInt8.toNat_ofNat']
  exact Nat.mod_eq_of_lt h

theorem toNat_valid (c : Char) :
    c.toNat < 0xD800 ∨ (0xDFFF < c.toNat ∧ c.toNat < 0x110000) :=
  c.valid

theorem toNat_of_mem_utf8EncodeChar {c : Char} {byte : UInt8}
    (h : byte ∈ String.utf8EncodeChar c) (hbyte : byte.toNat < 128) : c.toNat = byte.toNat := by
  have hval : c.val.toNat = c.toNat := rfl
  simp only [String.utf8EncodeChar, hval] at h
  split at h
  · rw [List.mem_singleton.mp h, UInt8.toNat_ofNat']
    omega
  · split at h
    · simp only [List.mem_cons, List.not_mem_nil, or_false] at h
      rcases h with rfl | rfl <;> rw [UInt8.toNat_ofNat'] at hbyte <;> omega
    · split at h
      · simp only [List.mem_cons, List.not_mem_nil, or_false] at h
        rcases h with rfl | rfl | rfl <;> rw [UInt8.toNat_ofNat'] at hbyte <;> omega
      · simp only [List.mem_cons, List.not_mem_nil, or_false] at h
        rcases h with rfl | rfl | rfl | rfl <;> rw [UInt8.toNat_ofNat'] at hbyte <;> omega

theorem ne_of_mem_utf8EncodeChar {c d : Char} {byte : UInt8}
    (h : byte ∈ String.utf8EncodeChar c) (hc : c ≠ d) (hd : d.toNat < 128) :
    byte.toNat ≠ d.toNat := by
  intro heq
  apply hc
  rw [← Char.toNat_inj, toNat_of_mem_utf8EncodeChar h (by omega), heq]

theorem slash_not_mem_utf8EncodeChar {c : Char} (h : c ≠ '/') :
    slash ∉ String.utf8EncodeChar c := by
  intro hmem
  exact ne_of_mem_utf8EncodeChar hmem h (by decide) rfl

theorem decodeFirst_one {n : Nat} (h : n < 0x80) (rest : List UInt8) :
    decodeFirst (UInt8.ofNat n) rest = (Char.ofNat n, 0) := by
  have hn : (UInt8.ofNat n).toNat = n := toNat_ofNat_of_lt (by omega)
  have hlength : sequenceLength n = 1 := by
    simp [sequenceLength, h]
  simp only [decodeFirst, hn, hlength]

theorem decodeFirst_two {a b n : Nat} (ha : 0xC2 ≤ a) (ha' : a < 0xE0)
    (hb : 0x80 ≤ b) (hb' : b < 0xC0) (hn : n = (a - 0xC0) * 0x40 + (b - 0x80))
    (rest : List UInt8) :
    decodeFirst (UInt8.ofNat a) (UInt8.ofNat b :: rest) = (Char.ofNat n, 1) := by
  have hfirst : (UInt8.ofNat a).toNat = a := toNat_ofNat_of_lt (by omega)
  have hsecond : (UInt8.ofNat b).toNat = b := toNat_ofNat_of_lt (by omega)
  have hlength : sequenceLength a = 2 := by
    unfold sequenceLength
    rw [if_neg (by omega), if_neg (by omega), if_pos ha']
  have hcontinues : isContinuation b = true := by
    simp [isContinuation, hb, hb']
  simp only [decodeFirst, hfirst, hlength, List.map_cons, hsecond, hcontinues, if_true, hn]

theorem decodeFirst_three {a b c n : Nat} (ha : 0xE0 ≤ a) (ha' : a < 0xF0)
    (hb : secondByteOk a b = true) (hb' : b < 256)
    (hc : 0x80 ≤ c) (hc' : c < 0xC0)
    (hn : n = ((a - 0xE0) * 0x40 + (b - 0x80)) * 0x40 + (c - 0x80))
    (rest : List UInt8) :
    decodeFirst (UInt8.ofNat a) (UInt8.ofNat b :: UInt8.ofNat c :: rest) =
      (Char.ofNat n, 2) := by
  have hfirst : (UInt8.ofNat a).toNat = a := toNat_ofNat_of_lt (by omega)
  have hsecond : (UInt8.ofNat b).toNat = b := toNat_ofNat_of_lt hb'
  have hthird : (UInt8.ofNat c).toNat = c := toNat_ofNat_of_lt (by omega)
  have hlength : sequenceLength a = 3 := by
    unfold sequenceLength
    rw [if_neg (by omega), if_neg (by omega), if_neg (by omega), if_pos ha']
  have hcontinues : isContinuation c = true := by
    simp [isContinuation, hc, hc']
  simp only [decodeFirst, hfirst, hlength, List.map_cons, hsecond, hthird, hb, hcontinues,
    if_true, hn]

theorem decodeFirst_four {a b c d n : Nat} (ha : 0xF0 ≤ a) (ha' : a < 0xF5)
    (hb : secondByteOk a b = true) (hb' : b < 256)
    (hc : 0x80 ≤ c) (hc' : c < 0xC0) (hd : 0x80 ≤ d) (hd' : d < 0xC0)
    (hn : n = (((a - 0xF0) * 0x40 + (b - 0x80)) * 0x40 + (c - 0x80)) * 0x40 + (d - 0x80))
    (rest : List UInt8) :
    decodeFirst (UInt8.ofNat a)
        (UInt8.ofNat b :: UInt8.ofNat c :: UInt8.ofNat d :: rest) =
      (Char.ofNat n, 3) := by
  have hfirst : (UInt8.ofNat a).toNat = a := toNat_ofNat_of_lt (by omega)
  have hsecond : (UInt8.ofNat b).toNat = b := toNat_ofNat_of_lt hb'
  have hthird : (UInt8.ofNat c).toNat = c := toNat_ofNat_of_lt (by omega)
  have hfourth : (UInt8.ofNat d).toNat = d := toNat_ofNat_of_lt (by omega)
  have hlength : sequenceLength a = 4 := by
    unfold sequenceLength
    rw [if_neg (by omega), if_neg (by omega), if_neg (by omega), if_neg (by omega),
      if_pos ha']
  have hcontinues : isContinuation c = true := by
    simp [isContinuation, hc, hc']
  have hcontinues' : isContinuation d = true := by
    simp [isContinuation, hd, hd']
  simp only [decodeFirst, hfirst, hlength, List.map_cons, hsecond, hthird, hfourth, hb,
    hcontinues, hcontinues', if_true, hn]

theorem secondByteOk_of_bounds {a b : Nat} (hb : 0x80 ≤ b) (hb' : b < 0xC0)
    (hlow : a = 0xE0 -> 0xA0 ≤ b) (hsurrogate : a = 0xED -> b < 0xA0)
    (hlong : a = 0xF0 -> 0x90 ≤ b) (hlast : a = 0xF4 -> b < 0x90) :
    secondByteOk a b = true := by
  unfold secondByteOk isContinuation
  split
  · rename_i h
    simp [hlow h, hb']
  · split
    · rename_i h
      simp [hb, hsurrogate h]
    · split
      · rename_i h
        simp [hlong h, hb']
      · split
        · rename_i h
          simp [hb, hlast h]
        · simp [hb, hb']

theorem decodeFrom_skip (skipped rest : List UInt8) :
    decodeFrom skipped.length (skipped ++ rest) = decodeFrom 0 rest := by
  induction skipped with
  | nil => rfl
  | cons b skipped ih =>
      simp only [List.length_cons, List.cons_append, decodeFrom]
      exact ih

theorem decodeFrom_cons {first : UInt8} {others rest : List UInt8} {c : Char}
    (h : decodeFirst first ((others ++ rest).take 3) = (c, others.length)) :
    decodeFrom 0 (first :: (others ++ rest)) = c :: decodeFrom 0 rest := by
  simp only [decodeFrom, h, decodeFrom_skip]

theorem decodeFrom_char (c : Char) (rest : List UInt8) :
    decodeFrom 0 (String.utf8EncodeChar c ++ rest) = c :: decodeFrom 0 rest := by
  have hc : Char.ofNat c.toNat = c := Char.ofNat_toNat c
  have hvalid := toNat_valid c
  have hval : c.val.toNat = c.toNat := rfl
  simp only [String.utf8EncodeChar, hval]
  generalize c.toNat = n at hc hvalid
  subst hc
  split
  · apply decodeFrom_cons
    exact decodeFirst_one (by omega) _
  · split
    · apply decodeFrom_cons
      exact decodeFirst_two (by omega) (by omega) (by omega) (by omega) (by omega) _
    · split
      · apply decodeFrom_cons
        have hsecond : secondByteOk (n / 4096 % 16 + 224) (n / 64 % 64 + 128) = true :=
          secondByteOk_of_bounds (by omega) (by omega) (by omega) (by omega) (by omega)
            (by omega)
        exact decodeFirst_three (by omega) (by omega) hsecond (by omega) (by omega)
          (by omega) (by omega) _
      · apply decodeFrom_cons
        have hsecond : secondByteOk (n / 262144 % 8 + 240) (n / 4096 % 64 + 128) = true :=
          secondByteOk_of_bounds (by omega) (by omega) (by omega) (by omega) (by omega)
            (by omega)
        exact decodeFirst_four (by omega) (by omega) hsecond (by omega) (by omega)
          (by omega) (by omega) (by omega) (by omega) _

theorem decodeLossy_utf8 (cs : List Char) : decodeLossy (utf8 cs) = cs := by
  unfold decodeLossy utf8
  induction cs with
  | nil =>
      rfl
  | cons c cs ih =>
      rw [List.flatMap_cons, decodeFrom_char, ih]

theorem decodeLossy_slash (bytes : List UInt8) :
    decodeLossy (slash :: bytes) = '/' :: decodeLossy bytes :=
  decodeFrom_char '/' bytes

end Text
end ElmNavigator
