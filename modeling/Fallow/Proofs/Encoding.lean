import Fallow.Text.Utf8

/-!
# Text as bytes

UTF-8 is read back: the bytes of a character are read as that character whatever follows them, so
that the bytes of a text are read as the text. How many bytes a character takes is seen from its
first byte; the bounds of the second byte keep short forms and surrogates out.
-/

namespace Fallow.Utf8

theorem toNat_ofNat_of_lt {n : Nat} (h : n < 256) : (UInt8.ofNat n).toNat = n := by
  rw [UInt8.toNat_ofNat']
  exact Nat.mod_eq_of_lt h

/-- The bytes after the first one carry six bits each. -/
def tail (n : Nat) : UInt8 :=
  UInt8.ofNat (n % 64 + 128)

theorem toNat_tail (n : Nat) : (tail n).toNat = n % 64 + 128 :=
  toNat_ofNat_of_lt (by omega)

theorem isTail_tail (n : Nat) : isTail (tail n) = true := by
  simp only [isTail, UInt8.le_iff_toNat_le, toNat_tail, UInt8.reduceToNat, Bool.and_eq_true,
    decide_eq_true_eq]
  omega

/-- The bounds of the second byte keep short forms and surrogates out. -/
theorem isSecond_tail {lead n : Nat} (hlead : lead < 256) (hshort : lead = 0xe0 → 32 ≤ n % 64)
    (hsurrogate : lead = 0xed → n % 64 < 32) (hplane : lead = 0xf0 → 16 ≤ n % 64)
    (hlast : lead = 0xf4 → n % 64 < 16) : isSecond (UInt8.ofNat lead) (tail n) = true := by
  have hbetween : ∀ low high, low ≤ n % 64 + 128 → n % 64 + 128 ≤ high →
      (decide (low ≤ n % 64 + 128) && decide (n % 64 + 128 ≤ high)) = true := by
    intro low high hlow hhigh
    rw [decide_eq_true hlow, decide_eq_true hhigh, Bool.and_self]
  simp only [isSecond, ← UInt8.toNat_inj, UInt8.le_iff_toNat_le, toNat_tail,
    toNat_ofNat_of_lt hlead, UInt8.reduceToNat]
  split
  · exact hbetween _ _ (by omega) (by omega)
  · split
    · exact hbetween _ _ (by omega) (by omega)
    · split
      · exact hbetween _ _ (by omega) (by omega)
      · split
        · exact hbetween _ _ (by omega) (by omega)
        · exact isTail_tail n

section Step

variable {v : Nat} (rest : List UInt8)

theorem step_one (h : v ≤ 127) : step (UInt8.ofNat v) rest = (some (Char.ofNat v), 0) := by
  have hlead := toNat_ofNat_of_lt (show v < 256 by omega)
  have hascii : UInt8.ofNat v < 0x80 := by
    rw [UInt8.lt_iff_toNat_lt, hlead]
    exact Nat.lt_succ_of_le h
  simp only [step, if_pos hascii, hlead]

theorem step_two (h : 127 < v) (h' : v ≤ 2047) :
    step (UInt8.ofNat (v / 64 % 32 + 192)) (tail v :: rest) = (some (Char.ofNat v), 1) := by
  have hlead := toNat_ofNat_of_lt (show v / 64 % 32 + 192 < 256 by omega)
  have hsecond : isSecond (UInt8.ofNat (v / 64 % 32 + 192)) (tail v) = true :=
    isSecond_tail (by omega) (by omega) (by omega) (by omega) (by omega)
  have hjoin : (v / 64 % 32 + 192) % 32 * 64 + (v % 64 + 128) % 64 = v := by omega
  simp only [step, UInt8.lt_iff_toNat_lt, hlead, hsecond, join, toNat_tail, UInt8.reduceToNat,
    List.foldl_cons, List.foldl_nil, hjoin]
  rw [if_neg (by omega), if_neg (by simp; omega), if_neg (by simp), if_pos (by omega)]

theorem step_three (h : 2047 < v) (h' : v ≤ 65535) (hvalid : v < 0xd800 ∨ 0xdfff < v) :
    step (UInt8.ofNat (v / 4096 % 16 + 224)) (tail (v / 64) :: tail v :: rest) =
      (some (Char.ofNat v), 2) := by
  have hlead := toNat_ofNat_of_lt (show v / 4096 % 16 + 224 < 256 by omega)
  have hsecond : isSecond (UInt8.ofNat (v / 4096 % 16 + 224)) (tail (v / 64)) = true :=
    isSecond_tail (by omega) (by omega) (by omega) (by omega) (by omega)
  have hjoin : ((v / 4096 % 16 + 224) % 16 * 64 + (v / 64 % 64 + 128) % 64) * 64 +
      (v % 64 + 128) % 64 = v := by omega
  simp only [step, UInt8.lt_iff_toNat_lt, hlead, hsecond, isTail_tail, join, toNat_tail,
    UInt8.reduceToNat, List.foldl_cons, List.foldl_nil, hjoin]
  rw [if_neg (by omega), if_neg (by simp; omega), if_neg (by simp), if_neg (by omega),
    if_neg (by simp), if_pos (by omega)]

theorem step_four (h : 65535 < v) (h' : v < 0x110000) :
    step (UInt8.ofNat (v / 262144 % 8 + 240))
      (tail (v / 4096) :: tail (v / 64) :: tail v :: rest) = (some (Char.ofNat v), 3) := by
  have hlead := toNat_ofNat_of_lt (show v / 262144 % 8 + 240 < 256 by omega)
  have hsecond : isSecond (UInt8.ofNat (v / 262144 % 8 + 240)) (tail (v / 4096)) = true :=
    isSecond_tail (by omega) (by omega) (by omega) (by omega) (by omega)
  have hjoin : (((v / 262144 % 8 + 240) % 8 * 64 + (v / 4096 % 64 + 128) % 64) * 64 +
      (v / 64 % 64 + 128) % 64) * 64 + (v % 64 + 128) % 64 = v := by omega
  simp only [step, UInt8.lt_iff_toNat_lt, hlead, hsecond, isTail_tail, join, toNat_tail,
    UInt8.reduceToNat, List.foldl_cons, List.foldl_nil, hjoin]
  rw [if_neg (by omega), if_neg (by simp; omega), if_neg (by simp), if_neg (by omega),
    if_neg (by simp), if_neg (by omega), if_neg (by simp)]

end Step

/-- A character is read back from its bytes, whatever follows them. -/
theorem decode_utf8EncodeChar_append (c : Char) (rest : List UInt8) :
    decode (String.utf8EncodeChar c ++ rest) = some c :: decode rest := by
  have hvalid : c.val.toNat < 0xd800 ∨ 0xdfff < c.val.toNat ∧ c.val.toNat < 0x110000 := c.valid
  have hchar : Char.ofNat c.val.toNat = c := Char.ofNat_toNat c
  simp only [String.utf8EncodeChar]
  split
  · rename_i hone
    simp only [List.cons_append, List.nil_append, decode, decodeAfter, step_one _ hone, hchar]
  · split
    · have hstep := step_two rest (v := c.val.toNat) (by omega) (by omega)
      simp only [tail] at hstep
      simp only [List.cons_append, List.nil_append, decode, decodeAfter, hstep, hchar]
    · split
      · have hstep := step_three rest (v := c.val.toNat) (by omega) (by omega) (by omega)
        simp only [tail] at hstep
        simp only [List.cons_append, List.nil_append, decode, decodeAfter, hstep, hchar]
      · have hstep := step_four rest (v := c.val.toNat) (by omega) (by omega)
        simp only [tail] at hstep
        simp only [List.cons_append, List.nil_append, decode, decodeAfter, hstep, hchar]

theorem encode_append (s t : String) : encode (s ++ t) = encode s ++ encode t := by
  rw [encode, String.toList_append, List.flatMap_append]
  rfl

theorem decode_encode (s : String) : decode (encode s) = s.toList.map some := by
  rw [encode]
  induction s.toList with
  | nil => rfl
  | cons c rest ih =>
      rw [List.flatMap_cons, decode_utf8EncodeChar_append, ih, List.map_cons]

/-- What was written as UTF-8 is read back. -/
theorem text?_encode (s : String) : text? (encode s) = some s := by
  have hmapM : ∀ cs : List Char, (cs.map some).mapM id = some cs := by
    intro cs
    induction cs with
    | nil => rfl
    | cons c rest ih => simp [ih]
  rw [text?, decode_encode, hmapM, Option.map_some, String.ofList_toList]

end Fallow.Utf8
