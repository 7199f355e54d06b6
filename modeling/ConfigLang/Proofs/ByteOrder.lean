import Mathlib.Data.String.Basic
/-!
The order of texts. By their bytes in UTF-8 texts are ordered as by their characters: a higher
character has higher bytes, whatever stands behind it.
-/

set_option autoImplicit false

namespace ConfigLang.Text

/-- The bytes of a text in UTF-8. -/
def bytes (text : String) : List UInt8 :=
  text.toUTF8.data.toList

theorem bytes_eq (text : String) : bytes text = text.toList.flatMap String.utf8EncodeChar := by
  rw [bytes, String.toUTF8_eq_toByteArray, ← String.utf8Encode_toList, List.utf8Encode,
    List.data_toByteArray]

theorem toNat_lt (char : Char) : char.toNat < 0x110000 := by
  rcases char.valid with low | ⟨-, high⟩
  · exact Nat.lt_trans low (by decide)
  · exact high

section Encoding

variable {left right : Nat} (rest others : List UInt8)

/-- The first bytes decide, and what is behind them only where they are the same. -/
theorem lex_cons {rest others} (fits : right < 256) (first : left ≤ right)
    (behind : left = right → List.Lex (· < ·) rest others) :
    List.Lex (· < ·) (UInt8.ofNat left :: rest) (UInt8.ofNat right :: others) := by
  rcases Nat.lt_or_eq_of_le first with below | same
  · refine .rel ?_
    rw [UInt8.lt_iff_toNat_lt, UInt8.toNat_ofNat_of_lt' (Nat.lt_trans below fits),
      UInt8.toNat_ofNat_of_lt' fits]
    exact below
  · rw [same]
    exact .cons (behind same)

/-- The bytes that continue a character: the last digits of its number to the base 64. -/
def continuation : Nat → Nat → List UInt8
  | 0, _ => []
  | count + 1, number => UInt8.ofNat (number / 64 ^ count % 64 + 128) :: continuation count number

theorem lex_continuation {count : Nat} (below : left % 64 ^ count < right % 64 ^ count) :
    List.Lex (· < ·) (continuation count left ++ rest) (continuation count right ++ others) := by
  induction count with
  | zero => simp only [Nat.pow_zero, Nat.mod_one, Nat.lt_irrefl] at below
  | succ count ih =>
      rw [Nat.pow_succ, Nat.mod_mul, Nat.mod_mul] at below
      have positive : 0 < 64 ^ count := Nat.pow_pos (by decide)
      have low := Nat.mod_lt left positive
      have digit : left / 64 ^ count % 64 ≤ right / 64 ^ count % 64 := by
        by_contra above
        have more := Nat.mul_le_mul_left (64 ^ count) (Nat.not_le.mp above)
        rw [Nat.mul_succ] at more
        omega
      refine lex_cons (by omega) (by omega) fun same => ih ?_
      rw [Nat.add_right_cancel same] at below
      exact Nat.lt_of_add_lt_add_right below

/-- How many bytes continue the character of a number. -/
def following (number : Nat) : Nat :=
  if number ≤ 127 then 0 else if number ≤ 2047 then 1 else if number ≤ 65535 then 2 else 3

/-- The upper bits of a first byte, which tell how many bytes follow. -/
def marker : Nat → Nat
  | 0 => 0
  | 1 => 192
  | 2 => 224
  | _ => 240

/-- The first byte of the character of a number. -/
def lead (number : Nat) : Nat :=
  number / 64 ^ following number + marker (following number)

theorem lead_lt {number : Nat} (valid : number < 0x110000) : lead number < 256 := by
  unfold lead following
  split_ifs <;> simp only [marker] <;> omega

/-- A higher number has a higher first byte, or the same one and as many bytes behind it. -/
theorem lead_lt_or_eq (below : left < right) (valid : right < 0x110000) :
    lead left < lead right ∨ lead left = lead right ∧ following left = following right := by
  unfold lead following
  split_ifs <;> simp only [marker, and_true] <;> omega

theorem encode_eq (char : Char) :
    String.utf8EncodeChar char =
      UInt8.ofNat (lead char.toNat) :: continuation (following char.toNat) char.toNat := by
  have valid := toNat_lt char
  change (if char.toNat ≤ 127 then [UInt8.ofNat char.toNat]
    else if char.toNat ≤ 2047 then
      [UInt8.ofNat (char.toNat / 64 % 32 + 192), UInt8.ofNat (char.toNat % 64 + 128)]
    else if char.toNat ≤ 65535 then
      [UInt8.ofNat (char.toNat / 4096 % 16 + 224), UInt8.ofNat (char.toNat / 64 % 64 + 128),
        UInt8.ofNat (char.toNat % 64 + 128)]
    else
      [UInt8.ofNat (char.toNat / 262144 % 8 + 240), UInt8.ofNat (char.toNat / 4096 % 64 + 128),
        UInt8.ofNat (char.toNat / 64 % 64 + 128), UInt8.ofNat (char.toNat % 64 + 128)]) = _
  unfold lead following
  split_ifs <;>
    simp only [marker, continuation, Nat.reducePow, Nat.div_one, Nat.add_zero, Nat.pow_zero,
      List.cons.injEq, and_true]
  -- the upper bits are cut to what fits, which is all of them
  · rw [Nat.mod_eq_of_lt (show char.toNat / 64 < 32 by omega)]
  · rw [Nat.mod_eq_of_lt (show char.toNat / 4096 < 16 by omega)]
  · rw [Nat.mod_eq_of_lt (show char.toNat / 262144 < 8 by omega)]

theorem lex_encode {char other : Char} (below : char < other) :
    List.Lex (· < ·) (String.utf8EncodeChar char ++ rest)
      (String.utf8EncodeChar other ++ others) := by
  have less : char.toNat < other.toNat := below
  have valid := toNat_lt other
  rw [encode_eq, encode_eq]
  rcases lead_lt_or_eq less valid with first | ⟨first, count⟩
  · exact lex_cons (lead_lt valid) (Nat.le_of_lt first) fun same => absurd same (Nat.ne_of_lt first)
  · refine lex_cons (lead_lt valid) (Nat.le_of_eq first) fun _ => ?_
    rw [count]
    refine lex_continuation _ _ ?_
    rw [lead, lead, count] at first
    have digit := Nat.add_right_cancel first
    have low := Nat.div_add_mod char.toNat (64 ^ following other.toNat)
    have high := Nat.div_add_mod other.toNat (64 ^ following other.toNat)
    rw [digit] at low
    omega

end Encoding

theorem lex_flatMap {chars others : List Char} (before : List.Lex (· < ·) chars others) :
    List.Lex (· < ·) (chars.flatMap String.utf8EncodeChar)
      (others.flatMap String.utf8EncodeChar) := by
  induction before with
  | nil =>
      rw [List.flatMap_nil, List.flatMap_cons, encode_eq, List.cons_append]
      exact .nil
  | rel below =>
      rw [List.flatMap_cons, List.flatMap_cons]
      exact lex_encode _ _ below
  | cons _ ih =>
      rw [List.flatMap_cons, List.flatMap_cons]
      exact .append_left _ ih _

theorem lex_bytes {left right : String} (before : left < right) :
    List.Lex (· < ·) (bytes left) (bytes right) := by
  rw [bytes_eq, bytes_eq]
  exact lex_flatMap (List.lex_lt.mpr (String.lt_iff_toList_lt.mp before))

/-- The lexicographic order of texts by the numbers of their characters. -/
def Alphabetical (left right : String) : Prop :=
  List.Lex (fun char other => char.toNat < other.toNat) left.toList right.toList

theorem lt_iff_alphabetical {left right : String} : left < right ↔ Alphabetical left right :=
  String.lt_iff_toList_lt.trans List.lex_lt.symm

/-- Texts are ordered in the same way by their characters and by their bytes. -/
theorem alphabetical_iff_lex_bytes {left right : String} :
    Alphabetical left right ↔ List.Lex (· < ·) (bytes left) (bytes right) := by
  rw [← lt_iff_alphabetical]
  refine ⟨lex_bytes, fun before => ?_⟩
  rcases lt_trichotomy left right with below | same | above
  · exact below
  · rw [same] at before
    exact absurd before (asymm before)
  · exact absurd before (asymm (lex_bytes above))

end ConfigLang.Text
