/-!
Integers of 64 bits whose arithmetic is exact or fails: a result out of range is none.
-/

set_option autoImplicit false

namespace ConfigLang.Integer

/-- The 64-bit integer of this value, if there is one. -/
def ofInt? (value : Int) : Option Int64 :=
  if -0x8000000000000000 ≤ value ∧ value < 0x8000000000000000 then some (Int64.ofInt value) else none

theorem ofInt?_eq_some_iff {value : Int} {word : Int64} :
    ofInt? value = some word ↔ word.toInt = value := by
  unfold ofInt?
  split
  next range =>
    constructor
    · intro same
      rw [← Option.some.inj same]
      exact Int64.toInt_ofInt_of_le range.1 range.2
    · intro same
      rw [← same, Int64.ofInt_toInt]
  next range =>
    constructor
    · intro same
      cases same
    · intro same
      exact absurd ⟨same ▸ word.le_toInt, same ▸ word.toInt_lt⟩ range

theorem ofInt?_eq_none_iff {value : Int} :
    ofInt? value = none ↔ ¬ (-0x8000000000000000 ≤ value ∧ value < 0x8000000000000000) := by
  unfold ofInt?
  split <;> simp_all

@[simp] theorem ofInt?_toInt (word : Int64) : ofInt? word.toInt = some word :=
  ofInt?_eq_some_iff.mpr rfl

def add? (left right : Int64) : Option Int64 :=
  ofInt? (left.toInt + right.toInt)

def sub? (left right : Int64) : Option Int64 :=
  ofInt? (left.toInt - right.toInt)

def mul? (left right : Int64) : Option Int64 :=
  ofInt? (left.toInt * right.toInt)

def neg? (word : Int64) : Option Int64 :=
  ofInt? (-word.toInt)

/-- The quotient toward zero. -/
def div? (left right : Int64) : Option Int64 :=
  if right = 0 then none else ofInt? (left.toInt.tdiv right.toInt)

/-- The remainder of the quotient toward zero. There is none where there is no quotient, also where
only the quotient is out of range. -/
def mod? (left right : Int64) : Option Int64 :=
  (div? left right).bind fun _ => ofInt? (left.toInt.tmod right.toInt)

/-- Decimal text with a sign for negative numbers. -/
def text (word : Int64) : String :=
  toString word.toInt

end ConfigLang.Integer
