import ElevatorFleet.Command
import Mathlib.Data.List.Forall2
import Mathlib.Data.List.Induction
import Mathlib.Data.Nat.Init
import Mathlib.Tactic.IntervalCases

/-!
# Spellings of floors and words

A floor is written as a decimal numeral of a number below 256, with a plus sign in front or without
(`Command.readFloor_eq_ok_iff`). Directions, behaviors and drives are written as one of their spellings, each
letter of it small or capital (`Direction.read_eq_ok_iff`, `Behavior.read_eq_ok_iff`, `Motor.read_eq_ok_iff`).
-/
namespace ElevatorFleet
variable {word spelling : String} {digits : List Char} {n d : Nat}

/-! ### Numerals -/

/-- The decimal numerals with the numbers that they stand for. Zeros in front are allowed. -/
inductive Numeral : List Char → Nat → Prop where
  | digit {d : Nat} (small : d < 10) : Numeral [d.digitChar] d
  | snoc {digits : List Char} {n d : Nat} (front : Numeral digits n) (small : d < 10) :
      Numeral (digits ++ [d.digitChar]) (n * 10 + d)

namespace Digits

theorem value?_digitChar (small : d < 10) : value? 10 d.digitChar = some d := by
  interval_cases d <;> decide

theorem isDigit_digitChar (small : d < 10) : d.digitChar.isDigit = true := by
  interval_cases d <;> decide

theorem exists_digitChar {c : Char} (digit : c.isDigit = true) : ∃ d < 10, c = d.digitChar := by
  have bounds : 48 ≤ c.toNat ∧ c.toNat ≤ 57 := by simpa [Char.isDigit,UInt32.le_iff_toNat_le] using digit
  refine ⟨c.toNat - 48,by omega,?_⟩
  rw [← Char.ofNat_toNat c]
  obtain ⟨low,high⟩ := bounds
  generalize c.toNat = code at low high
  interval_cases code <;> rfl

end Digits

theorem Numeral.all_digits (numeral : Numeral digits n) : digits ≠ [] ∧ digits.all Char.isDigit = true := by
  induction numeral with
  | digit small => simp [Digits.isDigit_digitChar small]
  | snoc _ small ih => simp [Digits.isDigit_digitChar small,ih.2]

theorem Numeral.number (numeral : Numeral digits n) : Digits.number 10 digits = n := by
  induction numeral with
  | digit small => simp [Digits.number,Digits.value?_digitChar small]
  | snoc _ small ih => rw [Digits.number_append_singleton,ih,Digits.value?_digitChar small,Option.getD_some]

theorem numeral_number (some : digits ≠ []) (all : digits.all Char.isDigit = true) :
    Numeral digits (Digits.number 10 digits) := by
  induction digits using List.reverseRecOn with
  | nil => exact absurd rfl some
  | append_singleton front c ih =>
    simp only [List.all_append,List.all_cons,List.all_nil,Bool.and_true,Bool.and_eq_true] at all
    obtain ⟨d,small,rfl⟩ := Digits.exists_digitChar all.2
    rw [Digits.number_append_singleton,Digits.value?_digitChar small,Option.getD_some]
    by_cases none : front = []
    · simpa [none] using Numeral.digit small
    · exact (ih none all.1).snoc small

/-- Some digits are a numeral of one number. -/
theorem numeral_iff : Numeral digits n ↔ digits ≠ [] ∧ digits.all Char.isDigit = true ∧ Digits.number 10 digits = n := by
  constructor
  · intro numeral
    exact ⟨numeral.all_digits.1,numeral.all_digits.2,numeral.number⟩
  · rintro ⟨some,all,rfl⟩
    exact numeral_number some all

/-- What is printed for a number is a numeral of it. -/
theorem numeral_toDigits (n : Nat) : Numeral (Nat.toDigits 10 n) n := by
  induction n using Nat.base_induction 10 (by decide) with
  | single d small =>
    rw [Nat.toDigits_of_lt_base small]
    exact .digit small
  | digit m d small positive ih =>
    rw [← Nat.toDigits_append_toDigits (by decide) positive small,Nat.toDigits_of_lt_base small,Nat.mul_comm]
    exact ih.snoc small

/-! ### Floors -/

/-- The word is a numeral of the floor, or one after a plus sign. -/
def Floor.Written (floor : Floor) (word : String) : Prop :=
  ∃ digits, Numeral digits floor.toNat ∧ (word.toList = digits ∨ word.toList = '+' :: digits)

theorem Command.unsigned_eq_iff {letters : List Char} (numeral : Numeral digits n) :
    Command.unsigned letters = digits ↔ letters = digits ∨ letters = '+' :: digits := by
  have unsigned_digits : ∀ rest, digits ≠ '+' :: rest := by
    rintro rest rfl
    simpa using numeral.all_digits.2
  unfold unsigned
  split
  · simp [(unsigned_digits _).symm]
  · rename_i plain
    exact ⟨.inl,fun either => either.resolve_right (plain digits)⟩

theorem Command.readFloor_eq_ok_iff {floor : Floor} : readFloor word = .ok floor ↔ floor.Written word := by
  simp only [readFloor,Floor.Written]
  constructor
  · intro read
    split at read
    · rename_i accepted
      simp only [Bool.and_eq_true,decide_eq_true_eq] at accepted
      obtain ⟨⟨some,all⟩,byte⟩ := accepted
      have numeral := numeral_iff.mpr ⟨some,all,rfl⟩
      cases read
      rw [UInt8.toNat_ofNat_of_lt' byte]
      exact ⟨_,numeral,(unsigned_eq_iff numeral).mp rfl⟩
    · cases read
  · rintro ⟨digits,numeral,letters⟩
    have unsigned := (unsigned_eq_iff numeral).mpr letters
    obtain ⟨some,all,number⟩ := numeral_iff.mp numeral
    have byte := floor.toNat_lt
    simp [unsigned,some,number,byte]
    simpa using all

/-! ### Words -/

/-- The word has the letters of the spelling, each of them as it is or capital. -/
def InAnyCase (spelling word : String) : Prop :=
  List.Forall₂ (fun letter small => letter = small ∨ letter = small.toUpper) word.toList spelling.toList

/-- The word is one of the spellings, in any letter case. -/
def OneOf (spellings : List String) (word : String) : Prop := ∃ spelling ∈ spellings, InAnyCase spelling word

theorem toNat_toLower (c : Char) :
    c.toLower.toNat = if 65 ≤ c.toNat ∧ c.toNat ≤ 90 then c.toNat + 32 else c.toNat := by
  unfold Char.toLower
  by_cases capital : 65 ≤ c.toNat ∧ c.toNat ≤ 90
  · rw [dif_pos (by simpa [UInt32.le_iff_toNat_le] using capital),if_pos capital]
    have bound : c.val.toNat ≤ 90 := capital.2
    show (c.val + 32).toNat = c.val.toNat + 32
    rw [UInt32.toNat_add]
    simp; omega
  · rw [dif_neg (by simpa [UInt32.le_iff_toNat_le] using capital),if_neg capital]

theorem toNat_toUpper (c : Char) :
    c.toUpper.toNat = if 97 ≤ c.toNat ∧ c.toNat ≤ 122 then c.toNat - 32 else c.toNat := by
  unfold Char.toUpper
  by_cases small : 97 ≤ c.toNat ∧ c.toNat ≤ 122
  · rw [dif_pos (by simpa [UInt32.le_iff_toNat_le] using small),if_pos small]
    have bounds : 97 ≤ c.val.toNat ∧ c.val.toNat ≤ 122 := small
    -- Taking 32 away from a word of 32 bits is adding its complement.
    show (c.val + 4294967264).toNat = c.val.toNat - 32
    rw [UInt32.toNat_add]
    simp; omega
  · rw [dif_neg (by simpa [UInt32.le_iff_toNat_le] using small),if_neg small]

theorem toLower_eq_iff {c small : Char} (lower : small.toLower = small) :
    c.toLower = small ↔ c = small ∨ c = small.toUpper := by
  simp only [← Char.toNat_inj,toNat_toLower,toNat_toUpper] at lower ⊢
  split at lower <;> split <;> split <;> omega

theorem lowered_eq_iff (lower : lowered spelling = spelling) : lowered word = spelling ↔ InAnyCase spelling word := by
  rw [← String.toList_inj,lowered,String.toList_map] at lower ⊢
  rw [InAnyCase]
  generalize spelling.toList = small at lower
  generalize word.toList = letters
  induction letters generalizing small with
  | nil => cases small <;> simp
  | cons c letters ih =>
    cases small with
    | nil => simp
    | cons d small =>
      simp only [List.map_cons,List.cons.injEq] at lower
      simp [toLower_eq_iff lower.1,ih small lower.2]

theorem oneOf_iff {spellings : List String} (lower : ∀ s ∈ spellings, lowered s = s) :
    OneOf spellings word ↔ lowered word ∈ spellings := by
  constructor
  · rintro ⟨spelling,listed,same⟩
    rwa [(lowered_eq_iff (lower spelling listed)).mpr same]
  · intro listed
    exact ⟨lowered word,listed,(lowered_eq_iff (lower _ listed)).mp rfl⟩

/-- The spellings of a direction: its word and the first letter of it. -/
def Direction.spellings : Direction → List String
  | .up => ["up","u"]
  | .down => ["down","d"]

/-- The spellings of a behavior: its word, of which the open door has three. -/
def Behavior.spellings : Behavior → List String
  | .idle => ["idle"]
  | .moving => ["moving"]
  | .doorOpen => ["dooropen","door_open","door-open"]

/-- The spelling of a drive: its word and no other. -/
def Motor.spellings (m : Motor) : List String := [m.word]

theorem Direction.read_eq_ok_iff {direction : Direction} :
    Direction.read word = .ok direction ↔ OneOf direction.spellings word := by
  rw [oneOf_iff (by cases direction <;> decide +kernel),Direction.read]
  generalize lowered word = w
  cases direction <;> split <;> simp_all [spellings]

theorem Behavior.read_eq_ok_iff {behavior : Behavior} :
    Behavior.read word = .ok behavior ↔ OneOf behavior.spellings word := by
  rw [oneOf_iff (by cases behavior <;> decide +kernel),Behavior.read]
  generalize lowered word = w
  cases behavior <;> split <;> simp_all [spellings]

theorem Motor.read_eq_ok_iff {motor : Motor} : Motor.read word = .ok motor ↔ OneOf motor.spellings word := by
  rw [oneOf_iff (by cases motor <;> decide +kernel),Motor.read]
  generalize lowered word = w
  cases motor <;> split <;> simp_all [spellings,Motor.word]

end ElevatorFleet
