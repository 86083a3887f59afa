import ElevatorFleet.Text.Digits

/-!
# Binary64

Numbers of the IEEE 754 format binary64, exact: every finite one is a whole number of
units, and 2 ^ 1074 units are 1. A decimal is read as the nearest number, a tie going
to the even one, and a number is written in the fewest digits that read back as it.
-/
namespace ElevatorFleet

inductive Binary64 where
  /-- So many units, with a sign also for zero. -/
  | finite (negative : Bool) (units : Nat)
  | infinite (negative : Bool)
  | nan
deriving DecidableEq, Inhabited, Repr

namespace Binary64

def one : Nat := Nat.pow 2 1074

/-- The least number of units that is too many for a finite number. -/
def limit : Nat := Nat.pow 2 2098

/-- The distance to the next greater number: numbers have 53 binary digits, and none
    below the units. -/
def step (units : Nat) : Nat := Nat.pow 2 (units.log2 - 52)

def zero : Binary64 := .finite false 0

/-- The value is at least 0 and less than 1. -/
def isFraction : Binary64 → Bool
  | .finite negative units => units = 0 || (!negative && units < one)
  | _ => false

/-! ### Rounding -/

/-- The whole number nearest to a quotient, the even one of two that are equally near. -/
def roundDiv (num den : Nat) : Nat :=
  let whole := num / den
  let rest := num % den
  if 2 * rest > den || (2 * rest = den && whole % 2 = 1) then whole + 1 else whole

/-- The number nearest to `num / den`, with a sign. -/
def ofRatio (negative : Bool) (num den : Nat) : Binary64 :=
  let size := step (num * one / den)
  let units := roundDiv (num * one) (den * size) * size
  if units < limit then .finite negative units else .infinite negative

/-- The number nearest to `digits` times ten to the power `exponent`, with a sign.
    Beyond the power 400 a decimal is infinite or zero whatever its digits are. -/
def ofDecimal (negative : Bool) (digits : Nat) (exponent : Int) : Binary64 :=
  let magnitude := exponent + (Nat.toDigits 10 digits).length
  if digits = 0 || magnitude < -400 then .finite negative 0
  else if 400 < magnitude then .infinite negative
  else if 0 ≤ exponent then ofRatio negative (digits * Nat.pow 10 exponent.toNat) 1
  else ofRatio negative digits (Nat.pow 10 (-exponent).toNat)

def ofInt (n : Int) : Binary64 := ofRatio (n < 0) n.natAbs 1

/-! ### Reading -/

/-- The exponent at the end of a decimal: a letter, a sign perhaps, and digits. -/
def exponent? : List Char → Option Int
  | [] => some 0
  | c :: rest =>
    if c = 'e' || c = 'E' then
      let (negative,digits) :=
        match rest with
        | '-' :: digits => (true,digits)
        | '+' :: digits => (false,digits)
        | digits => (false,digits)
      if digits ≠ [] && digits.all Char.isDigit then
        some (if negative then -Digits.number 10 digits else Digits.number 10 digits)
      else none
    else none

/-- Reads a decimal without a sign: digits with a point among them, before them or
    after them, or without one, and perhaps an exponent. -/
def readDecimal? (negative : Bool) (s : List Char) : Option Binary64 :=
  let whole := s.takeWhile Char.isDigit
  let (fraction,rest) :=
    match s.dropWhile Char.isDigit with
    | '.' :: after => (after.takeWhile Char.isDigit,after.dropWhile Char.isDigit)
    | rest => ([],rest)
  if whole = [] && fraction = [] then none
  else (exponent? rest).map fun e =>
    ofDecimal negative (Digits.number 10 (whole ++ fraction)) (e - fraction.length)

/-- Reads a value without a sign, the words in any letter case. -/
def readUnsigned? (negative : Bool) (s : List Char) : Option Binary64 :=
  match String.ofList (s.map Char.toLower) with
  | "nan" => some .nan
  | "inf" | "infinity" => some (.infinite negative)
  | _ => readDecimal? negative s

def read? (text : String) : Option Binary64 :=
  match text.toList with
  | '-' :: s => readUnsigned? true s
  | '+' :: s => readUnsigned? false s
  | s => readUnsigned? false s

/-! ### Writing -/

structure Decimal where
  digits : Nat
  exponent : Int
deriving DecidableEq, Repr

/-- What one step of the decimal grid with an exponent measures in units, as a quotient. -/
def gridStep (exponent : Int) : Nat × Nat :=
  if 0 ≤ exponent then (Nat.pow 10 exponent.toNat * one,1) else (one,Nat.pow 10 (-exponent).toNat)

/-- Four times the least number of units that reads back as `units`. Below a power of
    two the numbers lie twice as close. -/
def fourLower (units : Nat) : Nat :=
  if units = Nat.pow 2 units.log2 && 1 < step units then 4 * units - step units
  else 4 * units - 2 * step units

/-- Four times the greatest number of units that reads back as `units`. -/
def fourUpper (units : Nat) : Nat := 4 * units + 2 * step units

/-- The decimal reads back as `units`. The ends of the interval do if `units` has an
    even last digit. -/
def readsBack (units : Nat) (d : Decimal) : Bool :=
  let (num,den) := gridStep d.exponent
  let place := 4 * d.digits * num
  if units / step units % 2 = 0 then fourLower units * den ≤ place && place ≤ fourUpper units * den
  else fourLower units * den < place && place < fourUpper units * den

/-- The decimal with the exponent that is nearest to `units` among those that read
    back as it, the greater one of two that are equally near. -/
def nearest? (units : Nat) (exponent : Int) : Option Decimal :=
  let (num,den) := gridStep exponent
  let below : Decimal := ⟨units * den / num,exponent⟩
  let above : Decimal := ⟨below.digits + 1,exponent⟩
  let isBelowNearer := 2 * (units * den - below.digits * num) < num
  match readsBack units below,readsBack units above with
  | true,true => some (if isBelowNearer then below else above)
  | true,false => some below
  | false,true => some above
  | false,false => none

/-- The number of digits before the point, which is negative for zeros after it. -/
def magnitude (units : Nat) : Int :=
  ((Nat.toDigits 10 (units * Nat.pow 10 324 / one)).length : Int) - 324

def searchGrid (units : Nat) (exponent : Int) : Nat → Decimal
  | 0 => ⟨units * (gridStep exponent).2 / (gridStep exponent).1,exponent⟩
  | tries + 1 =>
    match nearest? units exponent with
    | some d => d
    | none => searchGrid units (exponent - 1) tries

/-- The decimal of the fewest digits that reads back as `units`, and the nearest of
    those. Seventeen digits are always enough. -/
def shortest (units : Nat) : Decimal := searchGrid units (magnitude units - 1) 17

/-- A decimal in positional notation, without a point where none is needed. -/
def Decimal.text (d : Decimal) : String :=
  if 0 ≤ d.exponent then toString (d.digits * Nat.pow 10 d.exponent.toNat)
  else
    let places := (-d.exponent).toNat
    let digits := Nat.toDigits 10 (d.digits % Nat.pow 10 places)
    let padded := List.replicate (places - digits.length) '0' ++ digits
    let fraction := (padded.reverse.dropWhile (· = '0')).reverse
    let whole := toString (d.digits / Nat.pow 10 places)
    if fraction = [] then whole else s!"{whole}.{String.ofList fraction}"

def text : Binary64 → String
  | .finite negative units =>
    let digits := if units = 0 then "0" else (shortest units).text
    if negative then s!"-{digits}" else digits
  | .infinite negative => if negative then "-inf" else "inf"
  | .nan => "NaN"

end Binary64
end ElevatorFleet
