import ElevatorFleet.Toml.Scan
import ElevatorFleet.Toml.Value

/-!
# TOML numbers and dates

Integers of 64 bits in four bases, floats, and dates and times. A single underscore may
stand between any two digits of a number.
-/
namespace ElevatorFleet.Toml

/-- Reads digits with single underscores between them, and leaves the underscores
    out; `isDigit` tells what a digit is. -/
def scanDigits (isDigit : Char → Bool) : Scanner (List Char)
  | [] => none
  | c :: rest => if isDigit c then some (c :: (go rest).1,(go rest).2) else none
where
  go : List Char → List Char × List Char
    | '_' :: c :: rest => if isDigit c then (c :: (go rest).1,(go rest).2) else ([],'_' :: c :: rest)
    | c :: rest => if isDigit c then (c :: (go rest).1,(go rest).2) else ([],c :: rest)
    | [] => ([],[])

/-- Reads a sign, if there is one; a minus makes a number negative. -/
def scanSign : List Char → Bool × List Char
  | '-' :: rest => (true,rest)
  | '+' :: rest => (false,rest)
  | rest => (false,rest)

/-- Reads a decimal integer without a sign, which has no leading zero. -/
def scanWhole : Scanner (List Char)
  | '0' :: rest => some (['0'],rest)
  | s => scanDigits Char.isDigit s

/-! ### Integers -/

def int64? (n : Int) : Option Value :=
  if -Nat.pow 2 63 ≤ n && n < Nat.pow 2 63 then some (.integer n) else none

def scanInBase (base : Nat) : Scanner Value := fun s => do
  let (digits,rest) ← scanDigits (Digits.isDigit base) s
  let value ← int64? (Digits.number base digits)
  some (value,rest)

def scanInteger : Scanner Value
  | '0' :: 'x' :: rest => scanInBase 16 rest
  | '0' :: 'o' :: rest => scanInBase 8 rest
  | '0' :: 'b' :: rest => scanInBase 2 rest
  | s => do
    let (negative,s) := scanSign s
    let (digits,rest) ← scanWhole s
    let magnitude : Int := Digits.number 10 digits
    let value ← int64? (if negative then -magnitude else magnitude)
    some (value,rest)

/-! ### Floats -/

def scanFraction : Scanner (List Char) := fun s => do
  let (_,s) ← Scanner.char '.' s
  scanDigits Char.isDigit s

def scanExponent : Scanner Int
  | [] => none
  | c :: rest =>
    if c = 'e' || c = 'E' then do
      let (negative,s) := scanSign rest
      let (digits,rest) ← scanDigits Char.isDigit s
      let magnitude : Int := Digits.number 10 digits
      some (if negative then -magnitude else magnitude,rest)
    else none

/-- Reads a float that has a point, an exponent, or both. Too large a float is refused
    if it is positive. -/
def scanDecimal : Scanner Value := fun s => do
  let (negative,s) := scanSign s
  let (whole,s) ← scanWhole s
  let (fraction,exponent,rest) ←
    match scanFraction s with
    | some (fraction,s) =>
      match scanExponent s with
      | some (exponent,rest) => some (fraction,exponent,rest)
      | none => some (fraction,0,s)
    | none => (scanExponent s).map fun (exponent,rest) => ([],exponent,rest)
  let value := Binary64.ofDecimal negative (Digits.number 10 (whole ++ fraction)) (exponent - fraction.length)
  if value = .infinite false then none else some (.float value,rest)

def scanSpecial : Scanner Value := fun s =>
  let (negative,s) := scanSign s
  match s with
  | 'i' :: 'n' :: 'f' :: rest => some (.float (.infinite negative),rest)
  | 'n' :: 'a' :: 'n' :: rest => some (.float .nan,rest)
  | _ => none

/-! ### Dates and times -/

def scanFixed (count : Nat) : Scanner Nat := fun s =>
  let digits := s.take count
  if digits.length = count && digits.all Char.isDigit then
    some (Digits.number 10 digits,s.drop count)
  else none

def scanTwo (low high : Nat) : Scanner Nat := fun s => do
  let (n,rest) ← scanFixed 2 s
  if low ≤ n && n ≤ high then some (n,rest) else none

def daysOf (year month : Nat) : Nat :=
  if month = 2 then
    if year % 4 = 0 && (year % 100 ≠ 0 || year % 400 = 0) then 29 else 28
  else if month = 4 || month = 6 || month = 9 || month = 11 then 30
  else 31

def scanDate : Scanner Unit := fun s => do
  let (year,s) ← scanFixed 4 s
  let (_,s) ← Scanner.char '-' s
  let (month,s) ← scanTwo 1 12 s
  let (_,s) ← Scanner.char '-' s
  let (_,s) ← scanTwo 1 (daysOf year month) s
  some ((),s)

/-- Reads a time, with a fraction of a second or without. A minute may have a leap
    second. -/
def scanTime : Scanner Unit := fun s => do
  let (_,s) ← scanTwo 0 23 s
  let (_,s) ← Scanner.char ':' s
  let (_,s) ← scanTwo 0 59 s
  let (_,s) ← Scanner.char ':' s
  let (_,s) ← scanTwo 0 60 s
  match s with
  | '.' :: rest =>
    if rest.takeWhile Char.isDigit = [] then some ((),s)
    else some ((),rest.dropWhile Char.isDigit)
  | s => some ((),s)

def skipOffset (s : List Char) : List Char :=
  match s with
  | [] => []
  | c :: rest =>
    if c = 'Z' || c = 'z' then rest
    else if c = '+' || c = '-' then
      let offset : Option (List Char) := do
        let (_,t) ← scanTwo 0 23 rest
        let (_,t) ← Scanner.char ':' t
        let (_,t) ← scanTwo 0 59 t
        some t
      offset.getD s
    else s

def skipTime (s : List Char) : List Char :=
  match s with
  | [] => []
  | c :: rest =>
    if c = 'T' || c = 't' || c = ' ' then
      match scanTime rest with
      | some (_,t) => skipOffset t
      | none => s
    else s

def scanMoment : Scanner Value := fun s =>
  match scanDate s with
  | some (_,rest) => some (.moment,skipTime rest)
  | none => (scanTime s).map fun (_,rest) => (.moment,rest)

def scanNumber : Scanner Value := fun s =>
  scanMoment s <|> scanDecimal s <|> scanSpecial s <|> scanInteger s

end ElevatorFleet.Toml
