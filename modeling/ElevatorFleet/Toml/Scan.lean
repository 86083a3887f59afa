import ElevatorFleet.Text.Digits
import ElevatorFleet.Text.Scanner

/-!
# Scanning TOML

The parts of TOML that are read character by character: blanks and comments, strings
and keys.
-/
namespace ElevatorFleet.Toml

def isSpace (c : Char) : Bool := c = ' ' || c = '\t'

/-- A character that may stand in a comment: no control character but the tab. -/
def isPrintable (c : Char) : Bool := c = '\t' || (' ' ≤ c && c ≠ '\x7f')

/-! ### Blanks -/

def skipSpaces (s : List Char) : List Char := s.dropWhile isSpace

/-- Reads the end of a line: a line feed, perhaps with a carriage return before it. -/
def lineFeed? : List Char → Option (List Char)
  | '\n' :: rest => some rest
  | '\r' :: '\n' :: rest => some rest
  | _ => none

def skipComment : List Char → List Char
  | '#' :: rest => rest.dropWhile isPrintable
  | s => s

/-- Reads what may come after an entry or a header: blanks, a comment, and the end of
    the line or of the document. -/
def lineEnd? (s : List Char) : Option (List Char) :=
  match skipComment (skipSpaces s) with
  | [] => some []
  | rest => lineFeed? rest

/-- Leaves out blanks, line ends and comments, as they may stand in an array. Every
    turn but the last reads a line end. -/
def skipLines : (turns : Nat) → List Char → List Char
  | 0,s => s
  | turns + 1,s =>
    let s := skipSpaces s
    match lineFeed? (skipComment s) with
    | some rest => skipLines turns rest
    | none => s

/-! ### Strings -/

def isBasic (c : Char) : Bool := isPrintable c && c ≠ '"' && c ≠ '\\'

def isLiteral (c : Char) : Bool := isPrintable c && c ≠ '\''

def codePoint? (n : Nat) : Option Char := if h : n.isValidChar then some (Char.ofNatAux n h) else none

def scanCodePoint (count : Nat) : Scanner Char := fun s =>
  let digits := s.take count
  if digits.length = count && digits.all (Digits.isDigit 16) then
    (codePoint? (Digits.number 16 digits)).map fun c => (c,s.drop count)
  else none

def scanEscape : Scanner Char
  | 'b' :: rest => some ('\x08',rest)
  | 'f' :: rest => some ('\x0c',rest)
  | 'n' :: rest => some ('\n',rest)
  | 'r' :: rest => some ('\r',rest)
  | 't' :: rest => some ('\t',rest)
  | '"' :: rest => some ('"',rest)
  | '\\' :: rest => some ('\\',rest)
  | 'u' :: rest => scanCodePoint 4 rest
  | 'U' :: rest => scanCodePoint 8 rest
  | _ => none

/-- Reads the rest of a string between double quotes on one line; `before` holds what
    has been read, in reverse. Every turn reads a character. -/
def scanBasic (before : List Char) : (turns : Nat) → Scanner String
  | 0,_ => none
  | turns + 1,s =>
    match s with
    | '"' :: rest => some (String.ofList before.reverse,rest)
    | '\\' :: rest => do
      let (c,rest) ← scanEscape rest
      scanBasic (c :: before) turns rest
    | c :: rest => if isBasic c then scanBasic (c :: before) turns rest else none
    | [] => none

def scanLiteral (s : List Char) : Option (String × List Char) :=
  match s.dropWhile isLiteral with
  | '\'' :: rest => some (String.ofList (s.takeWhile isLiteral),rest)
  | _ => none

/-- Reads the quotes at which a string of several lines may end. One or two may stand
    before the three that end it. -/
def scanQuotes (quote : Char) (before : List Char) : Scanner String := fun s =>
  let run := s.takeWhile (· = quote)
  if 3 ≤ run.length && run.length ≤ 5 then
    some (String.ofList (before.reverse ++ run.drop 3),s.dropWhile (· = quote))
  else none

/-- Reads a line end and all blanks and line ends after it, which a backslash takes
    out of a string. -/
def skipFold? (s : List Char) : Option (List Char) :=
  (lineFeed? (skipSpaces s)).map (go s.length)
where
  go : Nat → List Char → List Char
    | 0,s => s
    | turns + 1,s =>
      match lineFeed? (skipSpaces s) with
      | some rest => go turns rest
      | none => skipSpaces s

def scanLongBasic (before : List Char) : (turns : Nat) → Scanner String
  | 0,_ => none
  | turns + 1,s =>
    match s with
    | '"' :: rest =>
      let run := s.takeWhile (· = '"')
      if run.length < 3 then scanLongBasic ('"' :: before) turns rest else scanQuotes '"' before s
    | '\\' :: rest =>
      match skipFold? rest with
      | some rest => scanLongBasic before turns rest
      | none => do
        let (c,rest) ← scanEscape rest
        scanLongBasic (c :: before) turns rest
    | c :: rest =>
      match lineFeed? s with
      | some rest => scanLongBasic ('\n' :: before) turns rest
      | none => if isBasic c then scanLongBasic (c :: before) turns rest else none
    | [] => none

def scanLongLiteral (before : List Char) : (turns : Nat) → Scanner String
  | 0,_ => none
  | turns + 1,s =>
    match s with
    | '\'' :: rest =>
      let run := s.takeWhile (· = '\'')
      if run.length < 3 then scanLongLiteral ('\'' :: before) turns rest else scanQuotes '\'' before s
    | c :: rest =>
      match lineFeed? s with
      | some rest => scanLongLiteral ('\n' :: before) turns rest
      | none => if isLiteral c then scanLongLiteral (c :: before) turns rest else none
    | [] => none

/-- A text without the line end that it may begin with. -/
def dropLineFeed (s : List Char) : List Char := (lineFeed? s).getD s

def scanString : Scanner String
  | '"' :: '"' :: '"' :: rest => scanLongBasic [] rest.length (dropLineFeed rest)
  | '\'' :: '\'' :: '\'' :: rest => scanLongLiteral [] rest.length (dropLineFeed rest)
  | '"' :: rest => scanBasic [] rest.length rest
  | '\'' :: rest => scanLiteral rest
  | _ => none

/-! ### Keys -/

def isBare (c : Char) : Bool := c.isAlphanum || c = '-' || c = '_'

def scanKey : Scanner String
  | '"' :: rest => scanBasic [] rest.length rest
  | '\'' :: rest => scanLiteral rest
  | s =>
    match s.takeWhile isBare with
    | [] => none
    | key => some (String.ofList key,s.dropWhile isBare)

/-- Keys with points between them can go this deep. -/
def maxDepth : Nat := 79

/-- Reads at most so many keys with points between them, with blanks around each. -/
def scanPath : (most : Nat) → Scanner (List String)
  | 0,_ => none
  | most + 1,s => do
    let (key,rest) ← scanKey (skipSpaces s)
    match skipSpaces rest with
    | '.' :: rest =>
      let (keys,rest) ← scanPath most rest
      some (key :: keys,rest)
    | rest => some ([key],rest)

end ElevatorFleet.Toml
