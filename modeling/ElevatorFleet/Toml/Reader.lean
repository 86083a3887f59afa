import ElevatorFleet.Toml.Number
import ElevatorFleet.Toml.Table

/-!
# Reading TOML

A document is a sequence of entries, headers and blank lines. Arrays and tables in
braces can be nested to a depth of 79.
-/
namespace ElevatorFleet.Toml

/-! ### Values -/

def scanScalar : Scanner Value := fun s =>
  match s with
  | '"' :: _ | '\'' :: _ => (scanString s).map fun (text,rest) => (.string text,rest)
  | 't' :: 'r' :: 'u' :: 'e' :: rest => some (.boolean true,rest)
  | 'f' :: 'a' :: 'l' :: 's' :: 'e' :: rest => some (.boolean false,rest)
  | _ => scanNumber s

def skipAll (s : List Char) : List Char := skipLines s.length s

/-- Reads the rest of an array, of which `before` has been read, in reverse. The last
    item may have a comma after it. -/
def scanItems (item : Scanner Value) (before : List Value) : (turns : Nat) → Scanner Value
  | 0,_ => none
  | turns + 1,s =>
    match skipAll s with
    | ']' :: rest => some (.array before.reverse,rest)
    | s => do
      let (v,rest) ← item s
      match skipAll rest with
      | ',' :: rest => scanItems item (v :: before) turns rest
      | ']' :: rest => some (.array (v :: before).reverse,rest)
      | _ => none

/-- Reads keys and the equals sign after them; the last key comes apart. -/
def scanKeys : Scanner (List String × String) := fun s => do
  let (keys,rest) ← scanPath maxDepth s
  let key ← keys.getLast?
  match rest with
  | '=' :: rest => some ((keys.dropLast,key),skipSpaces rest)
  | _ => none

/-- Reads the rest of a table in braces, after an entry and a comma or at its start.
    It stands on one line and has no comma after the last entry. -/
def scanEntries (item : Scanner Value) (entries : Entries) : (turns : Nat) → Scanner Value
  | 0,_ => none
  | turns + 1,s => do
    let ((path,key),rest) ← scanKeys s
    let (v,rest) ← item rest
    let entries ← insertAt path key v entries
    match skipSpaces rest with
    | ',' :: rest => scanEntries item entries turns rest
    | '}' :: rest => some (.table (entryValues entries),rest)
    | _ => none

/-- Reads a value in which arrays and tables are nested no deeper than `depth`. -/
def scanValue : (depth : Nat) → Scanner Value
  | 0,s => scanScalar s
  | depth + 1,s =>
    match s with
    | '[' :: rest => scanItems (scanValue depth) [] (rest.length + 1) rest
    | '{' :: rest =>
      match skipSpaces rest with
      | '}' :: rest => some (.table [],rest)
      | _ => scanEntries (scanValue depth) [] (rest.length + 1) rest
    | _ => scanScalar s

/-! ### Documents -/

def readEntry (d : Draft) (s : List Char) : Option (Draft × List Char) := do
  let ((path,key),rest) ← scanKeys s
  let (v,rest) ← scanValue maxDepth rest
  let rest ← lineEnd? rest
  let d ← d.insert path key v
  some (d,rest)

def readHeader (isItem : Bool) (d : Draft) (s : List Char) : Option (Draft × List Char) := do
  let (keys,rest) ← scanPath maxDepth s
  let key ← keys.getLast?
  let (_,rest) ← Scanner.char ']' rest
  let (_,rest) ← if isItem then Scanner.char ']' rest else some ((),rest)
  let rest ← lineEnd? rest
  let d ← if isItem then d.openItem keys.dropLast key else d.openTable keys.dropLast key
  some (d,rest)

/-- Reads line by line. Every turn reads a line. -/
def readLines (d : Draft) : (turns : Nat) → List Char → Option Draft
  | 0,s => if s = [] then some d else none
  | turns + 1,s =>
    match skipSpaces s with
    | [] => some d
    | '[' :: '[' :: rest => do
      let (d,rest) ← readHeader true d rest
      readLines d turns rest
    | '[' :: rest => do
      let (d,rest) ← readHeader false d rest
      readLines d turns rest
    | c :: rest =>
      if c = '#' || c = '\n' || c = '\r' then do
        let rest ← lineEnd? (c :: rest)
        readLines d turns rest
      else do
        let (d,rest) ← readEntry d (c :: rest)
        readLines d turns rest

def dropMark : List Char → List Char
  | '\ufeff' :: rest => rest
  | s => s

def read? (text : String) : Option (List (String × Value)) := do
  let s := dropMark text.toList
  let d ← readLines .empty s.length s
  let entries ← d.close
  some (entryValues entries)

end ElevatorFleet.Toml
