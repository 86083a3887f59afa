import ElevatorFleet.Json.Value

/-!
# Reading JSON

A machine that reads a JSON document byte by byte. The values that are still open are
a stack of frames, so a document may be nested as deeply as it likes. The machine
accepts exactly the documents of the grammar; it looks at the escapes of a string and
at its control characters, and not at whether the bytes of a string are text.
-/
namespace ElevatorFleet.Json

/-! ### Parsing -/

/-- A value that is still open, with what it holds already in reverse. -/
inductive Frame where
  | items (before : List Value)
  | members (before : List (Bytes × Value))
  | member (before : List (Bytes × Value)) (key : Bytes)
deriving Repr

/-- What has to come next. -/
inductive Expect where
  | value
  /-- The first item of an array, or its end. -/
  | valueOrEnd
  | key
  | keyOrEnd
  | colon
  | commaOrEnd
deriving DecidableEq, Repr

inductive Progress where
  | within (expect : Expect) (frames : List Frame)
  | complete (v : Value)
deriving Repr

inductive Token where
  | openArray
  | closeArray
  | openObject
  | closeObject
  | colon
  | comma
  | string (raw : Bytes)
  | leaf (v : Value)
deriving Repr

/-- Puts a finished value into the innermost open one. -/
def Progress.put (v : Value) : List Frame → Option Progress
  | [] => some (.complete v)
  | .items before :: frames => some (.within .commaOrEnd (.items (v :: before) :: frames))
  | .member before key :: frames =>
    some (.within .commaOrEnd (.members ((key,v) :: before) :: frames))
  | .members _ :: _ => none

def Progress.startValue (frames : List Frame) : Token → Option Progress
  | .openArray => some (.within .valueOrEnd (.items [] :: frames))
  | .openObject => some (.within .keyOrEnd (.members [] :: frames))
  | .string raw => Progress.put (.string raw) frames
  | .leaf v => Progress.put v frames
  | _ => none

def Progress.take : Progress → Token → Option Progress
  | .within .valueOrEnd (.items [] :: frames),.closeArray => Progress.put (.array []) frames
  | .within .value frames,token => Progress.startValue frames token
  | .within .valueOrEnd frames,token => Progress.startValue frames token
  | .within .keyOrEnd (.members [] :: frames),.closeObject => Progress.put (.object []) frames
  | .within .keyOrEnd (.members before :: frames),.string raw =>
    some (.within .colon (.member before raw :: frames))
  | .within .key (.members before :: frames),.string raw =>
    some (.within .colon (.member before raw :: frames))
  | .within .colon frames,.colon => some (.within .value frames)
  | .within .commaOrEnd (.items before :: frames),.comma =>
    some (.within .value (.items before :: frames))
  | .within .commaOrEnd (.items before :: frames),.closeArray => Progress.put (.array before.reverse) frames
  | .within .commaOrEnd (.members before :: frames),.comma =>
    some (.within .key (.members before :: frames))
  | .within .commaOrEnd (.members before :: frames),.closeObject =>
    Progress.put (.object before.reverse) frames
  | _,_ => none

/-! ### Scanning -/

inductive NumberPart where
  | minus
  | zero
  | whole
  | point
  | fraction
  | exponent
  | exponentSign
  | exponentDigits
deriving DecidableEq, Repr

/-- What the byte just read belongs to. -/
inductive Lexeme where
  | blank
  /-- A string, its bytes in reverse. -/
  | string (before : Bytes)
  | escape (before : Bytes)
  /-- A string within an escape that lacks so many hexadecimal digits. -/
  | hex (before : Bytes) (left : Nat)
  | number (before : Bytes) (part : NumberPart)
  /-- A word of which some letters are still to come. -/
  | word (left : Bytes) (v : Value)
deriving Repr

def isDigit (b : UInt8) : Bool := 0x30 ≤ b && b ≤ 0x39

def isHexDigit (b : UInt8) : Bool :=
  isDigit b || (0x41 ≤ b && b ≤ 0x46) || (0x61 ≤ b && b ≤ 0x66)

def isBlank (b : UInt8) : Bool := b = 0x20 || b = 0x09 || b = 0x0A || b = 0x0D

/-- A byte that alone makes an escape after a backslash. -/
def isEscape (b : UInt8) : Bool :=
  b = 0x22 || b = 0x5C || b = 0x2F || b = 0x62 || b = 0x66 || b = 0x6E || b = 0x72 || b = 0x74

/-- The part of a number that a byte leads to, if the number can go on with it. -/
def NumberPart.next? (part : NumberPart) (b : UInt8) : Option NumberPart :=
  let isExponent := b = 0x65 || b = 0x45
  match part with
  | .minus => if b = 0x30 then some .zero else if isDigit b then some .whole else none
  | .zero => if b = 0x2E then some .point else if isExponent then some .exponent else none
  | .whole =>
    if isDigit b then some .whole
    else if b = 0x2E then some .point
    else if isExponent then some .exponent
    else none
  | .point => if isDigit b then some .fraction else none
  | .fraction => if isDigit b then some .fraction else if isExponent then some .exponent else none
  | .exponent =>
    if isDigit b then some .exponentDigits
    else if b = 0x2B || b = 0x2D then some .exponentSign
    else none
  | .exponentSign => if isDigit b then some .exponentDigits else none
  | .exponentDigits => if isDigit b then some .exponentDigits else none

def NumberPart.isEnd : NumberPart → Bool
  | .zero | .whole | .fraction | .exponentDigits => true
  | .minus | .point | .exponent | .exponentSign => false

/-- The machine: what it is reading and how far it has come. -/
structure Reader where
  lexeme : Lexeme
  progress : Progress
deriving Repr

namespace Reader

def start : Reader := ⟨.blank,.within .value []⟩

def token (progress : Progress) (t : Token) : Option Reader :=
  (progress.take t).map fun next => ⟨.blank,next⟩

def between (progress : Progress) (b : UInt8) : Option Reader :=
  if isBlank b then some ⟨.blank,progress⟩
  else if b = 0x5B then token progress .openArray
  else if b = 0x5D then token progress .closeArray
  else if b = 0x7B then token progress .openObject
  else if b = 0x7D then token progress .closeObject
  else if b = 0x3A then token progress .colon
  else if b = 0x2C then token progress .comma
  else if b = 0x22 then some ⟨.string [],progress⟩
  else if b = 0x2D then some ⟨.number [b] .minus,progress⟩
  else if b = 0x30 then some ⟨.number [b] .zero,progress⟩
  else if isDigit b then some ⟨.number [b] .whole,progress⟩
  else if b = 0x6E then some ⟨.word [0x75,0x6C,0x6C] .null,progress⟩
  else if b = 0x74 then some ⟨.word [0x72,0x75,0x65] (.bool true),progress⟩
  else if b = 0x66 then some ⟨.word [0x61,0x6C,0x73,0x65] (.bool false),progress⟩
  else none

def step (r : Reader) (b : UInt8) : Option Reader :=
  match r.lexeme with
  | .blank => between r.progress b
  | .string before =>
    if b = 0x22 then token r.progress (.string before.reverse)
    else if b = 0x5C then some { r with lexeme := .escape (b :: before) }
    else if b < 0x20 then none
    else some { r with lexeme := .string (b :: before) }
  | .escape before =>
    if b = 0x75 then some { r with lexeme := .hex (b :: before) 4 }
    else if isEscape b then some { r with lexeme := .string (b :: before) }
    else none
  | .hex before left =>
    if !isHexDigit b then none
    else if left ≤ 1 then some { r with lexeme := .string (b :: before) }
    else some { r with lexeme := .hex (b :: before) (left - 1) }
  | .number before part =>
    match part.next? b with
    | some next => some { r with lexeme := .number (b :: before) next }
    | none =>
      if part.isEnd then
        (r.progress.take (.leaf (.number before.reverse))).bind fun next => between next b
      else none
  | .word left v =>
    match left with
    | [] => none
    | [last] => if b = last then token r.progress (.leaf v) else none
    | letter :: rest => if b = letter then some { r with lexeme := .word rest v } else none

/-- The document, if it ends here. A number at the very end ends with it. -/
def finish? (r : Reader) : Option Value :=
  match r.lexeme,r.progress with
  | .blank,.complete v => some v
  | .number before part,progress =>
    if part.isEnd then
      match progress.take (.leaf (.number before.reverse)) with
      | some (.complete v) => some v
      | _ => none
    else none
  | _,_ => none

end Reader

def read? (bytes : Bytes) : Option Value := (bytes.foldlM Reader.step .start).bind Reader.finish?

end ElevatorFleet.Json
