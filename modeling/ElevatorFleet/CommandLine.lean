import ElevatorFleet.Config.File

/-!
# The command line

The options with which a controller is started. Each takes a value, in the next word,
after an equals sign, or, for the short form, right after the letter.
-/
namespace ElevatorFleet

structure CommandLine where
  configPath : Option String := none
  /-- Settings that go before those of the file. -/
  peerId : Option UInt8 := none
  listen : Option Address := none
  logLevel : Option String := none
deriving DecidableEq, Repr

namespace CommandLine

inductive Error where
  | unexpected (word : String)
  | missingValue (option : String)
  | badValue (option value : String)
deriving DecidableEq, Repr

def Error.message : Error → String
  | .unexpected word => s!"unexpected argument '{word}' found"
  | .missingValue option => s!"a value is required for '{option}' but none was supplied"
  | .badValue option value => s!"invalid value '{value}' for '{option}'"

inductive Flag where
  | config
  | peerId
  | listen
  | logLevel
deriving DecidableEq, Repr

def Flag.long : Flag → String
  | .config => "--config"
  | .peerId => "--peer-id"
  | .listen => "--listen"
  | .logLevel => "--log-level"

def Flag.short? : Flag → Option String
  | .config => some "-c"
  | .peerId => some "-p"
  | .listen => some "-l"
  | .logLevel => none

def options : List Flag := [.config,.peerId,.listen,.logLevel]

def set (c : CommandLine) (option : Flag) (value : String) : Except Error CommandLine :=
  let bad : Error := .badValue option.long value
  match option with
  | .config => .ok { c with configPath := some value }
  | .logLevel => .ok { c with logLevel := some value }
  | .peerId =>
    match value.toNat? with
    | some n => if n < 256 then .ok { c with peerId := some (UInt8.ofNat n) } else .error bad
    | none => .error bad
  | .listen =>
    match Address.read? value with
    | some address => .ok { c with listen := some address }
    | none => .error bad

/-- A text after another that it begins with. -/
def after? (start text : String) : Option String :=
  if start.toList.isPrefixOf text.toList then some (String.ofList (text.toList.drop start.length)) else none

/-- The option and the value in one word. -/
def attached? (word : String) : Option (Flag × String) :=
  options.findSome? fun option =>
    ((after? s!"{option.long}=" word) <|> (option.short?.bind fun short => after? short word)).map
      fun value => (option,value)

def parseFrom (c : CommandLine) : List String → Except Error CommandLine
  | [] => .ok c
  | word :: rest =>
    match options.find? fun option => option.long = word || option.short? = some word with
    | some option =>
      match rest with
      | [] => .error (.missingValue option.long)
      | value :: rest =>
        match c.set option value with
        | .ok c => parseFrom c rest
        | .error e => .error e
    | none =>
      match attached? word with
      | some (option,value) =>
        match c.set option value with
        | .ok c => parseFrom c rest
        | .error e => .error e
      | none => .error (.unexpected word)

def parse (words : List String) : Except Error CommandLine := parseFrom {} words

def override (c : CommandLine) (config : Config) : Config :=
  { config with
    peerId := (c.peerId.map PeerId.mk).getD config.peerId
    listenAddr := (c.listen.map Address.text).getD config.listenAddr }

end CommandLine
end ElevatorFleet
