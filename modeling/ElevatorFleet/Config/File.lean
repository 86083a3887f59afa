import ElevatorFleet.Config
import ElevatorFleet.Text.Utf8
import ElevatorFleet.Toml.Reader

/-!
# Configuration files

A configuration file is a TOML document with the sections `node`, `network`,
`liveness` and `orders`. A section is a table of settings; it may also be an array of
them, in order and from the first one on. Settings that are missing keep their
defaults, and keys that are no setting are ignored.
-/
namespace ElevatorFleet

/-! ### Settings -/

/-- The integer in a value, if it is below `limit` and not negative. -/
def Toml.Value.below? (limit : Nat) : Toml.Value → Option Nat
  | .integer n => if 0 ≤ n && n < limit then some n.toNat else none
  | _ => none

def Toml.Value.text? : Toml.Value → Option String
  | .string s => some s
  | _ => none

def Toml.Value.texts? : Toml.Value → Option (List String)
  | .array items => items.mapM Toml.Value.text?
  | _ => none

/-- The number in a value, which may be written as an integer. -/
def Toml.Value.number? : Toml.Value → Option Binary64
  | .float x => some x
  | .integer n => some (.ofInt n)
  | _ => none

namespace Config

/-- A setting: its key and how a value for it is put into a configuration. -/
structure Setting where
  key : String
  set? : Config → Toml.Value → Option Config

def wordSetting (key : String) (set : Config → UInt64 → Config) : Setting :=
  ⟨key,fun c v => (v.below? (Nat.pow 2 64)).map fun n => set c (UInt64.ofNat n)⟩

def sections : List (String × List Setting) :=
  [("node",[
      ⟨"peer_id",fun c v => (v.below? 256).map fun n => { c with peerId := ⟨UInt8.ofNat n⟩ }⟩,
      ⟨"num_floors",fun c v => (v.below? 256).map fun n => { c with numFloors := UInt8.ofNat n }⟩,
      wordSetting "channel_capacity" fun c n => { c with channelCapacity := n }]),
    ("network",[
      ⟨"listen_addr",fun c v => v.text?.map fun s => { c with listenAddr := s }⟩,
      ⟨"broadcast_addrs",fun c v => v.texts?.map fun l => { c with broadcastAddrs := l }⟩,
      wordSetting "broadcast_interval_ms" fun c n => { c with broadcastInterval := n },
      ⟨"simulated_loss",fun c v => v.number?.map fun x => { c with simulatedLoss := x }⟩]),
    ("liveness",[
      wordSetting "poll_interval_ms" fun c n => { c with pollInterval := n },
      wordSetting "peer_timeout_ms" fun c n => { c with peerTimeout := n }]),
    ("orders",[
      wordSetting "refresh_interval_ms" fun c n => { c with refreshInterval := n },
      ⟨"assigner_path",fun c v => v.text?.map fun s => { c with assignerPath := some s }⟩])]

def Setting.apply (c : Config) (s : Setting) : Option Toml.Value → Option Config
  | none => some c
  | some v => s.set? c v

/-- Puts a section into a configuration. A date has no settings. -/
def applySection (settings : List Setting) (c : Config) : Option Toml.Value → Option Config
  | none | some .moment => some c
  | some (.table entries) => settings.foldlM (fun c s => s.apply c (entries.lookup s.key)) c
  | some (.array items) => (settings.zip items).foldlM (fun c (s,v) => s.apply c (some v)) c
  | some _ => none

def ofDocument? (entries : List (String × Toml.Value)) : Option Config :=
  sections.foldlM (fun c (name,settings) => applySection settings c (entries.lookup name)) {}

def read? (text : String) : Option Config := (Toml.read? text).bind ofDocument?

/-! ### Files -/

inductive LoadError where
  /-- The file cannot be read, for a reason that the text tells. -/
  | unreadable (path reason : String)
  | malformed
  | invalid (what : Invalid)
deriving DecidableEq, Repr

def LoadError.message : LoadError → String
  | .unreadable path reason => s!"failed to read {path}: {reason}"
  | .malformed => "failed to parse config"
  | .invalid what => what.message

/-- An error with what it comes from, beginning with what has failed altogether. -/
def LoadError.chain (e : LoadError) : List String :=
  "failed to load configuration" :: e.message ::
    match e with
    | .unreadable _ reason => [reason]
    | _ => []

/-- The text of a file, by what has come of reading its bytes. -/
def fileText (path : String) (content : Except String Bytes) : Except LoadError String :=
  match content with
  | .error reason => .error (.unreadable path reason)
  | .ok bytes =>
    match Utf8.decode bytes with
    | .ok text => .ok text
    | .error _ => .error (.unreadable path "stream did not contain valid UTF-8")

def checked (c : Config) : Except LoadError Config :=
  match c.validate with
  | .ok _ => .ok c
  | .error what => .error (.invalid what)

/-- Loads a file that has to be there. -/
def load (path : String) (content : Except String Bytes) : Except LoadError Config := do
  let text ← fileText path content
  match read? text with
  | some c => checked c
  | none => throw .malformed

/-- Loads the file at the default location, if there is one, and the defaults
    otherwise. -/
def loadDefault (path : String) (content? : Option (Except String Bytes)) : Except LoadError Config :=
  match content? with
  | some content => load path content
  | none => checked {}

end Config
end ElevatorFleet
