import ElevatorFleet.CommandLine
import ElevatorFleet.Host.Timeline
import ElevatorFleet.Paths

/-!
# The program

Starts one controller and reads commands for it from the standard input. It runs
without a network and without an assigner, and writes a line for every lamp that
changes.
-/
namespace ElevatorFleet.Program

def reason : IO.Error → String
  | .noFileOrDirectory .. => PathFault.notFound.message
  | .inappropriateType .. => PathFault.isDirectory.message
  | e => e.toString

def readBytes (path : String) : IO (Except String Bytes) := do
  try
    let content ← IO.FS.readBinFile path
    return .ok content.data.toList
  catch e => return .error (reason e)

/-- The configuration file for a user who names none, as far as there is a place for it. -/
def defaultPath : IO (Option String) := do
  let place (dir : String) : String := s!"{dir}/elevator-fleet/config.toml"
  match ← IO.getEnv "XDG_CONFIG_HOME" with
  | some dir => return some (place dir)
  | none => return (← IO.getEnv "HOME").map fun home => place s!"{home}/.config"

/-- Loads the file that the command line names, or the one at the default location. -/
def loadConfig (path? : Option String) : IO (Except Config.LoadError Config) := do
  match path? with
  | some path => return Config.load path (← readBytes path)
  | none =>
    match ← defaultPath with
    | none => return Config.loadDefault "" none
    | some path =>
      let content ← readBytes path
      let isThere := match content with
        | .ok _ => true
        | .error why => why ≠ PathFault.notFound.message
      return Config.loadDefault path (if isThere then some content else none)

def lamps (numFloors : UInt8) : List (Button × Floor) :=
  (List.range numFloors.toNat).flatMap fun floor =>
    [Button.hallUp,.hallDown,.cab].map fun button => (button,UInt8.ofNat floor)

def showLamps (numFloors : UInt8) (before after : LampPanel) : IO Unit :=
  (lamps numFloors).forM fun (button,floor) =>
    if before.lit button floor = after.lit button floor then pure ()
    else
      let state := if after.lit button floor then "lit" else "dark"
      IO.println s!"{button.text} {floor.toNat} {state}"

partial def loop (input : IO.FS.Stream) (numFloors : UInt8) (started : Nat) (t : Timeline) : IO Unit := do
  let line ← input.getLine
  let now := (← IO.monoMsNow) - started
  let ticked := t.pass (now - t.elapsed)
  let next := (Tasks.Console.textLines line).foldl (fun t text => t.happen (.line text)) ticked
  showLamps numFloors t.host.panel next.host.panel
  if line.isEmpty then return
  loop input numFloors started next

def run (c : Config) : IO UInt32 := do
  match c.transport with
  | .error what =>
    IO.eprintln s!"Error: {what.message}"
    return 1
  | .ok settings =>
    match Tasks.Transport.bind .unreachable settings.targets.length settings.loss with
    | .error e =>
      IO.eprintln s!"Error: {Host.bindFailure}: {e.message}"
      return 1
    | .ok transport =>
      let host := Host.new c.peerId c.numFloors c.peerTimeout.toNat c.channelCapacity.toNat transport false 0
      loop (← IO.getStdin) c.numFloors (← IO.monoMsNow)
        (.start host c.broadcastInterval.toNat c.pollInterval.toNat c.refreshInterval.toNat)
      return 0

def start (args : List String) : IO UInt32 := do
  match CommandLine.parse args with
  | .error e =>
    IO.eprintln s!"error: {e.message}"
    return 2
  | .ok line =>
    match ← loadConfig line.configPath with
    | .error e =>
      IO.eprintln ("Error: " ++ ": ".intercalate e.chain)
      return 1
    | .ok config =>
      let config := line.override config
      match config.validate with
      | .error what =>
        IO.eprintln s!"Error: {what.message}"
        return 1
      | .ok _ => run config

end ElevatorFleet.Program

def main (args : List String) : IO UInt32 := ElevatorFleet.Program.start args
