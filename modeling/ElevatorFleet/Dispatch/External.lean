import ElevatorFleet.Dispatch.Exchange
import ElevatorFleet.Text.Blank

/-!
# External assigners

An assigner that is a program of its own: how it is called, and what is made of the
way it ends and of what it has written.
-/
namespace ElevatorFleet.Dispatch

def Input.arguments (i : Input) : List Bytes := [utf8 "-i",i.document,utf8 "--includeCab"]

/-- How many bytes an argument can have at most. -/
def maxArgument : Nat := 131071

/-- The operating system passes the arguments on. -/
def Input.fits (i : Input) : Bool := i.arguments.all fun a => a.length ≤ maxArgument

def argumentTooLong : String := "Argument list too long (os error 7)"

inductive Exit where
  | code (n : Nat)
  | signal (n : Nat)
deriving DecidableEq, Repr

/-- A program ends with a number, of which only the low eight bits are seen. -/
def Exit.ofNumber (n : Nat) : Exit := .code (n % 256)

/-- The names of the signals 1 to 31. -/
def signalNames : List String :=
  ["SIGHUP","SIGINT","SIGQUIT","SIGILL","SIGTRAP","SIGABRT","SIGBUS","SIGFPE","SIGKILL","SIGUSR1",
    "SIGSEGV","SIGUSR2","SIGPIPE","SIGALRM","SIGTERM","SIGSTKFLT","SIGCHLD","SIGCONT","SIGSTOP",
    "SIGTSTP","SIGTTIN","SIGTTOU","SIGURG","SIGXCPU","SIGXFSZ","SIGVTALRM","SIGPROF","SIGWINCH",
    "SIGIO","SIGPWR","SIGSYS"]

def Exit.text : Exit → String
  | .code n => s!"exit status: {n}"
  | .signal n =>
    match if n = 0 then none else signalNames[n - 1]? with
    | some name => s!"signal: {n} ({name})"
    | none => s!"signal: {n}"

structure Outcome where
  exit : Exit
  stdout : Bytes
  stderr : String
deriving DecidableEq, Repr

inductive AssignError where
  /-- The operating system could not run the program, with its own text. -/
  | notRun (text : String)
  | malformed
  | failed (program : String) (exit : Exit) (stderr : String)
deriving DecidableEq, Repr

def AssignError.message : AssignError → String
  | .notRun text => s!"failed to run assigner: {text}"
  | .malformed => "assigner JSON error"
  | .failed program exit stderr =>
    s!"assigner failed: {program} exited with {exit.text}: {Blank.trim stderr}"

/-- What an assigner program has answered, by what is left of it. -/
def Outcome.assignment (o : Outcome) (program : String) : Except AssignError Assignment :=
  if o.exit = .code 0 then
    match Json.parse? o.stdout with
    | some a => .ok a
    | none => .error .malformed
  else .error (.failed program o.exit o.stderr)

end ElevatorFleet.Dispatch
