import Introspect.Command.Invocation
import Introspect.Command.Listing
import Introspect.Command.Sample
/-!
# The outcome of a command

A run sees files and an environment, and its outcome is what it writes and the code that it ends with: 2 where the
command line was refused, 1 where the log or the command failed, and 0 otherwise.  A failed command has written nothing
but the reason.
-/
namespace Introspect

structure Outcome where
  code : Nat
  output : String := ""
  errors : String := ""
  deriving DecidableEq, Repr

namespace Command

/-! ## Answers -/

def processMaps (process : Option Nat) : String :=
  match process with
  | some n => s!"/proc/{Text.decimal n}/maps"
  | none => ownMapsPath

def inspection (files : Storage) (file : String) (all : Bool) : Except String (List String) := do
  let bytes ← (files.read file).mapError FileFailure.message
  match Image.header? bytes with
  | some h => .ok (Listing.image file all bytes h)
  | none => .error s!"{file} is not a 64-bit ELF image"

def emptyRegistry (env : Environment) : Registry := { mapsPath := (Settings.ofEnvironment env).mapsPath }

/-- The registry after some files have been looked at, and what came of it. -/
def indexed (files : Storage) (r : Registry) (paths : List String) : Report × Registry :=
  paths.foldl (fun (report, r) path =>
    let (more, r) := r.refreshPath files ⟨path⟩
    (report + more, r)) ({}, r)

def symbolListing (files : Storage) (env : Environment) (kind : Option SymbolKind) (filter : Option String)
    (paths : List String) : Except Error (List String) := do
  let r := emptyRegistry env
  let (report, r) ← if paths.isEmpty then r.tryRefresh files else pure (indexed files r paths)
  return Listing.symbols (Listing.selected r kind filter) report

def resolution (files : Storage) (env : Environment) (name : String) (kind : SymbolKind) (byPath : Bool) :
    Except Error (List String) := do
  let (_, r) ← (emptyRegistry env).tryRefresh files
  if byPath then
    match r.findPath? name kind with
    | some s => return Listing.symbol s
    | none => .error (.symbolNotFound kind name)
  else return Listing.symbol (← r.require name kind)

def answer (files : Storage) (env : Environment) : Command → Except String (List String)
  | .demangle names => .ok (names.map Linkage.demangle)
  | .mangle path => .ok [Linkage.mangle path]
  | .maps process => ((files.mappings (processMaps process)).map Listing.mappings).mapError Error.message
  | .inspect file all => inspection files file all
  | .symbols kind filter paths => (symbolListing files env kind filter paths).mapError Error.message
  | .lookup name kind byPath => (resolution files env name kind byPath).mapError Error.message
  | .demo => Sample.lines

/-! ## Runs -/

def unlines (lines : List String) : String := String.join (lines.map (· ++ "\n"))

def version : String := unlines ["yrt 0.0.0"]

def usage : String := unlines [
  "Usage: yrt [--log-level LEVEL] [--log-format FORMAT] [--log-dir DIR] COMMAND [ARGUMENTS]",
  "Commands: " ++ ", ".intercalate (forms.map Form.name)]

def runInvocation (files : Storage) (env : Environment) (i : Invocation) : Outcome :=
  match Logging.setUp files env i.logging with
  | .error e => { code := 1, errors := s!"Failed to initialize logging: {e.message}\n" }
  | .ok files => match i.command.answer files env with
    | .ok lines => { code := 0, output := unlines lines }
    | .error reason => { code := 1, errors := s!"Error: {reason}\n" }

def run (files : Storage) (env : Environment) (args : List String) : Outcome :=
  match Invocation.ofArguments args with
  | .ok i => runInvocation files env i
  | .error .help => { code := 0, output := usage }
  | .error .version => { code := 0, output := version }
  | .error .refused => { code := 2, errors := usage }

end Command
end Introspect
