import Introspect.Logging.Filter
/-!
# Setting up the log

What is asked for on the command line wins over the environment.  A directory that is asked for takes the whole log; the
one that the environment names takes it beside the console, and then the filter of the console has to be readable.
-/
namespace Introspect
namespace Logging

structure Choice where
  level : Option Level := none
  format : Option Format := none
  directory : Option String := none
  deriving DecidableEq, Repr

namespace Choice

/-- What both say, the first above the second. -/
def orElse (a b : Choice) : Choice :=
  ⟨a.level.or b.level, a.format.or b.format, a.directory.or b.directory⟩

end Choice

/-- A fixed level needs no filter; without one, the filter of the environment has to be good. -/
def checkFilter (level : Option Level) (env : Environment) : Except Failure Unit :=
  match level, env filterVariable with
  | none, some text => (Filter.check text).mapError fun e => .invalidLevel e.message
  | _, _ => .ok ()

def directory? (env : Environment) (choice : Choice) : Option String := choice.directory.or (env directoryVariable)

/-- The files once the log has been set up.  The format that the environment names has to be good even where another one
is asked for. -/
def setUp (files : Storage) (env : Environment) (choice : Choice) : Except Failure Storage := do
  let _ ← Settings.ofEnvironment env
  if choice.directory.isNone then checkFilter choice.level env
  match directory? env choice with
  | some path => (files.createDirectories path).mapError .directory
  | none => return files

end Logging
end Introspect
