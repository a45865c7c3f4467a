import Introspect.Command.Sources
/-!
# The program

All decisions are made by `Command.run`.  Here the environment and the files are gathered for it, and what it gives back
is written.
-/
namespace Introspect
namespace Program

def variableNames : List String :=
  [mapsPathVariable, discoveryVariable, Logging.formatVariable, Logging.directoryVariable, Logging.filterVariable]

def environment : IO Environment := do
  let values ← variableNames.mapM fun name => do return (← IO.getEnv name).map (name, ·)
  return fun name => (values.filterMap id).lookup name

/-- Put what stands at a path to the files that are known; what cannot be read is not there. -/
def lookAt (files : Storage) (path : String) : IO Storage := do
  try
    return files.write path (← IO.FS.readBinFile path).data
  catch
    | .inappropriateType .. => return (files.createDirectories path).toOption.getD files
    | _ => return files

def gather (env : Environment) (i : Invocation) : IO Storage := do
  let files ← (i.sources env).foldlM lookAt {}
  (i.command.mappedSources files env).foldlM lookAt files

def makeDirectory (env : Environment) (i : Invocation) : IO Unit := do
  if let some path := Logging.directory? env i.logging then
    try IO.FS.createDirAll path catch _ => pure ()

def run (args : List String) : IO Outcome := do
  let env ← environment
  match Invocation.ofArguments args with
  | .ok i =>
    let files ← gather env i
    makeDirectory env i
    return Command.run files env args
  | .error _ => return Command.run {} env args

end Program
end Introspect

def main (args : List String) : IO UInt32 := do
  let outcome ← Introspect.Program.run args
  IO.print outcome.output
  IO.eprint outcome.errors
  return outcome.code.toUInt32
