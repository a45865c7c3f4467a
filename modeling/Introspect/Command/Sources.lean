import Introspect.Command.Outcome
/-!
# What a run looks at

The paths that a command reads follow from its arguments, from the environment and, for a command that discovers, from
the memory map; so they can be gathered before the command is run.
-/
namespace Introspect

/-- A path and all the paths that lead to it, the shortest first. -/
def leadingPaths (path : String) : List String :=
  let pieces := Text.splitOn1 '/' path.toList
  (List.range pieces.length).map fun n => String.ofList (Text.joinWith ['/'] (pieces.take (n + 1)))

namespace Command

def sources (env : Environment) : Command → List String
  | .maps process => [processMaps process]
  | .inspect file _ => [file]
  | .symbols _ _ paths => (emptyRegistry env).mapsPath :: paths
  | .lookup .. => [(emptyRegistry env).mapsPath]
  | .demangle _ | .mangle _ | .demo => []

/-- The files that stand in the memory map, for a command that goes through it. -/
def mappedSources (files : Storage) (env : Environment) : Command → List String
  | .symbols _ _ [] | .lookup .. => match files.mappings (emptyRegistry env).mapsPath with
    | .ok ms => (Mapping.files ms).map Location.text
    | .error _ => []
  | _ => []

end Command

namespace Invocation

def sources (i : Invocation) (env : Environment) : List String :=
  ((Logging.directory? env i.logging).map leadingPaths).getD [] ++ i.command.sources env

end Invocation
end Introspect
