import Introspect.Fault
import Introspect.Image.Symbols
import Introspect.Mapping.Description
import Introspect.Registry.Basic
import Introspect.Storage
/-!
# Discovery

Discovery reads the memory map and indexes every file that stands in it and has not been looked at before.  A file that
cannot be read, or is no image, is counted and passed over, and it is not tried again: it is marked first and read
afterwards.  Only an unreadable memory map is a failure, and it leaves the registry as it was.
-/
namespace Introspect

/-- How many files were indexed and how many passed over, and how many symbols came in. -/
structure Report where
  indexed : Nat := 0
  skipped : Nat := 0
  symbols : Nat := 0
  deriving DecidableEq, Repr

instance : Add Report := ⟨fun a b => ⟨a.indexed + b.indexed, a.skipped + b.skipped, a.symbols + b.symbols⟩⟩

def Storage.mappings (files : Storage) (path : String) : Except Error (List Mapping) :=
  match files.read path with
  | .error e => .error (.memoryMapUnavailable path e.message)
  | .ok bytes => match Mapping.ofBytes? bytes.toList with
    | none => .error (.memoryMapUnavailable path FileFailure.notText.message)
    | some ms => .ok ms

namespace Registry

/-- Register the symbols of an image, and say how many there are; `none` where the bytes are no image.  The base is
added only to the addresses of an image that can be loaded anywhere. -/
def indexImage? (r : Registry) (bytes : Bytes) (base : Option Address) : Option (Nat × Registry) := do
  let header ← Image.header? bytes
  let bias := if header.isRelocatable then base.getD .null else .null
  let symbols := Image.symbols bytes bias
  return (symbols.length, symbols.foldl register r)

def indexFile (r : Registry) (files : Storage) (l : Location) (base : Option Address) : Report × Registry :=
  let r := r.markIndexed l
  match files.read l.text with
  | .error _ => ({ skipped := 1 }, r)
  | .ok bytes => match r.indexImage? bytes base with
    | none => ({ skipped := 1 }, r)
    | some (n, r) => ({ indexed := 1, symbols := n }, r)

/-- Index one of the mapped files, unless that has been done. -/
def indexMapped (files : Storage) (bases : List (Location × Address)) (done : Report × Registry) (l : Location) :
    Report × Registry :=
  let (report, r) := done
  if r.isIndexed l then done
  else
    let (more, r) := r.indexFile files l (Mapping.baseOf? l bases)
    (report + more, r)

def tryRefresh (r : Registry) (files : Storage) : Except Error (Report × Registry) := do
  let ms ← files.mappings r.mapsPath
  return (Mapping.files ms).foldl (indexMapped files (Mapping.bases ms)) ({}, r)

/-- The same for callers that cannot go on without the memory map. -/
def refresh (r : Registry) (files : Storage) : Except Fault (Report × Registry) :=
  match r.tryRefresh files with
  | .ok done => .ok done
  | .error e => .error (.discoveryImpossible e.message)

/-- Index one file, mapped or not; without a memory map it counts as not mapped. -/
def refreshPath (r : Registry) (files : Storage) (l : Location) : Report × Registry :=
  if r.isIndexed l then ({}, r)
  else
    let base := match files.mappings r.mapsPath with
      | .ok ms => Mapping.baseOf? l (Mapping.bases ms)
      | .error _ => none
    r.indexFile files l base

end Registry
end Introspect
