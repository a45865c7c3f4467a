import Introspect.Mapping.Entry
import Introspect.Text.Utf8
/-!
# A memory map

A memory map is read line by line.  A line that is not text ends the reading with nothing; a line that is not a mapping
is passed over.  The files behind the mappings come out in the order of locations, spelled as the last mapping spells
them; their load bases, the least start of a mapping at offset zero, are spelled as the first such mapping spells them.
-/
namespace Introspect
namespace Mapping

def newline : UInt8 := 10

/-- The lines of a text in bytes.  A carriage return at the end of a line is a blank, and stays. -/
def lines (bytes : List UInt8) : List (List UInt8) :=
  let pieces := Text.splitOn1 newline bytes
  if pieces.getLast? = some [] then pieces.dropLast else pieces

def ofBytes? (bytes : List UInt8) : Option (List Mapping) := do
  let texts ← (lines bytes).mapM Text.ofUtf8?
  return texts.filterMap ofLine?

/-! ## The files and where they are loaded -/

/-- Put a location in its place; the newer spelling stays. -/
def insertFile (l : Location) : List Location → List Location
  | [] => [l]
  | k :: ks => match compare l k with
    | .lt => l :: k :: ks
    | .eq => l :: ks
    | .gt => k :: insertFile l ks

/-- Put a base in its place; the older spelling and the lower base stay. -/
def lowerBase (l : Location) (base : Address) : List (Location × Address) → List (Location × Address)
  | [] => [(l, base)]
  | (k, b) :: rest => match compare l k with
    | .lt => (l, base) :: (k, b) :: rest
    | .eq => (k, if base < b then base else b) :: rest
    | .gt => (k, b) :: lowerBase l base rest

def files (ms : List Mapping) : List Location :=
  (ms.filterMap file).foldl (fun acc l => insertFile l acc) []

def heads (ms : List Mapping) : List (Location × Address) :=
  (ms.filter (·.offset = 0)).filterMap fun m => m.file.map (·, m.start)

/-- The load base of each file that has a mapping at offset zero. -/
def bases (ms : List Mapping) : List (Location × Address) :=
  (heads ms).foldl (fun acc (l, base) => lowerBase l base acc) []

def baseOf? (l : Location) (bs : List (Location × Address)) : Option Address :=
  (bs.find? fun (k, _) => l.same k).map Prod.snd

end Mapping
end Introspect
