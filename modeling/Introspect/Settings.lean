import Introspect.Text.Blank
/-!
# Settings

Where the memory map is read, and whether a class that is not known by name sends discovery out to look for it.  Both
can be set from the environment; a switch that is neither on nor off is ignored.
-/
namespace Introspect

abbrev Environment := String → Option String

/-- Lowercase for the letters of ASCII; all the words that are compared this way are of such letters. -/
def lowercase (cs : List Char) : String := String.ofList (cs.map Char.toLower)

def ownMapsPath : String := "/proc/self/maps"

def mapsPathVariable : String := "YRT_MAPS_PATH"

def discoveryVariable : String := "YRT_DISCOVERY"

structure Settings where
  mapsPath : String := ownMapsPath
  discoverOnMiss : Bool := true
  deriving DecidableEq, Repr

namespace Settings

def readSwitch? (value : String) : Option Bool :=
  match lowercase (Text.trim value.toList) with
  | "on" | "1" | "true" | "yes" => some true
  | "off" | "0" | "false" | "no" => some false
  | _ => none

/-- Settings under which only what was registered by hand is found. -/
def isolated : Settings := { discoverOnMiss := false }

def ofEnvironment (env : Environment) : Settings where
  mapsPath := ((env mapsPathVariable).filter (!·.isEmpty)).getD ownMapsPath
  discoverOnMiss := ((env discoveryVariable).bind readSwitch?).getD true

end Settings
end Introspect
