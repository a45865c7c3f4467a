import Introspect.Text.Cut
/-!
# File locations

Two spellings of a path are the same location when they have the same components: repeated slashes, a slash at the end
and a `.` inside do not count, a `.` in front does.  Locations are ordered by their components, so `a/b` stands before
`a.b`.
-/
namespace Introspect

inductive Component where
  | root
  | here
  | up
  | name (text : List Char)
  deriving DecidableEq, Repr

namespace Component

/-- A root stands before `.`, that before `..`, and names come last. -/
def rank : Component → Nat
  | root => 0
  | here => 1
  | up => 2
  | name _ => 3

def text : Component → List Char
  | name text => text
  | _ => []

instance : Ord Component := ⟨fun a b => (compare a.rank b.rank).then (compare a.text b.text)⟩

/-- The component that a piece between slashes stands for; nothing and `.` stand for none. -/
def ofPiece? : List Char → Option Component
  | [] | ['.'] => none
  | ['.', '.'] => some up
  | piece => some (name piece)

end Component

structure Location where
  text : String
  deriving DecidableEq, Repr, Inhabited

namespace Location

def componentsOf (path : List Char) : List Component :=
  match path with
  | '/' :: rest => .root :: (Text.splitOn1 '/' rest).filterMap Component.ofPiece?
  | _ =>
    let pieces := Text.splitOn1 '/' path
    (if pieces.head? = some ['.'] then [.here] else []) ++ pieces.filterMap Component.ofPiece?

def components (l : Location) : List Component := componentsOf l.text.toList

def same (a b : Location) : Bool := a.components = b.components

instance : Ord Location := ⟨fun a b => compare a.components b.components⟩

end Location
end Introspect
