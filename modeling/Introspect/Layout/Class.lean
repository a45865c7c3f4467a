import Introspect.Layout.Place
import Introspect.Linkage.Names
import Introspect.Text.Quoted
/-!
# Classes

A class adds a level of fields to the levels of its ancestors.  An instance starts with the address of its vtable and a
monitor; the fields of the most basic ancestor follow, and then those of each class that derives from it, so an instance
can be read as one of any of its ancestors.
-/
namespace Introspect

/-- What one class declares: its path, its own fields, and the size of an instance up to and with them. -/
structure Level where
  path : String
  fields : List Field
  size : Nat
  deriving DecidableEq, Repr

structure Class where
  own : Level
  /-- The levels that the class derives from, the nearest first. -/
  ancestors : List Level
  deriving DecidableEq, Repr

namespace Class

def vtableOffset : Nat := 0
def monitorOffset : Nat := 8
def headerSize : Nat := 16

def path (c : Class) : String := c.own.path

def size (c : Class) : Nat := c.own.size

/-- The levels of an instance, the most basic first. -/
def ancestry (c : Class) : List Level := (c.own :: c.ancestors).reverse

def parent? (c : Class) : Option Class :=
  match c.ancestors with
  | [] => none
  | l :: ls => some ⟨l, ls⟩

/-- The field with a name, in the class itself and then in its ancestors. -/
def field? (c : Class) (name : String) : Option Field :=
  (c.own :: c.ancestors).findSome? fun l => l.fields.find? (·.name = name)

def isSubclassOf (c : Class) (path : String) : Bool := c.ancestry.any (·.path = path)

def mangled (c : Class) : String := Linkage.mangle c.path

def vtableSymbol (c : Class) : String := Linkage.vtableSymbol c.path

def constructorSymbol (c : Class) : String := Linkage.constructorSymbol c.path

/-- The names of all fields of an instance. -/
def fieldNames (c : Class) : List String := (c.own :: c.ancestors).flatMap fun l => l.fields.map Field.name

/-- Lay out a class behind its parent's fields, whose names it cannot use again. -/
def build (path : String) (parent : Option Class) (fields : List (String × Shape)) : Except (Stop Error) Class :=
  if (Linkage.segments path.toList).isEmpty then
    .error (.failure (.invalidLayout s!"class path {Text.quoted path} has no segments"))
  else do
    let taken := (parent.map fieldNames).getD []
    let start := (parent.map size).getD headerSize
    let p ← placeFields path start 1 taken fields
    let size ← liftFault (alignTo p.stop Shape.pointerSize)
    return ⟨⟨path, p.fields, size⟩, (parent.map fun c => c.own :: c.ancestors).getD []⟩

end Class
end Introspect
