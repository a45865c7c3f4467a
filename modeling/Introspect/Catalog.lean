import Introspect.Instance
import Introspect.Registry.Basic
/-!
# The catalog of classes

Declaring a class gives it what a compiler would have given it: a vtable, which is a block of two words on the heap with
the number and the instance size of the class, and a code address for its constructor, if it has one.  Both are put into
the registry under their linkage names.  An instance is recognised by its vtable: by the number that stands in it, and
by the address that was given to the class of that number.
-/
namespace Introspect

/-- What initialises a fresh instance: an action on the heap, which may give a reason why it cannot. -/
abbrev Constructor := Instance → Action String Heap Unit

structure ClassDefinition where
  type : Class
  constructor : Option Constructor

/-- A declared class with what was given to it. -/
structure Declared where
  definition : ClassDefinition
  vtable : Address
  code : Option Address

def Declared.type (d : Declared) : Class := d.definition.type

structure Catalog where
  entries : List Declared := []

namespace Catalog

def vtableSize : Nat := 16

/-- Code addresses count up from here, so many bytes apart. -/
def textBase : Address := .ofNat 0x400000
def codeStride : Nat := 16

def find? (c : Catalog) (path : String) : Option Declared := c.entries.find? (·.type.path = path)

def vtableOf? (c : Catalog) (path : String) : Option Address := (c.find? path).map Declared.vtable

def constructorAt? (c : Catalog) (a : Address) : Option Declared := c.entries.find? (·.code = some a)

def size (c : Catalog) : Nat := c.entries.length

def nextCode (c : Catalog) : Address := textBase + (c.entries.filter (·.code.isSome)).length * codeStride

/-- The class that an address is the vtable of. -/
def ofVtable (c : Catalog) (h : Heap) (vtable : Address) : Except Error Declared :=
  let declared? := do
    let number ← (h.readWord vtable).toOption
    if number = 0 then none
    else (c.entries[number.toNat - 1]?).filter (·.vtable = vtable)
  match declared? with
  | some d => .ok d
  | none => .error (.unknownVtable vtable)

/-- A zeroed instance of the class with this vtable, which stands in its first word. -/
def newInstance (c : Catalog) (vtable : Address) : Action Error Heap Address := do
  let d ← Action.query (c.ofVtable · vtable)
  let object ← Heap.newBlock d.type.size
  Action.modifyM (·.writeAddress (object + Class.vtableOffset) vtable)
  return object

/-! ## Declaring -/

def vtableSymbol (type : Class) (vtable : Address) : Symbol where
  kind := .vtable
  address := vtable
  name := type.vtableSymbol
  demangled := type.path
  size := vtableSize

def constructorSymbol (type : Class) (code : Address) : Symbol where
  kind := .function
  address := code
  name := type.constructorSymbol
  demangled := Linkage.demangle type.constructorSymbol
  size := codeStride

def newVtable (number size : Nat) : Action Error Heap Address := do
  let vtable ← Heap.newBlock vtableSize
  Action.modifyM (·.writeWord vtable (UInt64.ofNat number))
  Action.modifyM (·.writeWord (vtable + 8) (UInt64.ofNat size))
  return vtable

def entryFor (c : Catalog) (d : ClassDefinition) (vtable : Address) : Declared :=
  ⟨d, vtable, d.constructor.map fun _ => c.nextCode⟩

def announce (r : Registry) (d : Declared) : Registry :=
  let r := r.register (vtableSymbol d.type d.vtable)
  match d.code with
  | some code => r.register (constructorSymbol d.type code)
  | none => r

end Catalog
end Introspect
