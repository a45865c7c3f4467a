import Introspect.Catalog
import Introspect.Registry.Discovery
import Introspect.Settings
/-!
# Creating instances by name

A class is known by the path of its name.  Both of its symbols, the vtable and the constructor, are looked up in the
registry before anything is allocated; a miss may first send discovery out to look through the mapped files.
-/
namespace Introspect

structure Allocator where
  settings : Settings
  heap : Heap := {}
  catalog : Catalog := {}
  registry : Registry

namespace Allocator

abbrev Run := Action Error Allocator

def withRegistry (settings : Settings) (registry : Registry) : Allocator := { settings, registry }

def new (settings : Settings) : Allocator := withRegistry settings { mapsPath := settings.mapsPath }

def onHeap {ε α : Type} (x : Action ε Heap α) : Action ε Allocator α :=
  x.on Allocator.heap fun s heap => { s with heap }

def ofVtable (s : Allocator) (vtable : Address) : Except Error Declared := s.catalog.ofVtable s.heap vtable

def classOf (s : Allocator) (object : Address) : Except Error Declared := do
  s.ofVtable (← s.heap.readAddress (object + Class.vtableOffset))

def object (s : Allocator) (object : Address) : Except Error Instance :=
  (s.classOf object).map fun d => ⟨d.type, object⟩

/-! ## Declaring classes -/

def declare (d : ClassDefinition) : Run Unit := do
  let s ← get
  if (s.catalog.find? d.type.path).isSome then
    Action.fail (.invalidLayout s!"class {d.type.path} is already declared")
  else
    let vtable ← onHeap (Catalog.newVtable (s.catalog.size + 1) d.type.size)
    modify fun s =>
      let declared := s.catalog.entryFor d vtable
      { s with
        registry := Catalog.announce s.registry declared
        catalog := ⟨s.catalog.entries ++ [declared]⟩ }

/-! ## Creating instances -/

/-- The address of a symbol; where it is missing and the settings allow it, after a refresh. -/
def resolve (files : Storage) (name : String) (kind : SymbolKind) : Run Address := do
  let s ← get
  match s.registry.lookup name kind with
  | some a => return a
  | none =>
    if s.settings.discoverOnMiss then
      Action.modifyM fun s => (s.registry.tryRefresh files).map fun (_, registry) => { s with registry }
    Action.query fun s => (s.registry.require name kind).map Symbol.address

def allocate (vtable : Address) : Run Address := do
  onHeap ((← get).catalog.newInstance vtable)

def constructorAt? (s : Allocator) (code : Address) : Option Constructor :=
  (s.catalog.constructorAt? code).bind (·.definition.constructor)

def create (files : Storage) (path : String) : Run Address := do
  let vtable ← resolve files (Linkage.vtableSymbol path) .vtable
  let code ← resolve files (Linkage.constructorSymbol path) .function
  let d ← Action.query (·.ofVtable vtable)
  match (← get).constructorAt? code with
  | none => Action.fail (.symbolNotFound .function (Linkage.constructorSymbol path))
  | some construct =>
    let object ← allocate vtable
    onHeap ((construct ⟨d.type, object⟩).mapFailure (.constructionFailed d.type.path))
    return object

def createRaw (files : Storage) (path : String) : Run Address := do
  allocate (← resolve files (Linkage.vtableSymbol path) .vtable)

end Allocator
end Introspect
