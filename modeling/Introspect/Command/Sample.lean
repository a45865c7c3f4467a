import Introspect.Duplicate.Traversal
/-!
# A sample graph

Two classes, two objects that refer to each other, and a deep copy of them: the pair of copies refers to itself again and
has its own buffers.
-/
namespace Introspect
namespace Sample

def shape : Except (Stop Error) ClassDefinition :=
  (Class.build "demo::Shape" none [("id", .int64)]).map fun type =>
    ⟨type, some fun o => (o.writeInt "id" 1).mapFailure Error.message⟩

def constructNode (o : Instance) : Action Error Heap Unit := do
  let values ← Heap.newIntSlice [4, 65, 2, -31]
  o.writeInt "id" 2
  o.writeSlice "values" values

def node (parent : Class) : Except (Stop Error) ClassDefinition :=
  (Class.build "demo::Node" (some parent) [("next", .object), ("values", .slice .int64)]).map fun type =>
    ⟨type, some fun o => (constructNode o).mapFailure Error.message⟩

/-! ## Objects by their address -/

def write (object : Address) (put : Instance → Action Error Heap Unit) : Allocator.Run Unit := do
  Allocator.onHeap (put (← Action.query (·.object object)))

def read {α : Type} (object : Address) (get : Instance → Heap → Except Error α) : Allocator.Run α := do
  let o ← Action.query (·.object object)
  Action.query fun s => get o s.heap

def next (object : Address) : Allocator.Run Address := do
  return (← read object (·.readObject · "next")).getD .null

def number (object : Address) : Allocator.Run String := do
  return Text.signed (← read object (·.readInt · "id")).toInt

def arrows (objects : List Address) : String := " -> ".intercalate (objects.map Address.display)

/-! ## The course of the sample -/

def declareClasses : Allocator.Run (List String) := do
  let shape ← Action.ofStop shape
  Allocator.declare shape
  Allocator.declare (← Action.ofStop (node shape.type))
  return (← get).catalog.entries.map fun d =>
    let path := Text.padRight 12 ' ' d.type.path
    s!"{path} vtable {d.type.vtableSymbol}"

/-- Two new nodes that refer to each other; the first is given back. -/
def makeCycle : Allocator.Run (Address × List String) := do
  let first ← Allocator.create {} "demo::Node"
  let second ← Allocator.create {} "demo::Node"
  write first (·.writeObject "next" (some second))
  write second (·.writeObject "next" (some first))
  return (first, ["", s!"source: {arrows [first, second, first]}"])

def copyCycle (first : Address) : Allocator.Run (List String) := do
  let copy := ((← Allocator.deepCopy (.object (some first))).toObject?).getD .null
  let second ← next copy
  let back ← next second
  let values ← read copy fun o h => do h.readIntSlice (← o.readSlice h "values")
  let list := ", ".intercalate (values.map fun i => Text.signed i.toInt)
  let n ← number copy
  return [
    s!"copy:   {arrows [copy, second, back]}",
    s!"cycle preserved: {decide (back = copy)}",
    s!"copied values: [{list}] (id {n})"]

def makeRaw : Allocator.Run (List String) := do
  let raw ← Allocator.createRaw {} "demo::Node"
  write raw (·.writeInt "id" 3)
  let n ← number raw
  return ["", s!"unconstructed: {raw.display} (id {n})"]

def missing (s : Allocator) : List String :=
  match Allocator.create {} "demo::Missing" s with
  | .error (.failure e) _ => [s!"demo::Missing: {e.message}"]
  | _ => []

def course : Allocator.Run (List String) := do
  let classes ← declareClasses
  let (first, cycle) ← makeCycle
  let copied ← copyCycle first
  let raw ← makeRaw
  return classes ++ cycle ++ copied ++ raw ++ missing (← get)

def lines : Except String (List String) :=
  match course.run (Allocator.new .isolated) with
  | .ok lines _ => .ok lines
  | .error (.failure e) _ => .error e.message
  | .error (.fault e) _ => .error e.message

end Sample
end Introspect
