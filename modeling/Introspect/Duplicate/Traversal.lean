import Introspect.Allocator
import Introspect.Duplicate.Identity
import Introspect.Duplicate.Value
/-!
# Deep copies

A deep copy shares no storage with its source.  Plain bytes are copied as they are, an aggregate and the elements of a
slice each on their own, and a reference becomes a reference to the copy of its object.  An object has one copy however
often it is reached, so cycles end and what was shared stays shared.

The copy of an object is allocated by the vtable that the object itself carries, and its fields are left for later, in a
queue: a long chain of objects needs no deep recursion.  A field that cannot be copied stays shared with the source.
-/
namespace Introspect

/-- An object whose fields wait to be copied. -/
structure Job where
  source : Address
  target : Address
  type : Class
  deriving DecidableEq, Repr

structure Duplicator where
  identity : IdentityMap := {}
  pending : List Job := []

structure Traversal where
  heap : Heap
  duplicator : Duplicator

namespace Traversal

abbrev Run := Action Error Traversal

def onHeap {α : Type} (x : Action Error Heap α) : Run α :=
  x.on Traversal.heap fun t heap => { t with heap }

def onIdentity {α : Type} (x : Action Error IdentityMap α) : Run α :=
  x.on (·.duplicator.identity) fun t identity => { t with duplicator := { t.duplicator with identity } }

def push (j : Job) : Run Unit :=
  modify fun t => { t with duplicator := { t.duplicator with pending := t.duplicator.pending ++ [j] } }

def pop? : Run (Option Job) := do
  let t ← get
  match t.duplicator.pending with
  | [] => return none
  | j :: rest =>
    set { t with duplicator := { t.duplicator with pending := rest } }
    return some j

/-! ## One step -/

/-- The copy of an object: the one on record, or a fresh one whose fields are still to be copied. -/
def copyObject (c : Catalog) (source : Address) : Run Address := do
  match (← get).duplicator.identity.find? source with
  | some target => return target
  | none =>
    let vtable ← Action.query fun t => t.heap.readAddress (source + Class.vtableOffset)
    let d ← Action.query fun t => c.ofVtable t.heap vtable
    let target ← onHeap (c.newInstance vtable)
    onIdentity (IdentityMap.record source target)
    push ⟨source, target, d.type⟩
    return target

def eachElement (stride : Nat) (copyOne : Address → Address → Run Unit) : Nat → Address → Address → Run Unit
  | 0, _, _ => pure ()
  | n + 1, source, target => do
    copyOne source target
    eachElement stride copyOne n (source + stride) (target + stride)

/-- A slice with copies of the elements.  The old buffer is checked before its size is used for a new one. -/
def copySliceWith (stride : Nat) (copyOne : Address → Address → Run Unit) (s : Slice) : Run Slice := do
  let _ ← Action.query fun t => t.heap.checkSlice s stride
  let copy ← onHeap (Heap.newSlice stride s.length)
  eachElement stride copyOne s.length.toNat s.data copy.data
  return copy

mutual

def copyShape (c : Catalog) : Shape → Address → Address → Run Unit
  | .scalar size, source, target => onHeap (Action.modifyM (·.copy source target size))
  | .handle size, source, target => onHeap (Action.modifyM (·.copy source target size))
  | .aggregate layout, source, target => copyAggregate c layout source target
  | .slice element, source, target => do
    let s ← Action.query fun t => t.heap.readSlice source
    let copy ← copySliceWith element.size (copyShape c element) s
    onHeap (Heap.writeSlice target copy)
  | .object, source, target => do
    let old ← Action.query fun t => t.heap.readAddress source
    let new ← if old.isNull then pure .null else copyObject c old
    onHeap (Action.modifyM (·.writeAddress target new))

def copyAggregate (c : Catalog) : Aggregate → Address → Address → Run Unit
  | .mk _ fields _ _, source, target => copyFields c fields source target

def copyFields (c : Catalog) : Fields → Address → Address → Run Unit
  | .nil, _, _ => pure ()
  | .cons _ offset shape rest, source, target => do
    copyShape c shape (source + offset) (target + offset)
    copyFields c rest source target

end

/-- Copy a field of an object, or its bare bytes where no copy is defined. -/
def copyField (c : Catalog) (j : Job) (f : Field) : Run Unit :=
  if f.shape.isCopiable then copyShape c f.shape (j.source + f.offset) (j.target + f.offset)
  else onHeap (Action.modifyM (·.copy (j.source + f.offset) (j.target + f.offset) f.shape.size))

def finish (c : Catalog) (j : Job) : Run Unit :=
  j.type.ancestry.forM fun l => l.fields.forM (copyField c j)

/-- Finish objects until none is left.  Each has its own address and enters the queue once, so there are no more of
them than addresses. -/
def drain (c : Catalog) : Nat → Run Unit
  | 0 => pure ()
  | n + 1 => do
    match ← pop? with
    | none => pure ()
    | some j => do
      finish c j
      drain c n

/-! ## Whole values -/

def copyRoot (c : Catalog) (v : Value) : Run Value := do
  match v with
  | .scalar _ | .object none => return v
  | .object (some source) =>
    let copy ← copyObject c source
    drain c Text.wordLimit
    return .object (some copy)
  | .aggregate source layout =>
    let target ← onHeap (Heap.newBlock layout.size)
    copyAggregate c layout source target
    drain c Text.wordLimit
    return .aggregate target layout
  | .slice s element =>
    if element.isCopiable then
      let copy ← copySliceWith element.size (copyShape c element) s
      drain c Text.wordLimit
      return .slice copy element
    else Action.fail (.invalidLayout s!"slice of {element.display} cannot be copied")

/-- Copy a value.  The record and the queue are for one copy only and are empty afterwards, also when it failed. -/
def deepCopy (c : Catalog) (v : Value) : Run Value := fun t =>
  match copyRoot c v t with
  | .ok copy t => .ok copy { t with duplicator := {} }
  | .error (.failure e) t => .error (.failure e) { t with duplicator := {} }
  | .error (.fault e) t => .error (.fault e) t

end Traversal

/-- Copy a value on an allocator's heap with a duplicator that may have been used before. -/
def Duplicator.deepCopy (v : Value) : Action Error (Allocator × Duplicator) Value := do
  let (s, _) ← get
  (Traversal.deepCopy s.catalog v).on (fun (s, d) => ⟨s.heap, d⟩)
    fun (s, _) t => ({ s with heap := t.heap }, t.duplicator)

def Allocator.deepCopy (v : Value) : Allocator.Run Value := fun s =>
  match Duplicator.deepCopy v (s, {}) with
  | .ok copy (s, _) => .ok copy s
  | .error e (s, _) => .error e s

end Introspect
