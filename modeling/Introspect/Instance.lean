import Introspect.Heap.Words
import Introspect.Layout.Class
/-!
# Instances

An instance is an address read as an object of a class.  Its fields are found by name, in the class and then in its
ancestors, and each way to read or write one asks for a shape; a field of another shape is refused before the heap is
touched.
-/
namespace Introspect

structure Instance where
  type : Class
  address : Address
  deriving DecidableEq, Repr

namespace Instance

variable (o : Instance)

/-! ## Finding a field -/

def field (name : String) : Except Error Field :=
  match o.type.field? name with
  | some f => .ok f
  | none => .error (.fieldNotFound o.type.path name)

def mismatch (name expected : String) (f : Field) : Error :=
  .fieldShapeMismatch o.type.path name expected f.shape.display

/-- What an accessor asks of a field, and its word for that. -/
structure Expected where
  label : String
  accepts : Shape → Bool

def Expected.scalar (size : Nat) : Expected where
  label := (Shape.scalar size).display
  accepts
    | .scalar n => n = size
    | _ => false

def Expected.object : Expected where
  label := "object"
  accepts
    | .object => true
    | _ => false

def Expected.slice : Expected where
  label := "slice"
  accepts
    | .slice _ => true
    | _ => false

def fieldAs (name : String) (expected : Expected) : Except Error Field := do
  let f ← o.field name
  if expected.accepts f.shape then .ok f else .error (o.mismatch name expected.label f)

/-- Where a field of the expected shape lies. -/
def addressAs (name : String) (expected : Expected) : Except Error Address :=
  (o.fieldAs name expected).map fun f => o.address + f.offset

def fieldAddress (name : String) : Except Error Address := (o.field name).map fun f => o.address + f.offset

/-! ## Reading -/

def vtable (h : Heap) : Except Error Address := h.readAddress (o.address + Class.vtableOffset)

def monitor (h : Heap) : Except Error Address := h.readAddress (o.address + Class.monitorOffset)

/-- The bytes of a field of any shape. -/
def readBytes (h : Heap) (name : String) : Except Error (List UInt8) := do
  let f ← o.field name
  h.read (o.address + f.offset) f.shape.size

def readWord (h : Heap) (name : String) : Except Error UInt64 := do
  h.readWord (← o.addressAs name (.scalar 8))

def readInt (h : Heap) (name : String) : Except Error Int64 := (o.readWord h name).map UInt64.toInt64

def readInt32 (h : Heap) (name : String) : Except Error Int32 := do
  let bytes ← h.read (← o.addressAs name (.scalar 4)) 4
  .ok (UInt32.ofNat (Octets.decode bytes)).toInt32

/-- The object that a field refers to, if it refers to one. -/
def readObject (h : Heap) (name : String) : Except Error (Option Address) := do
  let target ← h.readAddress (← o.addressAs name .object)
  .ok (if target.isNull then none else some target)

def readSlice (h : Heap) (name : String) : Except Error Slice := do
  h.readSlice (← o.addressAs name .slice)

/-! ## Writing -/

def writeWord (name : String) (w : UInt64) : Action Error Heap Unit := do
  let a ← Action.ofExcept (o.addressAs name (.scalar 8))
  Action.modifyM (·.writeWord a w)

def writeInt (name : String) (i : Int64) : Action Error Heap Unit := o.writeWord name i.toUInt64

def writeInt32 (name : String) (i : Int32) : Action Error Heap Unit := do
  let a ← Action.ofExcept (o.addressAs name (.scalar 4))
  Action.modifyM (·.write a (Octets.encode 4 i.toUInt32.toNat))

def writeObject (name : String) (target : Option Address) : Action Error Heap Unit := do
  let a ← Action.ofExcept (o.addressAs name .object)
  Action.modifyM (·.writeAddress a (target.getD .null))

def writeSlice (name : String) (s : Slice) : Action Error Heap Unit := do
  let a ← Action.ofExcept (o.addressAs name .slice)
  Heap.writeSlice a s

/-- Write all bytes of a field of any shape. -/
def writeBytes (name : String) (bytes : List UInt8) : Action Error Heap Unit := do
  let f ← Action.ofExcept (o.field name)
  if f.shape.size = bytes.length then Action.modifyM (·.write (o.address + f.offset) bytes)
  else Action.fail (o.mismatch name s!"{Text.decimal bytes.length} bytes" f)

end Instance
end Introspect
