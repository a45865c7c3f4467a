import Introspect.Fault
import Introspect.Text.Digits
/-!
# Shapes

The shape of a field says how its bytes are laid out and what copying them means: plain bytes, an aggregate stored
inline, the header of a slice whose elements lie elsewhere, a reference to an object, or a handle that nothing here
knows how to copy.  An aggregate carries its fields, with the places they were given.
-/
namespace Introspect

mutual

inductive Shape where
  | scalar (size : Nat)
  | handle (size : Nat)
  | object
  | slice (element : Shape)
  | aggregate (layout : Aggregate)

inductive Aggregate where
  | mk (name : String) (fields : Fields) (size align : Nat)

/-- The fields of an aggregate in the order of their declaration. -/
inductive Fields where
  | nil
  | cons (name : String) (offset : Nat) (shape : Shape) (rest : Fields)

end

deriving instance DecidableEq for Shape, Aggregate, Fields
deriving instance Repr for Shape, Aggregate, Fields

/-- A named shape at its place in an object or an aggregate. -/
structure Field where
  name : String
  offset : Nat
  shape : Shape
  deriving DecidableEq, Repr

namespace Fields

def toList : Fields → List Field
  | nil => []
  | cons name offset shape rest => ⟨name, offset, shape⟩ :: rest.toList

def ofList : List Field → Fields
  | [] => nil
  | f :: fs => cons f.name f.offset f.shape (ofList fs)

@[simp] theorem toList_ofList (fs : List Field) : (ofList fs).toList = fs := by
  induction fs with
  | nil => rfl
  | cons f fs ih => rw [ofList, toList, ih]

end Fields

namespace Aggregate

def name : Aggregate → String
  | mk name _ _ _ => name

def fields : Aggregate → List Field
  | mk _ fields _ _ => fields.toList

def size : Aggregate → Nat
  | mk _ _ size _ => size

def align : Aggregate → Nat
  | mk _ _ _ align => align

def field? (a : Aggregate) (name : String) : Option Field := a.fields.find? (·.name = name)

end Aggregate

namespace Shape

def int64 : Shape := scalar 8
def int32 : Shape := scalar 4
def bool : Shape := scalar 1

def pointerSize : Nat := 8
def sliceHeaderSize : Nat := 16

/-- The bytes that the shape takes where it stands. -/
def size : Shape → Nat
  | scalar size | handle size => size
  | aggregate layout => layout.size
  | slice _ => sliceHeaderSize
  | object => pointerSize

/-- The least power of two that is not below `n`, but no more than eight. -/
def alignOf (n : Nat) : Nat :=
  if n ≤ 1 then 1 else if n ≤ 2 then 2 else if n ≤ 4 then 4 else 8

/-- The alignment of the shape.  It comes from the next power of two of the size, which has to be a word itself. -/
def align : Shape → Except Fault Nat
  | scalar size | handle size => if 0x8000000000000000 < size then .error .additionOverflow else .ok (alignOf size)
  | aggregate layout => .ok layout.align
  | slice _ | object => .ok 8

/-- Whether a deep copy is defined.  An aggregate is not looked into: no aggregate is built from other fields. -/
def isCopiable : Shape → Bool
  | handle _ => false
  | slice element => element.isCopiable
  | scalar _ | aggregate _ | object => true

def display : Shape → String
  | scalar size => s!"scalar[{Text.decimal size}]"
  | aggregate layout => layout.name
  | slice element => "[" ++ element.display ++ "]"
  | object => "object"
  | handle size => s!"opaque[{Text.decimal size}]"

end Shape
end Introspect
