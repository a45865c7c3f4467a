import Introspect.Error
import Introspect.Layout.Shape
/-!
# Placing fields

Fields are placed one behind the other, each at the next offset that its alignment allows.  A name may be used once in
an object or an aggregate.
-/
namespace Introspect

/-- The next multiple of `align`, where there is one in a word. -/
def alignTo (offset align : Nat) : Except Fault Nat :=
  let aligned := (offset + align - 1) / align * align
  if aligned < Text.wordLimit then .ok aligned else .error .multiplicationOverflow

def liftFault {ε α : Type} : Except Fault α → Except (Stop ε) α
  | .ok a => .ok a
  | .error e => .error (.fault e)

/-- What has been placed: the fields, the offset behind the last one, and the strictest alignment. -/
structure Placement where
  fields : List Field
  stop : Nat
  align : Nat
  deriving DecidableEq, Repr

/-- Place fields from an offset on, in a type called `owner` in which the names `taken` are in use. -/
def placeFields (owner : String) : Nat → Nat → List String → List (String × Shape) → Except (Stop Error) Placement
  | offset, align, _, [] => .ok ⟨[], offset, align⟩
  | offset, align, taken, (name, shape) :: rest => do
    if taken.contains name then .error (.failure (.invalidLayout s!"{owner} declares field {name} twice"))
    else
      let own ← liftFault shape.align
      let start ← liftFault (alignTo offset own)
      if Text.wordLimit ≤ start + shape.size then .error (.fault .additionOverflow)
      else
        let p ← placeFields owner (start + shape.size) (max align own) (name :: taken) rest
        .ok { p with fields := ⟨name, start, shape⟩ :: p.fields }

namespace Aggregate

/-- Lay out an aggregate.  All of its fields must be copiable. -/
def build (name : String) (fields : List (String × Shape)) : Except (Stop Error) Aggregate :=
  match fields.find? (!·.2.isCopiable) with
  | some (field, shape) =>
    .error (.failure (.invalidLayout s!"aggregate {name} cannot be copied: field {field} is {shape.display}"))
  | none => do
    let p ← placeFields name 0 1 [] fields
    return mk name (Fields.ofList p.fields) (← liftFault (alignTo p.stop p.align)) p.align

end Aggregate
end Introspect
