import Introspect.Fault
import Introspect.Table
/-!
# Which object became which

While a graph is copied, every object that has been reached has its copy on record, from before its fields are copied.
The record is started by its first entry and dropped when the copy is done.
-/
namespace Introspect

structure IdentityMap where
  table : Option (Table Address Address) := none

namespace IdentityMap

def find? (m : IdentityMap) (source : Address) : Option Address := m.table.bind (·.get? source)

def isStarted (m : IdentityMap) : Bool := m.table.isSome

def size (m : IdentityMap) : Nat := (m.table.map Table.size).getD 0

/-- The record with a copy put down; an earlier copy of the same object is replaced. -/
def insert (m : IdentityMap) (source target : Address) : IdentityMap :=
  ⟨some ((m.table.getD .empty).insert source target)⟩

/-- Put a copy on record.  An object that is on record already should not have been copied again. -/
def record {ε : Type} (source target : Address) : Action ε IdentityMap Unit := do
  let known := ((← get).find? source).isSome
  modify (·.insert source target)
  if known then Action.halt (.copiedTwice source)

end IdentityMap
end Introspect
