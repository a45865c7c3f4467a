import Introspect.Heap.Words
import Introspect.Layout.Shape
/-!
# Values

What can be copied: plain bytes that are held here, and an aggregate, a slice or an object that lies on the heap.
-/
namespace Introspect

inductive Value where
  | scalar (bytes : List UInt8)
  | aggregate (address : Address) (layout : Aggregate)
  | slice (slice : Slice) (element : Shape)
  | object (target : Option Address)
  deriving DecidableEq, Repr

namespace Value

def ofInt (i : Int64) : Value := scalar (Octets.encode 8 i.toUInt64.toNat)

def toInt? : Value → Option Int64
  | scalar bytes => if bytes.length = 8 then some (UInt64.ofNat (Octets.decode bytes)).toInt64 else none
  | _ => none

def toObject? : Value → Option Address
  | object target => target
  | _ => none

def toSlice? : Value → Option Slice
  | slice s _ => some s
  | _ => none

end Value
end Introspect
