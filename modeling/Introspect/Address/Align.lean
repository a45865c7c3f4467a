import Introspect.Fault
/-!
# Rounding an address up

`alignUp` adds the alignment to the address before it takes one off again, so it faults on the addresses within an
alignment of the top of the address space, an already aligned one included.
-/
namespace Introspect
namespace Address

def isPowerOfTwo (n : UInt64) : Bool := n != 0 && (n &&& (n - 1)) == 0

/-- The next multiple of `align`, a power of two. -/
def alignUp (a : Address) (align : UInt64) : Except Fault Address :=
  if !isPowerOfTwo align then .error .alignmentNotPowerOfTwo
  else if Text.wordLimit ≤ a.toNat + align.toNat then .error .additionOverflow
  else .ok ⟨(a.word + align - 1) &&& ~~~(align - 1)⟩

end Address
end Introspect
