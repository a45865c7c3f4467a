import Introspect.Octets
/-!
# Reading bytes

A file is an array of bytes.  A read that runs past its end finds nothing.
-/
namespace Introspect

abbrev Bytes := Array UInt8

namespace Bytes

def number? (bytes : Bytes) (width start : Nat) : Option Nat :=
  if start + width ≤ bytes.size then some (Octets.decode (bytes.extract start (start + width)).toList) else none

def zeroWithin? (bytes : Bytes) : Nat → Nat → Option Nat
  | 0, _ => none
  | n + 1, i => if bytes[i]? = some 0 then some i else bytes.zeroWithin? n (i + 1)

def terminated? (bytes : Bytes) (start : Nat) : Option (List UInt8) :=
  (bytes.zeroWithin? (bytes.size - start) start).map fun stop => (bytes.extract start stop).toList

end Bytes
end Introspect
