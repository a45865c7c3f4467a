import Introspect.Heap.Basic
import Introspect.Octets
/-!
# Words and slices on the heap

Integers and references take eight bytes, the least first.  A slice is a count and the address of its elements, one
word after the other; the empty slice has no buffer.
-/
namespace Introspect

structure Slice where
  length : UInt64
  data : Address
  deriving DecidableEq, Repr

namespace Slice

def headerSize : Nat := 16

def empty : Slice := ⟨0, .null⟩

def isEmpty (s : Slice) : Bool := s.length == 0

end Slice

namespace Heap

/-! ## Words -/

def readWord (h : Heap) (a : Address) : Except Error UInt64 :=
  (h.read a 8).map fun bytes => UInt64.ofNat (Octets.decode bytes)

def writeWord (h : Heap) (a : Address) (w : UInt64) : Except Error Heap := h.write a (Octets.encode 8 w.toNat)

def readInt (h : Heap) (a : Address) : Except Error Int64 := (h.readWord a).map UInt64.toInt64

def writeInt (h : Heap) (a : Address) (i : Int64) : Except Error Heap := h.writeWord a i.toUInt64

def readAddress (h : Heap) (a : Address) : Except Error Address := (h.readWord a).map Address.mk

def writeAddress (h : Heap) (a target : Address) : Except Error Heap := h.writeWord a target.word

/-! ## Slices -/

def readSlice (h : Heap) (a : Address) : Except Error Slice := do
  let length ← h.readWord a
  .ok ⟨length, ← h.readAddress (a + 8)⟩

/-- Write the count and then the address.  They are two accesses: where only the first is good, it is done. -/
def writeSlice (a : Address) (s : Slice) : Action Error Heap Unit := do
  Action.modifyM (·.writeWord a s.length)
  Action.modifyM (·.writeAddress (a + 8) s.data)

def bufferSize? (length : UInt64) (elementSize : Nat) : Option Nat :=
  some (length.toNat * elementSize) |>.filter (· < Text.wordLimit)

/-- The length that is reported for a buffer too large to have one. -/
def noLength : Nat := Text.wordLimit - 1

/-- The size of a slice's buffer, if all of it lies in one block. -/
def checkSlice (h : Heap) (s : Slice) (elementSize : Nat) : Except Error Nat :=
  if s.isEmpty then .ok 0
  else match bufferSize? s.length elementSize with
    | none => .error (.invalidAddress s.data noLength)
    | some total => (h.read s.data total).map fun _ => total

def newBlock (size : Nat) : Action Error Heap Address := do
  match (← get).allocate size with
  | .ok (a, h) => do set h; pure a
  | .error e => Action.halt e

/-- A slice with a new buffer; the empty slice needs none. -/
def newSlice (elementSize : Nat) (length : UInt64) : Action Error Heap Slice :=
  if length = 0 then pure Slice.empty
  else match bufferSize? length elementSize with
    | none => Action.fail (.invalidAddress .null noLength)
    | some total => do return ⟨length, ← newBlock total⟩

def writeInts (a : Address) : List Int64 → Action Error Heap Unit
  | [] => pure ()
  | i :: is => do
    Action.modifyM (·.writeInt a i)
    writeInts (a + 8) is

def newIntSlice (values : List Int64) : Action Error Heap Slice := do
  let s ← newSlice 8 (UInt64.ofNat values.length)
  writeInts s.data values
  return s

/-- Read `n` integers one behind the other, each by an access of its own. -/
def readInts (h : Heap) : Nat → Address → Except Error (List Int64)
  | 0, _ => .ok []
  | n + 1, a => do
    let i ← h.readInt a
    .ok (i :: (← h.readInts n (a + 8)))

def readIntSlice (h : Heap) (s : Slice) : Except Error (List Int64) := h.readInts s.length.toNat s.data

end Heap
end Introspect
