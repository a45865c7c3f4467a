import Introspect.Address.Align
import Introspect.Error
/-!
# The heap

The heap hands out blocks of zeroed bytes and never takes one back.  A block starts at a multiple of sixteen above the
one before it, even if that one is empty; so the block that an address lies in, if there is one, is the last that starts
at or below it.  An access is good when all its bytes lie in that block, and a bad one changes nothing.
-/
namespace Introspect

structure Block where
  base : Address
  bytes : List UInt8
  deriving DecidableEq, Repr

structure Heap where
  /-- The newest first, and so the highest first. -/
  blocks : List Block := []
  next : Address := .ofNat 0x10000000
  deriving DecidableEq, Repr

namespace Heap

def blockAlign : UInt64 := 16

def maxBlock : Nat := 0x7fffffffffffffff

/-- A new block and where it starts.  The blocks of a heap are in memory all at once, so memory is used up before they
pass the last address. -/
def allocate (h : Heap) (size : Nat) : Except Fault (Address × Heap) := do
  let next ← (h.next + max size 1).alignUp blockAlign
  if maxBlock < size then .error .capacityOverflow
  else if Text.wordLimit ≤ h.next.toNat + max size 1 then .error (.outOfMemory size)
  else .ok (h.next, ⟨⟨h.next, List.replicate size 0⟩ :: h.blocks, next⟩)

def blockCount (h : Heap) : Nat := h.blocks.length

def bytesAllocated (h : Heap) : Nat := h.blocks.foldl (fun n b => n + b.bytes.length) 0

def blockSize (h : Heap) (base : Address) : Option Nat :=
  (h.blocks.find? (·.base = base)).map (·.bytes.length)

/-- The block that holds `length` bytes from an address, and how far into it they start. -/
def locate (h : Heap) (a : Address) (length : Nat) : Except Error (Block × Nat) :=
  match h.blocks.find? (·.base ≤ a) with
  | some b =>
    let offset := a.toNat - b.base.toNat
    if offset + length ≤ b.bytes.length then .ok (b, offset) else .error (.invalidAddress a length)
  | none => .error (.invalidAddress a length)

def read (h : Heap) (a : Address) (length : Nat) : Except Error (List UInt8) := do
  let (b, offset) ← h.locate a length
  .ok ((b.bytes.drop offset).take length)

/-- The bytes with those from `offset` on replaced. -/
def overwrite (old : List UInt8) (offset : Nat) (new : List UInt8) : List UInt8 :=
  old.take offset ++ new ++ old.drop (offset + new.length)

def write (h : Heap) (a : Address) (bytes : List UInt8) : Except Error Heap := do
  let (b, offset) ← h.locate a bytes.length
  .ok { h with blocks := h.blocks.map fun c =>
    if c.base = b.base then { c with bytes := overwrite c.bytes offset bytes } else c }

/-- Copy bytes; no bytes at all can be copied from anywhere to anywhere. -/
def copy (h : Heap) (source target : Address) (length : Nat) : Except Error Heap := do
  if length = 0 then .ok h else h.write target (← h.read source length)

def blocksFrom (h : Heap) (a : Address) : List Block := h.blocks.reverse.filter (a ≤ ·.base)

end Heap
end Introspect
