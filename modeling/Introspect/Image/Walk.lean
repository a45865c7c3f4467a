import Introspect.Fault
import Introspect.Image.Symbols
/-!
# Walking over a table

A table can be asked for one entry at a time.  A walk knows where the table starts, how far apart its entries are, how
many it is said to have and which one comes next; it ends at the first entry that cannot be read.

All of this is done in words.  The place of an entry, and of a field in it, is a sum that is checked: nothing is read
where it is not a word.  How far an entry lies from the start of the table, and the number of the entry after it, are
not checked, and would fault.
-/
namespace Introspect
namespace Image

/-! ## Arithmetic in words -/

def checkedSum (a b : Nat) : Option Nat := if a + b < Text.wordLimit then some (a + b) else none

/-- The sum of two numbers that are counted below `limit`. -/
def uncheckedSum (limit a b : Nat) : Except Fault Nat := if a + b < limit then .ok (a + b) else .error .additionOverflow

def uncheckedProduct (a b : Nat) : Except Fault Nat :=
  if a * b < Text.wordLimit then .ok (a * b) else .error .multiplicationOverflow

/-! ## Records at a place that is a word -/

/-- A number; the place behind its last byte must be a word too. -/
def fetchNumber? (bytes : Bytes) (width start : Nat) : Option Nat := do
  let _stop ← checkedSum start width
  bytes.number? width start

def fetchByte? (bytes : Bytes) (start : Nat) : Option Nat := bytes[start]?.map UInt8.toNat

def fetchSection? (bytes : Bytes) (index start : Nat) : Option Section := do
  return {
    index, headerOffset := start
    kind := ← fetchNumber? bytes 4 (← checkedSum start 4)
    flags := ← fetchNumber? bytes 8 (← checkedSum start 8)
    offset := ← fetchNumber? bytes 8 (← checkedSum start 24)
    size := ← fetchNumber? bytes 8 (← checkedSum start 32)
    link := ← fetchNumber? bytes 4 (← checkedSum start 40)
    info := ← fetchNumber? bytes 4 (← checkedSum start 44) }

def fetchSymbol? (bytes : Bytes) (start : Nat) : Option Entry := do
  return {
    nameOffset := ← fetchNumber? bytes 4 start
    info := ← fetchByte? bytes (← checkedSum start 4)
    value := ← fetchNumber? bytes 8 (← checkedSum start 8)
    size := ← fetchNumber? bytes 8 (← checkedSum start 16) }

/-! ## Walks -/

structure Walk where
  base : Nat
  stride : Nat
  count : Nat
  next : Nat
  deriving DecidableEq, Repr

/-- The next entry, and the walk behind it.  An entry is read by its number and its place; the numbers of entries are
counted below `limit`. -/
def Walk.step {α : Type} (limit : Nat) (read : Nat → Nat → Option α) (w : Walk) : Except Fault (Option α × Walk) :=
  if w.count ≤ w.next then .ok (none, w)
  else do
    let distance ← uncheckedProduct w.next w.stride
    match (checkedSum w.base distance).bind (read w.next) with
    | some a => return (some a, { w with next := ← uncheckedSum limit w.next 1 })
    | none => return (none, { w with next := w.count })

/-- Sections are counted in sixteen bits. -/
def nextSection (bytes : Bytes) : Walk → Except Fault (Option Section × Walk) :=
  Walk.step 0x10000 (fetchSection? bytes)

def sectionWalk (bytes : Bytes) : Walk :=
  match header? bytes with
  | some h => ⟨h.sectionOffset, h.sectionEntrySize, h.sectionCount, 0⟩
  | none => ⟨0, 0, 0, 0⟩

/-- The section of a number, without a walk. -/
def numberedSection (bytes : Bytes) (index : Nat) : Except Fault (Option Section) :=
  match header? bytes with
  | some h =>
    if index < h.sectionCount then do
      let distance ← uncheckedProduct index h.sectionEntrySize
      return (checkedSum h.sectionOffset distance).bind (fetchSection? bytes index)
    else .ok none
  | none => .ok none

/-- The entries of a symbol table, each with the place of its name table, are counted in words. -/
def nextSymbol (bytes : Bytes) (names : Nat) : Walk → Except Fault (Option (Entry × Nat) × Walk) :=
  Walk.step Text.wordLimit fun _ start => (fetchSymbol? bytes start).map (·, names)

/-- The walk over the entries of a section, and the place of the name table.  It is over at once where the section is no
symbol table and where the section that it links to is missing. -/
def symbolWalk (bytes : Bytes) (s : Section) : Except Fault (Walk × Nat) := do
  let names? ← if s.isSymbolTable then numberedSection bytes s.link else pure none
  match names? with
  | some names => return (⟨s.offset, entrySize, s.size / entrySize, 0⟩, names.offset)
  | none => return (⟨s.offset, entrySize, 0, 0⟩, 0)

end Image
end Introspect
