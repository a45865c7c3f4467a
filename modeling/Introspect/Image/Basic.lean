import Introspect.Image.Bytes
/-!
# Images

An image is a 64-bit ELF file.  Its header says where the table of sections starts, how wide an entry is and how many
there are; nothing it says is believed without looking, and what does not fit in the file is not there.  The fields and
their places in an entry are those of the ELF-64 format.
-/
namespace Introspect
namespace Image

def headerSize : Nat := 64

/-- The first four bytes of the file, and the fifth, which says that words have 64 bits. -/
def magic : List UInt8 := [0x7F, 0x45, 0x4C, 0x46]
def class64 : UInt8 := 2

/-- The file type of images whose addresses count from where they are loaded. -/
def sharedObject : Nat := 3

structure Header where
  fileType : Nat
  entry : Nat
  sectionOffset : Nat
  sectionEntrySize : Nat
  sectionCount : Nat
  deriving DecidableEq, Repr

def Header.isRelocatable (h : Header) : Bool := h.fileType = sharedObject

structure Section where
  index : Nat
  headerOffset : Nat
  kind : Nat
  flags : Nat
  offset : Nat
  size : Nat
  link : Nat
  info : Nat
  deriving DecidableEq, Repr

/-- The static and the dynamic symbol table. -/
def Section.isSymbolTable (s : Section) : Bool := s.kind = 2 || s.kind = 11

def isImage (bytes : Bytes) : Bool :=
  headerSize ≤ bytes.size && (bytes.extract 0 4).toList == magic && bytes[4]? == some class64

def header? (bytes : Bytes) : Option Header :=
  if isImage bytes then do
    return {
      fileType := ← bytes.number? 2 16
      entry := ← bytes.number? 8 24
      sectionOffset := ← bytes.number? 8 40
      sectionEntrySize := ← bytes.number? 2 58
      sectionCount := ← bytes.number? 2 60 }
  else none

/-! ## Sections -/

def readSection? (bytes : Bytes) (index start : Nat) : Option Section := do
  return {
    index, headerOffset := start
    kind := ← bytes.number? 4 (start + 4)
    flags := ← bytes.number? 8 (start + 8)
    offset := ← bytes.number? 8 (start + 24)
    size := ← bytes.number? 8 (start + 32)
    link := ← bytes.number? 4 (start + 40)
    info := ← bytes.number? 4 (start + 44) }

def Header.sectionStart (h : Header) (index : Nat) : Nat := h.sectionOffset + index * h.sectionEntrySize

/-- The sections from `index` on, `n` of them at most; the first that does not fit in the file ends the table. -/
def sectionsFrom (bytes : Bytes) (h : Header) : Nat → Nat → List Section
  | 0, _ => []
  | n + 1, index => match readSection? bytes index (h.sectionStart index) with
    | some s => s :: sectionsFrom bytes h n (index + 1)
    | none => []

def sections (bytes : Bytes) : List Section :=
  match header? bytes with
  | some h => sectionsFrom bytes h h.sectionCount 0
  | none => []

def section? (bytes : Bytes) (index : Nat) : Option Section := do
  let h ← header? bytes
  if index < h.sectionCount then readSection? bytes index (h.sectionStart index) else none

end Image
end Introspect
