import Introspect.Image.Basic
import Introspect.Linkage.Codec
import Introspect.Symbol
import Introspect.Text.Utf8
/-!
# The symbols of an image

A symbol table is a section of entries of 24 bytes; their names stand, closed by a zero byte, in the section that the
table links to.  Of the symbols, two kinds matter here: functions with the compiler's mark, and objects with the mark
and the tail of a vtable.  One without a value is only mentioned in this image and defined in another.
-/
namespace Introspect
namespace Image

def entrySize : Nat := 24

structure Entry where
  nameOffset : Nat
  info : Nat
  value : Nat
  size : Nat
  deriving DecidableEq, Repr

namespace Entry

/-- The type of a symbol is the lower half of its information byte, and the whole of that half. -/
def type (e : Entry) : Nat := e.info % 16

def isObject (e : Entry) : Bool := e.type = 1

def isFunction (e : Entry) : Bool := e.type = 2

end Entry

def readEntry? (bytes : Bytes) (start : Nat) : Option Entry := do
  return {
    nameOffset := ← bytes.number? 4 start
    info := ← bytes.number? 1 (start + 4)
    value := ← bytes.number? 8 (start + 8)
    size := ← bytes.number? 8 (start + 16) }

/-- The entries from `start` on, `n` of them at most; the first that does not fit in the file ends the table. -/
def entriesFrom (bytes : Bytes) : Nat → Nat → List Entry
  | 0, _ => []
  | n + 1, start => match readEntry? bytes start with
    | some e => e :: entriesFrom bytes n (start + entrySize)
    | none => []

/-- Where the names of a symbol table stand; `none` for other sections and where the linked one is missing. -/
def namesOf? (bytes : Bytes) (s : Section) : Option Nat :=
  if s.isSymbolTable then (section? bytes s.link).map Section.offset else none

/-- The entries of a section, each with the place of its name table. -/
def symbolsOf (bytes : Bytes) (s : Section) : List (Entry × Nat) :=
  match namesOf? bytes s with
  | some names => (entriesFrom bytes (s.size / entrySize) s.offset).map (·, names)
  | none => []

def nameOf? (bytes : Bytes) (e : Entry) (names : Nat) : Option String :=
  (bytes.terminated? (names + e.nameOffset)).bind Text.ofUtf8?

/-- The kind of a symbol that introspection uses, or `none` for all others. -/
def classify (name : String) (e : Entry) : Option SymbolKind :=
  if e.value = 0 then none
  else match Text.stripStart? Linkage.mark name.toList with
    | none | some [] => none
    | some body =>
      if e.isFunction then some .function
      else if e.isObject && Linkage.vtableTail.isSuffixOf body && Linkage.vtableTail.length < body.length then
        some .vtable
      else none

/-- The symbol that an entry stands for in an image whose addresses are shifted by `bias`. -/
def symbolOf? (bytes : Bytes) (bias : Address) (e : Entry) (names : Nat) : Option Symbol := do
  let name ← nameOf? bytes e names
  let kind ← classify name e
  return { kind, name, address := bias + e.value, demangled := Linkage.demangle name, size := e.size }

/-- The symbols of all symbol tables, in the order of the file. -/
def symbols (bytes : Bytes) (bias : Address) : List Symbol :=
  ((sections bytes).filter Section.isSymbolTable).flatMap fun s =>
    (symbolsOf bytes s).filterMap fun (e, names) => symbolOf? bytes bias e names

end Image
end Introspect
