import Introspect.Address.Basic
import Introspect.Mapping.Location
import Introspect.Text.Blank
/-!
# A line of a memory map

    55d0c0a00000-55d0c0a2c000 r--p 00000000 fd:01 1835 /usr/bin/app

A line has five fields between blanks — the range, the permissions, the offset in the file, the device and the inode —
and then the words of a path, if there is one.  A path in a square bracket is the kernel's name for memory without a
file.
-/
namespace Introspect

structure Mapping where
  start : Address
  stop : Address
  permissions : String
  offset : Nat
  path : Option String
  deriving DecidableEq, Repr

namespace Mapping

def isBracketed (path : String) : Bool := path.toList.head? == some '['

def isPseudo (m : Mapping) : Bool := m.path.any isBracketed

def file (m : Mapping) : Option Location := (m.path.filter (!isBracketed ·)).map Location.mk

def readAddress? (cs : List Char) : Option Address := (Text.readUnsigned? 16 cs).map Address.ofNat

/-- The mapping that a list of words describes; the words of a path are joined by single spaces. -/
def ofWords? : List (List Char) → Option Mapping
  | range :: permissions :: offset :: _device :: _inode :: path => do
    let (start, stop) ← Text.splitOnce? '-' range
    return {
      start := ← readAddress? start
      stop := ← readAddress? stop
      permissions := String.ofList permissions
      offset := ← Text.readUnsigned? 16 offset
      path := if path.isEmpty then none else some (String.ofList (Text.joinWith [' '] path)) }
  | _ => none

def ofLine? (line : String) : Option Mapping := ofWords? (Text.words line.toList)

end Mapping
end Introspect
