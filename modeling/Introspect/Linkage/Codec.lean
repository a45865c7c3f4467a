import Introspect.Linkage.Path
import Introspect.Text.Digits
/-!
# Linkage names

The compiler writes a path into one flat name: the mark `_Y`, then every segment behind its length in bytes, then a
tail that says what the name stands for — `VT` a vtable, `TI` a type info, `F…` something to call.

    _Y 4core 5array 10OutOfArray VT

`decode?` reads the segments back.  The digits of a length are taken greedily, so a segment that starts with a digit
reads as part of its own length; and a length that runs past the end of the name, or that would cut a character, makes
the whole name undecodable rather than cutting it short.
-/
namespace Introspect
namespace Linkage

/-- Opens every name the compiler emits. -/
def mark : List Char := ['_', 'Y']

def vtableTail : List Char := ['V', 'T']

def typeInfoTail : List Char := ['T', 'I']

/-- Stands behind the segments of something callable. -/
def callableMark : Char := 'F'

/-- Follows the path of something callable when its name is shown. -/
def callableTail : List Char := [' ', '(', '.', '.', '.', ')']

/-! ## Encoding -/

def encodeSegment (seg : List Char) : List Char := Nat.toDigits 10 (Text.byteLength seg) ++ seg

def encodeSegments (segs : List (List Char)) : List Char := segs.flatMap encodeSegment

def encode (path : List Char) : List Char := encodeSegments (segments path)

/-! ## Decoding -/

/-- The length that a run of digits states, where it is one that a segment can have: positive and within a word. -/
def segmentLength? (digits : List Char) : Option Nat :=
  (Text.readDigits? 10 digits).filter (· ≠ 0)

theorem segmentLength?_ne_zero {digits : List Char} {n : Nat} (h : segmentLength? digits = some n) : n ≠ 0 := by
  simpa using (Option.filter_eq_some_iff.1 h).2

/-- Read segments until no length follows: the segments and the tail behind them, or `none` where a length cannot be
met. -/
def decodeSegments? (cs : List Char) : Option (List (List Char) × List Char) :=
  match hn : segmentLength? (cs.takeWhile Char.isDigit) with
  | none => some ([], cs)
  | some n => match h : Text.takeBytes? n (cs.dropWhile Char.isDigit) with
    | none => none
    | some (seg, rest) =>
      have : rest.length < cs.length :=
        Nat.lt_of_lt_of_le (Text.length_lt_of_takeBytes? (segmentLength?_ne_zero hn) h)
          (List.dropWhile_sublist _).length_le
      (decodeSegments? rest).map fun (segs, tail) => (seg :: segs, tail)
termination_by cs.length

/-- How a decoded name is shown: its path, and ` (...)` behind it if it can be called. -/
def showDecoded (segs : List (List Char)) (tail : List Char) : List Char :=
  joinSegments segs ++ if tail.head? = some callableMark then callableTail else []

/-- What a linkage name stands for, or `none` for a name that is not one. -/
def decode? (name : List Char) : Option (List Char) :=
  match Text.stripStart? mark name with
  | none => none
  | some body => match decodeSegments? body with
    | none | some ([], _) => none
    | some (segs, tail) => some (showDecoded segs tail)

/-! ## On strings -/

def mangle (path : String) : String := String.ofList (encode path.toList)

def demangle? (name : String) : Option String := (decode? name.toList).map String.ofList

/-- The name as it is shown: decoded where that is possible, and unchanged otherwise. -/
def demangle (name : String) : String := (demangle? name).getD name

end Linkage
end Introspect
