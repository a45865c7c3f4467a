import Introspect.Linkage.Foreign.Legacy
import Introspect.Linkage.Foreign.V0
/-!
# Foreign names, decoded

A name is read in the legacy scheme, and in the v0 scheme if that fails.  What an optimiser appends is either cut off
beforehand (`.llvm.` and its hash) or kept behind the decoded name (`.cold`, `.exit.i.i`); anything else behind a path
means that the name only looked like one.  Of the v0 scheme only the plain paths are read.
-/
namespace Introspect
namespace Linkage

def splitAtFirst? (part : List Char) : List Char → Option (List Char × List Char)
  | [] => none
  | c :: cs => match Text.stripStart? part (c :: cs) with
    | some rest => some ([], rest)
    | none => (splitAtFirst? part cs).map fun (before, after) => (c :: before, after)

def isOptimiserHash (c : Char) : Bool := ('A' ≤ c && c ≤ 'F') || c.isDigit || c == '@'

/-- The name without the mark that whole-program optimisation leaves on it. -/
def dropOptimiserMark (name : List Char) : List Char :=
  match splitAtFirst? ".llvm.".toList name with
  | some (before, after) => if after.all isOptimiserHash then before else name
  | none => name

def isSymbolChar (c : Char) : Bool := '!' ≤ c && c ≤ '~'

def isKeptSuffix (suffix : List Char) : Bool :=
  suffix.isEmpty || (suffix.head? == some '.' && suffix.all isSymbolChar)

def demangleForeign? (name : List Char) : Option (List Char) :=
  let name := dropOptimiserMark name
  let parsed? := match Legacy.parse? name with
    | some (elems, suffix) => some (Legacy.display elems, suffix)
    | none => V0.parse? name
  match parsed? with
  | some (shown, suffix) => if isKeptSuffix suffix then some (shown ++ suffix) else none
  | none => none

end Linkage
end Introspect
