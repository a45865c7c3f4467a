import Introspect.Linkage.Foreign.Legacy
/-!
# Foreign names, the v0 scheme

A name is `_R` and a path.  A path is a crate root `C`, or a path with a member in a namespace: `N`, the namespace
letter, the outer path, the member.  A lowercase namespace is an ordinary one; an uppercase one holds closures, shims
and the like, told apart by their disambiguators, and is shown in braces.

The other forms of the scheme are left out: paths of implementations (`M`, `X`) and of traits (`Y`), generic arguments
(`I`), references back into the name (`B`), and identifiers in Punycode (`u`).  A name with one of these is not decoded
here.
-/
namespace Introspect
namespace Linkage
namespace V0

def maxDepth : Nat := 500

def base62Value? (c : Char) : Option Nat :=
  if c.isDigit then some (c.toNat - '0'.toNat)
  else if c.isLower then some (c.toNat - 'a'.toNat + 10)
  else if c.isUpper then some (c.toNat - 'A'.toNat + 36)
  else none

/-- The digits of a base-62 number up to its closing `_`. -/
def base62? : Nat → List Char → Option (Nat × List Char)
  | _, [] => none
  | acc, '_' :: cs => some (acc, cs)
  | acc, c :: cs => do
    let acc' := acc * 62 + (← base62Value? c)
    if acc' < Text.wordLimit then base62? acc' cs else none

/-- A number is one more than its digits say, so that no digits at all can be zero. -/
def number62? : List Char → Option (Nat × List Char)
  | '_' :: cs => some (0, cs)
  | cs => do
    let (n, cs) ← base62? 0 cs
    if n + 1 < Text.wordLimit then some (n + 1, cs) else none

/-- What tells apart members of one name; zero where it is left out. -/
def disambiguator? : List Char → Option (Nat × List Char)
  | 's' :: cs => do
    let (n, cs) ← number62? cs
    if n + 1 < Text.wordLimit then some (n + 1, cs) else none
  | cs => some (0, cs)

/-- The digits of a length; a leading zero is the whole of it. -/
def lengthDigits : List Char → List Char × List Char
  | '0' :: cs => (['0'], cs)
  | cs => (cs.takeWhile Char.isDigit, cs.dropWhile Char.isDigit)

def dropUnderscore : List Char → List Char
  | '_' :: cs => cs
  | cs => cs

def identifier? (cs : List Char) : Option (List Char × List Char) := do
  let (digits, cs) := lengthDigits cs
  let n ← Text.readDigits? 10 digits
  let cs := dropUnderscore cs
  if cs.length < n then none else some (cs.take n, cs.drop n)

/-- How a member is shown behind its path. -/
def showMember (ns : Char) (name : List Char) (disambiguator : Nat) : List Char :=
  if ns.isLower then if name.isEmpty then [] else ':' :: ':' :: name
  else
    let label := match ns with
      | 'C' => "closure".toList
      | 'S' => "shim".toList
      | _ => [ns]
    "::\x7b".toList ++ label ++ (if name.isEmpty then [] else ':' :: name) ++
      '#' :: Nat.toDigits 10 disambiguator ++ ['\x7d']

def path? : Nat → List Char → Option (List Char × List Char)
  | 0, _ => none
  | _ + 1, 'C' :: cs => do
    let (_, cs) ← disambiguator? cs
    identifier? cs
  | depth + 1, 'N' :: ns :: cs =>
    if ns.isAlpha then do
      let (outer, cs) ← path? depth cs
      let (d, cs) ← disambiguator? cs
      let (name, cs) ← identifier? cs
      some (outer ++ showMember ns name d, cs)
    else none
  | _, _ => none

/-- What stands behind the mark of the scheme, where there is room for a path. -/
def body? (name : List Char) : Option (List Char) :=
  match name with
  | '_' :: 'R' :: c :: cs => some (c :: cs)
  | 'R' :: c :: cs => some (c :: cs)
  | '_' :: '_' :: 'R' :: c :: cs => some (c :: cs)
  | _ => none

/-- The path of a name of this scheme as it is shown, and the suffix of the name.  The path of the crate that the
code was generated for may follow, and is not shown. -/
def parse? (name : List Char) : Option (List Char × List Char) := do
  let body ← body? name
  if body.all Legacy.isAscii then
    let (shown, rest) ← path? maxDepth body
    match rest with
    | c :: _ =>
      if c.isUpper then
        let (_, rest) ← path? maxDepth rest
        some (shown, rest)
      else some (shown, rest)
    | [] => some (shown, rest)
  else none

end V0
end Linkage
end Introspect
