import Introspect.Text.Cut
import Introspect.Text.Digits
/-!
# Foreign names, the legacy scheme

`_ZN4core3fmt5write17h0123456789abcdefE` is a list of elements, each behind its length, closed by `E`.  The last
element is a hash when it is `h` and hexadecimal digits; it is not shown.  Inside an element `..` stands for `::` and
`$XX$` for a character that no linker accepts.
-/
namespace Introspect
namespace Linkage
namespace Legacy

/-! ## The elements of a name -/

/-- The elements up to the closing `E`, and what stands behind it. -/
def readElements? : List Char → Option (List (List Char) × List Char)
  | [] => none
  | c :: cs =>
    if c = 'E' then some ([], cs)
    else if c.isDigit then
      match Text.readDigits? 10 ((c :: cs).takeWhile Char.isDigit) with
      | none => none
      | some n =>
        have : (cs.dropWhile Char.isDigit).length ≤ cs.length := (List.dropWhile_sublist _).length_le
        if (cs.dropWhile Char.isDigit).length < n then none
        else (readElements? ((cs.dropWhile Char.isDigit).drop n)).map fun (elems, rest) =>
          ((cs.dropWhile Char.isDigit).take n :: elems, rest)
    else none
termination_by cs => cs.length
decreasing_by
  simp only [List.length_drop, List.length_cons]
  omega

def starts : List (List Char) := [['_', 'Z', 'N'], ['Z', 'N'], ['_', '_', 'Z', 'N']]

def isAscii (c : Char) : Bool := c.toNat < 128

def parse? (name : List Char) : Option (List (List Char) × List Char) :=
  match starts.findSome? (Text.stripStart? · name) with
  | none => none
  | some body => if body.all isAscii then readElements? body else none

/-! ## Showing an element -/

def isHexDigit (c : Char) : Bool := (Text.digitValue? 16 c).isSome

def isLowerHexDigit (c : Char) : Bool := isHexDigit c && !c.isUpper

def isHash : List Char → Bool
  | 'h' :: cs => cs.all isHexDigit
  | _ => false

def isControl (n : Nat) : Bool := n < 32 || (127 ≤ n && n < 160)

def escaped? : List Char → Option Char
  | ['S', 'P'] => some '@'
  | ['B', 'P'] => some '*'
  | ['R', 'F'] => some '&'
  | ['L', 'T'] => some '<'
  | ['G', 'T'] => some '>'
  | ['L', 'P'] => some '('
  | ['R', 'P'] => some ')'
  | ['C'] => some ','
  | 'u' :: digits =>
    if digits.all isLowerHexDigit then
      match Text.readDigits? 16 digits with
      | some n => if n.isValidChar && !isControl n then some (Char.ofNat n) else none
      | none => none
    else none
  | _ => none

/-- The text of an element; at the first `$` that opens no escape the rest stands for itself. -/
def unescape : List Char → List Char
  | [] => []
  | '.' :: '.' :: cs => ':' :: ':' :: unescape cs
  | '$' :: cs =>
    match escaped? (cs.takeWhile (· ≠ '$')) with
    | some c => if cs.contains '$' then c :: unescape ((cs.dropWhile (· ≠ '$')).drop 1) else '$' :: cs
    | none => '$' :: cs
  | c :: cs => c :: unescape cs
termination_by cs => cs.length
decreasing_by
  · simp only [List.length_cons]
    omega
  · have hle := (List.dropWhile_sublist (l := cs) (· ≠ '$')).length_le
    simp only [List.length_drop, List.length_cons]
    omega
  · simp only [List.length_cons]
    omega

def showElement : List Char → List Char
  | '_' :: '$' :: cs => unescape ('$' :: cs)
  | cs => unescape cs

/-- The elements that are shown: all but a hash in the last place. -/
def shown (elems : List (List Char)) : List (List Char) :=
  match elems.getLast? with
  | some last => if isHash last then elems.dropLast else elems
  | none => []

def display (elems : List (List Char)) : List Char := Text.joinWith [':', ':'] ((shown elems).map showElement)

end Legacy
end Linkage
end Introspect
