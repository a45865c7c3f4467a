/-!
# Numbers as digits

Printing pads to a width and never truncates; reading accepts what a 64-bit unsigned reader accepts: an optional
single `+`, then at least one digit of the base, and a value below 2^64.
-/
namespace Introspect
namespace Text

/-- Every address, size and offset of this library is below this bound. -/
def wordLimit : Nat := 0x10000000000000000

/-! ## Printing -/

def padLeft (width : Nat) (fill : Char) (s : String) : String :=
  String.ofList (List.replicate (width - s.length) fill ++ s.toList)

def padRight (width : Nat) (fill : Char) (s : String) : String :=
  String.ofList (s.toList ++ List.replicate (width - s.length) fill)

def decimal (n : Nat) : String := String.ofList (Nat.toDigits 10 n)

def hexadecimal (width n : Nat) : String := padLeft width '0' (String.ofList (Nat.toDigits 16 n))

def signed : Int → String
  | .ofNat n => decimal n
  | .negSucc n => "-" ++ decimal (n + 1)

/-! ## Reading -/

/-- The value of a digit, in either case for the letters; bases go up to sixteen. -/
def digitValue? (base : Nat) (c : Char) : Option Nat :=
  let v? :=
    if '0' ≤ c ∧ c ≤ '9' then some (c.toNat - '0'.toNat)
    else if 'a' ≤ c ∧ c ≤ 'f' then some (c.toNat - 'a'.toNat + 10)
    else if 'A' ≤ c ∧ c ≤ 'F' then some (c.toNat - 'A'.toNat + 10)
    else none
  v?.filter (· < base)

/-- The number that a run of digits denotes, `acc` being what stands to its left; `none` at the first character that
is not a digit of the base. -/
def digitsValue? (base : Nat) : Nat → List Char → Option Nat
  | acc, [] => some acc
  | acc, c :: cs => (digitValue? base c).bind fun d => digitsValue? base (acc * base + d) cs

def readDigits? (base : Nat) (cs : List Char) : Option Nat :=
  if cs.isEmpty then none else (digitsValue? base 0 cs).filter (· < wordLimit)

def readUnsigned? (base : Nat) : List Char → Option Nat
  | '+' :: cs => readDigits? base cs
  | cs => readDigits? base cs

end Text
end Introspect
