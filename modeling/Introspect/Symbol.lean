import Introspect.Address.Basic
/-!
# Symbols

The two kinds of compiled things that introspection works on: code that can be called, and the table of a class that
its instances carry in their first word.
-/
namespace Introspect

inductive SymbolKind where
  | function
  | vtable
  deriving DecidableEq, Repr

namespace SymbolKind

def label : SymbolKind → String
  | .function => "function"
  | .vtable => "vtable"

def rank : SymbolKind → Nat
  | .function => 0
  | .vtable => 1

def ofLabel? : String → Option SymbolKind
  | "function" => some .function
  | "vtable" => some .vtable
  | _ => none

end SymbolKind

structure Symbol where
  kind : SymbolKind
  address : Address
  name : String
  demangled : String
  size : Nat
  deriving DecidableEq, Repr

namespace Symbol

/-- Whether an address lies in the symbol; one without a size still holds its own address. -/
def contains (s : Symbol) (a : Address) : Bool :=
  match a.offsetFrom s.address with
  | some 0 => true
  | some delta => delta < s.size
  | none => false

def display (s : Symbol) : String :=
  Text.padRight 8 ' ' s.kind.label ++ " " ++ s.address.display ++ " " ++
    Text.padLeft 6 ' ' (Text.decimal s.size) ++ " " ++ s.demangled

end Symbol
end Introspect
