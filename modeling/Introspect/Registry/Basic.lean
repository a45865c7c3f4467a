import Introspect.Error
import Introspect.Linkage.Names
import Introspect.Mapping.Location
import Introspect.Table
/-!
# The registry of symbols

The registry holds one symbol for a kind and a linkage name; a later registration replaces an earlier one.  Two more
tables lead back to the symbols: by the path that the name decodes to, for which the latest registration speaks, and by
the address.  Replacing a symbol takes its entries out of both — unless another symbol has taken them over since.
-/
namespace Introspect

abbrev SymbolKey := SymbolKind × String

def Symbol.key (s : Symbol) : SymbolKey := (s.kind, s.name)

def Symbol.pathKey (s : Symbol) : SymbolKey := (s.kind, s.demangled)

structure Registry where
  mapsPath : String
  indexed : List Location := []
  symbols : Table SymbolKey Symbol := .empty
  byPath : Table SymbolKey String := .empty
  byAddress : Table Address SymbolKey := .empty

namespace Registry

def get? (r : Registry) (name : String) (kind : SymbolKind) : Option Symbol := r.symbols.get? (kind, name)

def unlink (r : Registry) (s : Symbol) : Registry :=
  { r with
    byAddress := if r.byAddress.get? s.address = some s.key then r.byAddress.erase s.address else r.byAddress
    byPath := if r.byPath.get? s.pathKey = some s.name then r.byPath.erase s.pathKey else r.byPath }

/-- Put a symbol in; the symbol with its kind and name, if there is one, is replaced. -/
def register (r : Registry) (s : Symbol) : Registry :=
  let r := match r.symbols.get? s.key with
    | some old => r.unlink old
    | none => r
  { r with
    symbols := r.symbols.insert s.key s
    byPath := r.byPath.insert s.pathKey s.name
    byAddress := r.byAddress.insert s.address s.key }

/-! ## Looking up -/

def lookup (r : Registry) (name : String) (kind : SymbolKind) : Option Address := (r.get? name kind).map Symbol.address

def require (r : Registry) (name : String) (kind : SymbolKind) : Except Error Symbol :=
  match r.get? name kind with
  | some s => .ok s
  | none => .error (.symbolNotFound kind name)

def findPath? (r : Registry) (path : String) (kind : SymbolKind) : Option Symbol :=
  (r.byPath.get? (kind, path)).bind fun name => r.get? name kind

def findFunction (r : Registry) (path : String) (params : List String) (ret : String) : Except Error Symbol :=
  r.require (Linkage.functionSymbol path params ret) .function

def findMethod (r : Registry) (path method : String) (params : List String) (ret : String)
    (receiver : Linkage.Receiver) : Except Error Symbol :=
  r.require (Linkage.methodSymbol path method params ret receiver) .function

/-- The entry with the greatest address that is not above `a`. -/
def lastUpTo (entries : List (Address × SymbolKey)) (a : Address) : Option (Address × SymbolKey) :=
  entries.foldl (fun best e => if e.1 ≤ a ∧ best.all (·.1 < e.1) then some e else best) none

def symbolAt? (r : Registry) (a : Address) : Option Symbol := do
  let (_, key) ← lastUpTo r.byAddress.entries a
  (r.symbols.get? key).filter (·.contains a)

def size (r : Registry) : Nat := r.symbols.size

/-! ## Listing -/

/-- Functions before vtables, and by name within a kind. -/
def byKindAndName (a b : Symbol) : Bool :=
  a.kind.rank < b.kind.rank || (a.kind.rank == b.kind.rank && a.name ≤ b.name)

/-- The symbols in an order that does not depend on how they came in. -/
def list (r : Registry) : List Symbol := r.symbols.values.mergeSort byKindAndName

/-- By address; symbols at one address stay in the order of the list. -/
def sortedByAddress (ss : List Symbol) : List Symbol := ss.mergeSort fun a b => a.address ≤ b.address

def ofKind (r : Registry) (kind : SymbolKind) : List Symbol := sortedByAddress (r.list.filter (·.kind = kind))

/-! ## Files that have been looked at -/

def isIndexed (r : Registry) (l : Location) : Bool := r.indexed.any l.same

def markIndexed (r : Registry) (l : Location) : Registry :=
  if r.isIndexed l then r else { r with indexed := l :: r.indexed }

end Registry
end Introspect
