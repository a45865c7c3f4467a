import Introspect.Symbol
/-!
# Failures

Every way in which an operation can be refused, by cause.  The wording stands in one place, `Error.message`.
-/
namespace Introspect

inductive Error where
  | symbolNotFound (kind : SymbolKind) (name : String)
  | constructionFailed (path : String) (reason : String)
  | unknownVtable (address : Address)
  | invalidAddress (address : Address) (length : Nat)
  | fieldNotFound (path : String) (field : String)
  | fieldShapeMismatch (path : String) (field : String) (expected actual : String)
  | invalidLayout (reason : String)
  | memoryMapUnavailable (path : String) (reason : String)
  | io (reason : String)
  deriving DecidableEq, Repr

namespace Error

def message : Error → String
  | symbolNotFound kind name => s!"Symbol not found: {kind.label} {name}"
  | constructionFailed path reason => s!"Construction of {path} failed: {reason}"
  | unknownVtable address => s!"No class descriptor for vtable at {address.display}"
  | invalidAddress address length => s!"Invalid access of {Text.decimal length} bytes at {address.display}"
  | fieldNotFound path field => s!"Class {path} has no field named {field}"
  | fieldShapeMismatch path field expected actual => s!"Field {path}.{field} is {actual}, accessed as {expected}"
  | invalidLayout reason => s!"Invalid layout: {reason}"
  | memoryMapUnavailable path reason => s!"Cannot read memory map {path}: {reason}"
  | io reason => s!"IO error: {reason}"

/-- The text of the failure underneath this one, where there is one. -/
def underlying? : Error → Option String
  | constructionFailed _ reason | memoryMapUnavailable _ reason | io reason => some reason
  | _ => none

end Error
end Introspect
