import Introspect.Linkage.Codec
import Introspect.Linkage.Foreign.Demangle
/-!
# The name of a symbol and its language

Which language a name comes from is read off its first characters; whether it can be decoded is tried separately, so a
plain C name may carry a decoded form too.
-/
namespace Introspect
namespace Linkage

inductive Language where
  | ymir
  | rust
  | cpp
  | c
  deriving DecidableEq, Repr

def Language.label : Language → String
  | .ymir => "ymir"
  | .rust => "rust"
  | .cpp => "c++"
  | .c => "c"

structure SymbolName where
  raw : String
  demangled : Option String
  language : Language
  deriving DecidableEq, Repr

namespace SymbolName

def display (name : SymbolName) : String := name.demangled.getD name.raw

def foreignLanguage (raw : List Char) (decoded : Bool) : Language :=
  if (Text.stripStart? ['_', 'R'] raw).isSome then .rust
  else if (Text.stripStart? ['_', 'Z', 'N'] raw).isSome && decoded then .rust
  else if (Text.stripStart? ['_', 'Z'] raw).isSome then .cpp
  else .c

/-- The name of a symbol, given what decodes the names of other compilers. -/
def ofRawBy (decode? : List Char → Option (List Char)) (raw : String) : SymbolName :=
  match Text.stripStart? mark raw.toList with
  | some (_ :: _) => ⟨raw, demangle? raw, .ymir⟩
  | _ =>
    let demangled := decode? raw.toList
    ⟨raw, demangled.map String.ofList, foreignLanguage raw.toList demangled.isSome⟩

def ofRaw (raw : String) : SymbolName := ofRawBy demangleForeign? raw

end SymbolName
end Linkage
end Introspect
