import Introspect.Linkage.Codec
/-!
# Derived linkage names

The names the compiler emits beside a class or a function.  A method receives its class first: by `P<len><class>` when
it leaves the object alone, by `xP<len + 1>x<class>` when it may change it.  A constructor is the method `self` that
takes and returns a changeable reference, one on each side of the `Z`.
-/
namespace Introspect
namespace Linkage

def emitted (body : List Char) : String := String.ofList (mark ++ body)

def vtableSymbol (path : String) : String := emitted (encode path.toList ++ vtableTail)

def typeInfoSymbol (path : String) : String := emitted (encode path.toList ++ typeInfoTail)

/-- A reference to the class with this encoding, through which it may be changed. -/
def changeableReference (cls : List Char) : List Char :=
  ['x', 'P'] ++ Nat.toDigits 10 (Text.byteLength cls + 1) ++ ['x'] ++ cls

def fixedReference (cls : List Char) : List Char :=
  ['P'] ++ Nat.toDigits 10 (Text.byteLength cls) ++ cls

/-- What follows the segments of a callable: its parameters and its result, in their encoded forms. -/
def signature (params : List (List Char)) (ret : List Char) : List Char :=
  callableMark :: params.flatten ++ 'Z' :: ret

def constructorSymbol (path : String) : String :=
  let cls := encode path.toList
  let self := changeableReference cls
  emitted (cls ++ encodeSegment ['s', 'e', 'l', 'f'] ++ signature [self] self)

def functionSymbol (path : String) (params : List String) (ret : String) : String :=
  emitted (encode path.toList ++ signature (params.map String.toList) ret.toList)

inductive Receiver where
  | fixed
  | changeable
  deriving DecidableEq, Repr

def Receiver.encode : Receiver → List Char → List Char
  | .fixed => fixedReference
  | .changeable => changeableReference

def methodSymbol (path method : String) (params : List String) (ret : String) (receiver : Receiver) : String :=
  let cls := Linkage.encode path.toList
  emitted (cls ++ Linkage.encode method.toList ++
    signature (receiver.encode cls :: params.map String.toList) ret.toList)

end Linkage
end Introspect
