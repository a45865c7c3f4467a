import Introspect.Text.Cut
/-!
# Namespaced paths

A path such as `core::array::OutOfArray` names a class, a function or a method.  What counts are its segments, the
non-empty pieces between the separators: `::main::::Node::` has the segments of `main::Node`.
-/
namespace Introspect
namespace Linkage

def separator : List Char := [':', ':']

def segments (path : List Char) : List (List Char) :=
  (Text.splitOn2 ':' ':' path).filter fun piece => !piece.isEmpty

def joinSegments (segs : List (List Char)) : List Char := Text.joinWith separator segs

end Linkage
end Introspect
