import Introspect.Layout.Class
/-!
# Layouts in full

The text of a class with everything that was computed for it, down to the fields of its aggregates.
-/
namespace Introspect
namespace Layout

/-- A named record, its parts in order. -/
def record (name : String) (parts : List (String × String)) : String :=
  name ++ " \x7b " ++ ", ".intercalate (parts.map fun (key, value) => s!"{key}: {value}") ++ " \x7d"

def listing (items : List String) : String := "[" ++ ", ".intercalate items ++ "]"

def describeField (name : String) (offset : Nat) (shape : String) : String :=
  record "FieldDescriptor" [("name", Text.quoted name), ("offset", Text.decimal offset), ("shape", shape)]

mutual

def describeShape : Shape → String
  | .scalar size => record "Scalar" [("size", Text.decimal size)]
  | .handle size => record "Opaque" [("size", Text.decimal size)]
  | .object => "Object"
  | .slice element => "Slice(" ++ describeShape element ++ ")"
  | .aggregate layout => "Aggregate(" ++ describeAggregate layout ++ ")"

def describeAggregate : Aggregate → String
  | .mk name fields size align =>
    record "AggregateLayout" [("name", Text.quoted name), ("fields", listing (describeFields fields)),
      ("size", Text.decimal size), ("align", Text.decimal align)]

def describeFields : Fields → List String
  | .nil => []
  | .cons name offset shape rest => describeField name offset (describeShape shape) :: describeFields rest

end

def describeClass (c : Class) (constructible : Bool) : String :=
  record "ClassDescriptor" [("path", Text.quoted c.path),
    ("parent", match c.parent? with
      | some p => "Some(" ++ Text.quoted p.path ++ ")"
      | none => "None"),
    ("fields", listing (c.own.fields.map fun f => describeField f.name f.offset (describeShape f.shape))),
    ("size", Text.decimal c.size), ("constructor", toString constructible)]

end Layout
end Introspect
