import Introspect.Logging.Basic
/-!
# Filters of the log

A filter is a list of directives between commas.  A directive names a target, a span in square brackets with fields in
braces, and a level, in this order; all parts may be left out.  Which lines a filter lets through is not decided here,
only whether it can be read.
-/
namespace Introspect
namespace Logging
namespace Filter

inductive Place where
  | start
  | target
  | span
  | field (blank : Bool)
  | fields
  | behindSpan
  | level
  deriving DecidableEq, Repr

inductive Fault where
  | malformed
  | badLevel
  deriving DecidableEq, Repr

def Fault.message : Fault → String
  | .malformed => "invalid filter directive"
  | .badLevel => "error parsing level filter: expected one of \"off\", \"error\", \"warn\", \"info\", \"debug\", \"trace\", or a number 0-5"

def opensTarget (c : Char) : Bool :=
  c.isAlphanum || c == '-' || c == ':' || c == '_' || 127 < c.toNat

def step : Place → Char → Except Fault Place
  | .start, '[' => .ok .span
  | .start, c => if opensTarget c then .ok .target else .error .malformed
  | .target, '=' => .ok .level
  | .target, '[' => .ok .span
  | .target, _ => .ok .target
  | .span, ']' => .ok .behindSpan
  | .span, '\x7b' => .ok (.field true)
  | .span, _ => .ok .span
  | .field blank, '\x7d' => if blank then .error .malformed else .ok .fields
  | .field blank, ',' => if blank then .error .malformed else .ok (.field true)
  | .field _, _ => .ok (.field false)
  | .fields, ']' => .ok .behindSpan
  | .fields, _ => .error .malformed
  | .behindSpan, '=' => .ok .level
  | .behindSpan, _ => .error .malformed
  | .level, _ => .ok .level

def isLevel (cs : List Char) : Bool :=
  cs.isEmpty ||
    ["off", "error", "warn", "info", "debug", "trace", "0", "1", "2", "3", "4", "5"].contains (lowercase cs)

/-- What stands behind the first `=` that opens a level. -/
def levelText : Place → List Char → List Char
  | _, [] => []
  | place, c :: cs => match step place c with
    | .ok .level => cs
    | .ok next => levelText next cs
    | .error _ => []

def checkDirective (text : List Char) : Except Fault Unit := do
  let cs := Text.trim text
  match ← cs.foldlM step .start with
  | .target | .behindSpan => .ok ()
  | .level => if isLevel (levelText .start cs) then .ok () else .error .badLevel
  | _ => .error .malformed

/-- Whether every directive of a filter can be read; the first that cannot says why. -/
def check (text : String) : Except Fault Unit :=
  if text.isEmpty then .ok () else (Text.splitOn1 ',' text.toList).forM checkDirective

end Filter
end Logging
end Introspect
