import Introspect.Command.Arguments
import Introspect.Logging.Setup
import Introspect.Symbol
/-!
# Commands

Each command has a form: its name, its options, what its plain arguments are, and what must be there in the end.  The
options of the log may stand before the name of the command and behind it; what stands behind it wins.
-/
namespace Introspect

inductive Command where
  | demangle (names : List String)
  | mangle (path : String)
  | maps (process : Option Nat)
  | inspect (file : String) (all : Bool)
  | symbols (kind : Option SymbolKind) (filter : Option String) (files : List String)
  | lookup (name : String) (kind : SymbolKind) (byPath : Bool)
  | demo
  deriving DecidableEq, Repr

structure Invocation where
  logging : Logging.Choice
  command : Command
  deriving DecidableEq, Repr

namespace Command

open Arguments (Rule Grammar Ending)

structure Draft where
  logging : Logging.Choice := {}
  plain : List String := []
  all : Bool := false
  byPath : Bool := false
  kind : Option SymbolKind := none
  filter : Option String := none
  files : List String := []
  process : Option Nat := none
  deriving DecidableEq, Repr

/-! ## Options -/

/-- A process number has 32 bits.  A sign may stand before it, but there is none below zero. -/
def processNumber? (text : String) : Option Nat :=
  match text.toList with
  | '-' :: cs => (Text.readDigits? 10 cs).filter (· = 0)
  | cs => (Text.readUnsigned? 10 cs).filter (· < 0x100000000)

def filePath? (text : String) : Option String := if text.isEmpty then none else some text

def logRules : List (Rule Draft) := [
  { name := "log-level"
    effect := .value fun text d => (Logging.Level.parse text).toOption.map fun level =>
      { d with logging := { d.logging with level := some level } } },
  { name := "log-format"
    effect := .value fun text d => (Logging.Format.parse text).toOption.map fun format =>
      { d with logging := { d.logging with format := some format } } },
  { name := "log-dir"
    effect := .value fun text d => (filePath? text).map fun path =>
      { d with logging := { d.logging with directory := some path } } }]

def kindRule : Rule Draft where
  name := "kind"
  effect := .value fun text d => (SymbolKind.ofLabel? text).map fun kind => { d with kind := some kind }

/-! ## Forms -/

def plainUpTo (most : Nat) (text : String) (d : Draft) : Option Draft :=
  if d.plain.length < most then some { d with plain := d.plain ++ [text] } else none

def plainAny (text : String) (d : Draft) : Option Draft := some { d with plain := d.plain ++ [text] }

structure Form where
  name : String
  rules : List (Rule Draft) := []
  plain : String → Draft → Option Draft := plainUpTo 0
  command? : Draft → Option Command

def forms : List Form := [
  { name := "demangle"
    plain := plainAny
    command? := fun d => if d.plain.isEmpty then none else some (.demangle d.plain) },
  { name := "mangle"
    plain := plainUpTo 1
    command? := fun d => d.plain.head?.map .mangle },
  { name := "maps"
    rules := [{
      name := "pid"
      effect := .value fun text d => (processNumber? text).map fun n => { d with process := some n } }]
    command? := fun d => some (.maps d.process) },
  { name := "inspect"
    rules := [{ name := "all", effect := .switch fun d => { d with all := true } }]
    plain := fun text d => (filePath? text).bind (plainUpTo 1 · d)
    command? := fun d => d.plain.head?.map (.inspect · d.all) },
  { name := "symbols"
    rules := [kindRule,
      { name := "filter", effect := .value fun text d => some { d with filter := some text } },
      { name := "file"
        effect := .value fun text d => (filePath? text).map fun path => { d with files := d.files ++ [path] }
        repeats := true }]
    command? := fun d => some (.symbols d.kind d.filter d.files) },
  { name := "lookup"
    rules := [kindRule, { name := "path", effect := .switch fun d => { d with byPath := true } }]
    plain := plainUpTo 1
    command? := fun d => d.plain.head?.map (.lookup · (d.kind.getD .vtable) d.byPath) },
  { name := "demo", command? := fun _ => some .demo }]

def form? (name : String) : Option Form := forms.find? (·.name = name)

/-! ## Reading -/

def outerGrammar : Grammar Draft := { rules := logRules, plain := none, hasVersion := true }

def Form.grammar (f : Form) : Grammar Draft := { rules := logRules ++ f.rules, plain := some f.plain }

def helpOn : List String → Ending
  | [] | "help" :: _ => .help
  | [name] => if (form? name).isSome then .help else .refused
  | _ => .refused

end Command

namespace Invocation

open Command Arguments

def ofArguments (args : List String) : Except Ending Invocation := do
  let (outer, rest) ← outerGrammar.read [] args {}
  match rest with
  | [] => .error .refused
  | "help" :: rest => .error (helpOn rest)
  | name :: rest =>
    let form ← accept (form? name)
    let (inner, _) ← form.grammar.read [] rest {}
    return ⟨inner.logging.orElse outer.logging, ← accept (form.command? inner)⟩

end Invocation
end Introspect
