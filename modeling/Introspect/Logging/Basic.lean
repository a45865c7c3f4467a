import Introspect.Settings
import Introspect.Storage
/-!
# Settings of the log

The format and the level of the log, and the directory that it is also written to.
-/
namespace Introspect
namespace Logging

inductive Format where
  | pretty
  | json
  deriving DecidableEq, Repr

inductive Level where
  | trace
  | debug
  | info
  | warn
  | error
  deriving DecidableEq, Repr

inductive Failure where
  | invalidFormat (text : String)
  | invalidLevel (text : String)
  | directory (cause : FileFailure)
  deriving DecidableEq, Repr

def Failure.message : Failure → String
  | .invalidFormat text => s!"Invalid log format: {text}"
  | .invalidLevel text => s!"Invalid log level: {text}"
  | .directory cause => s!"Failed to prepare log directory: {cause.message}"

namespace Format

def label : Format → String
  | .pretty => "pretty"
  | .json => "json"

def parse (text : String) : Except Failure Format :=
  match lowercase text.toList with
  | "pretty" => .ok .pretty
  | "json" => .ok .json
  | _ => .error (.invalidFormat text)

end Format

namespace Level

def label : Level → String
  | .trace => "trace"
  | .debug => "debug"
  | .info => "info"
  | .warn => "warn"
  | .error => "error"

def tag : Level → String
  | .trace => "TRACE"
  | .debug => "DEBUG"
  | .info => "INFO"
  | .warn => "WARN"
  | .error => "ERROR"

def parse (text : String) : Except Failure Level :=
  match lowercase text.toList with
  | "trace" => .ok .trace
  | "debug" => .ok .debug
  | "info" => .ok .info
  | "warn" | "warning" => .ok .warn
  | "error" => .ok .error
  | _ => .error (.invalidLevel text)

end Level

def formatVariable : String := "YRT_LOG_FORMAT"

def directoryVariable : String := "YRT_LOG_FILE"

def filterVariable : String := "RUST_LOG"

structure Settings where
  level : Option Level := none
  format : Format := .pretty
  console : Bool := true
  directory : Option String := none
  deriving DecidableEq, Repr

def Settings.ofEnvironment (env : Environment) : Except Failure Settings := do
  let format ← match env formatVariable with
    | some text => Format.parse text
    | none => pure .pretty
  return { format, directory := env directoryVariable }

end Logging
end Introspect
