import Introspect.Text.Cut
/-!
# Reading a command line

A command line is read from the left.  An argument that begins with `-` and goes on is an option; `--` ends the options,
and all behind it is plain.  What an option or a plain argument does to the settings, and whether it is good, stands in
a grammar.  The first argument that is wrong, or that asks for help or for the version, decides how the reading ends.
-/
namespace Introspect
namespace Arguments

/-- How a reading ends that does not lead to a command. -/
inductive Ending where
  | help
  | version
  | refused
  deriving DecidableEq, Repr

inductive Argument where
  | escape
  | long (name : String) (value : Option String)
  | short (letter : Char)
  | plain
  deriving DecidableEq, Repr

def Argument.ofText (text : String) : Argument :=
  match text.toList with
  | ['-', '-'] => .escape
  | '-' :: '-' :: cs => match Text.splitOnce? '=' cs with
    | some (name, value) => .long (String.ofList name) (some (String.ofList value))
    | none => .long (String.ofList cs) none
  | '-' :: letter :: _ => .short letter
  | _ => .plain

/-- What an option does: a switch stands alone, and the value of any other may be refused. -/
inductive Effect (σ : Type) where
  | switch (set : σ → σ)
  | value (set : String → σ → Option σ)

structure Rule (σ : Type) where
  name : String
  effect : Effect σ
  repeats : Bool := false

structure Grammar (σ : Type) where
  rules : List (Rule σ)
  /-- What a plain argument does.  In a grammar without this, the first one ends the reading. -/
  plain : Option (String → σ → Option σ)
  hasVersion : Bool := false

def accept {α : Type} : Option α → Except Ending α
  | some a => .ok a
  | none => .error .refused

namespace Grammar

variable {σ : Type} (g : Grammar σ)

def effect? (name : String) (seen : List String) : Option (Effect σ) :=
  (g.rules.find? fun r => r.name = name && (r.repeats || !seen.contains name)).map Rule.effect

def readPlain (put : String → σ → Option σ) (args : List String) (s : σ) : Except Ending σ :=
  args.foldlM (fun s a => accept (put a s)) s

/-- The settings after the arguments, and those arguments that were left.  `seen` are the options given before. -/
def read (seen : List String) : List String → σ → Except Ending (σ × List String)
  | [], s => .ok (s, [])
  | a :: rest, s =>
    match Argument.ofText a, g.plain with
    | .plain, none => .ok (s, a :: rest)
    | .plain, some put => do read seen rest (← accept (put a s))
    | .escape, none => .error .refused
    | .escape, some put => (readPlain put rest s).map (·, [])
    | .short 'h', _ | .long "help" none, _ => .error .help
    | .short 'V', _ | .long "version" none, _ => .error (if g.hasVersion then .version else .refused)
    | .short _, _ => .error .refused
    | .long name value, _ => match g.effect? name seen, value, rest with
      | some (.switch set), none, rest => read (name :: seen) rest (set s)
      | some (.value set), some v, rest => do read (name :: seen) rest (← accept (set v s))
      | some (.value set), none, v :: rest =>
        if Argument.ofText v = .plain then do read (name :: seen) rest (← accept (set v s))
        else .error .refused
      | _, _, _ => .error .refused

end Grammar
end Arguments
end Introspect
