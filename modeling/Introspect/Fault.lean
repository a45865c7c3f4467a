import Introspect.Address.Basic
/-!
# Faults and stops

A *failure* is an answer: the caller asked for something that cannot be had.  A *fault* is a broken assumption of the
computation itself, after which nothing more is run: arithmetic that leaves the word, memory that is used up, an object
copied a second time, discovery without a memory map.  An operation that may end in either ends in a `Stop`.
-/
namespace Introspect

inductive Fault where
  | additionOverflow
  | multiplicationOverflow
  | capacityOverflow
  | outOfMemory (size : Nat)
  | alignmentNotPowerOfTwo
  | copiedTwice (source : Address)
  | discoveryImpossible (reason : String)
  deriving DecidableEq, Repr

namespace Fault

def message : Fault → String
  | additionOverflow => "attempt to add with overflow"
  | multiplicationOverflow => "attempt to multiply with overflow"
  | capacityOverflow => "capacity overflow"
  | outOfMemory size => s!"memory allocation of {Text.decimal size} bytes failed"
  | alignmentNotPowerOfTwo => "assertion failed: align.is_power_of_two()"
  | copiedTwice source => s!"source {source.display} copied twice"
  | discoveryImpossible reason => s!"symbol discovery cannot continue: {reason}"

end Fault

/-- Why an operation ended early. -/
inductive Stop (ε : Type) where
  | failure (cause : ε)
  | fault (cause : Fault)
  deriving DecidableEq, Repr

/-- A computation over a state that survives a stop: what was done before the stop stays done. -/
abbrev Action (ε σ α : Type) := EStateM (Stop ε) σ α

namespace Action

variable {ε ε' σ τ α : Type}

def fail (cause : ε) : Action ε σ α := throw (.failure cause)

def halt (cause : Fault) : Action ε σ α := throw (.fault cause)

def ofExcept : Except ε α → Action ε σ α
  | .ok a => pure a
  | .error e => fail e

def ofStop : Except (Stop ε) α → Action ε σ α
  | .ok a => pure a
  | .error e => throw e

/-- Replace the state by what a pure operation returns, and leave it alone when the operation fails. -/
def modifyM (f : σ → Except ε σ) : Action ε σ Unit := do
  set (← ofExcept (f (← get)))

def query (f : σ → Except ε α) : Action ε σ α := do
  ofExcept (f (← get))

def mapFailure (f : ε → ε') (x : Action ε σ α) : Action ε' σ α := fun s =>
  match x s with
  | .ok a s => .ok a s
  | .error (.failure e) s => .error (.failure (f e)) s
  | .error (.fault e) s => .error (.fault e) s

/-- Run an action on a part of a larger state; the part is put back however the action ends. -/
def on (part : τ → σ) (put : τ → σ → τ) (x : Action ε σ α) : Action ε τ α := fun t =>
  match x (part t) with
  | .ok a s => .ok a (put t s)
  | .error e s => .error e (put t s)

end Action
end Introspect
