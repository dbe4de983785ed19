import ResidueAlgebra.Fault

/-!
# Traces

A trace is the derivation of a computation in readable lines, one per decision. It is part of the
result: `Traced` computations keep the lines written before a failure, and `Derivation` pairs an
outcome with the trace that led to it.
-/
set_option autoImplicit false
namespace ResidueAlgebra

/-- Whether `needle` starts somewhere in `line`. -/
def occursIn (needle : List Char) : List Char → Bool
  | [] => needle.isEmpty
  | character :: rest =>
      needle.isPrefixOf (character :: rest) || occursIn needle rest

structure Trace where
  lines : Array String
  deriving DecidableEq

namespace Trace

def empty : Trace :=
  ⟨#[]⟩

def push (trace : Trace) (line : String) : Trace :=
  ⟨trace.lines.push line⟩

def blank (trace : Trace) : Trace :=
  trace.push ""

def size (trace : Trace) : Nat :=
  trace.lines.size

def contains (trace : Trace) (needle : String) : Bool :=
  trace.lines.toList.any fun line => occursIn needle.toList line.toList

def last? (trace : Trace) : Option String :=
  trace.lines.back?

def text (trace : Trace) : String :=
  "\n".intercalate trace.lines.toList

end Trace

/-- A computation that writes a trace and may stop short; what was written stays. -/
abbrev Traced (α : Type) : Type := ExceptT Halt (StateM Trace) α

namespace Traced

def note (line : String) : Traced Unit :=
  modify fun trace => trace.push line

def blank : Traced Unit :=
  modify Trace.blank

def notes : List String → Traced Unit
  | [] => pure ()
  | line :: rest => do
      note line
      notes rest

/-- The outcome of a computation and the trace it leaves, from a trace already written. -/
def runFrom {α : Type} (computation : Traced α) (trace : Trace) : Outcome α × Trace :=
  (computation.run).run trace

@[simp] theorem runFrom_pure {α : Type} (value : α) (trace : Trace) :
    (pure value : Traced α).runFrom trace = (.ok value, trace) := rfl

@[simp] theorem runFrom_note (line : String) (trace : Trace) :
    (note line).runFrom trace = (.ok (), trace.push line) := rfl

@[simp] theorem runFrom_blank (trace : Trace) :
    blank.runFrom trace = (.ok (), trace.push "") := rfl

@[simp] theorem runFrom_throw {α : Type} (halt : Halt) (trace : Trace) :
    (throw halt : Traced α).runFrom trace = (.error halt, trace) := rfl

@[simp] theorem runFrom_liftM {α : Type} (outcome : Outcome α) (trace : Trace) :
    (liftM outcome : Traced α).runFrom trace = (outcome, trace) := by
  cases outcome <;> rfl

/-- The second computation runs on the trace of the first, and only if that has a result. -/
theorem runFrom_bind {α β : Type} (first : Traced α) (next : α → Traced β) (trace : Trace) :
    (first >>= next).runFrom trace =
      match first.runFrom trace with
      | (.ok value, later) => (next value).runFrom later
      | (.error halt, later) => (.error halt, later) := by
  simp only [runFrom, ExceptT.run_bind, StateT.run_bind]
  rcases (StateT.run (ExceptT.run first) trace : Outcome α × Trace) with ⟨outcome, later⟩
  cases outcome <;> rfl

end Traced

structure Derivation (α : Type) where
  result : Outcome α
  trace : Trace

namespace Derivation

variable {α β : Type}

/-- Runs a traced computation from the empty trace. -/
def ofTraced (computation : Traced α) : Derivation α :=
  let finished := computation.runFrom Trace.empty
  ⟨finished.1, finished.2⟩

def isOk (derivation : Derivation α) : Bool :=
  derivation.result.isOk

def map (transform : α → β) (derivation : Derivation α) : Derivation β :=
  ⟨derivation.result.map transform, derivation.trace⟩

end Derivation

end ResidueAlgebra
