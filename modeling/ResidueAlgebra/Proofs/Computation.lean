import ResidueAlgebra.Cancellation
import ResidueAlgebra.Trace

/-!
# Calculus of outcomes and traced computations

An outcome computed step by step is a success when every step is one. A traced computation never
looks at the trace it is given: `Traced.Yields` says which outcome it has and which lines it adds,
whatever was written before, and composes along sequences. `Traced.Leaves` keeps only what holds of
a result and of the trace at that point.
-/
set_option autoImplicit false
namespace ResidueAlgebra

namespace Outcome

variable {α β : Type}

theorem attach_eq {outcome : Outcome α} {result : α} (success : outcome = .ok result) :
    outcome.attach = .ok ⟨result, success⟩ := by
  subst success
  rfl

theorem attach_eq_error {outcome : Outcome α} {halt : Halt} (failure : outcome = .error halt) :
    outcome.attach = .error halt := by
  subst failure
  rfl

@[simp] theorem ok_bind (value : α) (next : α → Outcome β) :
    ((Except.ok value : Outcome α) >>= next) = next value := rfl

/-- The outcome is an answer of the engine, a result or a fault. -/
def Answered (outcome : Outcome α) : Prop :=
  ∀ cause, outcome ≠ .error (.breach cause)

theorem mapM_eq_map {transform : α → Outcome β} (image : α → β) {items : List α}
    (steps : ∀ item ∈ items, transform item = .ok (image item)) :
    items.mapM transform = .ok (items.map image) := by
  induction items with
  | nil => rfl
  | cons item rest ih =>
      obtain ⟨head, tail⟩ := List.forall_mem_cons.mp steps
      rw [List.mapM_cons, head, ih tail]
      rfl

end Outcome

theorem Token.check_live {token : Token} (live : token.requested = false) :
    token.check = .ok () := by
  simp [check, live]

theorem Token.check_cancelled {token : Token} (stopped : token.requested = true) :
    token.check = .error (.fault .cancelled) := by
  rw [check, if_pos stopped]
  rfl

def Trace.extend (trace : Trace) (lines : List String) : Trace :=
  lines.foldl Trace.push trace

namespace Traced

variable {α β : Type}

/-- Whatever was written before, the computation has this outcome and adds these lines. -/
def Yields (computation : Traced α) (outcome : Outcome α) (lines : List String) : Prop :=
  ∀ trace, computation.runFrom trace = (outcome, trace.extend lines)

theorem Yields.outcome_eq {computation : Traced α} {outcome : Outcome α} {lines : List String}
    (yields : Yields computation outcome lines) (trace : Trace) :
    (computation.runFrom trace).1 = outcome := by
  rw [yields trace]

theorem yields_pure (value : α) : Yields (pure value) (.ok value) [] :=
  fun _ => rfl

theorem yields_note (line : String) : Yields (note line) (.ok ()) [line] :=
  fun _ => rfl

theorem yields_blank : Yields blank (.ok ()) [""] :=
  fun _ => rfl

theorem yields_throw (halt : Halt) : Yields (throw halt : Traced α) (.error halt) [] :=
  fun _ => rfl

theorem yields_lift (outcome : Outcome α) : Yields (liftM outcome : Traced α) outcome [] :=
  fun trace => runFrom_liftM outcome trace

theorem Yields.bind {first : Traced α} {next : α → Traced β} {value : α} {outcome : Outcome β}
    {before after : List String} (head : Yields first (.ok value) before)
    (tail : Yields (next value) outcome after) :
    Yields (first >>= next) outcome (before ++ after) := by
  intro trace
  have joined : trace.extend (before ++ after) = (trace.extend before).extend after :=
    List.foldl_append
  rw [runFrom_bind, head trace, joined]
  exact tail (trace.extend before)

theorem Yields.bind_error {first : Traced α} {next : α → Traced β} {halt : Halt}
    {lines : List String} (head : Yields first (.error halt) lines) :
    Yields (first >>= next) (.error halt) lines := by
  intro trace
  rw [runFrom_bind, head trace]

theorem Yields.after_note {line : String} {next : Unit → Traced β} {outcome : Outcome β}
    {lines : List String} (tail : Yields (next ()) outcome lines) :
    Yields (note line >>= next) outcome (line :: lines) :=
  Yields.bind (yields_note line) tail

theorem Yields.after_blank {next : Unit → Traced β} {outcome : Outcome β} {lines : List String}
    (tail : Yields (next ()) outcome lines) : Yields (blank >>= next) outcome ("" :: lines) :=
  Yields.bind yields_blank tail

theorem Yields.after_ok {step : Outcome α} {next : α → Traced β} {value : α} {outcome : Outcome β}
    {lines : List String} (success : step = .ok value) (tail : Yields (next value) outcome lines) :
    Yields ((liftM step : Traced α) >>= next) outcome lines := by
  subst success
  exact Yields.bind (yields_lift _) tail

theorem Yields.after_error {step : Outcome α} {next : α → Traced β} {halt : Halt}
    (failure : step = .error halt) :
    Yields ((liftM step : Traced α) >>= next) (.error halt) [] := by
  subst failure
  exact Yields.bind_error (yields_lift _)

theorem yields_notes (lines : List String) : Yields (notes lines) (.ok ()) lines := by
  induction lines with
  | nil => exact yields_pure ()
  | cons line rest ih => exact ih.after_note

theorem runFrom_bind_eq_ok {first : Traced α} {next : α → Traced β} {trace final : Trace}
    {result : β} :
    (first >>= next).runFrom trace = (.ok result, final) ↔
      ∃ value middle, first.runFrom trace = (.ok value, middle) ∧
        (next value).runFrom middle = (.ok result, final) := by
  rw [runFrom_bind]
  rcases first.runFrom trace with ⟨outcome, middle⟩
  cases outcome with
  | error halt => simp
  | ok value =>
      constructor
      · intro continued
        exact ⟨value, middle, rfl, continued⟩
      · rintro ⟨_, _, same, continued⟩
        cases same
        exact continued

/-! ## Properties of outcomes -/

/-- Whatever was written before, the outcome is one and the same and has the property. -/
def Ends (computation : Traced α) (Property : Outcome α → Prop) : Prop :=
  ∃ outcome lines, Yields computation outcome lines ∧ Property outcome

variable {Property : Outcome β → Prop}

theorem Ends.outcome {Property : Outcome α → Prop} {computation : Traced α}
    (ends : Ends computation Property) (trace : Trace) :
    Property (computation.runFrom trace).1 := by
  obtain ⟨outcome, lines, yields, held⟩ := ends
  rw [yields.outcome_eq trace]
  exact held

theorem Ends.imp {Weaker : Outcome β → Prop} {computation : Traced β}
    (ends : Ends computation Property) (weaken : ∀ outcome, Property outcome → Weaker outcome) :
    Ends computation Weaker := by
  obtain ⟨outcome, lines, yields, held⟩ := ends
  exact ⟨outcome, lines, yields, weaken outcome held⟩

theorem ends_pure {value : β} (held : Property (.ok value)) : Ends (pure value) Property :=
  ⟨.ok value, [], yields_pure value, held⟩

theorem ends_throw {halt : Halt} (held : Property (.error halt)) :
    Ends (throw halt : Traced β) Property :=
  ⟨.error halt, [], yields_throw halt, held⟩

theorem Ends.bind {Middle : Outcome α → Prop} {first : Traced α} {next : α → Traced β}
    (head : Ends first Middle) (tail : ∀ value, Middle (.ok value) → Ends (next value) Property)
    (failure : ∀ halt, Middle (.error halt) → Property (.error halt)) :
    Ends (first >>= next) Property := by
  obtain ⟨outcome, before, yields, held⟩ := head
  cases outcome with
  | ok value =>
      obtain ⟨final, after, later, kept⟩ := tail value held
      exact ⟨final, before ++ after, yields.bind later, kept⟩
  | error halt => exact ⟨.error halt, before, yields.bind_error, failure halt held⟩

theorem Ends.bind_ok {Middle : α → Prop} {first : Traced α} {next : α → Traced β}
    (head : Ends first fun outcome => ∃ value, outcome = .ok value ∧ Middle value)
    (tail : ∀ value, Middle value → Ends (next value) Property) :
    Ends (first >>= next) Property := by
  obtain ⟨_, before, yields, value, rfl, held⟩ := head
  obtain ⟨final, after, later, kept⟩ := tail value held
  exact ⟨final, before ++ after, yields.bind later, kept⟩

theorem Ends.after {first : Traced α} {next : α → Traced β} {value : α} {lines : List String}
    (head : Yields first (.ok value) lines) (tail : Ends (next value) Property) :
    Ends (first >>= next) Property := by
  obtain ⟨outcome, after, yields, held⟩ := tail
  exact ⟨outcome, lines ++ after, head.bind yields, held⟩

theorem Ends.after_halt {first : Traced α} {next : α → Traced β} {halt : Halt} {lines : List String}
    (head : Yields first (.error halt) lines) (held : Property (.error halt)) :
    Ends (first >>= next) Property :=
  ⟨.error halt, lines, head.bind_error, held⟩

theorem Ends.after_ok {step : Outcome α} {next : α → Traced β} {value : α}
    (success : step = .ok value) (tail : Ends (next value) Property) :
    Ends ((liftM step : Traced α) >>= next) Property := by
  obtain ⟨outcome, lines, yields, held⟩ := tail
  exact ⟨outcome, lines, yields.after_ok success, held⟩

theorem Ends.after_error {step : Outcome α} {next : α → Traced β} {halt : Halt}
    (failure : step = .error halt) (held : Property (.error halt)) :
    Ends ((liftM step : Traced α) >>= next) Property :=
  ⟨.error halt, [], Yields.after_error failure, held⟩

theorem Ends.after_note {line : String} {next : Unit → Traced β} (tail : Ends (next ()) Property) :
    Ends (note line >>= next) Property :=
  Ends.after (yields_note line) tail

theorem Ends.after_blank {next : Unit → Traced β} (tail : Ends (next ()) Property) :
    Ends (blank >>= next) Property :=
  Ends.after yields_blank tail

theorem Ends.after_notes {lines : List String} {next : Unit → Traced β}
    (tail : Ends (next ()) Property) : Ends (notes lines >>= next) Property :=
  Ends.after (yields_notes lines) tail

/-! ## Properties of results -/

/-- Whenever the computation has a result, the result has the property. -/
def Ensures (computation : Traced α) (Property : α → Prop) : Prop :=
  ∀ trace result, (computation.runFrom trace).1 = .ok result → Property result

section Ensures

variable {Property : β → Prop}

theorem ensures_pure {value : β} (held : Property value) : Ensures (pure value) Property := by
  intro trace result success
  cases success
  exact held

theorem Ensures.bind {Middle : α → Prop} {first : Traced α} {next : α → Traced β}
    (head : Ensures first Middle) (tail : ∀ value, Middle value → Ensures (next value) Property) :
    Ensures (first >>= next) Property := by
  intro trace result success
  rw [runFrom_bind] at success
  rcases reached : first.runFrom trace with ⟨outcome, middle⟩
  rw [reached] at success
  cases outcome with
  | error halt => cases success
  | ok value =>
      have held := head trace value (by rw [reached])
      exact tail value held middle result success

theorem Ensures.after_step {step : Outcome α} {next : α → Traced β}
    (tail : ∀ value, step = .ok value → Ensures (next value) Property) :
    Ensures ((liftM step : Traced α) >>= next) Property := by
  refine Ensures.bind (fun trace result success => ?_) tail
  rw [runFrom_liftM] at success
  exact success

theorem Ensures.after {first : Traced α} {next : α → Traced β}
    (tail : ∀ value, Ensures (next value) Property) : Ensures (first >>= next) Property :=
  Ensures.bind (fun _ _ _ => trivial) fun value _ => tail value

end Ensures

/-! ## What a run leaves written -/

/-- Whenever the computation has a result on this trace, the property holds of the result and of the
trace that is left. -/
def Leaves (computation : Traced α) (trace : Trace) (Property : α → Trace → Prop) : Prop :=
  ∀ result final, computation.runFrom trace = (.ok result, final) → Property result final

section Leaves

variable {Property : β → Trace → Prop} {trace : Trace}

theorem leaves_pure {value : β} (held : Property value trace) :
    Leaves (pure value) trace Property := by
  intro result final run
  cases run
  exact held

theorem leaves_throw (halt : Halt) : Leaves (throw halt : Traced β) trace Property := by
  intro result final run
  cases run

theorem Leaves.bind {Middle : α → Trace → Prop} {first : Traced α} {next : α → Traced β}
    (head : Leaves first trace Middle)
    (tail : ∀ value later, Middle value later → Leaves (next value) later Property) :
    Leaves (first >>= next) trace Property := by
  intro result final run
  obtain ⟨value, later, reached, continued⟩ := runFrom_bind_eq_ok.mp run
  exact tail value later (head value later reached) result final continued

theorem Leaves.after {first : Traced α} {next : α → Traced β}
    (tail : ∀ value later, Leaves (next value) later Property) :
    Leaves (first >>= next) trace Property :=
  Leaves.bind (fun _ _ _ => trivial) fun value later _ => tail value later

theorem Leaves.after_note {line : String} {next : Unit → Traced β}
    (tail : Leaves (next ()) (trace.push line) Property) :
    Leaves (note line >>= next) trace Property := by
  intro result final run
  rw [runFrom_bind, runFrom_note] at run
  exact tail result final run

end Leaves

end Traced

theorem Trace.last?_push (trace : Trace) (line : String) : (trace.push line).last? = some line := by
  simp [last?, push]

end ResidueAlgebra
