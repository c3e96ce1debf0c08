import JsonPipe.Proofs.Run.Lockstep

/-! Chains of operands and their nested forms.

    Operators are written in chains, and an instruction takes all operands of its chain at once. It
    does the same as instructions with two operands inside one another (`chains_nested`): the first
    operands innermost, and the last ones as well where all operators of the chain are one and the
    same and take nothing but operands.

    For these there is one way to combine the outcome of an operand with the outcome of the operands
    behind it (`Connective.combine`), and it is associative. That takes work for `??`: the last
    operand of a chain is taken as it is, but as the end of an inner chain it is run to its end and
    loses its nulls, as it would in the place that it has in the long chain. -/

namespace JsonPipe

/-! ### Pipelines that do the same -/

/-- The pipelines cannot be told apart by what they hand on, whatever functions do, whatever is in
    scope, from every input and whatever comes after them. -/
def Interchangeable (p q : Pipeline) : Prop :=
  ∀ (call : Call) (scope : Scope) (input : Value) (next : Next),
    Feed.pipeline call p scope input next = Feed.pipeline call q scope input next

namespace Interchangeable

variable {p q r : Pipeline}

theorem refl (p : Pipeline) : Interchangeable p p := fun _ _ _ _ => rfl

theorem trans (hpq : Interchangeable p q) (hqr : Interchangeable q r) : Interchangeable p r :=
  fun call scope input next => (hpq call scope input next).trans (hqr call scope input next)

/-- Nothing but the outcome is handed on. -/
theorem iff_outcome : Interchangeable p q ↔ ∀ (call : Call) (scope : Scope) (input : Value),
    Run.pipeline call p scope input = Run.pipeline call q scope input := by
  constructor
  · intro h call scope input
    rw [← (Feed.agrees call p).alone, ← (Feed.agrees call q).alone, h]
  · intro h call scope input next
    rw [Feed.agrees, Feed.agrees, h]

/-- Handing every output to a continuation and joining what it gives comes to the same result. -/
theorem deliver (h : Interchangeable p q) (limit : Nat) (scope : Scope) (input : Value)
    (next : Value → Except Failure (List Value)) :
    p.deliver limit scope input next = q.deliver limit scope input next :=
  congrArg Outcome.collect (h _ _ _ _)

end Interchangeable

/-! ### Nested forms -/

/-- A chain taken apart from its end: every step is the outermost one of the steps so far. -/
def leftNested {σ : Type} (join : Pipeline → σ → Instruction) (first : Pipeline)
    (steps : List σ) : Pipeline :=
  steps.foldl (fun left step => [join left step]) first

/-- A chain taken apart from its start: what is behind an operand is the other operand. -/
def rightNested (join : Pipeline → Pipeline → Instruction) : Pipeline → List Pipeline → Pipeline
  | first, [] => first
  | first, second :: rest => [join first (rightNested join second rest)]

/-- A chain can be nested from the left if its first step can be put into an instruction of its
    own. -/
theorem leftNested_interchangeable {σ : Type} (join : Pipeline → σ → Instruction)
    (chain : Pipeline → List σ → Instruction) (hone : ∀ first s, chain first [s] = join first s)
    (hsplit : ∀ first s t steps,
      Interchangeable [chain first (s :: t :: steps)] [chain [join first s] (t :: steps)])
    (first : Pipeline) (s : σ) (steps : List σ) :
    Interchangeable [chain first (s :: steps)] (leftNested join first (s :: steps)) := by
  induction steps generalizing first s with
  | nil =>
    rw [hone]
    exact .refl _
  | cons t steps ih => exact (hsplit first s t steps).trans (ih [join first s] t)

/-! ### Calculations and comparisons -/

namespace Run

variable {call : Call} {scope : Scope} {input : Value}

theorem pipeline_calculate (base : Pipeline) (steps : List (ArithmeticOp × Pipeline)) :
    pipeline call [.calculate base steps] scope input =
      (pipeline call base scope input).bind fun v => calculate call steps scope input v := by
  simp only [pipeline, instruction]

theorem pipeline_compare (base : Pipeline) (steps : List (ComparisonOp × Pipeline)) :
    pipeline call [.compare base steps] scope input =
      (pipeline call base scope input).bind fun v => compareSteps call steps scope input v := by
  simp only [pipeline, instruction]

/-- The first step of a calculation is made before the others. -/
theorem calculate_cons (step : ArithmeticOp × Pipeline) (steps : List (ArithmeticOp × Pipeline))
    (left : Value) :
    calculate call (step :: steps) scope input left =
      (calculate call [step] scope input left).bind
        fun v => calculate call steps scope input v := by
  obtain ⟨op, p⟩ := step
  simp only [calculate, Outcome.bind_assoc]
  congr 1
  funext right
  cases op.apply left right with
  | error e => rfl
  | ok v => rw [Outcome.one_bind]

/-- The first comparison is made before the others. -/
theorem compareSteps_cons (step : ComparisonOp × Pipeline)
    (steps : List (ComparisonOp × Pipeline)) (left : Value) :
    compareSteps call (step :: steps) scope input left =
      (compareSteps call [step] scope input left).bind
        fun v => compareSteps call steps scope input v := by
  obtain ⟨op, p⟩ := step
  simp only [compareSteps, Outcome.bind_assoc, Outcome.one_bind]

end Run

theorem calculate_interchangeable (first : Pipeline) (s t : ArithmeticOp × Pipeline)
    (steps : List (ArithmeticOp × Pipeline)) :
    Interchangeable [.calculate first (s :: t :: steps)]
      [.calculate [.calculate first [s]] (t :: steps)] := by
  refine Interchangeable.iff_outcome.2 fun call scope input => ?_
  rw [Run.pipeline_calculate, Run.pipeline_calculate, Run.pipeline_calculate, Outcome.bind_assoc]
  simp only [← Run.calculate_cons]

theorem compare_interchangeable (first : Pipeline) (s t : ComparisonOp × Pipeline)
    (steps : List (ComparisonOp × Pipeline)) :
    Interchangeable [.compare first (s :: t :: steps)]
      [.compare [.compare first [s]] (t :: steps)] := by
  refine Interchangeable.iff_outcome.2 fun call scope input => ?_
  rw [Run.pipeline_compare, Run.pipeline_compare, Run.pipeline_compare, Outcome.bind_assoc]
  simp only [← Run.compareSteps_cons]

/-! ### Operators that take nothing but operands -/

/-- An operator that stands between any number of operands. -/
inductive Connective where
  | and
  | or
  /-- `??` -/
  | coalesce
  /-- `,` -/
  | concat
  deriving DecidableEq, Repr

namespace Run

variable {a b rest : Outcome Value} {decisive : Bool}

/-- What `and` and `or` make of an operand: outputs that are decisive settle the matter. -/
def decided (decisive : Bool) (o rest : Outcome Value) : Outcome Value :=
  o.bind fun v => if v.isTruthy == decisive then .one (.bool decisive) else rest

theorem decided_assoc :
    decided decisive (decided decisive a b) rest =
      decided decisive a (decided decisive b rest) := by
  rw [decided, decided, Outcome.bind_assoc]
  refine congrArg a.bind (funext fun v => ?_)
  split
  · cases decisive <;> rfl
  · rfl

/-- What is neither settled nor left open by other operands is left open. -/
theorem decided_open : decided decisive (.one (.bool !decisive)) rest = rest := by
  cases decisive <;> exact Outcome.one_bind _ _

/-- Nulls are gone after the first time. -/
theorem firstPresent_assoc (r : Except Failure (List Value)) :
    firstPresent rest (firstPresent b r).collect =
      firstPresent (firstPresent rest b.collect) r := by
  cases r with
  | error e =>
    have hskip : ∀ o : Outcome Value,
        firstPresent o (.error e) = if e.isCatchable then o else .fail e := fun _ => rfl
    rw [hskip, hskip]
    split
    · rfl
    · next h =>
      change firstPresent rest (.error e) = _
      rw [hskip, if_neg h]
  | ok values =>
    have hagain : ∀ v ∈ values.filter fun v => !v.isNull, (!v.isNull) = true :=
      fun v hv => (List.mem_filter.1 hv).2
    simp only [firstPresent]
    cases hpresent : values.filter fun v => !v.isNull with
    | nil => rfl
    | cons v present =>
      rw [hpresent] at hagain
      simp only [Outcome.collect_ofList, List.filter_eq_self.2 hagain]

end Run

namespace Connective

variable {call : Call} {scope : Scope} {input : Value} {a b rest : Outcome Value} {c : Connective}

/-- The instruction for a chain of operands. -/
def join : Connective → List Pipeline → Instruction
  | .and => .and
  | .or => .or
  | .coalesce => .coalesce
  | .concat => .concat

/-- The outcome of a chain, given that of its first operand and that of the chain behind it. -/
def combine : Connective → Outcome Value → Outcome Value → Outcome Value
  | .and, o, rest => Run.decided false o rest
  | .or, o, rest => Run.decided true o rest
  | .coalesce, o, rest => Run.firstPresent rest o.collect
  | .concat, o, rest => o.append fun _ => rest

/-- The outcome of a chain of one operand: `and` and `or` make truth values of what it gives. -/
def alone : Connective → Outcome Value → Outcome Value
  | .and, o => Run.decided false o (.one (.bool true))
  | .or, o => Run.decided true o (.one (.bool false))
  | .coalesce, o => o
  | .concat, o => o

theorem combine_assoc : c.combine (c.combine a b) rest = c.combine a (c.combine b rest) := by
  cases c with
  | and => exact Run.decided_assoc
  | or => exact Run.decided_assoc
  | coalesce => exact Run.firstPresent_assoc a.collect
  | concat => exact Outcome.append_assoc a _ _

/-- Combining sees to what is to be made of an operand. -/
theorem alone_combine : c.combine (c.alone a) rest = c.combine a rest := by
  cases c with
  | and => exact Run.decided_assoc.trans (congrArg (Run.decided false a) Run.decided_open)
  | or => exact Run.decided_assoc.trans (congrArg (Run.decided true a) Run.decided_open)
  | coalesce => rfl
  | concat => rfl

theorem alone_alone : c.alone (c.alone a) = c.alone a := by
  cases c with
  | and => exact alone_combine (c := .and)
  | or => exact alone_combine (c := .or)
  | coalesce => rfl
  | concat => rfl

theorem combine_alone : c.alone (c.combine a b) = c.combine a (c.alone b) := by
  cases c with
  | and => exact Run.decided_assoc
  | or => exact Run.decided_assoc
  | coalesce => rfl
  | concat => rfl

/-- The outcome of a chain. -/
def outcome (c : Connective) (call : Call) (scope : Scope) (input : Value) (ps : List Pipeline) :
    Outcome Value :=
  Run.pipeline call [c.join ps] scope input

theorem outcome_one (p : Pipeline) :
    c.outcome call scope input [p] = c.alone (Run.pipeline call p scope input) := by
  cases c with
  | concat =>
    simp only [outcome, join, alone, Run.pipeline, Run.instruction, Run.concat, Outcome.append_done]
  | _ => simp [outcome, join, alone, Run.pipeline, Run.instruction, Run.connective, Run.coalesce,
      Run.decided]

theorem outcome_cons (p q : Pipeline) (ps : List Pipeline) :
    c.outcome call scope input (p :: q :: ps) =
      c.combine (Run.pipeline call p scope input) (c.outcome call scope input (q :: ps)) := by
  cases c with
  | coalesce => simp only [outcome, join, combine, Run.pipeline, Run.instruction, Run.coalesce_cons]
  | concat => simp only [outcome, join, combine, Run.pipeline, Run.instruction, Run.concat]
  | _ => simp only [outcome, join, combine, Run.pipeline, Run.instruction, Run.connective,
      Run.decided]

/-- A chain is the combination of the two chains that it can be cut into. -/
theorem outcome_append (p q : Pipeline) (ps qs : List Pipeline) :
    c.outcome call scope input (p :: ps ++ q :: qs) =
      c.combine (c.outcome call scope input (p :: ps)) (c.outcome call scope input (q :: qs)) := by
  induction ps generalizing p with
  | nil => rw [outcome_one, alone_combine, List.singleton_append, outcome_cons]
  | cons r ps ih =>
    rw [List.cons_append, List.cons_append, outcome_cons, outcome_cons, combine_assoc, ← ih r]
    rfl

theorem alone_outcome (p : Pipeline) (ps : List Pipeline) :
    c.alone (c.outcome call scope input (p :: ps)) = c.outcome call scope input (p :: ps) := by
  induction ps generalizing p with
  | nil => rw [outcome_one, alone_alone]
  | cons q ps ih => rw [outcome_cons, combine_alone, ih]

/-- The first two operands of a chain can be put into a chain of their own. -/
theorem left_interchangeable (c : Connective) (first p q : Pipeline) (ps : List Pipeline) :
    Interchangeable [c.join (first :: p :: q :: ps)] [c.join ([c.join [first, p]] :: q :: ps)] := by
  refine Interchangeable.iff_outcome.2 fun call scope input => ?_
  have hcut : c.outcome call scope input (first :: p :: q :: ps) =
      c.combine (c.outcome call scope input [first, p]) (c.outcome call scope input (q :: ps)) :=
    c.outcome_append first q [p] ps
  exact hcut.trans (c.outcome_cons [c.join [first, p]] q ps).symm

/-- What is behind the first operand of a chain can be put into anything that does the same. -/
theorem right_interchangeable {c : Connective} {first q p : Pipeline} {ps : List Pipeline}
    (h : Interchangeable [c.join (p :: ps)] q) :
    Interchangeable [c.join (first :: p :: ps)] [c.join [first, q]] := by
  refine Interchangeable.iff_outcome.2 fun call scope input => ?_
  have hq : Run.pipeline call q scope input = c.outcome call scope input (p :: ps) :=
    (Interchangeable.iff_outcome.1 h call scope input).symm
  have hlast : c.outcome call scope input [q] = c.outcome call scope input (p :: ps) := by
    rw [outcome_one, hq, alone_outcome]
  change c.outcome call scope input (first :: p :: ps) = c.outcome call scope input [first, q]
  rw [outcome_cons, outcome_cons, hlast]

theorem rightNested_interchangeable (c : Connective) (first second : Pipeline)
    (ps : List Pipeline) :
    Interchangeable [c.join (first :: second :: ps)]
      (rightNested (fun left right => c.join [left, right]) first (second :: ps)) := by
  induction ps generalizing first second with
  | nil => exact .refl _
  | cons p ps ih => exact right_interchangeable (ih second p)

end Connective

/-! ### All chains -/

/-- Chains of two operands or more, whatever the operands, do the same as their nested forms:
    calculations and comparisons with any operators nested from the left, and `and`, `or`, `??` and
    `,` nested from either side. -/
theorem chains_nested :
    (∀ (first : Pipeline) (step : ArithmeticOp × Pipeline)
      (steps : List (ArithmeticOp × Pipeline)),
      Interchangeable [.calculate first (step :: steps)]
        (leftNested (fun left step => .calculate left [step]) first (step :: steps))) ∧
    (∀ (first : Pipeline) (step : ComparisonOp × Pipeline)
      (steps : List (ComparisonOp × Pipeline)),
      Interchangeable [.compare first (step :: steps)]
        (leftNested (fun left step => .compare left [step]) first (step :: steps))) ∧
    ∀ (c : Connective) (first second : Pipeline) (rest : List Pipeline),
      Interchangeable [c.join (first :: second :: rest)]
        (leftNested (fun left right => c.join [left, right]) first (second :: rest)) ∧
      Interchangeable [c.join (first :: second :: rest)]
        (rightNested (fun left right => c.join [left, right]) first (second :: rest)) := by
  refine ⟨fun first step steps => ?_, fun first step steps => ?_,
    fun c first second rest => ⟨?_, ?_⟩⟩
  · exact leftNested_interchangeable _ .calculate (fun _ _ => rfl) calculate_interchangeable
      first step steps
  · exact leftNested_interchangeable _ .compare (fun _ _ => rfl) compare_interchangeable
      first step steps
  · exact leftNested_interchangeable _ (fun first ps => c.join (first :: ps)) (fun _ _ => rfl)
      c.left_interchangeable first second rest
  · exact c.rightNested_interchangeable first second rest

end JsonPipe
