import JsonPipe.Proofs.Run.Chains
import JsonPipe.Proofs.Run.Parentheses

/-! Connectives as conditionals.

    Every output of an operand of `and` or `or` settles the matter for itself, or leaves it to the
    operands behind. That is what conditionals inside one another do with the outputs of their
    conditions (`Run.connective_eq`), so there is nothing to connectives but conditionals, whatever
    the operands put out and wherever they fail.

    Negation turns what settles `and` into what settles `or`. So it makes no difference whether the
    outputs of a chain are negated or those of each of its operands, if the connective is exchanged
    as well (`Run.connective_not`). -/

namespace JsonPipe

/-- A conditional with one condition. -/
def ifElse (condition body otherwise : Pipeline) : Pipeline :=
  [.branch [(condition, body)] (some otherwise)]

/-- `or` if true is decisive, and else `and`. -/
def connect : Bool → List Pipeline → Instruction
  | true => .or
  | false => .and

/-- Asks one operand after the other. A decisive output is not followed by the operands behind. -/
def ifChain : Bool → List Pipeline → Pipeline
  | decisive, [] => [.bool !decisive]
  | true, p :: rest => ifElse p [.bool true] (ifChain true rest)
  | false, p :: rest => ifElse p (ifChain false rest) [.bool false]

theorem Value.isTruthy_not (v : Value) : v.not.isTruthy = !v.isTruthy := by
  rw [Value.not]
  cases v.isTruthy <;> rfl

namespace Outcome

variable {α β γ : Type}

theorem map_bind (o : Outcome α) (f : α → Outcome β) (g : β → γ) :
    (o.bind f).map g = o.bind fun a => (f a).map g := by
  simp only [map_eq_bind, bind_assoc]

theorem bind_map (o : Outcome α) (f : α → β) (g : β → Outcome γ) :
    (o.map f).bind g = o.bind fun a => g (f a) := by
  simp only [map_eq_bind, bind_assoc, one_bind]

end Outcome

namespace Run

variable {call : Call} {scope : Scope} {input : Value}

theorem pipeline_ifElse (condition body otherwise : Pipeline) :
    pipeline call (ifElse condition body otherwise) scope input =
      (pipeline call condition scope input).bind fun v =>
        if v.isTruthy then pipeline call body scope input
        else pipeline call otherwise scope input := by
  simp only [ifElse, pipeline, instruction, branches]

theorem pipeline_connect (decisive : Bool) (ps : List Pipeline) :
    pipeline call [connect decisive ps] scope input =
      connective call decisive ps scope input := by
  cases decisive <;> simp only [connect, pipeline, instruction]

/-! ### Conditionals -/

/-- A chain of operands is the conditionals that ask them one after the other. -/
theorem connective_eq (decisive : Bool) (ps : List Pipeline) :
    connective call decisive ps scope input =
      pipeline call (ifChain decisive ps) scope input := by
  induction ps with
  | nil => cases decisive <;> rfl
  | cons p ps ih =>
    cases decisive with
    | true =>
      rw [connective, ifChain, pipeline_ifElse, ih]
      refine congrArg _ (funext fun v => ?_)
      cases v.isTruthy <;> rfl
    | false =>
      rw [connective, ifChain, pipeline_ifElse, ih]
      refine congrArg _ (funext fun v => ?_)
      cases v.isTruthy <;> rfl

/-! ### Negation -/

/-- A negation at the end negates every output, whatever is defined in front of it. -/
theorem pipeline_append_not (p : Pipeline) :
    pipeline call (p ++ [.not]) scope input = (pipeline call p scope input).map Value.not := by
  rw [pipeline_append, ← arrivals_outputs, Outcome.map_eq_bind, Outcome.bind_map]
  rfl

/-- Negating the outputs of a chain is negating those of its operands and exchanging the
    connective. -/
theorem connective_not (decisive : Bool) (ps : List Pipeline) :
    (connective call decisive ps scope input).map Value.not =
      connective call (!decisive) (ps.map (· ++ [.not])) scope input := by
  induction ps with
  | nil => cases decisive <;> rfl
  | cons p ps ih =>
    rw [List.map_cons, connective, connective, pipeline_append_not, Outcome.map_bind,
      Outcome.bind_map]
    refine congrArg _ (funext fun v => ?_)
    -- an output is decisive exactly if its negation is for the other connective
    have hdecisive : (v.not.isTruthy == !decisive) = (v.isTruthy == decisive) := by
      rw [Value.isTruthy_not]
      cases v.isTruthy <;> cases decisive <;> rfl
    rw [hdecisive, ← ih]
    split
    · cases decisive <;> rfl
    · rfl

end Run

/-! ### Both connectives -/

theorem connect_interchangeable (decisive : Bool) (ps : List Pipeline) :
    Interchangeable [connect decisive ps] (ifChain decisive ps) := by
  refine Interchangeable.iff_outcome.2 fun call scope input => ?_
  rw [Run.pipeline_connect, Run.connective_eq]

theorem connect_not_interchangeable (decisive : Bool) (ps : List Pipeline) :
    Interchangeable [connect decisive ps, .not] [connect (!decisive) (ps.map (· ++ [.not]))] := by
  refine Interchangeable.iff_outcome.2 fun call scope input => ?_
  have hnot : Run.pipeline call [connect decisive ps, .not] scope input =
      (Run.pipeline call [connect decisive ps] scope input).map Value.not :=
    Run.pipeline_append_not [connect decisive ps]
  rw [hnot, Run.pipeline_connect, Run.connective_not, Run.pipeline_connect]

/-- `a and b` is `if a then (if b then true else false) else false`, and `a or b` is
    `if a then true else (if b then true else false)`. A negation behind one of them is the other
    one with the negation behind each of its operands. All this holds whatever the operands are,
    however many outputs they have and wherever they fail. -/
theorem connectives_conditional (a b : Pipeline) :
    Interchangeable [.and [a, b]] (ifElse a (ifElse b [.bool true] [.bool false]) [.bool false]) ∧
      Interchangeable [.or [a, b]] (ifElse a [.bool true] (ifElse b [.bool true] [.bool false])) ∧
      Interchangeable [.and [a, b], .not] [.or [a ++ [.not], b ++ [.not]]] ∧
      Interchangeable [.or [a, b], .not] [.and [a ++ [.not], b ++ [.not]]] :=
  ⟨connect_interchangeable false [a, b], connect_interchangeable true [a, b],
    connect_not_interchangeable false [a, b], connect_not_interchangeable true [a, b]⟩

end JsonPipe
