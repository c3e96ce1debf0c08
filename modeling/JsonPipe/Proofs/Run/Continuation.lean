import JsonPipe.Proofs.Run.Outcome
import JsonPipe.Proofs.Syntax.Induction
import JsonPipe.Run.Call

/-! What comes after a run has no influence on it.

    Running a pipeline into a continuation is feeding its outcome to the continuation (`agrees`).
    The induction is over the program, one lemma for each way in which operands are run; the case
    that takes work is `try`, where failures of the continuation travel back through the operand
    (`Outcome.intercept_bind`). So the outputs of a run and the failure at its end can be told
    without the continuation, which only adds to them. -/

namespace JsonPipe.Feed

variable {call : Call}

/-- Running the pipeline into a continuation is feeding its outcome to it. -/
def Agrees (call : Call) (p : Pipeline) : Prop :=
  ∀ (scope : Scope) (input : Value) (next : Next),
    pipeline call p scope input next = (Run.pipeline call p scope input).bind next

/-- Nothing comes after an operand whose outputs are collected. -/
theorem Agrees.alone {p : Pipeline} (h : Agrees call p) (scope : Scope) (input : Value) :
    pipeline call p scope input .one = Run.pipeline call p scope input := by
  rw [h, Outcome.bind_one]

/-! ### Operands that are collected first -/

theorem operands_eq {ps : List Pipeline} (h : ∀ p ∈ ps, Agrees call p) (scope : Scope)
    (input : Value) : operands call ps scope input = Run.operands call ps scope input := by
  induction ps with
  | nil => rw [operands, Run.operands]
  | cons p ps ih =>
    obtain ⟨hp, hps⟩ := List.forall_mem_cons.1 h
    rw [operands, Run.operands, hp.alone, ih hps]

theorem texts_eq {parts : List (String × Pipeline)} (h : ∀ p ∈ parts.map (·.2), Agrees call p)
    (scope : Scope) (input : Value) :
    texts call parts scope input = Run.texts call parts scope input := by
  induction parts with
  | nil => rw [texts, Run.texts]
  | cons part parts ih =>
    obtain ⟨before, p⟩ := part
    obtain ⟨hp, hps⟩ := List.forall_mem_cons.1 h
    rw [texts, Run.texts, hp.alone, ih hps]

theorem choices_eq {fields : List (Field Pipeline)}
    (hk : ∀ p ∈ fields.map (·.key), Agrees call p) (hv : ∀ p ∈ fields.map (·.value), Agrees call p)
    (scope : Scope) (input : Value) :
    choices call fields scope input = Run.choices call fields scope input := by
  induction fields with
  | nil => rw [choices, Run.choices]
  | cons field fields ih =>
    obtain ⟨key, value, optional⟩ := field
    obtain ⟨hkey, hkeys⟩ := List.forall_mem_cons.1 hk
    obtain ⟨hvalue, hvalues⟩ := List.forall_mem_cons.1 hv
    rw [choices, Run.choices, hkey.alone, hvalue.alone, ih hkeys hvalues]

theorem assign_eq {path : List (Selector Pipeline)}
    (h : ∀ p ∈ path.flatMap Selector.parts, Agrees call p) (scope : Scope) (input : Value)
    (op : AssignmentOp) (fill : Assign.Fill) :
    assign call path scope input op fill = Run.assign call path scope input op fill := by
  induction path with
  | nil =>
    funext target
    rw [assign, Run.assign]
  | cons s path ih =>
    rw [List.flatMap_cons] at h
    obtain ⟨hs, hpath⟩ := List.forall_mem_append.1 h
    funext target
    cases s with
    | field key optional =>
      rw [assign, Run.assign, (hs key (by simp [Selector.parts])).alone, ih hpath]
    | iterate optional => rw [assign, Run.assign, ih hpath]
    | slice start stop optional =>
      rw [assign, Run.assign, (hs start (by simp [Selector.parts])).alone,
        (hs stop (by simp [Selector.parts])).alone, ih hpath]
    | call args bound optional => rw [assign, Run.assign]

/-! ### Operands that are run into the rest -/

theorem calculate_eq {steps : List (ArithmeticOp × Pipeline)}
    (h : ∀ p ∈ steps.map (·.2), Agrees call p) (scope : Scope) (input left : Value) (next : Next) :
    calculate call steps scope input left next =
      (Run.calculate call steps scope input left).bind next := by
  induction steps generalizing left with
  | nil => rw [calculate, Run.calculate, Outcome.one_bind]
  | cons step steps ih =>
    obtain ⟨op, p⟩ := step
    obtain ⟨hp, hps⟩ := List.forall_mem_cons.1 h
    rw [calculate, Run.calculate, hp, Outcome.bind_assoc]
    congr 1
    funext right
    cases op.apply left right with
    | ok v => exact ih hps v
    | error e => rfl

theorem compareSteps_eq {steps : List (ComparisonOp × Pipeline)}
    (h : ∀ p ∈ steps.map (·.2), Agrees call p) (scope : Scope) (input left : Value) (next : Next) :
    compareSteps call steps scope input left next =
      (Run.compareSteps call steps scope input left).bind next := by
  induction steps generalizing left with
  | nil => rw [compareSteps, Run.compareSteps, Outcome.one_bind]
  | cons step steps ih =>
    obtain ⟨op, p⟩ := step
    obtain ⟨hp, hps⟩ := List.forall_mem_cons.1 h
    rw [compareSteps, Run.compareSteps, hp, Outcome.bind_assoc]
    simp only [ih hps]

theorem branches_eq {arms : List (Pipeline × Pipeline)}
    (hc : ∀ p ∈ arms.map (·.1), Agrees call p) (hb : ∀ p ∈ arms.map (·.2), Agrees call p)
    (scope : Scope) (input : Value) (otherwise : Unit → Outcome Value) (next : Next) :
    branches call arms scope input (fun _ => (otherwise ()).bind next) next =
      (Run.branches call arms scope input otherwise).bind next := by
  induction arms with
  | nil => rw [branches, Run.branches]
  | cons arm arms ih =>
    obtain ⟨condition, body⟩ := arm
    obtain ⟨hcond, hconds⟩ := List.forall_mem_cons.1 hc
    obtain ⟨hbody, hbodies⟩ := List.forall_mem_cons.1 hb
    rw [branches, Run.branches, hcond, Outcome.bind_assoc]
    congr 1
    funext c
    split
    · exact hbody scope input next
    · exact ih hconds hbodies

theorem connective_eq {ps : List Pipeline} (h : ∀ p ∈ ps, Agrees call p) (decisive : Bool)
    (scope : Scope) (input : Value) (next : Next) :
    connective call decisive ps scope input next =
      (Run.connective call decisive ps scope input).bind next := by
  induction ps with
  | nil => rw [connective, Run.connective, Outcome.one_bind]
  | cons p ps ih =>
    obtain ⟨hp, hps⟩ := List.forall_mem_cons.1 h
    rw [connective, Run.connective, hp, Outcome.bind_assoc]
    congr 1
    funext v
    split
    · rw [Outcome.one_bind]
    · exact ih hps

theorem coalesce_eq {ps : List Pipeline} (h : ∀ p ∈ ps, Agrees call p) (scope : Scope)
    (input : Value) (next : Next) :
    coalesce call ps scope input next = (Run.coalesce call ps scope input).bind next := by
  induction ps with
  | nil => rw [coalesce, Run.coalesce, Outcome.one_bind]
  | cons p ps ih =>
    obtain ⟨hp, hps⟩ := List.forall_mem_cons.1 h
    cases ps with
    | nil => rw [coalesce, Run.coalesce, hp]
    | cons q qs =>
      rw [coalesce, Run.coalesce, hp.alone]
      · cases (Run.pipeline call p scope input).collect with
        | ok values =>
          simp only
          cases values.filter fun v => !v.isNull with
          | nil => exact ih hps
          | cons v present => rfl
        | error e =>
          simp only
          split
          · exact ih hps
          · rfl
      · simp
      · simp

theorem concat_eq {ps : List Pipeline} (h : ∀ p ∈ ps, Agrees call p) (scope : Scope)
    (input : Value) (next : Next) :
    concat call ps scope input next = (Run.concat call ps scope input).bind next := by
  induction ps with
  | nil => rw [concat, Run.concat, Outcome.done_bind]
  | cons p ps ih =>
    obtain ⟨hp, hps⟩ := List.forall_mem_cons.1 h
    rw [concat, Run.concat, hp, Outcome.append_bind, ih hps]

theorem guarded_bind {α : Type} (optional : Bool) (result : Except Failure α)
    (found : α → Outcome Value) (next : Next) :
    (Run.guarded optional result found).bind next =
      Run.guarded optional result fun a => (found a).bind next := by
  cases result with
  | ok a => rfl
  | error e =>
    simp only [Run.guarded]
    split <;> rfl

theorem select_eq {path : List (Selector Pipeline)}
    (h : ∀ p ∈ path.flatMap Selector.parts, Agrees call p) (scope : Scope) (input v : Value)
    (parent : Option Value) (next : Next) :
    select call path scope input v parent next =
      (Run.select call path scope input v parent).bind next := by
  induction path generalizing v parent with
  | nil => rw [select, Run.select, Outcome.one_bind]
  | cons s path ih =>
    rw [List.flatMap_cons] at h
    obtain ⟨hs, hpath⟩ := List.forall_mem_append.1 h
    cases s with
    | field key optional =>
      rw [select, Run.select, hs key (by simp [Selector.parts]), Outcome.bind_assoc]
      simp only [guarded_bind]
      congr 1
      funext k
      congr 1
      funext found
      cases found with
      | some found => exact ih hpath found (some v)
      | none =>
        simp only
        split
        · rfl
        · exact ih hpath .null (some v)
    | iterate optional =>
      rw [select, Run.select, guarded_bind]
      simp only [Outcome.bind_assoc, ih hpath]
    | slice start stop optional =>
      have hstop : Agrees call stop := hs stop (by simp [Selector.parts])
      rw [select, Run.select, hs start (by simp [Selector.parts]), Outcome.bind_assoc]
      simp only [hstop scope input, Outcome.bind_assoc, guarded_bind, ih hpath]
    | call args bound optional =>
      cases v with
      | function f =>
        have hargs : ∀ p ∈ args, Agrees call p := hs
        rw [select, Run.select, operands_eq hargs]
        cases Run.operands call args scope input with
        | ok lists => simp only [Outcome.bind_assoc, ih hpath]
        | error e => rfl
      | _ =>
        simp only [select, Run.select]
        split <;> rfl

/-! ### Instructions and pipelines -/

theorem instruction_eq {i : Instruction} (h : ∀ p ∈ i.parts, Agrees call p) (scope : Scope)
    (input : Value) (next : Next) :
    instruction call i scope input next = (Run.instruction call i scope input).bind next := by
  cases i with
  | null => rw [instruction, Run.instruction, Outcome.one_bind]
  | bool b => rw [instruction, Run.instruction, Outcome.one_bind]
  | number n => rw [instruction, Run.instruction, Outcome.one_bind]
  | string s => rw [instruction, Run.instruction, Outcome.one_bind]
  | interpolated parts after =>
    rw [instruction, Run.instruction, texts_eq h]
    cases Run.texts call parts scope input <;> rfl
  | «variable» name =>
    rw [instruction, Run.instruction]
    cases scope.lookup name with
    | some v => rw [Outcome.one_bind]
    | none => rfl
  | define name body =>
    rw [instruction, Run.instruction, h body (by simp [Instruction.parts]), Outcome.bind_assoc]
    simp only [Outcome.one_bind]
  | function params body => rw [instruction, Run.instruction, Outcome.one_bind]
  | access base path =>
    obtain ⟨hbase, hpath⟩ := List.forall_mem_cons.1 h
    rw [instruction, Run.instruction, hbase, Outcome.bind_assoc]
    simp only [select_eq hpath]
  | assign base path op value =>
    obtain ⟨hbase, hvalue⟩ := List.forall_mem_cons.1 h
    obtain ⟨hvalue, hpath⟩ := List.forall_mem_cons.1 hvalue
    rw [instruction, Run.instruction, hbase, Outcome.bind_assoc]
    simp only [assign_eq hpath, hvalue.alone]
  | calculate base steps =>
    obtain ⟨hbase, hsteps⟩ := List.forall_mem_cons.1 h
    rw [instruction, Run.instruction, hbase, Outcome.bind_assoc]
    simp only [calculate_eq hsteps]
  | compare base steps =>
    obtain ⟨hbase, hsteps⟩ := List.forall_mem_cons.1 h
    rw [instruction, Run.instruction, hbase, Outcome.bind_assoc]
    simp only [compareSteps_eq hsteps]
  | branch arms otherwise =>
    obtain ⟨harms, helse⟩ := List.forall_mem_append.1 h
    obtain ⟨hc, hb⟩ := List.forall_mem_append.1 harms
    cases otherwise with
    | some p =>
      have hp : Agrees call p := helse p (by simp)
      simp only [instruction, Run.instruction, ← branches_eq hc hb, hp scope input next]
    | none => simp only [instruction, Run.instruction, ← branches_eq hc hb, Outcome.one_bind]
  | and operands =>
    have hops : ∀ p ∈ operands, Agrees call p := h
    rw [instruction, Run.instruction, connective_eq hops]
  | or operands =>
    have hops : ∀ p ∈ operands, Agrees call p := h
    rw [instruction, Run.instruction, connective_eq hops]
  | coalesce operands =>
    have hops : ∀ p ∈ operands, Agrees call p := h
    rw [instruction, Run.instruction, coalesce_eq hops]
  | negate =>
    rw [instruction, Run.instruction]
    cases input.negate with
    | ok v => rw [Outcome.one_bind]
    | error e => rfl
  | not => rw [instruction, Run.instruction, Outcome.one_bind]
  | attempt body handler =>
    -- what comes after the operand is enclosed, so only failures of the operand are caught
    have hhandler : Agrees call handler := h handler (by simp [Instruction.parts])
    rw [instruction, Run.instruction, h body (by simp [Instruction.parts]),
      ← Outcome.intercept_bind]
    simp only [hhandler scope _ next]
  | array body =>
    rw [instruction, Run.instruction, (h body (by simp [Instruction.parts])).alone]
    cases (Run.pipeline call body scope input).collect with
    | ok items => rw [Outcome.one_bind]
    | error e => rfl
  | object fields =>
    obtain ⟨hk, hv⟩ := List.forall_mem_append.1 h
    rw [instruction, Run.instruction, choices_eq hk hv]
    cases Run.choices call fields scope input <;> rfl
  | concat operands =>
    have hops : ∀ p ∈ operands, Agrees call p := h
    rw [instruction, Run.instruction, concat_eq hops]
  | void => rw [instruction, Run.instruction, Outcome.done_bind]

/-- Every pipeline agrees with its outcome, whatever comes after it. -/
theorem agrees (call : Call) (p : Pipeline) : Agrees call p := by
  induction p using Pipeline.induction with
  | step p ih =>
    induction p with
    | nil =>
      intro scope input next
      rw [pipeline, Run.pipeline, Outcome.one_bind]
    | cons i rest ihrest =>
      obtain ⟨hi, hrest⟩ := List.forall_mem_cons.1 ih
      have hnext := fun scope input next => ihrest hrest scope input next
      intro scope input next
      rw [pipeline_cons, Run.pipeline_cons]
      cases i with
      | define name body =>
        have hbody : Agrees call body := hi body (by simp [Instruction.parts])
        simp only [hbody scope input, hnext, Outcome.bind_assoc]
      | _ => simp only [instruction_eq hi, hnext, Outcome.bind_assoc]

/-! ### Outputs and failure without the continuation -/

theorem deliver_eq (call : Call) (p : Pipeline) (scope : Scope) (input : Value)
    (next : Value → Except Failure (List Value)) :
    deliver call p scope input next = (Run.pipeline call p scope input).each next := by
  rw [deliver, agrees, Outcome.each]

theorem evaluate_eq (call : Call) (p : Pipeline) (scope : Scope) (input : Value) :
    evaluate call p scope input = (Run.pipeline call p scope input).collect := by
  rw [evaluate, (agrees call p).alone]

/-- An evaluation that succeeds has had a run without failure. -/
theorem run_of_evaluate {call : Call} {p : Pipeline} {scope : Scope} {input : Value}
    {outputs : List Value} (h : evaluate call p scope input = .ok outputs) :
    Run.pipeline call p scope input = .ofList outputs :=
  Outcome.eq_ofList_of_collect (by rw [← evaluate_eq, h])

/-- A run has outputs and perhaps a failure at its end, and both are fixed before anything is known
    of the continuation: delivering hands the outputs on one after the other, stops at the first
    that fails, and ends in the failure of the run if none does. This holds for every way to call
    functions, so for every limit of nested calls and for any number of them under way. -/
theorem deliver_eq_fanOut (call : Call) (p : Pipeline) (scope : Scope) (input : Value) :
    ∃ (outputs : List Value) (failure : Option Failure),
      evaluate call p scope input = endingIn failure outputs ∧
      (∀ next, deliver call p scope input next = fanOut outputs next >>= endingIn failure) ∧
      ∀ vs, evaluate call p scope input = .ok vs →
        ∀ next, deliver call p scope input next = fanOut vs next := by
  have hdeliver : ∀ next, deliver call p scope input next =
      fanOut (Run.pipeline call p scope input).outputs next >>=
        endingIn (Run.pipeline call p scope input).failure := by
    intro next
    rw [deliver_eq, Outcome.each_eq]
  refine ⟨_, _, by rw [evaluate_eq, Outcome.collect_eq_endingIn], hdeliver, ?_⟩
  intro vs hvs next
  rw [evaluate_eq, Outcome.collect_eq_endingIn] at hvs
  rw [hdeliver next]
  cases hf : (Run.pipeline call p scope input).failure with
  | some e => rw [hf] at hvs; cases hvs
  | none =>
    rw [hf] at hvs
    cases hvs
    cases fanOut (Run.pipeline call p scope input).outputs next <;> rfl

/-- Two outputs, the second of them from the handler of a `try`, are handed on as they are. -/
theorem deliver_eq_fanOut_attempt :
    evaluate (Run.call 0) [.concat [[], [.attempt [.negate] [.not]]]] [] (.bool true) =
        .ok [.bool true, .bool false] ∧
      ∀ next, deliver (Run.call 0) [.concat [[], [.attempt [.negate] [.not]]]] [] (.bool true) next =
        fanOut [.bool true, .bool false] next := by
  obtain ⟨_, _, _, _, h⟩ := deliver_eq_fanOut (Run.call 0)
    [.concat [[], [.attempt [.negate] [.not]]]] [] (.bool true)
  exact ⟨rfl, h _ rfl⟩

end JsonPipe.Feed
