import JsonPipe.Proofs.Run.Continuation
import JsonPipe.Proofs.Run.Fatality
import JsonPipe.Run.Machine
import Mathlib.Logic.Function.Iterate

/-! Runs come to an end.

    `Comes` relates a task to the outcome that the machine reaches for it, in a number of steps that
    does not depend on what waits for the task. There is one rule for each way to put tasks
    together, and one lemma for each way in which operands are run.

    What a run starts inside of itself is smaller in one of three ways. A part of a program is
    smaller than the program, whatever comes after it; a builtin calls back with fewer arguments
    than it was given; and a closure, whose body may be anything, is entered with fewer calls left.
    So there are three inductions: over the program (`runs`), over the arguments
    (`call_comes`) and over the calls that are left (`calls_come`). -/

namespace JsonPipe

/-! ### What is seen of an outcome -/

namespace Outcome

variable {α : Type}

/-- What is seen of an outcome once it is complete. -/
def ending (o : Outcome Value) : Ending := ⟨o.outputs, o.failure⟩

/-- What comes once a result is there. -/
def once (r : Except Failure α) (φ : α → Outcome Value) : Outcome Value :=
  match r with
  | .ok a => φ a
  | .error e => .fail e

theorem once_bind {β : Type} (r : Except Failure α) (f : α → Except Failure β)
    (φ : β → Outcome Value) : once (r >>= f) φ = once r fun a => once (f a) φ := by
  cases r <;> rfl

theorem once_ofExcept (r : Except Failure α) (f : α → Except Failure (List Value)) :
    once r (fun a => ofExcept (f a)) = ofExcept (r >>= f) := by
  cases r <;> rfl

theorem once_ofList_bind (r : Except Failure (List Value)) (φ : Value → Outcome Value) :
    (once r fun vs => (ofList vs).bind φ) = (ofExcept r).bind φ := by
  cases r <;> rfl

theorem result_ending (o : Outcome Value) : o.ending.result = o.collect := by
  rw [collect_eq]
  rfl

theorem ending_ofExcept (r : Except Failure (List Value)) :
    (ofExcept r).ending = .ofResult r := by
  cases r with
  | error e => rfl
  | ok vs => rw [ofExcept, ending, outputs_ofList, failure_ofList, Ending.ofResult]

theorem ending_ofList_append (vs : List Value) (o : Outcome Value) :
    ((ofList vs).append fun _ => o).ending = ⟨vs ++ o.outputs, o.failure⟩ := by
  induction vs with
  | nil => rfl
  | cons v vs ih =>
    rw [ending, Ending.mk.injEq] at ih
    simp only [ofList, next_append, ending, outputs, failure, ih, List.cons_append]

theorem ending_enclosed (o : Outcome Value) :
    o.enclosed.ending = ⟨o.outputs, o.failure.map .enclose⟩ := by
  induction o with
  | done => rfl
  | fail e => rfl
  | next a rest ih =>
    have hrest := Ending.mk.inj (ih ())
    simp only [enclosed, ending, outputs, failure, hrest]

/-- What comes second is reached only if the first does not fail. -/
theorem append_eq (o : Outcome α) (more : Unit → Outcome α) :
    o.append more = match o.failure with
      | none => (ofList o.outputs).append more
      | some _ => o := by
  induction o with
  | done => rfl
  | fail e => rfl
  | next a rest ih =>
    simp only [next_append, outputs, ofList, failure, ih]
    cases (rest ()).failure <;> rfl

/-- A handler takes over after the outputs, in place of a failure that may be caught. -/
theorem intercept_eq_append (handler : Failure → Outcome α) (o : Outcome α) :
    o.intercept handler = match o.failure with
      | none => o
      | some e => (ofList o.outputs).append fun _ =>
          if e.isCatchable then handler e else .fail e.disclose := by
  induction o with
  | done => rfl
  | fail e => rfl
  | next a rest ih =>
    simp only [intercept, outputs, ofList, failure, ih]
    cases (rest ()).failure <;> rfl

end Outcome

/-! ### Operands that are collected first -/

namespace Feed

variable (call : Call) (scope : Scope) (input : Value) (next : Next)

theorem instruction_interpolated (parts : List (String × Pipeline)) (after : String) :
    instruction call (.interpolated parts after) scope input next =
      .once (texts call parts scope input) fun candidates =>
        (Outcome.ofList ((product candidates).map fun row =>
          .string (String.join row ++ after))).bind next := by
  rw [instruction]
  cases texts call parts scope input with
  | error e => rfl
  | ok candidates => rw [Outcome.once, ← Outcome.map_ofList, ← Outcome.choices_eq]

theorem instruction_array (body : Pipeline) :
    instruction call (.array body) scope input next =
      .once (pipeline call body scope input .one).collect fun items => next (.array items) := by
  rw [instruction]
  cases (pipeline call body scope input .one).collect <;> rfl

theorem instruction_object (fields : List (Field Pipeline)) :
    instruction call (.object fields) scope input next =
      .once (choices call fields scope input) fun candidates =>
        (Outcome.ofList ((product candidates).map fun row =>
          .object (Entries.ofList (row.filterMap id)))).bind next := by
  rw [instruction]
  cases choices call fields scope input with
  | error e => rfl
  | ok candidates =>
    rw [Outcome.once, ← Outcome.map_ofList, ← Outcome.choices_eq]
    rfl

theorem select_call (args : List Pipeline) (bound optional : Bool)
    (rest : List (Selector Pipeline)) (f : Function) (parent : Option Value) :
    select call (.call args bound optional :: rest) scope input (.function f) parent next =
      .once (operands call args scope input) fun lists =>
        (Outcome.ofList (product lists)).bind fun row =>
          (Outcome.ofExcept
            (call f (if bound then parent.getD input else input) row)).bind fun result =>
              select call rest scope input result (some (.function f)) next := by
  rw [select]
  cases operands call args scope input with
  | error e => rfl
  | ok lists => rw [Outcome.once, ← Outcome.choices_eq]

end Feed

namespace Machine

variable {α : Type} {natives : Natives} {limit depth : Nat} {t more : Task} {o p : Outcome Value}

/-- The machine comes to the outcome of a task, and is then as deep as before, with the same things
    waiting. -/
def Comes (natives : Natives) (limit depth : Nat) (t : Task) (o : Outcome Value) : Prop :=
  ∃ n, ∀ waiting, (step natives limit)^[n] ⟨depth, waiting, t⟩ = ⟨depth, waiting, .ended o.ending⟩

namespace Comes

/-! ### One rule for each way to put tasks together -/

theorem ended {e : Ending} (h : o.ending = e) : Comes natives limit depth (.ended e) o :=
  ⟨0, fun _ => by rw [h, Function.iterate_zero, id]⟩

theorem one (v : Value) : Comes natives limit depth (.one v) (.one v) := ended rfl

theorem done : Comes natives limit depth .done .done := ended rfl

theorem fail (e : Failure) : Comes natives limit depth (.fail e) (.fail e) := ended rfl

theorem ofResult (r : Except Failure (List Value)) :
    Comes natives limit depth (.ofResult r) (.ofExcept r) :=
  ended (Outcome.ending_ofExcept r)

/-- A task whose step puts another in its place comes to what the other comes to. -/
theorem of_step {u : Task}
    (h : ∀ waiting, step natives limit ⟨depth, waiting, t⟩ = ⟨depth, waiting, u⟩)
    (hu : Comes natives limit depth u o) : Comes natives limit depth t o := by
  obtain ⟨n, hn⟩ := hu
  refine ⟨n + 1, fun waiting => ?_⟩
  rw [Function.iterate_succ_apply, h, hn]

theorem of_unfold
    (h : ∀ waiting, step natives limit ⟨depth, waiting, t⟩ = ⟨depth, waiting, t.unfold⟩)
    (hu : Comes natives limit depth t.unfold o) : Comes natives limit depth t o :=
  of_step h hu

theorem andThen {further : Ending → Task} (ht : Comes natives limit depth t o)
    (hf : Comes natives limit depth (further o.ending) p) :
    Comes natives limit depth (.andThen t further) p := by
  obtain ⟨n, hn⟩ := ht
  obtain ⟨m, hm⟩ := hf
  -- one step to set `further` aside and one to take it up again
  refine ⟨m + 1 + n + 1, fun waiting => ?_⟩
  rw [Function.iterate_succ_apply, Function.iterate_add_apply]
  have hset : step natives limit ⟨depth, waiting, .andThen t further⟩ =
      ⟨depth, .further further :: waiting, t⟩ := rfl
  rw [hset, hn, Function.iterate_succ_apply]
  exact hm waiting

theorem collect {further : List Value → Task} {φ : List Value → Outcome Value}
    (ht : Comes natives limit depth t o)
    (hf : ∀ vs, Comes natives limit depth (further vs) (φ vs)) :
    Comes natives limit depth (t.collect further) (.once o.collect φ) := by
  refine andThen ht ?_
  rw [Outcome.result_ending]
  cases o.collect with
  | ok vs => exact hf vs
  | error e => exact fail e

theorem collected (ht : Comes natives limit depth t o) :
    Comes natives limit depth t.collected (.ofExcept o.collect) := by
  refine andThen ht ?_
  rw [Outcome.result_ending]
  exact ofResult _

theorem after (vs : List Value) (ht : Comes natives limit depth t o) :
    Comes natives limit depth (t.after vs) ((Outcome.ofList vs).append fun _ => o) :=
  andThen ht (ended (Outcome.ending_ofList_append vs o))

theorem append (ht : Comes natives limit depth t o) (hmore : Comes natives limit depth more p) :
    Comes natives limit depth (t.append more) (o.append fun _ => p) := by
  refine andThen ht ?_
  rw [Outcome.append_eq, Outcome.ending]
  cases hf : o.failure with
  | none => exact after o.outputs hmore
  | some e => exact ended (by rw [Outcome.ending, hf])

theorem each {f : α → Task} {φ : α → Outcome Value}
    (hf : ∀ a, Comes natives limit depth (f a) (φ a)) (as : List α) :
    Comes natives limit depth (Task.each f as) ((Outcome.ofList as).bind φ) := by
  induction as with
  | nil => exact done
  | cons a as ih =>
    rw [Outcome.ofList, Outcome.next_bind]
    exact append (hf a) ih

theorem enclosed (ht : Comes natives limit depth t o) :
    Comes natives limit depth t.enclosed o.enclosed :=
  andThen ht (ended (Outcome.ending_enclosed o))

theorem intercept {handler : Failure → Task} {η : Failure → Outcome Value}
    (ht : Comes natives limit depth t o)
    (hh : ∀ e, Comes natives limit depth (handler e) (η e)) :
    Comes natives limit depth (t.intercept handler) (o.intercept η) := by
  refine andThen ht ?_
  rw [Outcome.intercept_eq_append, Outcome.ending]
  cases hf : o.failure with
  | none => exact ended (by rw [Outcome.ending, hf])
  | some e =>
    simp only
    split
    · exact after o.outputs (hh e)
    · exact ended (by rw [Outcome.ending_ofList_append, Outcome.outputs, List.append_nil]; rfl)

theorem guarded {found : α → Task} {φ : α → Outcome Value} (optional : Bool)
    (result : Except Failure α) (hfound : ∀ a, Comes natives limit depth (found a) (φ a)) :
    Comes natives limit depth (.guarded optional result found)
      (Run.guarded optional result φ) := by
  cases result with
  | ok a => exact hfound a
  | error e =>
    rw [Task.guarded, Run.guarded]
    split
    · exact done
    · exact fail e

/-! ### Writes -/

theorem gather {f : α → Task} {φ : α → Except Failure (List Value)}
    {further : List (List Value) → Task} {ψ : List (List Value) → Outcome Value}
    (hf : ∀ a, Comes natives limit depth (f a) (.ofExcept (φ a))) (as : List α)
    (hfurther : ∀ rows, Comes natives limit depth (further rows) (ψ rows)) :
    Comes natives limit depth (Task.gather f as further) (.once (as.mapM φ) ψ) := by
  induction as generalizing further ψ with
  | nil => exact hfurther []
  | cons a as ih =>
    rw [List.mapM_cons, Outcome.once_bind, ← Outcome.collect_ofExcept (φ a)]
    refine collect (hf a) fun vs => ?_
    rw [Outcome.once_bind]
    exact ih fun rows => hfurther (vs :: rows)

section

variable {fill : Value → Task} {φ : Assign.Fill}

theorem perform (hfill : ∀ v, Comes natives limit depth (fill v) (.ofExcept (φ v)))
    (plan : Assign.Plan) :
    Comes natives limit depth (.perform fill plan) (.ofExcept (plan.perform φ)) := by
  rw [Assign.Plan.perform, ← Outcome.once_ofExcept]
  exact gather hfill plan.slots fun rows => ofResult (plan.build rows)

theorem slices (hfill : ∀ v, Comes natives limit depth (fill v) (.ofExcept (φ v)))
    (op : AssignmentOp) (optional : Bool) (starts stops : List Value) (target : Value) :
    Comes natives limit depth (.slices fill op optional starts stops target)
      (.ofExcept (Assign.slices φ op optional starts stops target)) := by
  have hcell : ∀ a b, Comes natives limit depth
      (.perform fill (Assign.slicePlan op optional a b target))
      (.ofExcept (Assign.slice φ op optional a b target)) := by
    intro a b
    rw [Assign.slice_eq]
    exact perform hfill _
  have hall : Assign.slices φ op optional starts stops target =
      ((Outcome.ofList starts).bind fun a => (Outcome.ofList stops).bind fun b =>
        .ofExcept (Assign.slice φ op optional a b target)).collect := by
    rw [Outcome.collect_bind, Outcome.each_ofList]
    have hrow : ∀ a, ((Outcome.ofList stops).bind fun b =>
        .ofExcept (Assign.slice φ op optional a b target)).collect =
          fanOut stops fun b => Assign.slice φ op optional a b target :=
      fun a => Outcome.each_ofList stops _
    simp only [hrow]
    rfl
  rw [hall]
  exact collected (each (fun a => each (hcell a) stops) starts)

end

end Comes

/-! ### One lemma for each way in which operands are run -/

/-- Whatever comes after it, the machine comes to what the pipeline gives. -/
def Runs (natives : Natives) (limit depth : Nat) (call : Call) (p : Pipeline) : Prop :=
  ∀ (scope : Scope) (input : Value) {next : Value → Task} {φ : Next},
    (∀ v, Comes natives limit depth (next v) (φ v)) →
      Comes natives limit depth (.pipeline p scope input next)
        (Feed.pipeline call p scope input φ)

variable {call : Call} {next : Value → Task} {φ : Next}

theorem Runs.alone {p : Pipeline} (h : Runs natives limit depth call p) (scope : Scope)
    (input : Value) : Comes natives limit depth (.pipeline p scope input .one)
      (Feed.pipeline call p scope input .one) :=
  h scope input .one

theorem Runs.collect {p : Pipeline} (h : Runs natives limit depth call p) (scope : Scope)
    (input : Value) {further : List Value → Task} {ψ : List Value → Outcome Value}
    (hfurther : ∀ vs, Comes natives limit depth (further vs) (ψ vs)) :
    Comes natives limit depth (Task.collect (.pipeline p scope input .one) further)
      (.once (Feed.pipeline call p scope input .one).collect ψ) :=
  .collect (h.alone scope input) hfurther

theorem operands_come {ps : List Pipeline} (h : ∀ p ∈ ps, Runs natives limit depth call p)
    (scope : Scope) (input : Value) {further : List (List Value) → Task}
    {ψ : List (List Value) → Outcome Value}
    (hfurther : ∀ lists, Comes natives limit depth (further lists) (ψ lists)) :
    Comes natives limit depth (.operands ps scope input further)
      (.once (Feed.operands call ps scope input) ψ) := by
  refine .of_unfold (fun _ => rfl) ?_
  induction ps generalizing further ψ with
  | nil =>
    rw [Feed.operands]
    exact hfurther []
  | cons p ps ih =>
    obtain ⟨hp, hps⟩ := List.forall_mem_cons.1 h
    rw [Feed.operands, Outcome.once_bind]
    refine hp.collect scope input fun values => .of_unfold (fun _ => rfl) ?_
    rw [Outcome.once_bind]
    exact ih hps fun lists => hfurther (values :: lists)

theorem texts_come {parts : List (String × Pipeline)}
    (h : ∀ p ∈ parts.map (·.2), Runs natives limit depth call p) (scope : Scope) (input : Value)
    {further : List (List String) → Task} {ψ : List (List String) → Outcome Value}
    (hfurther : ∀ lists, Comes natives limit depth (further lists) (ψ lists)) :
    Comes natives limit depth (.texts parts scope input further)
      (.once (Feed.texts call parts scope input) ψ) := by
  refine .of_unfold (fun _ => rfl) ?_
  induction parts generalizing further ψ with
  | nil =>
    rw [Feed.texts]
    exact hfurther []
  | cons part parts ih =>
    obtain ⟨before, p⟩ := part
    obtain ⟨hp, hps⟩ := List.forall_mem_cons.1 h
    rw [Feed.texts, Outcome.once_bind]
    refine hp.collect scope input fun values => .of_unfold (fun _ => rfl) ?_
    rw [Outcome.once_bind]
    exact ih hps fun lists => hfurther (values.map (fun v => before ++ v.text) :: lists)

theorem choices_come {fields : List (Field Pipeline)}
    (hk : ∀ p ∈ fields.map (·.key), Runs natives limit depth call p)
    (hv : ∀ p ∈ fields.map (·.value), Runs natives limit depth call p) (scope : Scope)
    (input : Value) {further : List (List (Option (String × Value))) → Task}
    {ψ : List (List (Option (String × Value))) → Outcome Value}
    (hfurther : ∀ lists, Comes natives limit depth (further lists) (ψ lists)) :
    Comes natives limit depth (.choices fields scope input further)
      (.once (Feed.choices call fields scope input) ψ) := by
  refine .of_unfold (fun _ => rfl) ?_
  induction fields generalizing further ψ with
  | nil =>
    rw [Feed.choices]
    exact hfurther []
  | cons field fields ih =>
    obtain ⟨key, value, optional⟩ := field
    obtain ⟨hkey, hkeys⟩ := List.forall_mem_cons.1 hk
    obtain ⟨hvalue, hvalues⟩ := List.forall_mem_cons.1 hv
    rw [Feed.choices, Outcome.once_bind]
    refine hkey.collect scope input fun keys => ?_
    rw [Outcome.once_bind]
    refine hvalue.collect scope input fun values => ?_
    rw [Outcome.once_bind]
    cases Run.fieldChoices optional keys values with
    | error e => exact .fail e
    | ok entries =>
      refine .of_unfold (fun _ => rfl) ?_
      rw [Outcome.once, Outcome.once_bind]
      exact ih hkeys hvalues fun lists => hfurther (entries :: lists)

theorem calculate_comes {steps : List (ArithmeticOp × Pipeline)}
    (h : ∀ p ∈ steps.map (·.2), Runs natives limit depth call p) (scope : Scope)
    (input left : Value) (hnext : ∀ v, Comes natives limit depth (next v) (φ v)) :
    Comes natives limit depth (.calculate steps scope input left next)
      (Feed.calculate call steps scope input left φ) := by
  refine .of_unfold (fun _ => rfl) ?_
  induction steps generalizing left with
  | nil =>
    rw [Feed.calculate]
    exact hnext left
  | cons step steps ih =>
    obtain ⟨op, p⟩ := step
    obtain ⟨hp, hps⟩ := List.forall_mem_cons.1 h
    rw [Feed.calculate]
    refine hp scope input fun right => ?_
    cases op.apply left right with
    | ok v => exact .of_unfold (fun _ => rfl) (ih hps v)
    | error e => exact .fail e

theorem compareSteps_come {steps : List (ComparisonOp × Pipeline)}
    (h : ∀ p ∈ steps.map (·.2), Runs natives limit depth call p) (scope : Scope)
    (input left : Value) (hnext : ∀ v, Comes natives limit depth (next v) (φ v)) :
    Comes natives limit depth (.compareSteps steps scope input left next)
      (Feed.compareSteps call steps scope input left φ) := by
  refine .of_unfold (fun _ => rfl) ?_
  induction steps generalizing left with
  | nil =>
    rw [Feed.compareSteps]
    exact hnext left
  | cons step steps ih =>
    obtain ⟨op, p⟩ := step
    obtain ⟨hp, hps⟩ := List.forall_mem_cons.1 h
    rw [Feed.compareSteps]
    exact hp scope input fun right => .of_unfold (fun _ => rfl) (ih hps _)

theorem branches_come {arms : List (Pipeline × Pipeline)}
    (hc : ∀ p ∈ arms.map (·.1), Runs natives limit depth call p)
    (hb : ∀ p ∈ arms.map (·.2), Runs natives limit depth call p) (scope : Scope) (input : Value)
    {otherwise : Unit → Outcome Value} (hother : Comes natives limit depth t (otherwise ()))
    (hnext : ∀ v, Comes natives limit depth (next v) (φ v)) :
    Comes natives limit depth (.branches arms scope input t next)
      (Feed.branches call arms scope input otherwise φ) := by
  refine .of_unfold (fun _ => rfl) ?_
  induction arms with
  | nil =>
    rw [Feed.branches]
    exact hother
  | cons arm arms ih =>
    obtain ⟨condition, body⟩ := arm
    obtain ⟨hcond, hconds⟩ := List.forall_mem_cons.1 hc
    obtain ⟨hbody, hbodies⟩ := List.forall_mem_cons.1 hb
    rw [Feed.branches]
    refine hcond scope input fun c => ?_
    split
    · exact hbody scope input hnext
    · exact .of_unfold (fun _ => rfl) (ih hconds hbodies)

theorem connective_comes {ps : List Pipeline} (h : ∀ p ∈ ps, Runs natives limit depth call p)
    (decisive : Bool) (scope : Scope) (input : Value)
    (hnext : ∀ v, Comes natives limit depth (next v) (φ v)) :
    Comes natives limit depth (.connective decisive ps scope input next)
      (Feed.connective call decisive ps scope input φ) := by
  refine .of_unfold (fun _ => rfl) ?_
  induction ps with
  | nil =>
    rw [Feed.connective]
    exact hnext _
  | cons p ps ih =>
    obtain ⟨hp, hps⟩ := List.forall_mem_cons.1 h
    rw [Feed.connective]
    refine hp scope input fun v => ?_
    split
    · exact hnext _
    · exact .of_unfold (fun _ => rfl) (ih hps)

theorem coalesce_comes {ps : List Pipeline} (h : ∀ p ∈ ps, Runs natives limit depth call p)
    (scope : Scope) (input : Value) (hnext : ∀ v, Comes natives limit depth (next v) (φ v)) :
    Comes natives limit depth (.coalesce ps scope input next)
      (Feed.coalesce call ps scope input φ) := by
  refine .of_unfold (fun _ => rfl) ?_
  induction ps with
  | nil =>
    rw [Feed.coalesce]
    exact hnext _
  | cons p ps ih =>
    obtain ⟨hp, hps⟩ := List.forall_mem_cons.1 h
    cases ps with
    | nil =>
      rw [Feed.coalesce]
      exact hp scope input hnext
    | cons q qs =>
      have hrest := Comes.of_unfold (fun _ => rfl) (ih hps)
      rw [Feed.coalesce]
      refine .andThen (hp.alone scope input) ?_
      rw [Outcome.result_ending]
      cases (Feed.pipeline call p scope input .one).collect with
      | ok values =>
        simp only
        cases values.filter fun v => !v.isNull with
        | nil => exact hrest
        | cons v present => exact .each hnext (v :: present)
      | error e =>
        simp only
        split
        · exact hrest
        · exact .fail e
      all_goals simp

theorem concat_comes {ps : List Pipeline} (h : ∀ p ∈ ps, Runs natives limit depth call p)
    (scope : Scope) (input : Value) (hnext : ∀ v, Comes natives limit depth (next v) (φ v)) :
    Comes natives limit depth (.concat ps scope input next)
      (Feed.concat call ps scope input φ) := by
  refine .of_unfold (fun _ => rfl) ?_
  induction ps with
  | nil =>
    rw [Feed.concat]
    exact .done
  | cons p ps ih =>
    obtain ⟨hp, hps⟩ := List.forall_mem_cons.1 h
    rw [Feed.concat]
    exact .append (hp scope input hnext) (.of_unfold (fun _ => rfl) (ih hps))

/-! ### Paths -/

/-- Whatever is called, the machine comes to what the call gives. -/
def Answers (natives : Natives) (limit depth : Nat) (call : Call) : Prop :=
  ∀ f input args, Comes natives limit depth (.call f input args) (.ofExcept (call f input args))

theorem select_comes (hcall : Answers natives limit depth call) {path : List (Selector Pipeline)}
    (h : ∀ p ∈ path.flatMap Selector.parts, Runs natives limit depth call p) (scope : Scope)
    (input v : Value) (parent : Option Value)
    (hnext : ∀ v, Comes natives limit depth (next v) (φ v)) :
    Comes natives limit depth (.select path scope input v parent next)
      (Feed.select call path scope input v parent φ) := by
  refine .of_unfold (fun _ => rfl) ?_
  induction path generalizing v parent with
  | nil =>
    rw [Feed.select]
    exact hnext v
  | cons s path ih =>
    rw [List.flatMap_cons] at h
    obtain ⟨hs, hpath⟩ := List.forall_mem_append.1 h
    have hrest : ∀ found, Comes natives limit depth (.select path scope input found (some v) next)
        (Feed.select call path scope input found (some v) φ) :=
      fun found => .of_unfold (fun _ => rfl) (ih hpath found (some v))
    cases s with
    | field key optional =>
      have hkey : Runs natives limit depth call key := hs key (by simp [Selector.parts])
      rw [Feed.select]
      refine hkey scope input fun k => .guarded optional _ fun found => ?_
      cases found with
      | some found => exact hrest found
      | none =>
        simp only
        split
        · exact .done
        · exact hrest .null
    | iterate optional =>
      rw [Feed.select]
      exact .guarded optional _ fun items => .each hrest items
    | slice start stop optional =>
      have hstart : Runs natives limit depth call start := hs start (by simp [Selector.parts])
      have hstop : Runs natives limit depth call stop := hs stop (by simp [Selector.parts])
      rw [Feed.select]
      exact hstart scope input fun a => hstop scope input fun b => .guarded optional _ hrest
    | call args bound optional =>
      cases v with
      | function f =>
        have hargs : ∀ p ∈ args, Runs natives limit depth call p := hs
        rw [Feed.select_call]
        refine operands_come hargs scope input fun lists => .each (fun row => ?_) (product lists)
        rw [← Outcome.once_ofList_bind, ← Outcome.collect_ofExcept (call f _ row)]
        exact .collect (hcall f _ row) fun results => .each hrest results
      | _ =>
        rw [Feed.select]
        change Comes natives limit depth (if optional then .done else .fail _) _
        · split
          · exact .done
          · exact .fail _
        · simp

theorem assign_comes {path : List (Selector Pipeline)}
    (h : ∀ p ∈ path.flatMap Selector.parts, Runs natives limit depth call p) (scope : Scope)
    (input : Value) (op : AssignmentOp) {fill : Value → Task} {ψ : Assign.Fill}
    (hfill : ∀ v, Comes natives limit depth (fill v) (.ofExcept (ψ v))) (target : Value) :
    Comes natives limit depth (.assign path scope input op fill target)
      (.ofExcept (Feed.assign call path scope input op ψ target)) := by
  refine .of_unfold (fun _ => rfl) ?_
  induction path generalizing target with
  | nil =>
    rw [Feed.assign]
    exact hfill target
  | cons s path ih =>
    rw [List.flatMap_cons] at h
    obtain ⟨hs, hpath⟩ := List.forall_mem_append.1 h
    have hrest : ∀ v, Comes natives limit depth (.assign path scope input op fill v)
        (.ofExcept (Feed.assign call path scope input op ψ v)) :=
      fun v => .of_unfold (fun _ => rfl) (ih hpath v)
    cases s with
    | field key optional =>
      have hkey : Runs natives limit depth call key := hs key (by simp [Selector.parts])
      rw [Feed.assign, ← Outcome.once_ofExcept]
      refine hkey.collect scope input fun ks => ?_
      rw [Assign.keys_eq]
      exact .perform hrest _
    | iterate optional =>
      rw [Feed.assign, Assign.each_eq]
      exact .perform hrest _
    | slice start stop optional =>
      have hstart : Runs natives limit depth call start := hs start (by simp [Selector.parts])
      have hstop : Runs natives limit depth call stop := hs stop (by simp [Selector.parts])
      rw [Feed.assign, ← Outcome.once_ofExcept]
      refine hstart.collect scope input fun starts => ?_
      rw [← Outcome.once_ofExcept]
      refine hstop.collect scope input fun stops => ?_
      exact .slices hrest op optional starts stops target
    | call args bound optional =>
      rw [Feed.assign]
      exact .fail _

theorem assigned_comes {value : Pipeline} (h : Runs natives limit depth call value)
    (op : AssignmentOp) (scope : Scope) (input target : Value) :
    Comes natives limit depth (.assigned op value scope input target)
      (.ofExcept (Run.assigned op (fun _ => Feed.pipeline call value scope input .one)
        (fun target => Feed.pipeline call value scope target .one) target)) := by
  cases op with
  | arithmetic op =>
    rw [Run.assigned, ← Outcome.once_ofExcept]
    exact h.collect scope input fun vs => .ofResult _
  | update => exact .collected (h.alone scope target)
  | coalesce =>
    rw [Task.assigned, Run.assigned]
    split
    · exact .collected (h.alone scope input)
    · exact .one target
  | set => exact .collected (h.alone scope input)

/-! ### Instructions and pipelines -/

theorem instruction_comes (hcall : Answers natives limit depth call) {i : Instruction}
    (h : ∀ p ∈ i.parts, Runs natives limit depth call p) (scope : Scope) (input : Value)
    (hnext : ∀ v, Comes natives limit depth (next v) (φ v)) :
    Comes natives limit depth (.instruction i scope input next)
      (Feed.instruction call i scope input φ) := by
  refine .of_unfold (fun _ => rfl) ?_
  cases i with
  | null =>
    rw [Feed.instruction]
    exact hnext _
  | bool b =>
    rw [Feed.instruction]
    exact hnext _
  | number n =>
    rw [Feed.instruction]
    exact hnext _
  | string s =>
    rw [Feed.instruction]
    exact hnext _
  | interpolated parts after =>
    rw [Feed.instruction_interpolated]
    exact texts_come h scope input fun candidates => .each hnext _
  | «variable» name =>
    rw [Feed.instruction, Task.unfold, Task.ofInstruction]
    cases scope.lookup name with
    | some v => exact hnext v
    | none => exact .fail _
  | define name body =>
    rw [Feed.instruction]
    exact h body (by simp [Instruction.parts]) scope input fun _ => hnext input
  | function params body =>
    rw [Feed.instruction]
    exact hnext _
  | access base path =>
    obtain ⟨hbase, hpath⟩ := List.forall_mem_cons.1 h
    rw [Feed.instruction]
    exact hbase scope input fun v => select_comes hcall hpath scope input v none hnext
  | assign base path op value =>
    obtain ⟨hbase, hvalue⟩ := List.forall_mem_cons.1 h
    obtain ⟨hvalue, hpath⟩ := List.forall_mem_cons.1 hvalue
    rw [Feed.instruction]
    refine hbase scope input fun document => ?_
    rw [← Outcome.once_ofList_bind, ← Outcome.collect_ofExcept (Feed.assign ..)]
    have hassign := assign_comes hpath scope input op (assigned_comes hvalue op scope input) document
    exact .collect hassign fun documents => .each hnext documents
  | calculate base steps =>
    obtain ⟨hbase, hsteps⟩ := List.forall_mem_cons.1 h
    rw [Feed.instruction]
    exact hbase scope input fun v => calculate_comes hsteps scope input v hnext
  | compare base steps =>
    obtain ⟨hbase, hsteps⟩ := List.forall_mem_cons.1 h
    rw [Feed.instruction]
    exact hbase scope input fun v => compareSteps_come hsteps scope input v hnext
  | branch arms otherwise =>
    obtain ⟨harms, helse⟩ := List.forall_mem_append.1 h
    obtain ⟨hc, hb⟩ := List.forall_mem_append.1 harms
    cases otherwise with
    | some p =>
      have hp : Runs natives limit depth call p := helse p (by simp)
      rw [Feed.instruction]
      exact branches_come hc hb scope input (hp scope input hnext) hnext
    | none =>
      rw [Feed.instruction]
      exact branches_come hc hb scope input (hnext input) hnext
  | and operands =>
    rw [Feed.instruction]
    exact connective_comes h false scope input hnext
  | or operands =>
    rw [Feed.instruction]
    exact connective_comes h true scope input hnext
  | coalesce operands =>
    rw [Feed.instruction]
    exact coalesce_comes h scope input hnext
  | negate =>
    rw [Feed.instruction, Task.unfold, Task.ofInstruction]
    cases input.negate with
    | ok v => exact hnext v
    | error e => exact .fail e
  | not =>
    rw [Feed.instruction]
    exact hnext _
  | attempt body handler =>
    have hbody : Runs natives limit depth call body := h body (by simp [Instruction.parts])
    have hhandler : Runs natives limit depth call handler := h handler (by simp [Instruction.parts])
    rw [Feed.instruction]
    exact .intercept (hbody scope input fun v => .enclosed (hnext v))
      fun e => hhandler scope e.payload hnext
  | array body =>
    have hbody : Runs natives limit depth call body := h body (by simp [Instruction.parts])
    rw [Feed.instruction_array]
    exact hbody.collect scope input fun items => hnext (.array items)
  | object fields =>
    obtain ⟨hk, hv⟩ := List.forall_mem_append.1 h
    rw [Feed.instruction_object]
    exact choices_come hk hv scope input fun candidates => .each hnext _
  | concat operands =>
    rw [Feed.instruction]
    exact concat_comes h scope input hnext
  | void =>
    rw [Feed.instruction]
    exact .done

/-- The machine comes to the end of every pipeline, if it comes to the end of every call. -/
theorem runs (hcall : Answers natives limit depth call) (p : Pipeline) :
    Runs natives limit depth call p := by
  induction p using Pipeline.induction with
  | step p ih =>
    induction p with
    | nil =>
      intro scope input next φ hnext
      refine .of_unfold (fun _ => rfl) ?_
      rw [Feed.pipeline]
      exact hnext input
    | cons i rest ihrest =>
      obtain ⟨hi, hrest⟩ := List.forall_mem_cons.1 ih
      have htail : Runs natives limit depth call rest := ihrest hrest
      intro scope input next φ hnext
      cases i with
      | define name body =>
        have hbody : Runs natives limit depth call body := hi body (by simp [Instruction.parts])
        refine .of_unfold (fun _ => rfl) ?_
        rw [Feed.pipeline]
        exact hbody scope input fun v => htail (scope.bind name v) input hnext
      | _ =>
        refine .of_unfold (fun _ => rfl) ?_
        cases rest with
        | nil =>
          rw [Feed.pipeline]
          exact instruction_comes hcall hi scope input hnext
          simp
        | cons j rest =>
          rw [Feed.pipeline]
          exact instruction_comes hcall hi scope input fun v => htail scope v hnext
          all_goals simp

/-! ### Calls -/

/-- A closure is entered, its body is run one call deeper, and it is left. -/
theorem closure_comes (h : depth < limit) {params : List String} {body : Pipeline} {scope : Scope}
    {input : Value} {args : List Value}
    (hbody : Comes natives limit (depth + 1)
      (.pipeline body (scope.bindAll (Run.bindings params args)) input .one) o) :
    Comes natives limit depth (.call (.closure params body scope) input args)
      (.ofExcept o.collect) := by
  obtain ⟨n, hn⟩ := hbody
  refine ⟨1 + n + 1, fun waiting => ?_⟩
  have henter : step natives limit ⟨depth, waiting, .call (.closure params body scope) input args⟩ =
      ⟨depth + 1, .body :: waiting,
        .pipeline body (scope.bindAll (Run.bindings params args)) input .one⟩ := if_pos h
  have hleave : step natives limit ⟨depth + 1, .body :: waiting, .ended o.ending⟩ =
      ⟨depth, waiting, .ofResult o.ending.result⟩ := rfl
  rw [Function.iterate_succ_apply, henter, Function.iterate_add_apply, hn, Function.iterate_one,
    hleave, Outcome.result_ending, Task.ofResult, Outcome.ending_ofExcept]

theorem overflow_comes (h : ¬depth < limit) (params : List String) (body : Pipeline)
    (scope : Scope) (input : Value) (args : List Value) :
    Comes natives limit depth (.call (.closure params body scope) input args)
      (.fail (.of (.stackOverflow limit))) :=
  .of_step (fun _ => if_neg h) (.fail _)

/-- The machine comes to the end of every call, if it comes to the end of the calls of closures:
    a builtin calls back with fewer arguments than it was given. -/
theorem call_comes {enter : Run.Enter}
    (henter : ∀ params body scope input args,
      Comes Builtin.task limit depth (.call (.closure params body scope) input args)
        (.ofExcept (enter params body scope input args))) :
    Answers Builtin.task limit depth (Run.invoke enter) := by
  intro f input args
  fun_induction Run.invoke enter f input args with
  | case1 => exact henter ..
  | case2 input f rest ih => exact .of_step (fun _ => rfl) ih
  | case3 items f rest ih =>
    have hmap : Outcome.once
        ((Outcome.ofList items).each fun item => Run.invoke enter f item rest)
        (fun outputs => .one (.array outputs)) =
          .ofExcept (do
            return [.array (← items.mapM fun item => Run.invoke enter f item rest).flatten]) := by
      rw [Outcome.each_ofList, fanOut]
      cases items.mapM fun item => Run.invoke enter f item rest <;> rfl
    rw [← hmap]
    exact .of_step (fun _ => rfl) (.collect (.each ih items) fun outputs => .one (.array outputs))
  | _ =>
    -- the others call nothing; what is left over is that they are not `apply` or `map`
    refine .of_step (fun _ => rfl) ?_
    rw [Builtin.task, Run.invoke]
    · exact .ofResult _
    all_goals simp_all

/-- The machine comes to the end of every call: a closure is entered with fewer calls left. -/
theorem calls_come (left : Nat) {depth : Nat} (h : left + depth = limit) :
    Answers Builtin.task limit depth (Run.invoke (Run.enter limit left)) := by
  induction left generalizing depth with
  | zero =>
    refine call_comes fun params body scope input args => ?_
    exact overflow_comes (by omega) params body scope input args
  | succ left ih =>
    have hinner : Answers Builtin.task limit (depth + 1) (Run.invoke (Run.enter limit left)) :=
      ih (by omega)
    refine call_comes fun params body scope input args => ?_
    exact closure_comes (by omega) ((runs hinner body).alone _ input)

theorem answers_call (limit : Nat) : Answers Builtin.task limit 0 (Run.call limit) :=
  calls_come limit (Nat.add_zero limit)

/-- Whatever a pipeline is run on and whatever it has called, and whatever is called with whatever
    arguments, the machine comes to an end after a number of steps, and then the result is the one
    that the rules give. The number of nested closure calls is limited, but no other bound is. -/
theorem run_halts (limit : Nat) :
    (∀ (p : Pipeline) (scope : Scope) (input : Value), ∃ n e,
      (step Builtin.task limit)^[n] (start 0 (.pipeline p scope input .one)) = start 0 (.ended e) ∧
        e.result = p.evaluate limit scope input) ∧
      ∀ (f : Function) (input : Value) (args : List Value), ∃ n e,
        (step Builtin.task limit)^[n] (start 0 (.call f input args)) = start 0 (.ended e) ∧
          e.result = Run.call limit f input args := by
  constructor
  · intro p scope input
    obtain ⟨n, hn⟩ := (runs (answers_call limit) p).alone scope input
    exact ⟨n, _, hn [], Outcome.result_ending _⟩
  · intro f input args
    obtain ⟨n, hn⟩ := answers_call limit f input args
    refine ⟨n, _, hn [], ?_⟩
    rw [Outcome.result_ending, Outcome.collect_ofExcept]

end Machine

end JsonPipe
