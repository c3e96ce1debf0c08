import JsonPipe.Proofs.Run.AssignmentPaths
import JsonPipe.Proofs.Run.OptionalWrites
import JsonPipe.Value.Plan

/-! Compound assignments as updates.

    `path op= e` and `path |= . op e` do the same as long as `e` gives the same outputs on the input
    and on what stands at the end of the path (`Feed.evaluate_compound`). Both walk along the path
    and ask to fill the same slots. At its end the one collects the outputs of `e` and applies the
    operator to each, and the other applies it to each output as it comes; the first failure is the
    same.

    A difference remains where a candidate does not have the type of the slice that it is to
    replace: then the failure names the operator of the assignment. Two results that differ in
    nothing else are said to coincide. -/

namespace JsonPipe

namespace Assign

/-! ### Results but for the operator named in a refusal -/

/-- The candidate can replace a slice of the target. -/
def replaces : Value → Value → Bool
  | .string _, .string _ => true
  | .array _, .array _ => true
  | .null, .array _ => true
  | _, _ => false

/-- Results of two assignments that are the same, unless both refuse one and the same candidate for
    a slice, each in the name of its own operator. -/
inductive Coincide {α : Type} (op op' : AssignmentOp) : Except Failure α → Except Failure α → Prop
  | same (r : Except Failure α) : Coincide op op' r r
  | refused (target candidate : Value) : isSliceable target = true →
    replaces target candidate = false →
      Coincide op op' (.error (target.invalidOperand op.symbol candidate))
        (.error (target.invalidOperand op'.symbol candidate))

namespace Coincide

variable {α β : Type} {op op' : AssignmentOp}

theorem bind {r r' : Except Failure α} {f f' : α → Except Failure β} (h : Coincide op op' r r')
    (hf : ∀ a, Coincide op op' (f a) (f' a)) : Coincide op op' (r >>= f) (r' >>= f') := by
  cases h with
  | same =>
    cases r with
    | ok a => exact hf a
    | error e => exact .same _
  | refused target candidate hsliceable hreplaces =>
    exact .refused target candidate hsliceable hreplaces

theorem mapM {f f' : α → Except Failure β} {as : List α}
    (h : ∀ a ∈ as, Coincide op op' (f a) (f' a)) :
    Coincide op op' (as.mapM f) (as.mapM f') := by
  induction as with
  | nil => exact .same _
  | cons a as ih =>
    obtain ⟨ha, has⟩ := List.forall_mem_cons.1 h
    rw [List.mapM_cons, List.mapM_cons]
    exact ha.bind fun b => (ih has).bind fun bs => .same _

/-- Results from all elements of a list, joined. -/
theorem join {f f' : α → Except Failure (List β)} {as : List α}
    (h : ∀ a ∈ as, Coincide op op' (f a) (f' a)) :
    Coincide op op' (List.flatten <$> as.mapM f) (List.flatten <$> as.mapM f') := by
  rw [map_eq_pure_bind, map_eq_pure_bind]
  exact (mapM h).bind fun bs => .same _

end Coincide

/-! ### Plans -/

/-- What a request is going to do. -/
def Request.plan (op : AssignmentOp) (optional : Bool) : Request → Value → Plan
  | .keys ks => keysPlan optional ks
  | .each => eachPlan optional
  | .slice start stop => slicePlan op optional start stop

theorem Request.write_eq (fill : Fill) (op : AssignmentOp) (optional : Bool) (r : Request)
    (target : Value) :
    r.write fill op optional target = (r.plan op optional target).perform fill := by
  cases r with
  | keys ks => exact keys_eq fill optional ks target
  | each => exact each_eq fill optional target
  | slice start stop => exact slice_eq fill op optional start stop target

/-- Plans for the same slots that build documents which coincide. -/
structure Plan.Coincide (op op' : AssignmentOp) (plan plan' : Plan) : Prop where
  slots : plan'.slots = plan.slots
  build (candidates : List (List Value)) :
    Assign.Coincide op op' (plan.build candidates) (plan'.build candidates)

variable {op op' : AssignmentOp}

theorem Plan.Coincide.refl (plan : Plan) : Plan.Coincide op op' plan plan := ⟨rfl, fun _ => .same _⟩

theorem Plan.Coincide.perform {plan plan' : Plan} {fill fill' : Fill}
    (h : Plan.Coincide op op' plan plan')
    (hfill : ∀ slot ∈ plan.slots, Assign.Coincide op op' (fill slot) (fill' slot)) :
    Assign.Coincide op op' (plan.perform fill) (plan'.perform fill') := by
  rw [Plan.perform, Plan.perform, h.slots]
  exact (Coincide.mapM hfill).bind h.build

/-- A plan for one slot whose candidates are taken or refused one by one. -/
theorem ofPart_coincide {document document' : Value → Except Failure Value} (current : Value)
    (h : ∀ candidate, Coincide op op' (document candidate) (document' candidate)) :
    Plan.Coincide op op' (.ofPart current document) (.ofPart current document') :=
  ⟨rfl, fun _ => .mapM fun candidate _ => h candidate⟩

theorem splicedText_coincide (s : String) (i j : Nat) (candidate : Value) :
    Coincide op op' (splicedText op s i j candidate) (splicedText op' s i j candidate) := by
  cases candidate with
  | string t => exact .same _
  | _ => exact .refused (.string s) _ rfl rfl

theorem splicedItems_coincide {target : Value} (hsliceable : isSliceable target = true)
    (hreplaces : ∀ candidate, replaces target candidate = false ∨ ∃ xs, candidate = .array xs)
    (items : List Value) (i j : Nat) (candidate : Value) :
    Coincide op op' (splicedItems op target items i j candidate)
      (splicedItems op' target items i j candidate) := by
  cases candidate with
  | array xs => exact .same _
  | _ =>
    refine .refused target _ hsliceable ((hreplaces _).resolve_right ?_)
    rintro ⟨xs, hxs⟩
    cases hxs

theorem itemsSlicePlan_coincide {target : Value} (hsliceable : isSliceable target = true)
    (hreplaces : ∀ candidate, replaces target candidate = false ∨ ∃ xs, candidate = .array xs)
    (start stop : Value) (items : List Value) :
    Plan.Coincide op op' (itemsSlicePlan op start stop target items)
      (itemsSlicePlan op' start stop target items) := by
  rw [itemsSlicePlan, itemsSlicePlan]
  cases target.sliceRange items.length start stop with
  | error e => exact .refl _
  | ok range => exact ofPart_coincide _ (splicedItems_coincide hsliceable hreplaces items _ _)

theorem slicePlan_coincide (optional : Bool) (start stop target : Value) :
    Plan.Coincide op op' (slicePlan op optional start stop target)
      (slicePlan op' optional start stop target) := by
  cases target with
  | string s =>
    simp only [slicePlan]
    cases (Value.string s).sliceRange s.toList.length start stop with
    | error e => exact .refl _
    | ok range => exact ofPart_coincide _ (splicedText_coincide s _ _)
  | array items =>
    refine itemsSlicePlan_coincide rfl (fun candidate => ?_) start stop items
    cases candidate <;> simp [replaces]
  | null =>
    refine itemsSlicePlan_coincide rfl (fun candidate => ?_) start stop []
    cases candidate <;> simp [replaces]
  | _ => exact .refl _

/-- The operator of an assignment is named in refusals only. -/
theorem Request.plan_coincide (optional : Bool) (r : Request) (target : Value) :
    Plan.Coincide op op' (r.plan op optional target) (r.plan op' optional target) := by
  cases r with
  | keys ks => exact .refl _
  | each => exact .refl _
  | slice start stop => exact slicePlan_coincide optional start stop target

end Assign

namespace Feed

open Assign (Coincide Fill)

variable {call : Call} {scope : Scope} {input : Value} {op : ArithmeticOp} {value : Pipeline}
  {outputs : List Value}

/-! ### Walks along paths -/

/-- What stands at the end of an assignment path: the slots that a write along the path asks to
    fill, in order. Slots that are not there yet hold null, and there are none where a request
    cannot be met. -/
def targets (call : Call) (scope : Scope) (input : Value) :
    List (Selector Pipeline) → Value → List Value
  | [], target => [target]
  | s :: rest, target =>
    match requests call scope input s with
    | .ok rs => rs.flatMap fun r =>
      (r.plan .update s.optional target).slots.flatMap (targets call scope input rest)
    | .error _ => []

/-- Writes along one path coincide if what they fill the slots with does. -/
theorem assign_coincide {op op' : AssignmentOp} {fill fill' : Fill}
    {path : List (Selector Pipeline)} {target : Value}
    (h : ∀ t ∈ targets call scope input path target, Coincide op op' (fill t) (fill' t)) :
    Coincide op op' (assign call path scope input op fill target)
      (assign call path scope input op' fill' target) := by
  induction path generalizing target with
  | nil =>
    rw [assign, assign]
    exact h target List.mem_cons_self
  | cons s rest ih =>
    rw [assign_cons, assign_cons]
    rw [targets] at h
    cases hrequests : requests call scope input s with
    | error e => exact .same _
    | ok rs =>
      rw [hrequests] at h
      refine Coincide.join fun r hr => ?_
      rw [Assign.Request.write_eq, Assign.Request.write_eq]
      refine (r.plan_coincide s.optional target).perform fun slot hslot => ih fun t ht => h t ?_
      have hslots : (r.plan .update s.optional target).slots = (r.plan op s.optional target).slots :=
        (r.plan_coincide s.optional target).slots
      rw [← hslots] at hslot
      exact List.mem_flatMap.2 ⟨r, hr, List.mem_flatMap.2 ⟨slot, hslot, ht⟩⟩

/-! ### The end of the path -/

/-- An operator applied to each of several outputs, up to the first failure. -/
theorem evaluate_operand {target : Value} (h : evaluate call value scope target = .ok outputs) :
    evaluate call [.calculate [] [(op, value)]] scope target = outputs.mapM (op.apply target) := by
  have hvalue : Run.pipeline call value scope target = .ofList outputs := run_of_evaluate h
  have hrun : Run.pipeline call [.calculate [] [(op, value)]] scope target =
      (Outcome.ofList outputs).bind fun right =>
        .ofExcept ((op.apply target right).map ([·])) := by
    simp only [Run.pipeline, Run.instruction, Outcome.one_bind, Run.calculate, hvalue]
    congr 1
    funext right
    cases op.apply target right <;> rfl
  rw [evaluate_eq, hrun, ← Outcome.each, Outcome.each_eq, Outcome.outputs_ofList,
    Outcome.failure_ofList, ← flatten_mapM_single (g := op.apply target) fun _ _ => rfl]
  change (List.flatten <$> outputs.mapM _) >>= Except.ok = _
  exact bind_pure _

/-- Where the right side gives the same on the input and on the target, the operator is applied to
    the same outputs in the same order. -/
theorem assigned_compound {target : Value} (hinput : evaluate call value scope input = .ok outputs)
    (htarget : evaluate call value scope target = .ok outputs) :
    Run.assigned (.arithmetic op) (fun _ => Run.pipeline call value scope input)
        (Run.pipeline call value scope) target =
      Run.assigned .update (fun _ => Run.pipeline call [.calculate [] [(op, value)]] scope input)
        (Run.pipeline call [.calculate [] [(op, value)]] scope) target := by
  rw [Run.assigned, Run.assigned, ← evaluate_eq, ← evaluate_eq, hinput, evaluate_operand htarget]
  rfl

/-! ### Assignments -/

/-- An assignment is made to one output of its base after the other. -/
theorem evaluate_assign (base : Pipeline) (path : List (Selector Pipeline)) (op : AssignmentOp)
    (value : Pipeline) :
    evaluate call [.assign base path op value] scope input =
      fanOut (Run.pipeline call base scope input).outputs
        (assign call path scope input op (Run.assigned op
          (fun _ => Run.pipeline call value scope input) (Run.pipeline call value scope))) >>=
      endingIn (Run.pipeline call base scope input).failure := by
  rw [evaluate_eq, Run.pipeline_assign, ← Outcome.each_eq, Outcome.each,
    assign_eq fun p _ => agrees call p]

/-- A compound assignment gives the same documents, or the same failure, as the update by the
    operator, whatever the path, if the right side gives the same outputs on the input and on each
    target. A slice that refuses a candidate of another type names the operator of the
    assignment. -/
theorem evaluate_compound (base : Pipeline) {path : List (Selector Pipeline)}
    (hinput : evaluate call value scope input = .ok outputs)
    (htargets : ∀ document ∈ (Run.pipeline call base scope input).outputs,
      ∀ target ∈ targets call scope input path document,
        evaluate call value scope target = .ok outputs) :
    Coincide (.arithmetic op) .update
      (evaluate call [.assign base path (.arithmetic op) value] scope input)
      (evaluate call [.assign base path .update [.calculate [] [(op, value)]]] scope input) := by
  rw [evaluate_assign, evaluate_assign]
  refine Coincide.bind ?_ fun documents => .same _
  rw [fanOut, fanOut, bind_pure_comp]
  refine Coincide.join fun document hdocument => assign_coincide fun target htarget => ?_
  rw [assigned_compound hinput (htargets document hdocument target htarget)]
  exact .same _

/-- `.k[1:][]` -/
def restOfK : List (Selector Pipeline) :=
  [.named "k" false, .slice [.number (.ofNat 1)] [.null] false, .iterate false]

/-- `"x", "y"` -/
def xOrY : Pipeline := [.concat [[.string "x"], [.string "y"]]]

/-- `{"k": ["a", "b", null]}` -/
def rowOfK : Value := .object [("k", .array [.string "a", .string "b", .null])]

/-- Two outputs are added to each of two targets, of which one is null. -/
theorem evaluate_compound_xOrY :
    (evaluate (Run.call 0) [.assign [] restOfK (.arithmetic .addition) xOrY] [] rowOfK).toOption.map
        (·.map Value.json) =
      some ["\x7b\"k\":[\"a\",\"bx\",\"x\"]\x7d", "\x7b\"k\":[\"a\",\"bx\",\"y\"]\x7d",
        "\x7b\"k\":[\"a\",\"by\",\"x\"]\x7d", "\x7b\"k\":[\"a\",\"by\",\"y\"]\x7d"] ∧
    (targets (Run.call 0) [] rowOfK restOfK rowOfK).map Value.json = ["\"b\"", "null"] ∧
    Coincide (.arithmetic .addition) .update
      (evaluate (Run.call 0) [.assign [] restOfK (.arithmetic .addition) xOrY] [] rowOfK)
      (evaluate (Run.call 0) [.assign [] restOfK .update [.calculate [] [(.addition, xOrY)]]] []
        rowOfK) :=
  ⟨by decide +kernel, by decide +kernel, evaluate_compound [] rfl fun _ _ _ _ => rfl⟩

/-- Half of a text divided is an array, which the text refuses: `.[:2] /= "-"`. -/
example :
    evaluate (Run.call 0) [.assign [] [.slice [.null] [.number (.ofNat 2)] false]
        (.arithmetic .division) [.string "-"]] [] (.string "a-b") =
      .error (.of (.invalidOperand "/=" .string .array)) ∧
    evaluate (Run.call 0) [.assign [] [.slice [.null] [.number (.ofNat 2)] false]
        .update [.calculate [] [(.division, [.string "-"])]]] [] (.string "a-b") =
      .error (.of (.invalidOperand "|=" .string .array)) :=
  ⟨rfl, rfl⟩

end Feed

end JsonPipe
