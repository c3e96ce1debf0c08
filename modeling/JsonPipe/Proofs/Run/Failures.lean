import JsonPipe.Proofs.Run.Outcome
import JsonPipe.Proofs.Syntax.Induction
import JsonPipe.Run.Pipeline

/-! Where the failures of a run come from.

    Operators, selectors and constructors raise recoverable failures that carry no value, an
    assignment raises one fatal failure if it goes through a call and another one if the number of
    its rows overflows, and everything else that can go wrong in a run comes out of a call. So a
    property of failures that these have, and that disclosing keeps, is a property of every failure
    that a run can end in (`Run.pipeline_failsOnly`). -/

namespace JsonPipe

variable {α β : Type} {φ : Failure → Prop}

/-- The result is no failure other than those with a property. -/
def FailsOnly (φ : Failure → Prop) (r : Except Failure α) : Prop := ∀ e, r = .error e → φ e

/-- The outcome ends in no failure other than those with a property. -/
def Outcome.FailsOnly (φ : Failure → Prop) (o : Outcome α) : Prop :=
  ∀ e, o.failure = some e → φ e

/-! ### Results -/

namespace FailsOnly

theorem ok (a : α) : FailsOnly φ (.ok a) := by
  intro e h
  cases h

theorem error {e : Failure} (h : φ e) : FailsOnly φ (.error e : Except Failure α) := by
  intro e' h'
  cases h'
  exact h

theorem bind {r : Except Failure α} {f : α → Except Failure β} (hr : FailsOnly φ r)
    (hf : ∀ a, FailsOnly φ (f a)) : FailsOnly φ (r >>= f) := by
  cases r with
  | error e => exact error (hr e rfl)
  | ok a => exact hf a

theorem mapM {f : α → Except Failure β} {as : List α} (h : ∀ a, FailsOnly φ (f a)) :
    FailsOnly φ (as.mapM f) := by
  induction as with
  | nil => exact ok []
  | cons a as ih =>
    rw [List.mapM_cons]
    exact (h a).bind fun b => ih.bind fun bs => ok (b :: bs)

theorem ofExcept {r : Except Failure (List α)} (h : FailsOnly φ r) :
    (Outcome.ofExcept r).FailsOnly φ := by
  cases r with
  | error e =>
    intro e' he
    cases he
    exact h e rfl
  | ok as =>
    intro e he
    rw [Outcome.ofExcept, Outcome.failure_ofList] at he
    cases he

end FailsOnly

/-! ### Outcomes -/

namespace Outcome.FailsOnly

theorem done : (Outcome.done : Outcome α).FailsOnly φ := by
  intro e h
  cases h

theorem fail {e : Failure} (h : φ e) : (Outcome.fail e : Outcome α).FailsOnly φ := by
  intro e' h'
  cases h'
  exact h

theorem one (a : α) : (Outcome.one a).FailsOnly φ := by
  intro e h
  cases h

theorem ofList (as : List α) : (Outcome.ofList as).FailsOnly φ := by
  intro e h
  rw [failure_ofList] at h
  cases h

theorem collect {o : Outcome α} (h : o.FailsOnly φ) : JsonPipe.FailsOnly φ o.collect := by
  intro e he
  apply h
  rw [collect_eq] at he
  cases hf : o.failure with
  | none => rw [hf] at he; cases he
  | some e' => rw [hf] at he; cases he; rfl

theorem append {o : Outcome α} {more : Unit → Outcome α} (ho : o.FailsOnly φ)
    (hmore : (more ()).FailsOnly φ) : (o.append more).FailsOnly φ := by
  induction o with
  | done => exact hmore
  | fail e => exact ho
  | next a rest ih => exact ih () ho

theorem bind {o : Outcome α} {f : α → Outcome β} (ho : o.FailsOnly φ)
    (hf : ∀ a, (f a).FailsOnly φ) : (o.bind f).FailsOnly φ := by
  induction o with
  | done => exact done
  | fail e => exact fail (ho e rfl)
  | next a rest ih =>
    rw [next_bind]
    exact (hf a).append (ih () ho)

theorem map {o : Outcome α} {f : α → β} (ho : o.FailsOnly φ) : (o.map f).FailsOnly φ := by
  rw [map_eq_bind]
  exact ho.bind fun a => one (f a)

theorem choices (lists : List (List α)) : (Outcome.choices lists).FailsOnly φ := by
  rw [choices_eq]
  exact ofList _

/-- A failure that is not caught is disclosed, any other one gives way to the handler. -/
theorem intercept {o : Outcome α} {handler : Failure → Outcome α}
    (hclose : ∀ e, φ e → φ e.disclose) (ho : o.FailsOnly φ)
    (hhandler : ∀ e, (handler e).FailsOnly φ) : (o.intercept handler).FailsOnly φ := by
  induction o with
  | done => exact done
  | fail e =>
    rw [Outcome.intercept]
    split
    · exact hhandler e
    · exact fail (hclose e (ho e rfl))
  | next a rest ih => exact ih () ho

theorem guarded {r : Except Failure α} {optional : Bool} {found : α → Outcome Value}
    (hr : JsonPipe.FailsOnly φ r) (hfound : ∀ a, (found a).FailsOnly φ) :
    (Run.guarded optional r found).FailsOnly φ := by
  cases r with
  | ok a => exact hfound a
  | error e =>
    rw [Run.guarded]
    split
    · exact done
    · exact fail (hr e rfl)

end Outcome.FailsOnly

/-! ### Operators and selectors -/

/-- The property holds for recoverable failures that carry no value. -/
def Recoverables (φ : Failure → Prop) : Prop :=
  ∀ cause : Cause, cause.isFatal = false → φ (.of cause)

namespace Value

theorem invalidOperand_failsOnly (h : Recoverables φ) (op : String) (v w : Value) :
    FailsOnly φ (.error (invalidOperand op v w) : Except Failure α) := .error (h _ rfl)

theorem add_failsOnly (h : Recoverables φ) (v w : Value) : FailsOnly φ (v.add w) := by
  rw [add.eq_def]
  split
  · exact .ok _
  · exact .ok _
  · exact .ok _
  · exact .ok _
  · exact .ok _
  · exact .ok _
  · exact invalidOperand_failsOnly h _ _ _

theorem subtract_failsOnly (h : Recoverables φ) (v w : Value) : FailsOnly φ (v.subtract w) := by
  rw [subtract.eq_def]
  split
  · exact .ok _
  · exact .ok _
  · exact invalidOperand_failsOnly h _ _ _

theorem multiplyText_failsOnly (h : Recoverables φ) (s : String) (n : Number) :
    FailsOnly φ (multiplyText s n) := by
  unfold multiplyText
  simp only
  split
  · exact .ok _
  split
  · exact .ok _
  split
  · split
    · exact .ok _
    · exact .error (h _ rfl)
  · exact .error (h _ rfl)

theorem multiply_failsOnly (h : Recoverables φ) (v w : Value) : FailsOnly φ (v.multiply w) := by
  rw [multiply.eq_def]
  split
  · exact .ok _
  · exact multiplyText_failsOnly h _ _
  · exact multiplyText_failsOnly h _ _
  · exact .ok _
  · exact invalidOperand_failsOnly h _ _ _

theorem divide_failsOnly (h : Recoverables φ) (v w : Value) : FailsOnly φ (v.divide w) := by
  rw [divide.eq_def]
  split
  · split
    · exact .error (h _ rfl)
    · exact .ok _
  · exact .ok _
  · exact invalidOperand_failsOnly h _ _ _

theorem remainder_failsOnly (h : Recoverables φ) (v w : Value) : FailsOnly φ (v.remainder w) := by
  rw [remainder.eq_def]
  split
  · split
    · exact .error (h _ rfl)
    · exact .ok _
  · exact invalidOperand_failsOnly h _ _ _

theorem negate_failsOnly (h : Recoverables φ) (v : Value) : FailsOnly φ v.negate := by
  rw [negate.eq_def]
  split
  · exact .ok _
  · exact .error (h _ rfl)

theorem field_failsOnly (h : Recoverables φ) (v k : Value) : FailsOnly φ (v.field k) := by
  rw [field.eq_def]
  split
  · exact .ok _
  · split
    · exact .ok _
    · exact .error (h _ rfl)
  · exact .ok _
  · exact .error (h _ rfl)

theorem iterate_failsOnly (h : Recoverables φ) (v : Value) : FailsOnly φ v.iterate := by
  rw [iterate.eq_def]
  split
  · exact .ok _
  · exact .ok _
  · exact .error (h _ rfl)

theorem sliceBound_failsOnly (h : Recoverables φ) (v : Value) (length : Nat) (bound : Value)
    (openEnd : Nat) : FailsOnly φ (v.sliceBound length bound openEnd) := by
  rw [sliceBound.eq_def]
  split
  · exact .ok _
  · exact .ok _
  · exact .error (h _ rfl)

theorem sliceRange_failsOnly (h : Recoverables φ) (v : Value) (length : Nat) (a b : Value) :
    FailsOnly φ (v.sliceRange length a b) :=
  (sliceBound_failsOnly h v length a 0).bind fun _ =>
    (sliceBound_failsOnly h v length b length).bind fun _ => .ok _

theorem slice_failsOnly (h : Recoverables φ) (v a b : Value) : FailsOnly φ (v.slice a b) := by
  rw [slice.eq_def]
  split
  · exact .ok _
  · exact (sliceRange_failsOnly h _ _ _ _).bind fun _ => .ok _
  · exact (sliceRange_failsOnly h _ _ _ _).bind fun _ => .ok _
  · exact .error (h _ rfl)

end Value

theorem ArithmeticOp.apply_failsOnly (h : Recoverables φ) (op : ArithmeticOp) (v w : Value) :
    FailsOnly φ (op.apply v w) := by
  cases op with
  | addition => exact Value.add_failsOnly h v w
  | subtraction => exact Value.subtract_failsOnly h v w
  | multiplication => exact Value.multiply_failsOnly h v w
  | division => exact Value.divide_failsOnly h v w
  | remainder => exact Value.remainder_failsOnly h v w

/-! ### Assignments -/

namespace Assign

variable {fill : Fill}

theorem counted_failsOnly (hover : φ (.of .overflow)) (slots : List (List Value))
    (make : Nat → α) : FailsOnly φ (Items.counted slots make) := by
  rw [Items.counted]
  cases Items.choiceCount slots with
  | some n => exact .ok _
  | none => exact .error hover

theorem slotRows_failsOnly (hover : φ (.of .overflow)) (hfill : ∀ v, FailsOnly φ (fill v))
    (current : List Value) : FailsOnly φ (slotRows fill current) :=
  (FailsOnly.mapM hfill).bind fun slots => counted_failsOnly hover slots _

theorem entries_failsOnly (hover : φ (.of .overflow)) (hfill : ∀ v, FailsOnly φ (fill v))
    (names : List String) (es : Entries Value) : FailsOnly φ (entries fill names es) :=
  (slotRows_failsOnly hover hfill _).bind fun _ => .ok _

theorem elements_failsOnly (hover : φ (.of .overflow)) (hfill : ∀ v, FailsOnly φ (fill v))
    (indices : List Int) (items : List Value) : FailsOnly φ (elements fill indices items) :=
  (slotRows_failsOnly hover hfill _).bind fun _ => .ok _

theorem keys_failsOnly (h : Recoverables φ) (hover : φ (.of .overflow))
    (hfill : ∀ v, FailsOnly φ (fill v)) (optional : Bool) (ks : List Value) (target : Value) :
    FailsOnly φ (keys fill optional ks target) := by
  cases ks with
  | nil => exact .ok _
  | cons first ks =>
    simp only [keys]
    split
    · split
      · exact .ok _
      · exact .error (h _ rfl)
    · split
      · exact entries_failsOnly hover hfill _ _
      · split
        · split
          · exact .ok _
          · exact .error (h _ rfl)
        · exact elements_failsOnly hover hfill _ _
      · exact .ok _

theorem each_failsOnly (h : Recoverables φ) (hover : φ (.of .overflow))
    (hfill : ∀ v, FailsOnly φ (fill v)) (optional : Bool) (target : Value) :
    FailsOnly φ (each fill optional target) := by
  rw [each.eq_def]
  split
  · exact (slotRows_failsOnly hover hfill _).bind fun _ => .ok _
  · exact entries_failsOnly hover hfill _ _
  · exact .ok _
  · split
    · exact .ok _
    · exact .error (h _ rfl)

theorem slice_failsOnly (h : Recoverables φ) (hfill : ∀ v, FailsOnly φ (fill v))
    (op : AssignmentOp) (optional : Bool) (a b target : Value) :
    FailsOnly φ (slice fill op optional a b target) := by
  have harray : ∀ items, FailsOnly φ (slice.array fill op a b target items) := by
    intro items
    refine (Value.sliceRange_failsOnly h _ _ _ _).bind fun range => (hfill _).bind fun _ => .mapM ?_
    intro v
    split
    · exact .ok _
    · exact .error (h _ rfl)
  rw [slice.eq_def]
  split
  · refine (Value.sliceRange_failsOnly h _ _ _ _).bind fun range => (hfill _).bind fun _ => .mapM ?_
    intro v
    split
    · exact .ok _
    · exact .error (h _ rfl)
  · exact harray _
  · exact harray _
  · split
    · exact .ok _
    · exact .error (h _ rfl)

theorem slices_failsOnly (h : Recoverables φ) (hfill : ∀ v, FailsOnly φ (fill v))
    (op : AssignmentOp) (optional : Bool) (starts stops : List Value) (target : Value) :
    FailsOnly φ (slices fill op optional starts stops target) := by
  refine FailsOnly.bind (.mapM fun a => ?_) fun _ => .ok _
  exact FailsOnly.bind (.mapM fun b => slice_failsOnly h hfill op optional a b target)
    fun _ => .ok _

end Assign

/-! ### Runs -/

/-- What a property of failures needs to hold for every failure of a run: the failures that a run
    raises itself and those of its calls have it, and disclosing keeps it. -/
structure Covers (call : Call) (φ : Failure → Prop) : Prop where
  recoverables : Recoverables φ
  overflow : φ (.of .overflow)
  path : φ (.of (.invalidAssignmentPath "a function call cannot be assigned to"))
  calls : ∀ f input args, FailsOnly φ (call f input args)
  disclose : ∀ e, φ e → φ e.disclose

namespace Run

variable {call : Call}

/-- All failures of a pipeline have the property. -/
def Settles (call : Call) (φ : Failure → Prop) (p : Pipeline) : Prop :=
  ∀ (scope : Scope) (input : Value), (pipeline call p scope input).FailsOnly φ

theorem assigned_failsOnly (h : Recoverables φ) {op : AssignmentOp}
    {onInput : Unit → Outcome Value} {onTarget : Value → Outcome Value}
    (hi : (onInput ()).FailsOnly φ) (ht : ∀ v, (onTarget v).FailsOnly φ) (target : Value) :
    FailsOnly φ (assigned op onInput onTarget target) := by
  cases op with
  | set => exact hi.collect
  | update => exact (ht target).collect
  | arithmetic op => exact hi.collect.bind fun vs => .mapM (op.apply_failsOnly h target)
  | coalesce =>
    rw [assigned]
    split
    · exact hi.collect
    · exact .ok _

theorem fieldChoices_failsOnly (h : Recoverables φ) (optional : Bool) (keys values : List Value) :
    FailsOnly φ (fieldChoices optional keys values) := by
  refine FailsOnly.bind (.mapM fun key => ?_) fun _ => .ok _
  split
  · exact .ok _
  · exact .error (h _ rfl)

theorem operands_failsOnly {ps : List Pipeline} (h : ∀ p ∈ ps, Settles call φ p) (scope : Scope)
    (input : Value) : FailsOnly φ (operands call ps scope input) := by
  induction ps with
  | nil =>
    rw [operands]
    exact .ok _
  | cons p ps ih =>
    obtain ⟨hp, hps⟩ := List.forall_mem_cons.1 h
    rw [operands]
    exact (hp scope input).collect.bind fun _ => (ih hps).bind fun _ => .ok _

theorem texts_failsOnly {parts : List (String × Pipeline)}
    (h : ∀ p ∈ parts.map (·.2), Settles call φ p) (scope : Scope) (input : Value) :
    FailsOnly φ (texts call parts scope input) := by
  induction parts with
  | nil =>
    rw [texts]
    exact .ok _
  | cons part parts ih =>
    obtain ⟨before, p⟩ := part
    obtain ⟨hp, hps⟩ := List.forall_mem_cons.1 h
    rw [texts]
    exact (hp scope input).collect.bind fun _ => (ih hps).bind fun _ => .ok _

theorem choices_failsOnly (h : Recoverables φ) {fields : List (Field Pipeline)}
    (hk : ∀ p ∈ fields.map (·.key), Settles call φ p)
    (hv : ∀ p ∈ fields.map (·.value), Settles call φ p) (scope : Scope) (input : Value) :
    FailsOnly φ (choices call fields scope input) := by
  induction fields with
  | nil =>
    rw [choices]
    exact .ok _
  | cons field fields ih =>
    obtain ⟨key, value, optional⟩ := field
    obtain ⟨hkey, hkeys⟩ := List.forall_mem_cons.1 hk
    obtain ⟨hvalue, hvalues⟩ := List.forall_mem_cons.1 hv
    rw [choices]
    exact (hkey scope input).collect.bind fun _ => (hvalue scope input).collect.bind fun _ =>
      (fieldChoices_failsOnly h _ _ _).bind fun _ => (ih hkeys hvalues).bind fun _ => .ok _

theorem assign_failsOnly (hφ : Covers call φ) {path : List (Selector Pipeline)}
    (h : ∀ p ∈ path.flatMap Selector.parts, Settles call φ p) (scope : Scope) (input : Value)
    (op : AssignmentOp) {fill : Assign.Fill} (hfill : ∀ v, FailsOnly φ (fill v)) (target : Value) :
    FailsOnly φ (assign call path scope input op fill target) := by
  induction path generalizing target with
  | nil =>
    rw [assign]
    exact hfill target
  | cons s path ih =>
    rw [List.flatMap_cons] at h
    obtain ⟨hs, hpath⟩ := List.forall_mem_append.1 h
    cases s with
    | field key optional =>
      rw [assign]
      exact (hs key (by simp [Selector.parts]) scope input).collect.bind fun _ =>
        Assign.keys_failsOnly hφ.recoverables hφ.overflow (ih hpath) _ _ _
    | iterate optional =>
      rw [assign]
      exact Assign.each_failsOnly hφ.recoverables hφ.overflow (ih hpath) _ _
    | slice start stop optional =>
      rw [assign]
      exact (hs start (by simp [Selector.parts]) scope input).collect.bind fun _ =>
        (hs stop (by simp [Selector.parts]) scope input).collect.bind fun _ =>
          Assign.slices_failsOnly hφ.recoverables (ih hpath) _ _ _ _ _
    | call args bound optional =>
      rw [assign]
      exact .error hφ.path

theorem calculate_failsOnly (hφ : Recoverables φ) {steps : List (ArithmeticOp × Pipeline)}
    (h : ∀ p ∈ steps.map (·.2), Settles call φ p) (scope : Scope) (input left : Value) :
    (calculate call steps scope input left).FailsOnly φ := by
  induction steps generalizing left with
  | nil =>
    rw [calculate]
    exact .one _
  | cons step steps ih =>
    obtain ⟨op, p⟩ := step
    obtain ⟨hp, hps⟩ := List.forall_mem_cons.1 h
    rw [calculate]
    refine (hp scope input).bind fun right => ?_
    split
    · exact ih hps _
    · rename_i e he
      exact .fail (op.apply_failsOnly hφ left right e he)

theorem compareSteps_failsOnly {steps : List (ComparisonOp × Pipeline)}
    (h : ∀ p ∈ steps.map (·.2), Settles call φ p) (scope : Scope) (input left : Value) :
    (compareSteps call steps scope input left).FailsOnly φ := by
  induction steps generalizing left with
  | nil =>
    rw [compareSteps]
    exact .one _
  | cons step steps ih =>
    obtain ⟨op, p⟩ := step
    obtain ⟨hp, hps⟩ := List.forall_mem_cons.1 h
    rw [compareSteps]
    exact (hp scope input).bind fun right => ih hps _

theorem branches_failsOnly {arms : List (Pipeline × Pipeline)}
    (hc : ∀ p ∈ arms.map (·.1), Settles call φ p) (hb : ∀ p ∈ arms.map (·.2), Settles call φ p)
    (scope : Scope) (input : Value) {otherwise : Unit → Outcome Value}
    (ho : (otherwise ()).FailsOnly φ) :
    (branches call arms scope input otherwise).FailsOnly φ := by
  induction arms with
  | nil =>
    rw [branches]
    exact ho
  | cons arm arms ih =>
    obtain ⟨condition, body⟩ := arm
    obtain ⟨hcond, hconds⟩ := List.forall_mem_cons.1 hc
    obtain ⟨hbody, hbodies⟩ := List.forall_mem_cons.1 hb
    rw [branches]
    refine (hcond scope input).bind fun c => ?_
    split
    · exact hbody scope input
    · exact ih hconds hbodies

theorem connective_failsOnly {ps : List Pipeline} (h : ∀ p ∈ ps, Settles call φ p)
    (decisive : Bool) (scope : Scope) (input : Value) :
    (connective call decisive ps scope input).FailsOnly φ := by
  induction ps with
  | nil =>
    rw [connective]
    exact .one _
  | cons p ps ih =>
    obtain ⟨hp, hps⟩ := List.forall_mem_cons.1 h
    rw [connective]
    refine (hp scope input).bind fun v => ?_
    split
    · exact .one _
    · exact ih hps

theorem coalesce_failsOnly {ps : List Pipeline} (h : ∀ p ∈ ps, Settles call φ p) (scope : Scope)
    (input : Value) : (coalesce call ps scope input).FailsOnly φ := by
  induction ps with
  | nil =>
    rw [coalesce]
    exact .one _
  | cons p ps ih =>
    obtain ⟨hp, hps⟩ := List.forall_mem_cons.1 h
    cases ps with
    | nil =>
      rw [coalesce]
      exact hp scope input
    | cons q qs =>
      simp only [coalesce]
      split
      · split
        · exact ih hps
        · exact .ofList _
      · rename_i e he
        split
        · exact ih hps
        · exact .fail ((hp scope input).collect e he)

theorem concat_failsOnly {ps : List Pipeline} (h : ∀ p ∈ ps, Settles call φ p) (scope : Scope)
    (input : Value) : (concat call ps scope input).FailsOnly φ := by
  induction ps with
  | nil =>
    rw [concat]
    exact .done
  | cons p ps ih =>
    obtain ⟨hp, hps⟩ := List.forall_mem_cons.1 h
    rw [concat]
    exact (hp scope input).append (ih hps)

theorem select_failsOnly (hφ : Covers call φ) {path : List (Selector Pipeline)}
    (h : ∀ p ∈ path.flatMap Selector.parts, Settles call φ p) (scope : Scope) (input v : Value)
    (parent : Option Value) : (select call path scope input v parent).FailsOnly φ := by
  induction path generalizing v parent with
  | nil =>
    rw [select]
    exact .one _
  | cons s path ih =>
    rw [List.flatMap_cons] at h
    obtain ⟨hs, hpath⟩ := List.forall_mem_append.1 h
    cases s with
    | field key optional =>
      rw [select]
      refine (hs key (by simp [Selector.parts]) scope input).bind fun k =>
        .guarded (v.field_failsOnly hφ.recoverables k) fun found => ?_
      cases found with
      | some found => exact ih hpath _ _
      | none =>
        simp only
        split
        · exact .done
        · exact ih hpath _ _
    | iterate optional =>
      rw [select]
      exact .guarded (v.iterate_failsOnly hφ.recoverables) fun items =>
        (Outcome.FailsOnly.ofList items).bind fun item => ih hpath _ _
    | slice start stop optional =>
      rw [select]
      exact (hs start (by simp [Selector.parts]) scope input).bind fun a =>
        (hs stop (by simp [Selector.parts]) scope input).bind fun b =>
          .guarded (v.slice_failsOnly hφ.recoverables a b) fun part => ih hpath _ _
    | call args bound optional =>
      have hargs : ∀ p ∈ args, Settles call φ p := hs
      cases v with
      | function f =>
        rw [select]
        cases hops : operands call args scope input with
        | error e => exact .fail (operands_failsOnly hargs scope input e hops)
        | ok lists =>
          exact (Outcome.FailsOnly.choices lists).bind fun row =>
            (hφ.calls f _ row).ofExcept.bind fun result => ih hpath _ _
      | _ =>
        simp only [select]
        split
        · exact .done
        · exact .fail (hφ.recoverables _ rfl)

theorem instruction_failsOnly (hφ : Covers call φ) {i : Instruction}
    (h : ∀ p ∈ i.parts, Settles call φ p) (scope : Scope) (input : Value) :
    (instruction call i scope input).FailsOnly φ := by
  cases i with
  | null | bool _ | number _ | string _ | function _ _ | not =>
    rw [instruction]
    exact .one _
  | void =>
    rw [instruction]
    exact .done
  | interpolated parts after =>
    rw [instruction]
    cases ht : texts call parts scope input with
    | ok candidates => exact (Outcome.FailsOnly.choices candidates).map
    | error e => exact .fail (texts_failsOnly h scope input e ht)
  | «variable» name =>
    rw [instruction]
    cases scope.lookup name with
    | some v => exact .one v
    | none => exact .fail (hφ.recoverables _ rfl)
  | define name body =>
    rw [instruction]
    exact (h body (by simp [Instruction.parts]) scope input).bind fun _ => .one _
  | access base path =>
    obtain ⟨hbase, hpath⟩ := List.forall_mem_cons.1 h
    rw [instruction]
    exact (hbase scope input).bind fun v => select_failsOnly hφ hpath _ _ _ _
  | assign base path op value =>
    obtain ⟨hbase, hvalue⟩ := List.forall_mem_cons.1 h
    obtain ⟨hvalue, hpath⟩ := List.forall_mem_cons.1 hvalue
    rw [instruction]
    exact (hbase scope input).bind fun document =>
      (assign_failsOnly hφ hpath scope input op
        (assigned_failsOnly hφ.recoverables (hvalue scope input) (hvalue scope)) document).ofExcept
  | calculate base steps =>
    obtain ⟨hbase, hsteps⟩ := List.forall_mem_cons.1 h
    rw [instruction]
    exact (hbase scope input).bind fun v => calculate_failsOnly hφ.recoverables hsteps _ _ _
  | compare base steps =>
    obtain ⟨hbase, hsteps⟩ := List.forall_mem_cons.1 h
    rw [instruction]
    exact (hbase scope input).bind fun v => compareSteps_failsOnly hsteps _ _ _
  | branch arms otherwise =>
    obtain ⟨harms, helse⟩ := List.forall_mem_append.1 h
    obtain ⟨hc, hb⟩ := List.forall_mem_append.1 harms
    cases otherwise with
    | some p =>
      simp only [instruction]
      exact branches_failsOnly hc hb scope input (helse p (by simp) scope input)
    | none =>
      simp only [instruction]
      exact branches_failsOnly hc hb scope input (.one input)
  | and operands =>
    rw [instruction]
    exact connective_failsOnly h _ scope input
  | or operands =>
    rw [instruction]
    exact connective_failsOnly h _ scope input
  | coalesce operands =>
    rw [instruction]
    exact coalesce_failsOnly h scope input
  | negate =>
    rw [instruction]
    cases hn : input.negate with
    | ok v => exact .one v
    | error e => exact .fail (input.negate_failsOnly hφ.recoverables e hn)
  | attempt body handler =>
    rw [instruction]
    exact .intercept hφ.disclose (h body (by simp [Instruction.parts]) scope input) fun e =>
      h handler (by simp [Instruction.parts]) scope _
  | array body =>
    rw [instruction]
    have hbody := (h body (by simp [Instruction.parts]) scope input).collect
    cases hc : (pipeline call body scope input).collect with
    | ok items => exact .one _
    | error e => exact .fail (hbody e hc)
  | object fields =>
    obtain ⟨hk, hv⟩ := List.forall_mem_append.1 h
    rw [instruction]
    cases hc : choices call fields scope input with
    | ok candidates => exact (Outcome.FailsOnly.choices candidates).map
    | error e => exact .fail (choices_failsOnly hφ.recoverables hk hv scope input e hc)
  | concat operands =>
    rw [instruction]
    exact concat_failsOnly h scope input

/-- A property that covers what a run can raise holds for every failure that a run ends in. -/
theorem pipeline_failsOnly (hφ : Covers call φ) (p : Pipeline) : Settles call φ p := by
  induction p using Pipeline.induction with
  | step p ih =>
    induction p with
    | nil =>
      intro scope input
      rw [pipeline]
      exact .one input
    | cons i rest ihrest =>
      obtain ⟨hi, hrest⟩ := List.forall_mem_cons.1 ih
      intro scope input
      rw [pipeline_cons]
      split
      · rename_i name body
        exact (hi body (by simp [Instruction.parts]) scope input).bind fun v =>
          ihrest hrest _ input
      · exact (instruction_failsOnly hφ hi scope input).bind fun v => ihrest hrest scope v

end Run

end JsonPipe
