import JsonPipe.Run.Outcome

/-! Collecting, enclosing and intercepting outcomes.

    Collecting turns the laws of outcomes into laws of results that come all at once. Enclosing
    and intercepting are made for each other: what is fed through an enclosed step cannot be
    intercepted on its way back (`intercept_bind`). -/

namespace JsonPipe

/-- Hands values to `next` one after the other and joins the results. -/
def fanOut {α β : Type} (values : List α) (next : α → Except Failure (List β)) :
    Except Failure (List β) := return (← values.mapM next).flatten

/-- A list of outputs, or the failure that comes after them. -/
def endingIn {α : Type} (e : Option Failure) (outputs : List α) : Except Failure (List α) :=
  match e with
  | none => .ok outputs
  | some e => .error e

namespace Outcome

variable {α β : Type}

/-! ### Collecting -/

theorem collect_eq_endingIn (o : Outcome α) : o.collect = endingIn o.failure o.outputs := by
  rw [collect_eq]
  cases o.failure <;> rfl

@[simp] theorem collect_one (a : α) : (one a).collect = .ok [a] := rfl

@[simp] theorem collect_ofExcept (r : Except Failure (List α)) : (ofExcept r).collect = r := by
  cases r with
  | error e => rfl
  | ok as => rw [ofExcept, collect_eq, failure_ofList, outputs_ofList]

theorem collect_ofList (as : List α) : (ofList as).collect = .ok as :=
  collect_ofExcept (.ok as)

/-- An outcome that can be collected is known by its outputs. -/
theorem eq_ofList_of_collect {o : Outcome α} {as : List α} (h : o.collect = .ok as) :
    o = .ofList as := by
  rw [collect_eq] at h
  cases hf : o.failure with
  | some e =>
    rw [hf] at h
    cases h
  | none =>
    rw [hf] at h
    cases h
    refine ext_view ?_ ?_
    · rw [outputs_ofList]
    · rw [failure_ofList, hf]

theorem collect_next (a : α) (rest : Unit → Outcome α) :
    (next a rest).collect = (rest ()).collect >>= fun as => .ok (a :: as) := by
  simp only [collect_eq_endingIn, failure, outputs]
  cases (rest ()).failure <;> rfl

/-- Two outcomes one after the other are collected one after the other. -/
theorem collect_append (o : Outcome α) (more : Unit → Outcome α) :
    (o.append more).collect =
      o.collect >>= fun as => (more ()).collect >>= fun bs => .ok (as ++ bs) := by
  induction o with
  | done =>
    rw [done_append]
    cases (more ()).collect <;> rfl
  | fail e => rfl
  | next a rest ih =>
    rw [next_append, collect_next, collect_next, ih]
    cases (rest ()).collect with
    | error e => rfl
    | ok as => cases (more ()).collect <;> rfl

/-- Handing every output on and joining the results is the same, whether the outputs come one at a
    time or all at once; a failure comes after all of them. -/
theorem each_eq (o : Outcome α) (next : α → Except Failure (List β)) :
    o.each next = fanOut o.outputs next >>= endingIn o.failure := by
  induction o with
  | done => rfl
  | fail e => rfl
  | next a rest ih =>
    simp only [each] at ih
    simp only [each, next_bind, collect_append, collect_ofExcept, ih, outputs, failure, fanOut,
      List.mapM_cons]
    cases next a with
    | error e => rfl
    | ok bs =>
      cases List.mapM next (rest ()).outputs with
      | error e => rfl
      | ok bss => cases (rest ()).failure <;> rfl

/-! ### Enclosing and intercepting -/

/-- An enclosed failure passes an interception and comes out as it went in. -/
theorem intercept_enclosed_append (handler : Failure → Outcome α) (o : Outcome α)
    (more : Unit → Outcome α) :
    (o.enclosed.append more).intercept handler =
      o.append fun _ => (more ()).intercept handler := by
  induction o with
  | done => rfl
  | fail e =>
    have hcatch : e.enclose.isCatchable = false := by
      simp [Failure.isCatchable, Failure.isEnclosed, Failure.enclose]
    have hback : e.enclose.disclose = e := rfl
    simp only [enclosed, fail_append, intercept, hcatch, hback, Bool.false_eq_true, if_false]
  | next a rest ih => simp only [enclosed, next_append, intercept, ih]

/-- Feeding outputs on from inside an interception, enclosed, is feeding them on behind it: only
    the failure of the first outcome itself is intercepted. -/
theorem intercept_bind (o : Outcome α) (handler : Failure → Outcome α) (f : α → Outcome β) :
    ((o.bind fun a => (f a).enclosed).intercept fun e => (handler e).bind f) =
      (o.intercept handler).bind f := by
  induction o with
  | done => rfl
  | fail e =>
    simp only [fail_bind, intercept]
    split <;> rfl
  | next a rest ih => simp only [next_bind, intercept_enclosed_append, intercept, ih]

end Outcome

end JsonPipe
