import JsonPipe.Proofs.Run.Requests
import JsonPipe.Session

/-! One machine for a session.

    What a step runs, if it runs anything, is a request to a machine, and the step concludes with
    what is due for it (`Session.perform_of_request`). The limit stays the same from step to step, so
    the requests of a whole session are served by one machine, which has no call under way before,
    between and after them (`Session.served`). A step that does not get through changes nothing
    (`Session.perform_fails`). -/

namespace JsonPipe.Session

/-- The name under which a step stores its last output. -/
def Step.store : Step → Option String
  | .run _ _ store | .each _ _ _ store | .call _ _ _ store => store
  | _ => none

variable {s : Session} {step : Step}

/-- What a step asks of the machine, if it runs anything. -/
def request? (s : Session) : Step → Option Request
  | .run source input _ => (Pipeline.parse source).toOption.map fun p => .evaluate p s.scope input
  | .each source inputs twice _ => (Pipeline.parse source).toOption.map fun p =>
      .execute p s.scope inputs fun v => .ofResult (.ok (if twice then [v, v] else [v]))
  | .call name input args _ =>
    match s.table.get? name with
    | some (.function f) => some (.call f input args)
    | _ => none
  | _ => none

/-- A step that runs something concludes with what is due for its request. -/
theorem perform_of_request {r : Request} (h : s.request? step = some r) :
    ∃ a, Machine.Due s.limit r a ∧ s.perform step = s.conclude step.store a := by
  cases step with
  | run source input store =>
    rw [request?] at h
    rw [perform]
    cases hp : Pipeline.parse source with
    | error e => rw [hp] at h; cases h
    | ok p =>
      rw [hp] at h
      cases h
      exact ⟨_, .evaluate p s.scope input, rfl⟩
  | each source inputs twice store =>
    rw [request?] at h
    rw [perform]
    cases hp : Pipeline.parse source with
    | error e => rw [hp] at h; cases h
    | ok p =>
      rw [hp] at h
      cases h
      exact ⟨_, .execute p s.scope inputs fun v => .ok (if twice then [v, v] else [v]), rfl⟩
  | call name input args store =>
    rw [request?] at h
    rw [perform]
    split at h
    · next f hf =>
      cases h
      rw [hf]
      exact ⟨_, .call f input args, rfl⟩
    · cases h
  | set | unset | define | vars => cases h

theorem conclude_limit (s : Session) (store : Option String)
    (a : Except Failure (List Value)) : (s.conclude store a).1.limit = s.limit := by
  rw [conclude.eq_def]
  split
  · split <;> rfl
  · rfl

theorem perform_limit (s : Session) (step : Step) : (s.perform step).1.limit = s.limit := by
  cases step with
  | set | unset | vars => rfl
  | define | run | each =>
    rw [perform]
    split <;> first | rfl | exact conclude_limit _ _ _
  | call => exact conclude_limit _ _ _

/-- The step did not get through. -/
def Reply.fails : Reply → Bool
  | .misread _ _ | .failed _ => true
  | _ => false

theorem conclude_fails {store : Option String} {a : Except Failure (List Value)}
    (h : (s.conclude store a).2.fails = true) : (s.conclude store a).1 = s := by
  cases a with
  | error e => rfl
  | ok vs =>
    rw [conclude.eq_def] at h
    dsimp only at h
    split at h <;> cases h

/-- A step that does not get through leaves the session as it was. -/
theorem perform_fails (h : (s.perform step).2.fails = true) : (s.perform step).1 = s := by
  cases step with
  | set | unset | vars => cases h
  | define name params source =>
    rw [perform] at h ⊢
    cases hf : Value.parseFunction params source s.table with
    | error e => rfl
    | ok f =>
      rw [hf] at h
      cases h
  | run source | each source =>
    rw [perform] at h ⊢
    cases hp : Pipeline.parse source with
    | error e => rfl
    | ok p =>
      rw [hp] at h
      exact conclude_fails h
  | call => exact conclude_fails h

/-- What is asked of the machine in a session, step after step. -/
def requests : Session → List Step → List Request
  | _, [] => []
  | s, step :: steps => (s.request? step).toList ++ (s.perform step).1.requests steps

/-- One machine serves a session. -/
theorem served (s : Session) (steps : List Step) :
    ∃ answers, Machine.Serves Builtin.task s.limit 0 (s.requests steps) answers 0 := by
  have hdue : ∃ answers, List.Forall₂ (Machine.Due s.limit) (s.requests steps) answers := by
    induction steps generalizing s with
    | nil => exact ⟨[], .nil⟩
    | cons step steps ih =>
      obtain ⟨answers, hanswers⟩ := ih (s.perform step).1
      rw [perform_limit] at hanswers
      rw [requests]
      cases hrequest : s.request? step with
      | none => exact ⟨answers, hanswers⟩
      | some r =>
        obtain ⟨a, ha, -⟩ := perform_of_request hrequest
        exact ⟨a :: answers, .cons ha hanswers⟩
  obtain ⟨answers, hanswers⟩ := hdue
  exact ⟨answers, Machine.serves_due hanswers⟩

end JsonPipe.Session
