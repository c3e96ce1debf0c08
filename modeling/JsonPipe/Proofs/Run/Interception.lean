import JsonPipe.Proofs.Run.Continuation
import JsonPipe.Proofs.Run.Failures

/-! What `try` catches, exactly.

    Every interception encloses the failures that come back from its continuation and discloses
    what it lets pass, so the count of enclosures has to be balanced on every path. It is: no run
    ends in an enclosed failure (`evaluate_unenclosed`), so what reaches a `try` enclosed can only
    have come from its own continuation, and it leaves as it came.

    A run may be handed functions that are not written in its language. Nothing keeps these from
    making up an enclosed failure, or from going on after a call of theirs that failed. So what they
    answer is a parameter, a function of what entering a closure gives (`Run.Natives`), and that
    they answer with no enclosed failure is a condition (`Run.Natives.Unenclosed`). The builtins
    meet it. -/

namespace JsonPipe

/-- The failure belongs to the run that it is found in. -/
def Failure.Unenclosed (e : Failure) : Prop := e.enclosures = 0

namespace Run

/-- What native functions answer on an input, with arguments, given a way to enter closures. -/
abbrev Natives := Enter → Builtin → Value → List Value → Except Failure (List Value)

namespace Natives

/-- What the builtins answer. -/
def builtins : Natives := fun enter b => Run.invoke enter (.builtin b)

variable (natives : Natives)

/-- Calls a function, given a way to enter closures. -/
def invoke (enter : Enter) : Call
  | .closure params body scope, input, args => enter params body scope input args
  | .builtin b, input, args => natives enter b input args

/-- Enters a closure while `left` more calls may be nested, out of `limit`. -/
def enter (limit : Nat) : Nat → Enter
  | 0, _, _, _, _, _ => .error (.of (.stackOverflow limit))
  | left + 1, params, body, scope, input, args =>
    Feed.evaluate (natives.invoke (enter limit left)) body
      (scope.bindAll (bindings params args)) input

/-- Calling functions while `left` more closure calls may be nested, out of `limit`. -/
def callWith (limit left : Nat) : Call := natives.invoke (natives.enter limit left)

/-- However many calls are left to it, no native function answers with an enclosed failure. -/
def Unenclosed (limit : Nat) : Prop :=
  ∀ left b input args, FailsOnly Failure.Unenclosed (natives (natives.enter limit left) b input args)

/-- A run with the builtins is a run by the rules. -/
theorem builtins_callWith (limit left : Nat) :
    builtins.callWith limit left = Run.invoke (Run.enter limit left) := by
  have hinvoke (enter : Enter) : builtins.invoke enter = Run.invoke enter := by
    funext f input args
    cases f with
    | closure params body scope => rw [invoke, Run.invoke.eq_def]
    | builtin b => rfl
  have henter : builtins.enter limit left = Run.enter limit left := by
    induction left with
    | zero => rfl
    | succ left ih =>
      funext params body scope input args
      rw [enter, Run.enter, hinvoke, ih]
  rw [callWith, hinvoke, henter]

end Natives

/-! ### Calls -/

/-- The failures of builtins are their own, given that those of closures are. -/
theorem invoke_unenclosed {enter : Enter}
    (h : ∀ params body scope input args,
      FailsOnly Failure.Unenclosed (enter params body scope input args))
    (f : Function) (input : Value) (args : List Value) :
    FailsOnly Failure.Unenclosed (invoke enter f input args) := by
  induction args generalizing f input with
  | nil =>
    cases f with
    | closure params body scope => exact h params body scope input []
    | builtin b =>
      cases b with
      | id | args | spread | none | type => exact .ok _
      | throw | fail | fatal | apply | foreign => exact .error rfl
      | map => cases input <;> exact .error rfl
  | cons v args ih =>
    cases f with
    | closure params body scope => exact h params body scope input (v :: args)
    | builtin b =>
      cases b with
      | id | args | spread | none | type => exact .ok _
      | throw | fail | fatal | foreign => exact .error rfl
      | apply =>
        cases v with
        | function f => exact ih f input
        | _ => exact .error rfl
      | map =>
        cases v with
        | function f =>
          cases input with
          | array items => exact (FailsOnly.mapM fun item => ih f item).bind fun _ => .ok _
          | _ => exact .error rfl
        | _ => cases input <;> exact .error rfl

/-- Failures that are not enclosed cover what a run can raise, if its calls raise no others. -/
theorem covers_unenclosed {call : Call}
    (h : ∀ f input args, FailsOnly Failure.Unenclosed (call f input args)) :
    Covers call Failure.Unenclosed where
  recoverables _ _ := rfl
  overflow := rfl
  path := rfl
  calls := h
  disclose e he := by
    rw [Failure.Unenclosed] at he ⊢
    simp [Failure.disclose, he]

namespace Natives

variable {natives : Natives} {limit : Nat}

/-- A closure ends in a failure of its own or in none, if the functions that it can call do. -/
theorem enter_succ_unenclosed {left : Nat}
    (hcall : ∀ f input args,
      FailsOnly Failure.Unenclosed (natives.callWith limit left f input args))
    (params : List String) (body : List Instruction) (scope : Scope) (input : Value)
    (args : List Value) :
    FailsOnly Failure.Unenclosed
      (natives.enter limit (left + 1) params body scope input args) := by
  rw [enter, Feed.evaluate_eq]
  exact (pipeline_failsOnly (covers_unenclosed hcall) body _ input).collect

/-- The failures of calls are their own, given that those of native functions are. -/
theorem callWith_unenclosed (hnatives : natives.Unenclosed limit) (left : Nat) (f : Function)
    (input : Value) (args : List Value) :
    FailsOnly Failure.Unenclosed (natives.callWith limit left f input args) := by
  induction left generalizing f input args with
  | zero =>
    cases f with
    | closure params body scope => exact .error rfl
    | builtin b => exact hnatives 0 b input args
  | succ left ih =>
    cases f with
    | closure params body scope => exact enter_succ_unenclosed ih params body scope input args
    | builtin b => exact hnatives (left + 1) b input args

/-- No run ends in an enclosed failure. -/
theorem pipeline_unenclosed (hnatives : natives.Unenclosed limit) (left : Nat) (p : Pipeline)
    (scope : Scope) (input : Value) :
    (pipeline (natives.callWith limit left) p scope input).FailsOnly Failure.Unenclosed :=
  pipeline_failsOnly (covers_unenclosed (callWith_unenclosed hnatives left)) p scope input

/-- No builtin answers with an enclosed failure. -/
theorem builtins_unenclosed (limit : Nat) : builtins.Unenclosed limit := by
  have henter : ∀ left params body scope input args,
      FailsOnly Failure.Unenclosed (builtins.enter limit left params body scope input args) := by
    intro left
    induction left with
    | zero => exact fun _ _ _ _ _ => .error rfl
    | succ left ih =>
      refine enter_succ_unenclosed fun f input args => ?_
      cases f with
      | closure params body scope => exact ih params body scope input args
      | builtin b => exact invoke_unenclosed ih (.builtin b) input args
  intro left b input args
  exact invoke_unenclosed (henter left) (.builtin b) input args

end Natives

end Run

/-! ### One interception -/

namespace Outcome

variable {α β : Type}

/-- Of an outcome whose failure is its own, the outputs stay, a recoverable failure gives way to the
    handler and a fatal one passes. -/
theorem intercept_eq {o : Outcome α} (h : o.FailsOnly Failure.Unenclosed)
    (handler : Failure → Outcome α) :
    o.intercept handler = (ofList o.outputs).append fun _ =>
      match o.failure with
      | none => .done
      | some e => if e.isFatal then .fail e else handler e := by
  induction o with
  | done => rfl
  | fail e =>
    have he : e.enclosures = 0 := h e rfl
    have hback : e.disclose = e := by
      cases e
      simp_all [Failure.disclose]
    cases hfatal : e.isFatal <;>
      simp [intercept, Failure.isCatchable, Failure.isEnclosed, he, hfatal, hback, outputs,
        failure, ofList]
  | next a rest ih =>
    rw [intercept, ih () h]
    rfl

/-- The first failure of the steps that outputs are fed to is the failure of the whole. -/
theorem bind_failure {o : Outcome α} {f : α → Outcome β} {seen behind : List α} {a : α}
    {e : Failure} (ho : o.outputs = seen ++ a :: behind) (hseen : ∀ x ∈ seen, (f x).failure = none)
    (ha : (f a).failure = some e) : (o.bind f).failure = some e := by
  have hfail : ∀ (p : Outcome β) (more : Unit → Outcome β), p.failure = some e →
      (p.append more).failure = some e := by
    intro p more hp
    induction p with
    | done => cases hp
    | fail e' => exact hp
    | next b rest ih => exact ih () hp
  have hskip : ∀ (p : Outcome β) (more : Unit → Outcome β), p.failure = none →
      (p.append more).failure = (more ()).failure := by
    intro p more hp
    induction p with
    | done => rfl
    | fail e' => cases hp
    | next b rest ih => exact ih () hp
  induction o generalizing seen with
  | done => simp [outputs] at ho
  | fail e' => simp [outputs] at ho
  | next x rest ih =>
    rw [next_bind]
    cases seen with
    | nil =>
      simp only [outputs, List.nil_append, List.cons.injEq] at ho
      rw [ho.1]
      exact hfail _ _ ha
    | cons y seen =>
      simp only [outputs, List.cons_append, List.cons.injEq] at ho
      obtain ⟨hx, hseen⟩ := List.forall_mem_cons.1 hseen
      rw [← ho.1] at hx
      rw [hskip _ _ hx]
      exact ih () ho.2 hseen

end Outcome

namespace Feed

variable {natives : Run.Natives} {limit : Nat}

/-- No evaluation ends in an enclosed failure. -/
theorem evaluate_unenclosed (hnatives : natives.Unenclosed limit) (left : Nat) (p : Pipeline)
    (scope : Scope) (input : Value) :
    FailsOnly Failure.Unenclosed (evaluate (natives.callWith limit left) p scope input) := by
  rw [evaluate_eq]
  exact (Run.Natives.pipeline_unenclosed hnatives left p scope input).collect

/-- A `try` and the rest of its pipeline. The outputs of the body go to the rest one after the
    other; then, if the body itself ends in a recoverable failure, the handler is run into the rest
    on the payload of that failure. -/
theorem attempt_cons {call : Call} {a : Pipeline} {scope : Scope} {input : Value}
    (hown : (Run.pipeline call a scope input).FailsOnly Failure.Unenclosed) (b rest : Pipeline)
    (next : Next) :
    pipeline call (.attempt a b :: rest) scope input next =
      ((Outcome.ofList (pipeline call a scope input .one).outputs).bind
          fun v => pipeline call rest scope v next).append fun _ =>
        match (pipeline call a scope input .one).failure with
        | none => .done
        | some e =>
          if e.isFatal then .fail e
          else pipeline call b scope e.payload fun v => pipeline call rest scope v next := by
  simp only [agrees _ (_ :: _) scope input next, (agrees _ a).alone, agrees _ rest scope _ next,
    agrees _ b scope _ _]
  rw [Run.pipeline_cons, Outcome.bind_assoc, Run.instruction, Outcome.intercept_eq hown,
    Outcome.append_bind]
  congr 1
  funext _
  cases (Run.pipeline call a scope input).failure with
  | none => rfl
  | some e =>
    simp only
    split <;> rfl

/-- The rest of a pipeline is fed what its first instruction puts out alone. -/
theorem pipeline_attempt (call : Call) (a b rest : Pipeline) (scope : Scope) (input : Value)
    (next : Next) :
    pipeline call (.attempt a b :: rest) scope input next =
      (pipeline call [.attempt a b] scope input .one).bind fun v =>
        pipeline call rest scope v next := by
  have halone : Run.pipeline call [.attempt a b] scope input =
      Run.instruction call (.attempt a b) scope input := by
    simp only [Run.pipeline]
  rw [agrees, Run.pipeline_cons, Outcome.bind_assoc, (agrees call [_]).alone, halone]
  simp only [agrees call rest scope _ next]

/-- Interception is exact. The outputs of the body of a `try` go to the rest of the pipeline and
    their results are kept; the handler is run if and only if the body itself ends in a recoverable
    failure, after those outputs and on the payload of that failure. A failure of the rest, on an
    output of the body or of the handler, is the failure of the whole, unchanged down to its count
    of enclosures, whatever comes after. And no evaluation ends in an enclosed failure, unless a
    native function answers with one. -/
theorem attempt_exact (natives : Run.Natives) (limit left : Nat)
    (hnatives : natives.Unenclosed limit) (a b rest : Pipeline) (scope : Scope) (input : Value) :
    let call := natives.callWith limit left
    let own := pipeline call a scope input .one
    let produced := pipeline call [.attempt a b] scope input .one
    (∀ next, pipeline call (.attempt a b :: rest) scope input next =
      ((Outcome.ofList own.outputs).bind fun v => pipeline call rest scope v next).append fun _ =>
        match own.failure with
        | none => .done
        | some e =>
          if e.isFatal then .fail e
          else pipeline call b scope e.payload fun v => pipeline call rest scope v next) ∧
    (∀ next seen v behind e, produced.outputs = seen ++ v :: behind →
      (∀ x ∈ seen, (pipeline call rest scope x next).failure = none) →
      (pipeline call rest scope v next).failure = some e →
      (pipeline call (.attempt a b :: rest) scope input next).failure = some e) ∧
    ∀ p scope input e, evaluate call p scope input = .error e → e.enclosures = 0 := by
  refine ⟨?_, ?_, ?_⟩
  · intro next
    have hown := Run.Natives.pipeline_unenclosed hnatives left a scope input
    exact attempt_cons hown b rest next
  · intro next seen v behind e houtputs hseen hv
    rw [pipeline_attempt]
    exact Outcome.bind_failure houtputs hseen hv
  · intro p scope input e he
    exact evaluate_unenclosed hnatives left p scope input e he

/-- The body puts out `true` and then fails by itself, the handler puts out `false`, and the rest
    fails on `false`: that failure leaves the `try` as it came. -/
theorem attempt_exact_handler :
    let body : Pipeline := [.concat [[.bool true], [.string "x", .negate]]]
    let rest : Pipeline := [.branch [([], [.bool true])] (some [.negate])]
    (pipeline (Run.call 0) [.attempt body [.not]] [] .null .one).outputs =
        [.bool true, .bool false] ∧
      (pipeline (Run.call 0) (.attempt body [.not] :: rest) [] .null .one).failure =
        some (.of (.invalidUnaryOperand "-" .boolean)) := by
  obtain ⟨_, h, _⟩ := attempt_exact .builtins 0 0 (Run.Natives.builtins_unenclosed 0)
    [.concat [[.bool true], [.string "x", .negate]]] [.not]
    [.branch [([], [.bool true])] (some [.negate])] [] .null
  rw [Run.Natives.builtins_callWith] at h
  refine ⟨rfl, h .one [.bool true] (.bool false) [] _ rfl ?_ rfl⟩
  intro x hx
  rw [List.mem_singleton.1 hx]
  rfl

end Feed

end JsonPipe
