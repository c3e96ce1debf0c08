import JsonPipe.Proofs.Run.Correspondence

/-! Functions of a host in corresponding runs.

    With the builtins as its host, a program runs as it does by itself (`Host.builtins_evaluate`,
    `Host.builtins_execute`, `Host.builtins_callValue`). In corresponding runs, the functions of a
    host go the same way if they cannot tell apart what is alike (`Correspondence.Admits`). The
    builtins never can: they pass functions on and call them, and look at nothing else about them
    (`Host.builtins_admitted`). -/

namespace JsonPipe

/-! ### The builtins as a host -/

namespace Dialogue

variable {enter : Run.Enter}

theorem each_run (f : Value → Dialogue) (vs : List Value) :
    (each f vs).run enter =
      (vs.mapM fun v => (f v).run enter) >>= fun rows => .ok rows.flatten := by
  induction vs with
  | nil => rfl
  | cons v vs ih =>
    rw [List.mapM_cons, each, run]
    cases (f v).run enter with
    | error e => rfl
    | ok outputs =>
      change (each f vs).run enter >>= (fun more => .ok (outputs ++ more)) = _
      rw [ih]
      cases vs.mapM fun v => (f v).run enter with
      | error e => rfl
      | ok rows => rfl

/-- Having a function called gives what the call gives. -/
theorem invoke_run (f : Function) (input : Value) (args : List Value) :
    (invoke f input args).run enter = Run.invoke enter f input args := by
  induction args generalizing f input with
  | nil =>
    cases f with
    | closure params body scope => rfl
    | builtin b =>
      cases b with
      | map => cases input <;> rfl
      | _ => rfl
  | cons v args ih =>
    cases f with
    | closure params body scope => rfl
    | builtin b =>
      cases b with
      | apply =>
        cases v with
        | function f => exact ih f input
        | _ => rfl
      | map =>
        cases v with
        | function f =>
          cases input with
          | array items =>
            rw [invoke, run, each_run, Run.invoke]
            simp only [ih]
            cases items.mapM fun item => Run.invoke enter f item args with
            | error e => rfl
            | ok rows => rfl
          | _ => rfl
        | _ => cases input <;> rfl
      | _ => rfl

end Dialogue

namespace Host

theorem builtins_invoke (enter : Run.Enter) : builtins.invoke enter = Run.invoke enter := by
  funext f input args
  cases f with
  | closure params body scope => cases args <;> rfl
  | builtin b => exact Dialogue.invoke_run (.builtin b) input args

theorem builtins_enter (limit left : Nat) : builtins.enter limit left = Run.enter limit left := by
  induction left with
  | zero => rfl
  | succ left ih =>
    funext params body scope input args
    rw [enter, Run.enter, ih, builtins_invoke]

/-- Calls among the builtins. -/
theorem builtins_call (limit : Nat) : builtins.call limit = Run.call limit := by
  rw [call, Run.call, builtins_enter, builtins_invoke]

theorem builtins_evaluate (limit : Nat) (p : Pipeline) (scope : Scope) (input : Value) :
    builtins.evaluate limit p scope input = p.evaluate limit scope input := by
  rw [evaluate, Pipeline.evaluate, builtins_call]

theorem builtins_execute (limit : Nat) (p : Pipeline) (scope : Scope) (inputs : List Value)
    (next : Value → Except Failure (List Value)) :
    builtins.execute limit p scope inputs next = p.execute limit scope inputs next := by
  rw [execute, builtins_call]
  rfl

theorem builtins_callValue (limit : Nat) (f input : Value) (args : List Value) :
    builtins.callValue limit f input args = f.call limit input args := by
  cases f with
  | function f => rw [callValue, builtins_call, Value.call]
  | _ => rfl

end Host

/-! ### Corresponding dialogues -/

/-- What a function of the host does on the two sides. -/
inductive Correspondence.Dialogues (C : Correspondence) : Dialogue → Dialogue → Prop
  | outputs {vs vs' : List Value} : C.lists vs vs' →
    Dialogues C (.answer (.ok vs)) (.answer (.ok vs'))
  | failure {e e' : Failure} : C.Failures e e' →
    Dialogues C (.answer (.error e)) (.answer (.error e'))
  | call {params : List String} {body body' : Pipeline} {s s' : Scope} {input input' : Value}
    {args args' : List Value} : C.functions (.closure params body s) (.closure params body' s') →
      C.values input input' → C.lists args args' →
        Dialogues C (.call params body s input args) (.call params body' s' input' args')
  | andThen {d d' : Dialogue} {k k' : List Value → Dialogue} : Dialogues C d d' →
    (∀ vs vs', C.lists vs vs' → Dialogues C (k vs) (k' vs')) →
      Dialogues C (.andThen d k) (.andThen d' k')

/-- The functions of the host that may occur cannot tell apart what is alike. -/
def Correspondence.Admits (C : Correspondence) (host : Host) : Prop :=
  ∀ {b : Builtin}, C.functions (.builtin b) (.builtin b) →
    ∀ {input input' : Value} {args args' : List Value}, C.values input input' → C.lists args args' →
      C.Dialogues (host b input args) (host b input' args')

variable {C : Correspondence}

namespace Correspondence.Dialogues

/-- A recoverable failure on both sides. -/
theorem recoverable {cause : Cause} (h : cause.isFatal = false) :
    C.Dialogues (.answer (.error (.of cause))) (.answer (.error (.of cause))) :=
  .failure (.of (C.recoverable h))

theorem each {f f' : Value → Dialogue} (hf : ∀ v v', C.values v v' → C.Dialogues (f v) (f' v'))
    {vs vs' : List Value} (h : C.lists vs vs') : C.Dialogues (.each f vs) (.each f' vs') := by
  induction h with
  | nil => exact .outputs .nil
  | cons hv _ ih =>
    exact .andThen (hf _ _ hv) fun _ _ houtputs => .andThen ih fun _ _ hmore =>
      .outputs (List.rel_append houtputs hmore)

/-- Having a function called, if all failures that the host may give are allowed. -/
theorem invoke (hfatal : ∀ message, C.allowed (.internal message)) {f f' : Function}
    (hf : C.functions f f') {input input' : Value} {args args' : List Value}
    (hin : C.values input input') (hargs : C.lists args args') :
    C.Dialogues (.invoke f input args) (.invoke f' input' args') := by
  induction hargs generalizing f f' input input' with
  | nil =>
    cases f with
    | closure params body s =>
      obtain ⟨body', s', rfl, -⟩ := C.enter hf
      exact .call hf hin .nil
    | builtin b =>
      obtain rfl := C.builtin hf
      cases b with
      | id => exact .outputs (.cons hin .nil)
      | args => exact .outputs (.cons (.array .nil) .nil)
      | spread | none => exact .outputs .nil
      | type =>
        refine .outputs (.cons ?_ .nil)
        rw [Run.subject, Run.subject, hin.kind]
        exact .string _
      | throw => exact .failure (.thrown hin)
      | fail | apply | foreign => exact .recoverable rfl
      | fatal => exact .failure (.of (hfatal _))
      | map => cases hin <;> exact .recoverable rfl
  | @cons v v' args args' hv hargs ih =>
    cases f with
    | closure params body s =>
      obtain ⟨body', s', rfl, -⟩ := C.enter hf
      exact .call hf hin (.cons hv hargs)
    | builtin b =>
      obtain rfl := C.builtin hf
      cases b with
      | id => exact .outputs (.cons hin .nil)
      | args => exact .outputs (.cons (.array (.cons hv hargs)) .nil)
      | spread => exact .outputs (.cons hv hargs)
      | none => exact .outputs .nil
      | type =>
        refine .outputs (.cons ?_ .nil)
        rw [Run.subject, Run.subject, hv.kind]
        exact .string _
      | throw => exact .failure (.thrown hv)
      | fail =>
        change C.Dialogues (.answer (.error (.of (.custom v.text)))) _
        rw [hv.text]
        exact .recoverable rfl
      | foreign => exact .recoverable rfl
      | fatal =>
        change C.Dialogues (.answer (.error (.of (.internal v.text)))) _
        rw [hv.text]
        exact .failure (.of (hfatal _))
      | apply =>
        cases hv with
        | function hg => exact ih hg hin
        | _ => exact .recoverable rfl
      | map =>
        cases hv with
        | function hg =>
          cases hin with
          | array hitems =>
            exact .andThen (.each (fun _ _ hitem => ih hg hitem) hitems) fun _ _ houtputs =>
              .outputs (.cons (.array houtputs) .nil)
          | _ => exact .recoverable rfl
        | _ => cases hin <;> exact .recoverable rfl

end Correspondence.Dialogues

/-- The builtins look at no function. -/
theorem Host.builtins_admitted (hfatal : ∀ message, C.allowed (.internal message)) :
    C.Admits builtins := fun hb _ _ _ _ hin hargs => .invoke hfatal hb hin hargs

/-! ### Answers -/

/-- Closures are entered the same way on the two sides. -/
def Correspondence.Enters (C : Correspondence) (enter : Watch.Enter) (enter' : Run.Enter) : Prop :=
  ∀ {params : List String} {body body' : Pipeline} {s s' : Scope},
    C.functions (.closure params body s) (.closure params body' s') →
      ∀ {input input' : Value} {args args' : List Value}, C.values input input' →
        C.lists args args' → Watched.Shows C C.lists (enter params body s input args)
          (.single (enter' params body' s' input' args'))

/-- Dialogues come to the same answer. -/
theorem Watch.answer_shows {enter : Enter} {enter' : Run.Enter} (henter : C.Enters enter enter')
    {d d' : Dialogue} (h : C.Dialogues d d') :
    Watched.Shows C C.lists (answer enter d) (.single (d'.run enter')) := by
  induction h with
  | outputs hvs => exact .one hvs
  | failure hee => exact .raise_alike hee
  | call hf hin hargs => exact henter hf hin hargs
  | andThen _ _ ih ihfurther => exact ih.bind_single ihfurther

end JsonPipe
