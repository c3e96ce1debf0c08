import JsonPipe.Proofs.Run.Outcome
import JsonPipe.Proofs.Syntax.Alike
import JsonPipe.Proofs.Value.Operations
import JsonPipe.Run.Watch

/-! Corresponding runs.

    Two runs correspond if they go the same way: from scopes and inputs that are alike they come to
    outputs that are alike and end in the same failure. They are runs of one pipeline or of two that
    do the same instruction by instruction (`Pipeline.Tracks`). A `Correspondence` says which
    pipelines, functions, scopes and failures count as alike, and that the scopes stay so from an
    instruction to its operands, to the rest of its pipeline and to the body of a function. The
    first of the two runs is under watch, so that what is said of every correspondence holds for the
    failures on the way too: nothing comes between raising a fatal failure and the end of the run
    (`Watched.Shows`).

    A correspondence may allow that the first run is cut off by a fatal failure where the second one
    goes on. -/

namespace JsonPipe

/-- The second pipeline does what the first one does, given that related pipelines do: it begins
    with the same instruction with related operands, or with something that has the same runs. -/
inductive Pipeline.Tracks (R : Pipeline → Pipeline → Prop) : Pipeline → Pipeline → Prop
  | nil : Tracks R [] []
  | cons {i j : Instruction} {p q r : Pipeline} : i.Alike R j → R p q →
    (∀ (call : Call) (scope : Scope) (input : Value),
      Run.pipeline call r scope input = Run.pipeline call (j :: q) scope input) →
        Tracks R (i :: p) r

theorem Pipeline.tracks_self {R : Pipeline → Pipeline → Prop} (h : ∀ p, R p p) (p : Pipeline) :
    p.Tracks R p := by
  cases p with
  | nil => exact .nil
  | cons i p => exact .cons (i.alike_self fun q _ => h q) (h p) fun _ _ _ => rfl

theorem Pipeline.tracks_eq {p q : Pipeline} (h : p = q) : p.Tracks Eq q :=
  h ▸ p.tracks_self fun _ => rfl

/-- Which runs go the same way. -/
structure Correspondence where
  /-- Pipelines that may be run on the second side in place of one on the first. -/
  programs : Pipeline → Pipeline → Prop
  /-- Functions that may stand at corresponding places. -/
  functions : Function → Function → Prop
  /-- Scopes in which a pipeline may be run on the two sides. -/
  scopes : Pipeline → Scope → Scope → Prop
  /-- Causes that a failure of both runs may have. -/
  allowed : Cause → Prop
  /-- Causes that may cut off the first run alone. -/
  cut : Cause → Prop
  recoverable {cause : Cause} : cause.isFatal = false → allowed cause
  overflow : allowed .overflow
  cut_isFatal {cause : Cause} : cut cause → cause.isFatal = true
  same (p : Pipeline) : programs p p
  tracks {p q : Pipeline} : programs p q → p.Tracks programs q
  tail {i : Instruction} {rest : Pipeline} {s s' : Scope} :
    scopes (i :: rest) s s' → scopes rest s s'
  part {p q : Pipeline} {i : Instruction} {s s' : Scope} :
    scopes p s s' → i ∈ p → q ∈ i.parts → scopes q s s'
  bind {name : String} {body rest : Pipeline} {s s' : Scope} {v v' : Value} :
    scopes (.define name body :: rest) s s' → v.Alike functions v' →
      scopes rest (s.bind name v) (s'.bind name v')
  lookup {p : Pipeline} {name : String} {s s' : Scope} :
    scopes p s s' → .variable name ∈ p →
      Option.Rel (Value.Alike functions) (s.lookup name) (s'.lookup name)
  closure {p body body' : Pipeline} {params : List String} {s s' : Scope} :
    scopes p s s' → .function params body ∈ p → programs body body' →
      functions (.closure params body s) (.closure params body' s')
  path {p base value : Pipeline} {path : List (Selector Pipeline)} {op : AssignmentOp}
    {s s' : Scope} :
    scopes p s s' → .assign base path op value ∈ p → path.any Selector.isCall = true →
      allowed (.invalidAssignmentPath "a function call cannot be assigned to")
  enter {params : List String} {body : Pipeline} {s : Scope} {f : Function} :
    functions (.closure params body s) f → ∃ (body' : Pipeline) (s' : Scope),
      f = .closure params body' s' ∧ programs body body' ∧
        ∀ {args args' : List Value}, Items.Alike functions args args' → scopes body
          (s.bindAll (Run.bindings params args)) (s'.bindAll (Run.bindings params args'))
  builtin {b : Builtin} {f : Function} : functions (.builtin b) f → f = .builtin b

/-- No cause is cut where nothing is cut off. -/
theorem Cause.isFatal_of_false (cause : Cause) (h : False) : cause.isFatal = true := h.elim

theorem Failure.isCatchable_of_isFatal {e : Failure} (h : e.isFatal = true) :
    e.isCatchable = false := by
  simp [isCatchable, h]

namespace Correspondence

/-- Values that are alike in the correspondence. -/
abbrev values (C : Correspondence) : Value → Value → Prop := Value.Alike C.functions

/-- Lists of values that are alike one by one. -/
abbrev lists (C : Correspondence) : List Value → List Value → Prop := Items.Alike C.functions

/-- Failures for the same cause, with values that are alike. -/
structure Failures (C : Correspondence) (e e' : Failure) : Prop where
  cause : e.cause = e'.cause
  enclosures : e.enclosures = e'.enclosures
  value : Option.Rel C.values e.value e'.value
  allowed : C.allowed e.cause

namespace Failures

variable {C : Correspondence} {e e' : Failure}

/-- A failure that carries no value is like itself. -/
theorem of {cause : Cause} (h : C.allowed cause) : C.Failures (.of cause) (.of cause) :=
  ⟨rfl, rfl, .none, h⟩

theorem thrown {v v' : Value} (h : C.values v v') : C.Failures (.thrown v) (.thrown v') :=
  ⟨congrArg Cause.thrown h.text, rfl, .some h, C.recoverable rfl⟩

theorem isFatal (h : C.Failures e e') : e.isFatal = e'.isFatal := congrArg Cause.isFatal h.cause

theorem isCatchable (h : C.Failures e e') : e.isCatchable = e'.isCatchable := by
  simp only [Failure.isCatchable, Failure.isEnclosed, h.isFatal, h.enclosures]

theorem disclose (h : C.Failures e e') : C.Failures e.disclose e'.disclose where
  cause := h.cause
  enclosures := congrArg (· - 1) h.enclosures
  value := h.value
  allowed := h.allowed

theorem payload (h : C.Failures e e') : C.values e.payload e'.payload := by
  have hmessage : C.values (.string e.message) (.string e'.message) := by
    rw [Failure.message, Failure.message, h.cause]
    exact .string _
  exact getD_alike h.value hmessage

end Failures

end Correspondence

/-- One output, or a failure. -/
def Outcome.single {α : Type} : Except Failure α → Outcome α
  | .ok a => .one a
  | .error e => .fail e

variable {C : Correspondence} {α β γ δ : Type} {R : α → β → Prop} {S : γ → δ → Prop}

/-- The watched run shows what the outcome is. A fatal failure is the last thing that is raised and
    ends the run at once. -/
inductive Watched.Shows (C : Correspondence) (R : α → β → Prop) : Watched α → Outcome β → Prop
  | done : Shows C R .done .done
  | next {a : α} {b : β} {w : Watched α} {o : Unit → Outcome β} :
    R a b → Shows C R w (o ()) → Shows C R (.next a w) (.next b o)
  | raised {e : Failure} {w : Watched α} {o : Outcome β} :
    e.isFatal = false → Shows C R w o → Shows C R (.raised e w) o
  | fail {e e' : Failure} : e.isFatal = false → C.Failures e e' → Shows C R (.fail e) (.fail e')
  | fatal {m e e' : Failure} : m.isFatal = true → m.cause = e.cause → C.Failures e e' →
    Shows C R (.raised m (.fail e)) (.fail e')
  | cut {m e : Failure} (o : Outcome β) : C.cut m.cause → m.cause = e.cause →
    Shows C R (.raised m (.fail e)) o

namespace Watched.Shows

variable {w : Watched α} {o : Outcome β}

/-! ### Outputs and failures -/

theorem one {a : α} {b : β} (h : R a b) : Shows C R (.one a) (.one b) := .next h .done

theorem ofList {as : List α} {bs : List β} (h : List.Forall₂ R as bs) :
    Shows C R (.ofList as) (.ofList bs) := by
  induction h with
  | nil => exact .done
  | cons h _ ih => exact .next h ih

/-- A failure of any kind that is raised on both sides. -/
theorem raise_alike {e e' : Failure} (h : C.Failures e e') :
    Shows C R (.raise e) (.fail e') := by
  cases he : e.isFatal with
  | false => exact .raised he (.fail he h)
  | true => exact .fatal he rfl h

/-- A recoverable failure that is raised on both sides. -/
theorem raise {cause : Cause} (h : cause.isFatal = false) :
    Shows C R (.raise (.of cause)) (.fail (.of cause)) := raise_alike (.of (C.recoverable h))

theorem of {r : Except Failure α} {r' : Except Failure β} (h : Matching R r r') :
    Shows C R (.of r) (.single r') := by
  cases h with
  | ok h => exact one h
  | error cause h => exact raise h
  | overflow => exact raise_alike (.of C.overflow)

/-! ### One run after the other -/

theorem append {more : Watched α} {more' : Unit → Outcome β} (h : Shows C R w o)
    (hmore : Shows C R more (more' ())) : Shows C R (w.append more) (o.append more') := by
  induction h with
  | done => exact hmore
  | next hab _ ih => exact .next hab ih
  | raised he _ ih => exact .raised he ih
  | fail he hee => exact .fail he hee
  | fatal hm hme hee => exact .fatal hm hme hee
  | cut o hm hme => exact .cut _ hm hme

theorem bind {f : α → Watched γ} {f' : β → Outcome δ} (h : Shows C R w o)
    (hf : ∀ a b, R a b → Shows C S (f a) (f' b)) : Shows C S (w.bind f) (o.bind f') := by
  induction h with
  | done => exact .done
  | next hab _ ih =>
    rw [Watched.bind, Outcome.next_bind]
    exact (hf _ _ hab).append ih
  | raised he _ ih => exact .raised he ih
  | fail he hee => exact .fail he hee
  | fatal hm hme hee => exact .fatal hm hme hee
  | cut o hm hme => exact .cut _ hm hme

/-- A run that gives one result, and what is made of it. -/
theorem bind_result {r : Except Failure β} {f : α → Watched γ} {f' : β → Outcome δ}
    {p : Outcome δ} (h : Shows C R w (.single r)) (hf : ∀ a b, R a b → Shows C S (f a) (f' b))
    (hok : ∀ b, r = .ok b → p = f' b) (herror : ∀ e, r = .error e → p = .fail e) :
    Shows C S (w.bind f) p := by
  have hbind := h.bind hf
  cases r with
  | ok b => rwa [Outcome.single, Outcome.one_bind, ← hok b rfl] at hbind
  | error e => rwa [herror e rfl]

theorem bind_single {r : Except Failure β} {f : α → Watched γ} {f' : β → Except Failure δ}
    (h : Shows C R w (.single r)) (hf : ∀ a b, R a b → Shows C S (f a) (.single (f' b))) :
    Shows C S (w.bind f) (.single (r >>= f')) := by
  have hbind := h.bind hf
  cases r with
  | ok b => rwa [Outcome.single, Outcome.one_bind] at hbind
  | error e => exact hbind

theorem bind_ofList {w : Watched (List α)} {r : Except Failure (List β)}
    (h : Shows C (List.Forall₂ R) w (.single r)) : Shows C R (w.bind .ofList) (.ofExcept r) := by
  have hbind := h.bind fun _ _ => ofList
  cases r with
  | ok bs => rwa [Outcome.single, Outcome.one_bind] at hbind
  | error e => exact hbind

theorem forEach {f : α → Watched γ} {f' : β → Except Failure δ}
    (hf : ∀ a b, R a b → Shows C S (f a) (.single (f' b))) {as : List α} {bs : List β}
    (h : List.Forall₂ R as bs) :
    Shows C (List.Forall₂ S) (.forEach f as) (.single (bs.mapM f')) := by
  induction h with
  | nil => exact one .nil
  | cons h _ ih =>
    rw [List.mapM_cons]
    exact (hf _ _ h).bind_single fun _ _ hc => ih.bind_single fun _ _ hcs => one (.cons hc hcs)

/-! ### Runs to the end -/

theorem settle_next (a : α) (w : Watched α) (further : Except Failure (List α) → Watched γ) :
    (Watched.next a w).settle further =
      w.settle fun r => further (r >>= fun as => .ok (a :: as)) := by
  rw [Watched.settle, Watched.result, plain, Outcome.collect_next]
  rfl

/-- Going on with all there is, where a fatal failure cannot be avoided. -/
theorem settle {further : Except Failure (List α) → Watched γ}
    {further' : Except Failure (List β) → Outcome δ} (h : Shows C R w o)
    (hok : ∀ as bs, List.Forall₂ R as bs → Shows C S (further (.ok as)) (further' (.ok bs)))
    (herror : ∀ e e', e.isFatal = false → C.Failures e e' →
      Shows C S (further (.error e)) (further' (.error e')))
    (hfatal : ∀ e, e.isFatal = true → further (.error e) = .fail e)
    (hfatal' : ∀ e, e.isFatal = true → further' (.error e) = .fail e) :
    Shows C S (w.settle further) (further' o.collect) := by
  induction h generalizing further further' with
  | done => exact hok [] [] .nil
  | next hab _ ih =>
    rw [settle_next, Outcome.collect_next]
    exact @ih _ (fun r => further' (r >>= fun bs => .ok (_ :: bs)))
      (fun as bs hs => hok _ _ (.cons hab hs)) herror hfatal hfatal'
  | raised he _ ih => exact .raised he (ih hok herror hfatal hfatal')
  | fail he hee => exact herror _ _ he hee
  | @fatal m e e' hm hme hee =>
    have he : e.isFatal = true := by rwa [Failure.isFatal, ← hme]
    have hends : (Watched.raised m (.fail e) : Watched α).settle further = .raised m (.fail e) :=
      congrArg (Watched.raised m) (hfatal e he)
    have hends' : further' (Outcome.fail e').collect = .fail e' :=
      hfatal' e' (by rwa [← hee.isFatal])
    rw [hends, hends']
    exact .fatal hm hme hee
  | @cut m e o hm hme =>
    have he : e.isFatal = true := by
      rw [Failure.isFatal, ← hme]
      exact C.cut_isFatal hm
    have hends : (Watched.raised m (.fail e) : Watched α).settle further = .raised m (.fail e) :=
      congrArg (Watched.raised m) (hfatal e he)
    rw [hends]
    exact .cut _ hm hme

theorem collected (h : Shows C R w o) :
    Shows C (List.Forall₂ R) w.collected (.single o.collect) :=
  h.settle (fun _ _ => one) (fun _ _ => .fail) (fun _ _ => rfl) (fun _ _ => rfl)

/-! ### Interception -/

theorem intercept {handler : Failure → Watched α} {handler' : Failure → Outcome β}
    (h : Shows C R w o)
    (hhandler : ∀ e e', C.Failures e e' → Shows C R (handler e) (handler' e')) :
    Shows C R (w.intercept handler) (o.intercept handler') := by
  induction h with
  | done => exact .done
  | next hab _ ih => exact .next hab ih
  | raised he _ ih => exact .raised he ih
  | fail he hee =>
    rw [Watched.intercept, Outcome.intercept, hee.isCatchable]
    split
    · exact hhandler _ _ hee
    · exact .fail he hee.disclose
  | @fatal m e e' hm hme hee =>
    have he : e.isFatal = true := by rwa [Failure.isFatal, ← hme]
    rw [Watched.intercept, Watched.intercept, Outcome.intercept, ← hee.isCatchable,
      Failure.isCatchable_of_isFatal he]
    exact .fatal hm hme hee.disclose
  | @cut m e o hm hme =>
    have he : e.isFatal = true := by
      rw [Failure.isFatal, ← hme]
      exact C.cut_isFatal hm
    rw [Watched.intercept, Watched.intercept, Failure.isCatchable_of_isFatal he]
    exact .cut _ hm hme

theorem guarded {optional : Bool} {r : Except Failure α} {r' : Except Failure β}
    {found : α → Watched Value} {found' : β → Outcome Value} {S : Value → Value → Prop}
    (h : Matching R r r') (hfound : ∀ a b, R a b → Shows C S (found a) (found' b)) :
    Shows C S (.guarded optional r found) (Run.guarded optional r' found') := by
  cases h with
  | ok h => exact hfound _ _ h
  | error cause h =>
    refine .raised h ?_
    rw [Run.guarded]
    split
    · exact .done
    · exact .fail h (.of (C.recoverable h))
  | overflow =>
    have hpasses : (Failure.of .overflow).isCatchable = false := rfl
    simp only [Watched.guarded, Run.guarded, hpasses, Bool.and_false, Bool.false_eq_true, if_false]
    exact .fatal rfl rfl (.of C.overflow)

end Watched.Shows

end JsonPipe
