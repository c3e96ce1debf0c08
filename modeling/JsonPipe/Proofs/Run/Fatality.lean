import JsonPipe.Proofs.Run.Lockstep

/-! What becomes of fatal failures.

    A fatal failure ends every run in which it is raised, wherever that is: inside `try` or `??`,
    under an optional selector, in an operand, an argument, a called function, a right side or the
    continuation (`fatal_surfaces`). So the limit of nested calls can only cut runs off. A run that
    does not come to the limit does not depend on it (`evaluate_eq_of_limit_le`). -/

namespace JsonPipe

/-! ### The same run twice -/

/-- Corresponding runs are the same, except that some fatal causes may cut off the first. -/
def Correspondence.identity (cut : Cause → Prop) (h : ∀ cause, cut cause → cause.isFatal = true) :
    Correspondence where
  programs := Eq
  functions := Eq
  scopes _ s s' := s = s'
  allowed _ := True
  cut := cut
  recoverable _ := trivial
  overflow := trivial
  cut_isFatal := h _
  same _ := rfl
  tracks := Pipeline.tracks_eq
  tail hs := hs
  part hs _ _ := hs
  bind := by
    rintro name body rest s _ v v' rfl hv
    rw [Value.eq_of_alike (fun _ _ h => h) hv]
  lookup := by
    rintro p name s _ rfl _
    cases s.lookup name with
    | none => exact .none
    | some v => exact .some (v.alike_self fun _ _ => rfl)
  closure hs _ hbody := by rw [hs, hbody]
  path _ _ _ := trivial
  enter h := ⟨_, _, h.symm, rfl, fun hargs => by rw [items_eq_of_alike (fun _ _ h => h) hargs]⟩
  builtin h := h.symm

namespace Correspondence.identity

variable {cut : Cause → Prop} {h : ∀ cause, cut cause → cause.isFatal = true}

theorem values_iff {v w : Value} : (identity cut h).values v w ↔ v = w := by
  constructor
  · exact Value.eq_of_alike fun _ _ h => h
  · rintro rfl
    exact v.alike_self fun _ _ => rfl

theorem lists_iff {vs ws : List Value} : (identity cut h).lists vs ws ↔ vs = ws := by
  constructor
  · exact items_eq_of_alike fun _ _ h => h
  · rintro rfl
    exact List.forall₂_same.2 fun _ _ => values_iff.2 rfl

theorem failures_iff {e e' : Failure} : (identity cut h).Failures e e' ↔ e = e' := by
  constructor
  · rintro ⟨hcause, henclosures, hvalue, -⟩
    obtain ⟨cause, value, enclosures⟩ := e
    obtain ⟨cause', value', enclosures'⟩ := e'
    obtain rfl : cause = cause' := hcause
    obtain rfl : enclosures = enclosures' := henclosures
    cases hvalue with
    | none => rfl
    | some hv => rw [values_iff.1 hv]
  · rintro rfl
    refine ⟨rfl, rfl, ?_, trivial⟩
    cases e.value with
    | none => exact .none
    | some v => exact .some (values_iff.2 rfl)

theorem dialogues_self (d : Dialogue) : (identity cut h).Dialogues d d := by
  induction d with
  | answer r =>
    cases r with
    | ok vs => exact .outputs (lists_iff.2 rfl)
    | error e => exact .failure (failures_iff.2 rfl)
  | call params body s input args => exact .call rfl (values_iff.2 rfl) (lists_iff.2 rfl)
  | andThen first further ih ihfurther =>
    refine .andThen ih fun vs vs' hvs => ?_
    obtain rfl := lists_iff.1 hvs
    exact ihfurther vs

/-- Every function does the same where all is the same. -/
theorem admits (host : Host) : (identity cut h).Admits host := by
  intro b _ input input' args args' hin hargs
  obtain rfl := values_iff.1 hin
  obtain rfl := lists_iff.1 hargs
  exact dialogues_self _

end Correspondence.identity

/-- Nothing cuts off a run that its counterpart would not see. -/
abbrev Correspondence.exact : Correspondence := identity (fun _ => False) Cause.isFatal_of_false

namespace Watched

open Correspondence (identity)

variable {α : Type}

namespace Shows

variable {w : Watched Value} {o : Outcome Value} {cut : Cause → Prop}
  {hcut : ∀ cause, cut cause → cause.isFatal = true}

/-- The same result on both sides. -/
theorem of_self (r : Except Failure (List Value)) :
    Shows (identity cut hcut) (identity cut hcut).lists (.of r) (.single r) := by
  cases r with
  | ok vs => exact one (identity.lists_iff.2 rfl)
  | error e => exact raise_alike (identity.failures_iff.2 rfl)

/-- A run that is not cut off is, without the watch, the run that it corresponds to. -/
theorem plain_eq (h : Shows (identity cut hcut) (identity cut hcut).values w o)
    (huncut : ∀ e, w.plain.failure = some e → ¬ cut e.cause) : w.plain = o := by
  induction h with
  | done => rfl
  | next hab _ ih =>
    rw [plain, ih huncut, identity.values_iff.1 hab]
  | raised _ _ ih => exact ih huncut
  | fail _ hee => rw [plain, identity.failures_iff.1 hee]
  | fatal _ _ hee => rw [plain, plain, identity.failures_iff.1 hee]
  | @cut m e _ hm hme =>
    refine absurd hm ?_
    rw [hme]
    exact huncut e rfl

/-- The fatal causes that are raised are those that the run ends in. -/
theorem raised_iff {C : Correspondence} (hC : ∀ cause, ¬ C.cut cause)
    (h : Shows C C.values w o) {cause : Cause} (hcause : cause.isFatal = true) :
    (∃ e ∈ w.failures, e.cause = cause) ↔ ∃ e, o.failure = some e ∧ e.cause = cause := by
  have hother : ∀ e : Failure, e.isFatal = false → e.cause ≠ cause := by
    rintro e he rfl
    rw [Failure.isFatal, hcause] at he
    cases he
  induction h with
  | done => simp [failures, Outcome.failure]
  | next _ _ ih => exact ih
  | @raised m w o hm _ ih =>
    rw [failures, List.exists_mem_cons_iff]
    exact (or_iff_right (hother m hm)).trans ih
  | @fail e e' he hee =>
    have he' : e'.cause ≠ cause := hee.cause ▸ hother e he
    simp [failures, Outcome.failure, he']
  | fatal _ hme hee => simp [failures, Outcome.failure, ← hee.cause, hme]
  | cut _ hm _ => exact absurd hm (hC _)

end Shows

/-- The watch is kept over a run with the given result: the fatal failures that are raised in the
    run are the one that it ends in, if it ends in one. -/
structure Surfaces (w : Watched Value) (r : Except Failure (List Value)) : Prop where
  result_eq : w.result = r
  raised_iff (cause : Cause) : cause.isFatal = true →
    ((∃ e ∈ w.failures, e.cause = cause ∧ e.message = cause.message) ↔
      ∃ e, r = .error e ∧ e.cause = cause ∧ e.message = cause.message)

theorem Shows.surfaces {w : Watched Value} {o : Outcome Value}
    (h : Shows .exact Correspondence.exact.values w o) : w.Surfaces o.collect where
  result_eq := by
    rw [result, h.plain_eq fun _ _ => id]
  raised_iff cause hcause := by
    have hmessage : ∀ e : Failure, (e.cause = cause ∧ e.message = cause.message) ↔
        e.cause = cause := fun e => and_iff_left_of_imp fun he => by rw [Failure.message, he]
    have hend : ∀ e, o.collect = .error e ↔ o.failure = some e := by
      intro e
      rw [Outcome.collect_eq]
      cases o.failure with
      | none => simp
      | some e' => simp
    simp only [hmessage, hend]
    exact h.raised_iff (fun _ => id) hcause

end Watched

namespace Outcome

variable {α β : Type}

/-- Feeding outputs on and collecting is handing them to what is collected. -/
theorem collect_bind (o : Outcome α) (f : α → Outcome β) :
    (o.bind f).collect = o.each fun a => (f a).collect := by
  induction o with
  | done => rfl
  | fail e => rfl
  | next a rest ih =>
    simp only [each] at ih
    simp only [each, next_bind, collect_append, ih, collect_ofExcept]

theorem each_ofList (as : List α) (f : α → Except Failure (List β)) :
    (ofList as).each f = fanOut as f := by
  rw [each_eq, outputs_ofList, failure_ofList]
  cases fanOut as f <;> rfl

end Outcome

/-! ### Whole runs -/

namespace Host

open Correspondence (identity)

variable (host : Host) (limit : Nat)

theorem watch_shows (p : Pipeline) (scope : Scope) (input : Value) :
    Watched.Shows .exact Correspondence.exact.values (host.watch limit p scope input)
      (Run.pipeline (host.call limit) p scope input) :=
  Watch.watch_shows (identity.admits host) (.inr ⟨rfl, trivial⟩) rfl (identity.values_iff.2 rfl)

theorem watchEach_shows (p : Pipeline) (scope : Scope) (inputs : List Value)
    (next : Value → Except Failure (List Value)) :
    Watched.Shows .exact Correspondence.exact.values (host.watchEach limit p scope inputs next)
      ((Outcome.ofList inputs).bind fun input =>
        (Run.pipeline (host.call limit) p scope input).bind fun v => .ofExcept (next v)) := by
  have hinputs : Correspondence.exact.lists inputs inputs := identity.lists_iff.2 rfl
  refine (Watched.Shows.ofList hinputs).bind fun input input' hin => ?_
  obtain rfl := identity.values_iff.1 hin
  refine (host.watch_shows limit p scope input).bind fun v v' hv => ?_
  obtain rfl := identity.values_iff.1 hv
  exact (Watched.Shows.of_self (next v)).bind_ofList

theorem execute_eq (p : Pipeline) (scope : Scope) (inputs : List Value)
    (next : Value → Except Failure (List Value)) :
    host.execute limit p scope inputs next = Outcome.collect
      ((Outcome.ofList inputs).bind fun input =>
        (Run.pipeline (host.call limit) p scope input).bind fun v => .ofExcept (next v)) := by
  have hdeliver : ∀ input, Feed.deliver (host.call limit) p scope input next =
      ((Run.pipeline (host.call limit) p scope input).bind fun v => .ofExcept (next v)).collect :=
    fun input => Feed.deliver_eq (host.call limit) p scope input next
  rw [Outcome.collect_bind, Outcome.each_ofList]
  simp only [← hdeliver]
  rfl

theorem watchCall_shows (f input : Value) (args : List Value) :
    Watched.Shows .exact Correspondence.exact.values (host.watchCall limit f input args)
      (.ofExcept (host.callValue limit f input args)) := by
  cases f with
  | function f =>
    exact (Watch.call_shows (identity.admits host) (.inr ⟨rfl, trivial⟩) rfl
      (identity.values_iff.2 rfl) (identity.lists_iff.2 rfl)).bind_ofList
  | _ => exact .raise rfl

end Host

/-- Fatal failures are never swallowed. A run under watch comes to the result of the run itself,
    and a fatal failure is raised in it, at any point, if and only if that result is a failure with
    the same cause and message. This holds for every evaluation, for every run on several inputs
    with any continuation, and for every call, whatever functions the host provides. -/
theorem fatal_surfaces (host : Host) (limit : Nat) :
    (∀ (p : Pipeline) (scope : Scope) (input : Value),
      (host.watch limit p scope input).Surfaces (host.evaluate limit p scope input)) ∧
    (∀ (p : Pipeline) (scope : Scope) (inputs : List Value)
        (next : Value → Except Failure (List Value)),
      (host.watchEach limit p scope inputs next).Surfaces
        (host.execute limit p scope inputs next)) ∧
    ∀ (f input : Value) (args : List Value),
      (host.watchCall limit f input args).Surfaces (host.callValue limit f input args) := by
  refine ⟨fun p scope input => ?_, fun p scope inputs next => ?_, fun f input args => ?_⟩
  · have h := (host.watch_shows limit p scope input).surfaces
    rwa [← Feed.evaluate_eq] at h
  · have h := (host.watchEach_shows limit p scope inputs next).surfaces
    rwa [← host.execute_eq] at h
  · have h := (host.watchCall_shows limit f input args).surfaces
    rwa [Outcome.collect_ofExcept] at h

/-- `func spin(f): f(f)`, in scope under its name. -/
def spinning : Scope :=
  [[("spin", .function (.closure ["f"]
    [.access [.variable "f"] [.call [[.variable "f"]] false false]] []))]]

/-- `(try spin(spin)? catch null) ?? null` -/
def spinGuarded : Pipeline :=
  [.coalesce [
    [.attempt [.access [.variable "spin"] [.call [[.variable "spin"]] false true]] [.null]],
    [.null]]]

/-- A call that never ends is not caught, and nothing is put in its place. -/
theorem fatal_surfaces_spin :
    spinGuarded.evaluate 2 spinning .null = .error (.of (.stackOverflow 2)) ∧
      ∃ e ∈ (Host.builtins.watch 2 spinGuarded spinning .null).failures,
        e.cause = .stackOverflow 2 := by
  have h : spinGuarded.evaluate 2 spinning .null = .error (.of (.stackOverflow 2)) := rfl
  have hsurfaces := (fatal_surfaces .builtins 2).1 spinGuarded spinning .null
  rw [Host.builtins_evaluate] at hsurfaces
  obtain ⟨e, he, hcause, -⟩ := (hsurfaces.raised_iff (.stackOverflow 2) rfl).2 ⟨_, h, rfl, rfl⟩
  exact ⟨h, e, he, hcause⟩

/-! ### The limit of nested calls -/

/-- A higher limit of nested calls changes nothing about an evaluation that a lower one does not
    cut off: the outputs are the same, or the failure is. -/
theorem evaluate_eq_of_limit_le (host : Host) {limit limit' : Nat} (hle : limit ≤ limit')
    (p : Pipeline) (scope : Scope) (input : Value)
    (h : ¬ ∃ e n, host.evaluate limit p scope input = .error e ∧ e.cause = .stackOverflow n) :
    host.evaluate limit' p scope input = host.evaluate limit p scope input := by
  obtain ⟨extra, rfl⟩ := Nat.exists_eq_add_of_le hle
  -- The lower limit cuts off the first of two runs that are the same otherwise.
  let C := Correspondence.identity (· = .stackOverflow limit) (by rintro _ rfl; rfl)
  have hshows : Watched.Shows C C.values (host.watch limit p scope input)
      (Run.pipeline (host.call (limit + extra)) p scope input) :=
    Watch.watch_shows (C := C) (Correspondence.identity.admits host) (.inl rfl) rfl
      (Correspondence.identity.values_iff.2 rfl)
  have hplain : (host.watch limit p scope input).plain =
      Run.pipeline (host.call limit) p scope input :=
    (host.watch_shows limit p scope input).plain_eq fun _ _ => id
  have hsame : Run.pipeline (host.call limit) p scope input =
      Run.pipeline (host.call (limit + extra)) p scope input := by
    rw [← hplain]
    refine hshows.plain_eq fun e he hcut => h ⟨e, limit, ?_, hcut⟩
    rw [hplain] at he
    rw [Host.evaluate, Feed.evaluate_eq, Outcome.collect_eq, he]
  rw [Host.evaluate, Host.evaluate, Feed.evaluate_eq, Feed.evaluate_eq, hsame]

/-- `(func(x): x)(.)` -/
def callOnce : Pipeline := [.access [.function ["x"] [.variable "x"]] [.call [[]] false false]]

/-- One call fits under every limit but zero. -/
theorem evaluate_eq_of_limit_le_callOnce :
    callOnce.evaluate 1 [] .null = .ok [.null] ∧
      callOnce.evaluate 4096 [] .null = callOnce.evaluate 1 [] .null := by
  have h : callOnce.evaluate 1 [] .null = .ok [.null] := rfl
  have hsame := evaluate_eq_of_limit_le .builtins (show 1 ≤ 4096 by decide) callOnce [] .null
  simp only [Host.builtins_evaluate, h] at hsame
  refine ⟨h, (hsame ?_).trans h.symm⟩
  rintro ⟨e, n, he, -⟩
  cases he

end JsonPipe
