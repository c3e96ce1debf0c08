import JsonPipe.Proofs.Run.Termination

/-! One machine for many requests.

    Between two requests the count of calls is all that a machine keeps. The count is the number of
    bodies that something waits for (`Balanced`), which every step preserves, so it is zero whenever
    nothing waits any more, whatever has failed on the way. A machine that has served requests is
    therefore a fresh one. -/

namespace JsonPipe

/-- How many calls wait for the end of their body. -/
def Waiting.calls : List Waiting → Nat
  | [] => 0
  | .further _ :: waiting => calls waiting
  | .body :: waiting => calls waiting + 1

namespace Machine

variable {natives : Natives} {limit : Nat}

/-! ### The count of calls -/

/-- The count is the number of calls under way, and within the limit. -/
structure Balanced (limit : Nat) (m : Machine) : Prop where
  depth_eq : m.depth = Waiting.calls m.waiting
  depth_le : m.depth ≤ limit

theorem balanced_start (t : Task) : Balanced limit (start 0 t) := ⟨rfl, Nat.zero_le limit⟩

theorem Balanced.resume {depth : Nat} {waiting : List Waiting} {t : Task}
    (h : Balanced limit ⟨depth, waiting, t⟩) (e : Ending) :
    Balanced limit (resume depth waiting e) := by
  obtain ⟨hcount, hle⟩ := h
  match waiting with
  | [] => exact ⟨hcount, hle⟩
  | .further k :: waiting => exact ⟨hcount, hle⟩
  | .body :: waiting =>
    simp only [Waiting.calls] at hcount
    refine ⟨?_, ?_⟩
    · simp only [Machine.resume]
      omega
    · simp only [Machine.resume] at hle ⊢
      omega

theorem Balanced.call {depth : Nat} {waiting : List Waiting} {t : Task}
    (h : Balanced limit ⟨depth, waiting, t⟩) (f : Function) (input : Value) (args : List Value) :
    Balanced limit (call natives limit depth waiting f input args) := by
  obtain ⟨hcount, hle⟩ := h
  cases f with
  | builtin b => exact ⟨hcount, hle⟩
  | closure params body scope =>
    rw [Machine.call]
    split
    · exact ⟨congrArg (· + 1) hcount, by assumption⟩
    · exact ⟨hcount, hle⟩

/-- A step enters a call and counts it, leaves a call and takes it off, or does neither. -/
theorem Balanced.step {m : Machine} (h : Balanced limit m) :
    Balanced limit (step natives limit m) := by
  obtain ⟨depth, waiting, t⟩ := m
  cases t with
  | ended e => exact h.resume e
  | andThen first further => exact ⟨h.depth_eq, h.depth_le⟩
  | call f input args => exact h.call f input args
  | _ => exact ⟨h.depth_eq, h.depth_le⟩

theorem Balanced.iterate {m : Machine} (h : Balanced limit m) (n : Nat) :
    Balanced limit ((Machine.step natives limit)^[n] m) := by
  induction n with
  | zero => exact h
  | succ n ih =>
    rw [Function.iterate_succ_apply']
    exact ih.step

/-! ### What a machine comes to -/

/-- The machine comes to the end of a task; nothing waits any more. -/
def Ends (natives : Natives) (limit depth : Nat) (t : Task) (depth' : Nat) (e : Ending) : Prop :=
  ∃ n, (step natives limit)^[n] (start depth t) = start depth' (.ended e)

theorem step_ended (depth : Nat) (e : Ending) :
    step natives limit (start depth (.ended e)) = start depth (.ended e) := rfl

/-- The machine comes to one end only. -/
theorem Ends.unique {depth d d' : Nat} {t : Task} {e e' : Ending}
    (h : Ends natives limit depth t d e) (h' : Ends natives limit depth t d' e') : e = e' := by
  obtain ⟨n, hn⟩ := h
  obtain ⟨m, hm⟩ := h'
  -- the run that stops first stays where it is until the other one stops
  have hboth : start d (.ended e) = start d' (.ended e') := by
    rcases Nat.le_total n m with hle | hle
    · obtain ⟨k, rfl⟩ := Nat.exists_eq_add_of_le' hle
      rw [Function.iterate_add_apply, hn, Function.iterate_fixed (step_ended d e)] at hm
      exact hm
    · obtain ⟨k, rfl⟩ := Nat.exists_eq_add_of_le' hle
      rw [Function.iterate_add_apply, hm, Function.iterate_fixed (step_ended d' e')] at hn
      exact hn.symm
  exact Task.ended.inj (congrArg Machine.task hboth)

theorem Ends.depth_eq {depth : Nat} {t : Task} {e : Ending} (h : Ends natives limit 0 t depth e) :
    depth = 0 := by
  obtain ⟨n, hn⟩ := h
  have hbalanced : Balanced limit (start depth (.ended e)) := by
    rw [← hn]
    exact (balanced_start t).iterate n
  exact hbalanced.depth_eq

theorem Comes.ends {depth : Nat} {t : Task} {o : Outcome Value}
    (h : Comes natives limit depth t o) : Ends natives limit depth t depth o.ending := by
  obtain ⟨n, hn⟩ := h
  exact ⟨n, hn []⟩

/-! ### Requests -/

/-- The machine answers requests one after the other. Each starts as deep as the one before has
    ended. -/
inductive Serves (natives : Natives) (limit : Nat) :
    Nat → List Request → List (Except Failure (List Value)) → Nat → Prop
  | nil (depth : Nat) : Serves natives limit depth [] [] depth
  | cons {depth depth' depth'' : Nat} {r : Request} {rs : List Request} {e : Ending}
      {answers : List (Except Failure (List Value))}
      (first : Ends natives limit depth r.task depth' e)
      (rest : Serves natives limit depth' rs answers depth'') :
      Serves natives limit depth (r :: rs) (e.result :: answers) depth''

/-- A fresh machine answers a request. -/
def AnswersFresh (natives : Natives) (limit : Nat) (r : Request)
    (a : Except Failure (List Value)) : Prop :=
  ∃ depth e, Ends natives limit 0 r.task depth e ∧ e.result = a

/-- What the rules give for a request. -/
inductive Due (limit : Nat) : Request → Except Failure (List Value) → Prop
  | evaluate (p : Pipeline) (scope : Scope) (input : Value) :
      Due limit (.evaluate p scope input) (p.evaluate limit scope input)
  | execute (p : Pipeline) (scope : Scope) (inputs : List Value)
      (next : Value → Except Failure (List Value)) :
      Due limit (.execute p scope inputs fun v => .ofResult (next v))
        (p.execute limit scope inputs next)
  | call (f : Function) (input : Value) (args : List Value) :
      Due limit (.call f input args) (Run.call limit f input args)

theorem Serves.fresh {requests : List Request} {answers : List (Except Failure (List Value))}
    {before depth : Nat} (h : Serves natives limit before requests answers depth)
    (hzero : before = 0) :
    depth = 0 ∧
      List.Forall₂ (fun r a => ∀ b, AnswersFresh natives limit r b ↔ b = a) requests answers := by
  induction h with
  | nil depth => exact ⟨hzero, .nil⟩
  | cons first rest ih =>
    subst hzero
    obtain ⟨hdepth, hanswers⟩ := ih first.depth_eq
    refine ⟨hdepth, .cons (fun b => ⟨?_, ?_⟩) hanswers⟩
    · rintro ⟨d, e, he, rfl⟩
      rw [he.unique first]
    · rintro rfl
      exact ⟨_, _, first, rfl⟩

/-- The machine comes to what is due. -/
theorem Due.ends {r : Request} {a : Except Failure (List Value)} (h : Due limit r a) :
    ∃ e, Ends Builtin.task limit 0 r.task 0 e ∧ e.result = a := by
  have hcall := answers_call limit
  cases h with
  | evaluate p scope input =>
    exact ⟨_, ((runs hcall p).alone scope input).ends, Outcome.result_ending _⟩
  | execute p scope inputs next =>
    have heach := Comes.each (fun v => runs hcall p scope v fun w => .ofResult (next w)) inputs
    refine ⟨_, heach.ends, ?_⟩
    rw [Outcome.result_ending, Outcome.collect_bind, Outcome.each_ofList]
    rfl
  | call f input args =>
    refine ⟨_, (hcall f input args).ends, ?_⟩
    rw [Outcome.result_ending, Outcome.collect_ofExcept]

theorem serves_due {requests : List Request} {answers : List (Except Failure (List Value))}
    (h : List.Forall₂ (Due limit) requests answers) :
    Serves Builtin.task limit 0 requests answers 0 := by
  induction h with
  | nil => exact .nil 0
  | cons hdue _ ih =>
    obtain ⟨e, hends, rfl⟩ := hdue.ends
    exact .cons hends ih

end Machine

/-! ### Batches -/

theorem bind_eq_ok_iff {α β : Type} {r : Except Failure α} {f : α → Except Failure β} {b : β} :
    (r >>= f) = .ok b ↔ ∃ a, r = .ok a ∧ f a = .ok b := by
  cases r with
  | error e => simp [bind, Except.bind]
  | ok a => simp [bind, Except.bind]

theorem fanOut_cons {α β : Type} (a : α) (as : List α) (next : α → Except Failure (List β)) :
    fanOut (a :: as) next = next a >>= fun bs => fanOut as next >>= fun cs => .ok (bs ++ cs) := by
  rw [fanOut, List.mapM_cons, fanOut]
  cases next a with
  | error e => rfl
  | ok bs => cases as.mapM next <;> rfl

/-- Something is related to every element of a list, if a list is related to it. -/
theorem exists_forall₂ {α β : Type} {R : α → β → Prop} (as : List α) :
    (∃ bs, List.Forall₂ R as bs) ↔ ∀ a ∈ as, ∃ b, R a b := by
  induction as with
  | nil => simp
  | cons a as ih =>
    rw [List.forall_mem_cons, ← ih]
    constructor
    · rintro ⟨_, hbs⟩
      cases hbs with
      | cons hb hbs => exact ⟨⟨_, hb⟩, ⟨_, hbs⟩⟩
    · rintro ⟨⟨b, hb⟩, ⟨bs, hbs⟩⟩
      exact ⟨b :: bs, .cons hb hbs⟩

namespace Program

variable (p : Program)

/-- A batch is one request: the outputs of all inputs, one input after the other. -/
theorem runBatch_array (inputs : List Json) :
    p.runBatch (.array inputs) =
      fanOut (Json.toValues inputs) p.run >>= fun outputs => outputs.mapM Value.toJson := rfl

theorem runJson_eq_ok (j : Json) (part : List Json) :
    p.runJson j = .ok part ↔
      ∃ vs, p.run j.toValue = .ok vs ∧ vs.mapM Value.toJson = .ok part :=
  bind_eq_ok_iff

theorem runBatch_eq_ok (inputs outputs : List Json) :
    p.runBatch (.array inputs) = .ok outputs ↔
      ∃ parts, List.Forall₂ (fun j part => p.runJson j = .ok part) inputs parts ∧
        outputs = parts.flatten := by
  rw [runBatch_array]
  induction inputs generalizing outputs with
  | nil =>
    simp only [List.forall₂_nil_left_iff, exists_eq_left]
    exact ⟨fun h => (Except.ok.inj h).symm, fun h => by rw [h]; rfl⟩
  | cons j inputs ih =>
    -- an input succeeds if it runs and its own outputs can be handed over
    simp only [bind_eq_ok_iff] at ih
    simp only [Json.toValues, fanOut_cons, bind_eq_ok_iff, Except.ok.injEq,
      List.forall₂_cons_left_iff]
    constructor
    · rintro ⟨_, ⟨vs, hvs, ws, hws, rfl⟩, hall⟩
      rw [List.mapM_append, bind_eq_ok_iff] at hall
      obtain ⟨part, hpart, hrest⟩ := hall
      obtain ⟨more, hmore, hjoin⟩ := bind_eq_ok_iff.1 hrest
      obtain ⟨parts, hparts, rfl⟩ := (ih more).1 ⟨ws, hws, hmore⟩
      have hj : p.runJson j = .ok part := (p.runJson_eq_ok j part).2 ⟨vs, hvs, hpart⟩
      exact ⟨_, ⟨part, parts, hj, hparts, rfl⟩, (Except.ok.inj hjoin).symm⟩
    · rintro ⟨_, ⟨part, parts, hj, hparts, rfl⟩, rfl⟩
      obtain ⟨vs, hvs, hpart⟩ := (p.runJson_eq_ok j part).1 hj
      obtain ⟨ws, hws, hmore⟩ := (ih parts.flatten).2 ⟨parts, hparts, rfl⟩
      refine ⟨vs ++ ws, ⟨vs, hvs, ws, hws, rfl⟩, ?_⟩
      rw [List.mapM_append, hpart, hmore]
      rfl

end Program

namespace Machine

/-- A machine carries nothing from one request to the next, whatever the functions of its host do
    and wherever a request fails. After any requests the count of calls is zero; it stays within the
    limit at every moment of the next one; and each answer is the one that a fresh machine comes to.
    With the builtins every request is answered, as the rules have it. So a batch, which is one
    request, succeeds if every input succeeds by itself, and then gives all outputs in order. -/
theorem requests_independent (natives : Natives) (limit : Nat) :
    (∀ requests answers depth, Serves natives limit 0 requests answers depth →
      depth = 0 ∧
      (∀ (r : Request) (n : Nat), ((step natives limit)^[n] (start depth r.task)).depth ≤ limit) ∧
      List.Forall₂ (fun r a => ∀ b, AnswersFresh natives limit r b ↔ b = a) requests answers) ∧
    (∀ requests answers, List.Forall₂ (Due limit) requests answers →
      Serves Builtin.task limit 0 requests answers 0) ∧
    ∀ (p : Program) (inputs : List Json),
      ((∃ outputs, p.runBatch (.array inputs) = .ok outputs) ↔
        ∀ j ∈ inputs, ∃ outputs, p.runJson j = .ok outputs) ∧
      ∀ outputs, p.runBatch (.array inputs) = .ok outputs →
        ∃ parts, List.Forall₂ (fun j part => p.runJson j = .ok part) inputs parts ∧
          outputs = parts.flatten := by
  refine ⟨?_, fun _ _ => serves_due, ?_⟩
  · intro requests answers depth h
    obtain ⟨rfl, hanswers⟩ := h.fresh rfl
    exact ⟨rfl, fun r n => ((balanced_start r.task).iterate n).depth_le, hanswers⟩
  · intro p inputs
    refine ⟨?_, fun outputs => (p.runBatch_eq_ok inputs outputs).1⟩
    rw [← exists_forall₂]
    constructor
    · rintro ⟨outputs, h⟩
      obtain ⟨parts, hparts, -⟩ := (p.runBatch_eq_ok inputs outputs).1 h
      exact ⟨parts, hparts⟩
    · rintro ⟨parts, hparts⟩
      exact ⟨_, (p.runBatch_eq_ok inputs _).2 ⟨parts, hparts, rfl⟩⟩

/-- A call that fails at the limit, then a call that needs all of it; and a batch of two inputs with
    two outputs each. -/
theorem requests_independent_overflow :
    let nested : Function :=
      .closure ["f"] [.access [.variable "f"] [.call [[.variable "f"]] false false]] []
    let shallow : Request := .call (.closure [] [] []) .null []
    let twice : Program := ⟨[.concat [[], []]], [], 1⟩
    Serves Builtin.task 1 0 [.call nested .null [.function nested], shallow]
        [.error (.of (.stackOverflow 1)), .ok [.null]] 0 ∧
      (∀ b, AnswersFresh Builtin.task 1 shallow b ↔ b = .ok [.null]) ∧
      ∃ parts, List.Forall₂ (fun j part => twice.runJson j = .ok part) [.null, .bool true] parts ∧
        [.null, .null, .bool true, .bool true] = parts.flatten := by
  intro nested shallow twice
  obtain ⟨hfresh, hserves, hbatch⟩ := requests_independent Builtin.task 1
  have h : Serves Builtin.task 1 0 [.call nested .null [.function nested], shallow]
      [.error (.of (.stackOverflow 1)), .ok [.null]] 0 :=
    hserves _ _ (.cons (.call nested .null [.function nested])
      (.cons (.call (.closure [] [] []) .null []) .nil))
  obtain ⟨-, -, hanswers⟩ := hfresh _ _ _ h
  refine ⟨h, ?_, (hbatch twice [.null, .bool true]).2 _ rfl⟩
  cases hanswers with
  | cons _ hrest =>
    cases hrest with
    | cons hshallow _ => exact hshallow

end Machine

end JsonPipe
