import JsonPipe.Proofs.Run.Continuation
import JsonPipe.Proofs.Run.Host

/-! Corresponding runs go the same way.

    By induction over the program: if the operands of an instruction are run the same way, then so
    is the instruction, given that calls of functions are. What corresponds in the scopes, values
    and failures of the two runs is not looked at here, beyond the laws that every correspondence
    has. -/

namespace JsonPipe

variable {C : Correspondence} {call : WatchedCall} {call' : Call} {s s' : Scope}

/-- Calls on the two sides go the same way. -/
def Correspondence.Calls (C : Correspondence) (call : WatchedCall) (call' : Call) : Prop :=
  ∀ {f f' : Function} {input input' : Value} {args args' : List Value}, C.functions f f' →
    C.values input input' → C.lists args args' →
      Watched.Shows C C.lists (call f input args) (.single (call' f' input' args'))

/-- Two pipelines go the same way in two scopes, from every input. -/
def Correspondence.Runs (C : Correspondence) (call : WatchedCall) (call' : Call) (s s' : Scope)
    (p q : Pipeline) : Prop :=
  ∀ {v v' : Value}, C.values v v' →
    Watched.Shows C C.values (Watch.pipeline call p s v) (Run.pipeline call' q s' v')

/-- What `??` makes of an operand that is not the last, given what the others give. -/
def Run.firstPresent (rest : Outcome Value) : Except Failure (List Value) → Outcome Value
  | .ok values =>
    match values.filter fun v => !v.isNull with
    | [] => rest
    | present => .ofList present
  | .error e => if e.isCatchable then rest else .fail e

theorem Run.coalesce_cons (p q : Pipeline) (qs : List Pipeline) (input : Value) :
    coalesce call' (p :: q :: qs) s input =
      firstPresent (coalesce call' (q :: qs) s input) (pipeline call' p s input).collect := by
  simp only [coalesce]
  cases (pipeline call' p s input).collect <;> rfl

namespace Watch

open Watched (Shows)

variable {input input' : Value}

/-! ### Operands that are run to the end -/

theorem operands_shows {ps qs : List Pipeline} (h : List.Forall₂ (C.Runs call call' s s') ps qs)
    (hin : C.values input input') :
    Shows C (List.Forall₂ C.lists) (operands call ps s input)
      (.single (Run.operands call' qs s' input')) := by
  induction h with
  | nil =>
    rw [operands, Run.operands]
    exact .one .nil
  | cons hp _ ih =>
    rw [operands, Run.operands]
    exact (hp hin).collected.bind_single fun _ _ hvs => ih.bind_single fun _ _ hlists =>
      .one (.cons hvs hlists)

theorem texts_shows {parts parts' : List (String × Pipeline)}
    (h : List.Forall₂ (Prod.RProd Eq (C.Runs call call' s s')) parts parts')
    (hin : C.values input input') :
    Shows C Eq (texts call parts s input) (.single (Run.texts call' parts' s' input')) := by
  induction h with
  | nil =>
    rw [texts, Run.texts]
    exact .one rfl
  | cons hpart _ ih =>
    obtain ⟨⟨⟩, hp⟩ := hpart
    rw [texts, Run.texts]
    refine (hp hin).collected.bind_single fun vs vs' hvs => ih.bind_single ?_
    rintro lists _ rfl
    have htexts : ∀ before : String,
        vs.map (fun v => before ++ v.text) = vs'.map (fun v => before ++ v.text) := by
      intro before
      induction hvs with
      | nil => rfl
      | cons hv _ ih => rw [List.map_cons, List.map_cons, hv.text, ih]
    exact .one (congrArg (· :: lists) (htexts _))

theorem choices_shows {fields fields' : List (Field Pipeline)}
    (h : List.Forall₂ (Field.Alike (C.Runs call call' s s')) fields fields')
    (hin : C.values input input') :
    Shows C (List.Forall₂ (List.Forall₂ (Run.EntryAlike C.functions))) (choices call fields s input)
      (.single (Run.choices call' fields' s' input')) := by
  induction h with
  | nil =>
    rw [choices, Run.choices]
    exact .one .nil
  | cons hfield _ ih =>
    obtain ⟨optional, hkey, hvalue⟩ := hfield
    rw [choices, Run.choices]
    exact (hkey hin).collected.bind_single fun _ _ hks =>
      (hvalue hin).collected.bind_single fun _ _ hvs =>
        (Shows.of (Run.fieldChoices_alike optional hks hvs)).bind_single fun _ _ hentries =>
          ih.bind_single fun _ _ hlists => .one (.cons hentries hlists)

/-! ### Operands that are run one output at a time -/

theorem calculate_shows {steps steps' : List (ArithmeticOp × Pipeline)}
    (h : List.Forall₂ (Prod.RProd Eq (C.Runs call call' s s')) steps steps')
    (hin : C.values input input') {v v' : Value} (hv : C.values v v') :
    Shows C C.values (calculate call steps s input v)
      (Run.calculate call' steps' s' input' v') := by
  induction h generalizing v v' with
  | nil =>
    rw [calculate, Run.calculate]
    exact .one hv
  | cons hstep _ ih =>
    obtain ⟨⟨⟩, hp⟩ := hstep
    rw [calculate, Run.calculate]
    exact (hp hin).bind fun _ _ hw => (Shows.of (ArithmeticOp.apply_alike _ hv hw)).bind_result
      (fun _ _ hu => ih hu) (fun _ hr => by rw [hr]) (fun _ hr => by rw [hr])

theorem compareSteps_shows {steps steps' : List (ComparisonOp × Pipeline)}
    (h : List.Forall₂ (Prod.RProd Eq (C.Runs call call' s s')) steps steps')
    (hin : C.values input input') {v v' : Value} (hv : C.values v v') :
    Shows C C.values (compareSteps call steps s input v)
      (Run.compareSteps call' steps' s' input' v') := by
  induction h generalizing v v' with
  | nil =>
    rw [compareSteps, Run.compareSteps]
    exact .one hv
  | cons hstep _ ih =>
    obtain ⟨⟨⟩, hp⟩ := hstep
    rw [compareSteps, Run.compareSteps]
    refine (hp hin).bind fun _ _ hw => ?_
    rw [ComparisonOp.apply_alike _ hv hw]
    exact ih (.bool _)

theorem branches_shows {arms arms' : List (Pipeline × Pipeline)}
    (h : List.Forall₂ (Prod.RProd (C.Runs call call' s s') (C.Runs call call' s s')) arms arms')
    (hin : C.values input input') {otherwise : Watched Value}
    {otherwise' : Unit → Outcome Value} (ho : Shows C C.values otherwise (otherwise' ())) :
    Shows C C.values (branches call arms s input otherwise)
      (Run.branches call' arms' s' input' otherwise') := by
  induction h with
  | nil =>
    rw [branches, Run.branches]
    exact ho
  | cons harm _ ih =>
    obtain ⟨hcondition, hbody⟩ := harm
    rw [branches, Run.branches]
    refine (hcondition hin).bind fun c c' hcc => ?_
    rw [hcc.isTruthy]
    split
    · exact hbody hin
    · exact ih

theorem connective_shows {ps qs : List Pipeline} (h : List.Forall₂ (C.Runs call call' s s') ps qs)
    (decisive : Bool) (hin : C.values input input') :
    Shows C C.values (connective call decisive ps s input)
      (Run.connective call' decisive qs s' input') := by
  induction h with
  | nil =>
    rw [connective, Run.connective]
    exact .one (.bool _)
  | cons hp _ ih =>
    rw [connective, Run.connective]
    refine (hp hin).bind fun v v' hv => ?_
    rw [hv.isTruthy]
    split
    · exact .one (.bool _)
    · exact ih

theorem coalesce_shows {ps qs : List Pipeline} (h : List.Forall₂ (C.Runs call call' s s') ps qs)
    (hin : C.values input input') :
    Shows C C.values (coalesce call ps s input) (Run.coalesce call' qs s' input') := by
  induction h with
  | nil =>
    rw [coalesce, Run.coalesce]
    exact .one .null
  | cons hp hrest ih =>
    cases hrest with
    | nil =>
      rw [coalesce, Run.coalesce]
      exact hp hin
    | cons _ _ =>
      simp only [Run.coalesce_cons, coalesce]
      refine (hp hin).settle (fun vs vs' hvs => ?_) (fun e e' he hee => ?_) (fun e he => ?_)
        (fun e he => ?_)
      · have hpresent := List.rel_filter (p := fun v => !v.isNull) (q := fun v => !v.isNull)
          (fun v v' hv => by simp only [hv.isNull]) hvs
        simp only [Run.firstPresent]
        revert hpresent
        generalize vs.filter _ = present, vs'.filter _ = present'
        rintro (_ | ⟨hv, hrest⟩)
        · exact ih
        · exact .ofList (.cons hv hrest)
      · simp only [Run.firstPresent, hee.isCatchable]
        split
        · exact ih
        · exact .fail he hee
      · simp only [Failure.isCatchable_of_isFatal he, Bool.false_eq_true, if_false]
      · simp only [Run.firstPresent, Failure.isCatchable_of_isFatal he, Bool.false_eq_true,
          if_false]

theorem concat_shows {ps qs : List Pipeline} (h : List.Forall₂ (C.Runs call call' s s') ps qs)
    (hin : C.values input input') :
    Shows C C.values (concat call ps s input) (Run.concat call' qs s' input') := by
  induction h with
  | nil =>
    rw [concat, Run.concat]
    exact .done
  | cons hp _ ih =>
    rw [concat, Run.concat]
    exact (hp hin).append ih

/-! ### Paths -/

theorem select_shows (hcalls : C.Calls call call') {path path' : List (Selector Pipeline)}
    (h : List.Forall₂ (Selector.Alike (C.Runs call call' s s')) path path')
    (hin : C.values input input') {v v' : Value} (hv : C.values v v')
    {parent parent' : Option Value} (hparent : Option.Rel C.values parent parent') :
    Shows C C.values (select call path s input v parent)
      (Run.select call' path' s' input' v' parent') := by
  induction h generalizing v v' parent parent' with
  | nil =>
    rw [select, Run.select]
    exact .one hv
  | cons hselector _ ih =>
    cases hselector with
    | field optional hkey =>
      rw [select, Run.select]
      refine (hkey hin).bind fun k k' hk =>
        .guarded (Value.field_alike hv hk) fun found found' hfound => ?_
      cases hfound with
      | some hfound => exact ih hfound (.some hv)
      | none =>
        simp only
        split
        · exact .done
        · exact ih .null (.some hv)
    | iterate optional =>
      rw [select, Run.select]
      exact .guarded (Value.iterate_alike hv) fun _ _ hitems =>
        (Shows.ofList hitems).bind fun _ _ hitem => ih hitem (.some hv)
    | slice optional hstart hstop =>
      rw [select, Run.select]
      exact (hstart hin).bind fun _ _ ha => (hstop hin).bind fun _ _ hb =>
        .guarded (Value.slice_alike hv ha hb) fun _ _ hpart => ih hpart (.some hv)
    | call bound optional hargs =>
      have hself := hv
      cases hv with
      | function hf =>
        rw [select, Run.select]
        have hreceiver : C.values (if bound then parent.getD input else input)
            (if bound then parent'.getD input' else input') := by
          split
          · exact getD_alike hparent hin
          · exact hin
        refine (operands_shows hargs hin).bind_result (fun lists lists' hlists => ?_)
          (fun _ hr => by rw [hr]) (fun _ hr => by rw [hr])
        simp only [Outcome.choices_eq]
        exact (Shows.ofList (product_related hlists)).bind fun row row' hrow =>
          (hcalls hf hreceiver hrow).bind_ofList.bind fun _ _ hresult =>
            ih hresult (.some hself)
      | _ =>
        simp only [select, Run.select]
        refine .raised rfl ?_
        split
        · exact .done
        · exact .fail rfl (.of (C.recoverable rfl))

variable {fill : Fill} {fill' : Assign.Fill}

theorem perform_shows
    (hfill : ∀ v v', C.values v v' → Shows C C.lists (fill v) (.single (fill' v')))
    {plan plan' : Assign.Plan} (h : plan.Alike C.functions plan') :
    Shows C C.lists (perform fill plan) (.single (plan'.perform fill')) :=
  (Shows.forEach hfill h.slots).bind_single fun _ _ hs => .of (h.build _ _ hs)

theorem slices_shows (hfill : ∀ v v', C.values v v' → Shows C C.lists (fill v) (.single (fill' v')))
    (op : AssignmentOp) (optional : Bool) {starts starts' stops stops' : List Value}
    (hstarts : C.lists starts starts') (hstops : C.lists stops stops') {target target' : Value}
    (h : C.values target target') :
    Shows C C.lists (slices fill op optional starts stops target)
      (.single (Assign.slices fill' op optional starts' stops' target')) := by
  refine (Shows.forEach (fun a a' ha => ?_) hstarts).bind_single fun _ _ hrows =>
    .one (List.rel_flatten hrows)
  refine (Shows.forEach (fun b b' hb => ?_) hstops).bind_single fun _ _ hrows =>
    .one (List.rel_flatten hrows)
  rw [Assign.slice_eq]
  exact perform_shows hfill (Assign.slicePlan_alike op optional ha hb h)

theorem assigned_shows (op : AssignmentOp) {onInput : Watched Value}
    {onInput' : Unit → Outcome Value} {onTarget : Value → Watched Value}
    {onTarget' : Value → Outcome Value} (hi : Shows C C.values onInput (onInput' ()))
    (ht : ∀ v v', C.values v v' → Shows C C.values (onTarget v) (onTarget' v')) {v v' : Value}
    (hv : C.values v v') :
    Shows C C.lists (assigned op onInput onTarget v)
      (.single (Run.assigned op onInput' onTarget' v')) := by
  cases op with
  | set => exact hi.collected
  | update => exact (ht v v' hv).collected
  | arithmetic op =>
    exact hi.collected.bind_single fun _ _ hvs =>
      .forEach (fun _ _ hw => .of (op.apply_alike hv hw)) hvs
  | coalesce =>
    rw [assigned, Run.assigned, hv.isNull]
    split
    · exact hi.collected
    · exact .one (.cons hv .nil)

theorem assign_shows {path path' : List (Selector Pipeline)}
    (h : List.Forall₂ (Selector.Alike (C.Runs call call' s s')) path path')
    (hcall : path.any Selector.isCall = true →
      C.allowed (.invalidAssignmentPath "a function call cannot be assigned to"))
    (hin : C.values input input') (op : AssignmentOp)
    (hfill : ∀ v v', C.values v v' → Shows C C.lists (fill v) (.single (fill' v')))
    {target target' : Value} (hto : C.values target target') :
    Shows C C.lists (assign call path s input op fill target)
      (.single (Run.assign call' path' s' input' op fill' target')) := by
  induction h generalizing target target' with
  | nil =>
    rw [assign, Run.assign]
    exact hfill _ _ hto
  | @cons selector selector' path path' hselector _ ih =>
    have hrest : ∀ v v', C.values v v' → Shows C C.lists (assign call path s input op fill v)
        (.single (Run.assign call' path' s' input' op fill' v')) := by
      intro v v' hv
      exact ih (fun hany => hcall (by rw [List.any_cons, hany, Bool.or_true])) hv
    cases hselector with
    | field optional hkey =>
      rw [assign, Run.assign]
      refine (hkey hin).collected.bind_single fun _ _ hks => ?_
      rw [Assign.keys_eq]
      exact perform_shows hrest (Assign.keysPlan_alike optional hks hto)
    | iterate optional =>
      rw [assign, Run.assign, Assign.each_eq]
      exact perform_shows hrest (Assign.eachPlan_alike optional hto)
    | slice optional hstart hstop =>
      rw [assign, Run.assign]
      exact (hstart hin).collected.bind_single fun _ _ hstarts =>
        (hstop hin).collected.bind_single fun _ _ hstops =>
          slices_shows hrest op optional hstarts hstops hto
    | call bound optional hargs =>
      rw [assign, Run.assign]
      exact .fatal rfl rfl (.of (hcall rfl))

/-! ### Instructions and pipelines -/

theorem instruction_shows (hcalls : C.Calls call call') {p : Pipeline} (hscope : C.scopes p s s')
    {i j : Instruction} (hi : i ∈ p) (hprograms : i.Alike C.programs j)
    (h : i.Alike (C.Runs call call' s s') j) (hin : C.values input input') :
    Shows C C.values (instruction call i s input) (Run.instruction call' j s' input') := by
  cases h with
  | null =>
    rw [instruction, Run.instruction]
    exact .one .null
  | bool b =>
    rw [instruction, Run.instruction]
    exact .one (.bool b)
  | number n =>
    rw [instruction, Run.instruction]
    exact .one (.number n)
  | string t =>
    rw [instruction, Run.instruction]
    exact .one (.string t)
  | interpolated after hparts =>
    rw [instruction, Run.instruction]
    refine (texts_shows hparts hin).bind_result ?_ (fun _ hr => by rw [hr])
      (fun _ hr => by rw [hr])
    rintro candidates _ rfl
    simp only [Outcome.choices_eq, Outcome.map_ofList]
    refine .ofList (List.forall₂_same.2 fun v hv => ?_)
    obtain ⟨row, _, rfl⟩ := List.mem_map.1 hv
    exact .string _
  | «variable» name =>
    have hlookup := C.lookup hscope hi
    rw [instruction, Run.instruction]
    revert hlookup
    generalize s.lookup name = found, s'.lookup name = found'
    rintro (hv | _)
    · exact .one hv
    · exact .raise rfl
  | define name hbody =>
    rw [instruction, Run.instruction]
    exact (hbody hin).bind fun _ _ _ => .one hin
  | function params _ =>
    cases hprograms with
    | function params hbody =>
      rw [instruction, Run.instruction]
      exact .one (.function (C.closure hscope hi hbody))
  | access hbase hpath =>
    rw [instruction, Run.instruction]
    exact (hbase hin).bind fun _ _ hv => select_shows hcalls hpath hin hv .none
  | assign op hbase hpath hvalue =>
    rw [instruction, Run.instruction]
    exact (hbase hin).bind fun _ _ hto =>
      (assign_shows hpath (C.path hscope hi) hin op
        (fun _ _ => assigned_shows op (hvalue hin) fun _ _ => hvalue) hto).bind_ofList
  | calculate hbase hsteps =>
    rw [instruction, Run.instruction]
    exact (hbase hin).bind fun _ _ hv => calculate_shows hsteps hin hv
  | compare hbase hsteps =>
    rw [instruction, Run.instruction]
    exact (hbase hin).bind fun _ _ hv => compareSteps_shows hsteps hin hv
  | branch harms hotherwise =>
    cases hotherwise with
    | some hp =>
      simp only [instruction, Run.instruction]
      exact branches_shows harms hin (hp hin)
    | none =>
      simp only [instruction, Run.instruction]
      exact branches_shows harms hin (.one hin)
  | and hoperands =>
    rw [instruction, Run.instruction]
    exact connective_shows hoperands _ hin
  | or hoperands =>
    rw [instruction, Run.instruction]
    exact connective_shows hoperands _ hin
  | coalesce hoperands =>
    rw [instruction, Run.instruction]
    exact coalesce_shows hoperands hin
  | negate =>
    have hneg : Shows C C.values (.of input.negate) (.single input'.negate) :=
      .of (Value.negate_alike hin)
    rw [instruction, Run.instruction]
    cases hn : input'.negate <;> rwa [hn] at hneg
  | not =>
    rw [instruction, Run.instruction]
    exact .one (Value.not_alike hin)
  | attempt hbody hhandler =>
    rw [instruction, Run.instruction]
    exact (hbody hin).intercept fun _ _ hee => hhandler hee.payload
  | array hbody =>
    rw [instruction, Run.instruction]
    exact (hbody hin).collected.bind_result (fun _ _ hitems => .one (.array hitems))
      (fun _ hr => by rw [hr]) (fun _ hr => by rw [hr])
  | object hfields =>
    rw [instruction, Run.instruction]
    refine (choices_shows hfields hin).bind_result (fun candidates candidates' hcs => ?_)
      (fun _ hr => by rw [hr]) (fun _ hr => by rw [hr])
    simp only [Run.objects, Outcome.choices_eq, Outcome.map_ofList]
    exact .ofList (List.rel_map (fun _ _ hrow => Run.object_alike hrow) (product_related hcs))
  | concat hoperands =>
    rw [instruction, Run.instruction]
    exact concat_shows hoperands hin
  | void =>
    rw [instruction, Run.instruction]
    exact .done

/-- Pipelines go the same way in all scopes that correspond. -/
theorem pipeline_shows (hcalls : C.Calls call call') (p : Pipeline) :
    ∀ {q : Pipeline} {s s' : Scope}, C.programs p q → C.scopes p s s' →
      C.Runs call call' s s' p q := by
  induction p using Pipeline.induction with
  | step p ih =>
    induction p with
    | nil =>
      intro q s s' hprograms _ v v' hv
      cases C.tracks hprograms
      rw [pipeline, Run.pipeline]
      exact .one hv
    | cons i rest ihrest =>
      obtain ⟨hi, hrest⟩ := List.forall_mem_cons.1 ih
      intro r s s' hprograms hscope v v' hv
      cases C.tracks hprograms with
      | @cons _ j _ q _ halike hq hruns =>
        have hparts : i.Alike (C.Runs call call' s s') j := halike.imp fun part hpart _ hpart' =>
          hi part hpart hpart' (C.part hscope List.mem_cons_self hpart)
        have hinstruction := instruction_shows hcalls hscope List.mem_cons_self halike hparts hv
        rw [hruns, Run.pipeline_cons]
        cases hparts with
        | define name hbody =>
          rw [pipeline]
          exact (hbody hv).bind fun _ _ hw => ihrest hrest hq (C.bind hscope hw) hv
        | _ =>
          simp only [pipeline]
          exact hinstruction.bind fun _ _ hw => ihrest hrest hq (C.tail hscope) hw

/-! ### Calls -/

variable {host : Host}

/-- Calls go the same way if closures are entered the same way. -/
theorem invoke_shows (hhost : C.Admits host) {enter : Enter} {enter' : Run.Enter}
    (henter : C.Enters enter enter') : C.Calls (invoke host enter) (host.invoke enter') := by
  intro f f' input input' args args' hf hin hargs
  cases f with
  | closure params body s =>
    obtain ⟨body', s', rfl, -⟩ := C.enter hf
    exact henter hf hin hargs
  | builtin b =>
    obtain rfl := C.builtin hf
    exact answer_shows henter (hhost hf hin hargs)

section Limits

variable (hhost : C.Admits host) {limit extra : Nat}
  (h : C.cut (.stackOverflow limit) ∨ extra = 0 ∧ C.allowed (.stackOverflow limit))
include hhost h

/-- Closures are entered the same way under two limits, as long as the first limit is not what ends
    the run. Under the same limit the runs end alike, and one that is cut off may go on under a
    higher one. -/
theorem enter_shows (left : Nat) :
    C.Enters (enter host limit left) (host.enter (limit + extra) (left + extra)) := by
  induction left with
  | zero =>
    intro params body body' s s' hf input input' args args' hin hargs
    rw [enter]
    rcases h with h | ⟨rfl, h⟩
    · exact .cut _ h rfl
    · exact .raise_alike (.of h)
  | succ left ih =>
    intro params body body' s s' hf input input' args args' hin hargs
    obtain ⟨_, _, ⟨⟩, hprograms, hscope⟩ := C.enter hf
    rw [enter, Nat.add_right_comm, Host.enter, Feed.evaluate_eq]
    exact (pipeline_shows (invoke_shows hhost ih) body hprograms (hscope hargs) hin).collected

theorem call_shows : C.Calls (Watch.call host limit) (host.call (limit + extra)) :=
  invoke_shows hhost (enter_shows hhost h limit)

/-- Pipelines go the same way under the two limits. -/
theorem counterpart_shows {p q : Pipeline} {s s' : Scope} (hprograms : C.programs p q)
    (hscope : C.scopes p s s') {input input' : Value} (hin : C.values input input') :
    Watched.Shows C C.values (host.watch limit p s input)
      (Run.pipeline (host.call (limit + extra)) q s' input') :=
  pipeline_shows (call_shows hhost h) p hprograms hscope hin

/-- A pipeline goes the same way as itself under the two limits. -/
theorem watch_shows {p : Pipeline} {s s' : Scope} (hscope : C.scopes p s s') {input input' : Value}
    (hin : C.values input input') :
    Watched.Shows C C.values (host.watch limit p s input)
      (Run.pipeline (host.call (limit + extra)) p s' input') :=
  counterpart_shows hhost h (C.same p) hscope hin

end Limits

end Watch

end JsonPipe
