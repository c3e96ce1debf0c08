import JsonPipe.Proofs.Run.JsonProgram

/-! Writing along a path in two steps.

    A write along `p` and then `q` is an update along `p` that writes along `q`
    (`Feed.evaluate_assign_append`). The walk along both is the walk along `p` that fills every slot
    by the walk along `q` (`Run.assign_append`), and the nested write differs from that in two
    things. It runs its operands on the slot in place of the input, which makes no difference to
    operands that ignore their input (`Run.assign_input`). And the steps of `p` belong to an update,
    whatever the operator of the nested write. Operators are named only where a slice is to be
    replaced by something of another type, and a walk along at least one step leaves everything but
    null with the type that it has (`Run.assign_keepsType`). -/

namespace JsonPipe

/-! ### Operands that ignore their input -/

namespace Feed

/-- The pipeline gives the same outputs, or the same failure, whatever its input. -/
def IgnoresInput (call : Call) (scope : Scope) (p : Pipeline) : Prop :=
  ∀ v w, evaluate call p scope v = evaluate call p scope w

variable {call : Call} {scope : Scope}

theorem IgnoresInput.collect_eq {p : Pipeline} (h : IgnoresInput call scope p) (v w : Value) :
    (Run.pipeline call p scope v).collect = (Run.pipeline call p scope w).collect := by
  rw [← evaluate_eq, ← evaluate_eq, h v w]

/-- A literal, or several with commas between them, puts out what it stands for. -/
theorem evaluate_literals {vs : List Value} (h : ∀ v ∈ vs, v.IsJson) (input : Value) :
    evaluate call (elements (vs.map Value.literal)) scope input = .ok (vs.map Value.unsigned) := by
  have hone : ∀ v ∈ vs, Run.pipeline call v.literal scope input = .one v.unsigned :=
    fun v hv => Run.literal_one (h v hv) call scope input
  rw [evaluate_eq, Run.elements_literal call scope input hone, Outcome.collect_ofList]

theorem ignoresInput_literals (vs : List Value) (h : ∀ v ∈ vs, v.IsJson) :
    IgnoresInput call scope (elements (vs.map Value.literal)) := by
  intro v w
  rw [evaluate_literals h, evaluate_literals h]

end Feed

/-! ### Results with a property -/

section Results

variable {α β : Type} {φ : α → Prop} {ψ : β → Prop}

/-- The result has a property, if there is one. -/
def YieldsOnly (φ : α → Prop) (r : Except Failure α) : Prop := ∀ a, r = .ok a → φ a

namespace YieldsOnly

theorem ok {a : α} (h : φ a) : YieldsOnly φ (.ok a) := by
  rintro b hb
  cases hb
  exact h

theorem error (e : Failure) : YieldsOnly φ (.error e) := by
  rintro b hb
  cases hb

theorem bind {r : Except Failure α} {f : α → Except Failure β}
    (hf : ∀ a, r = .ok a → YieldsOnly ψ (f a)) : YieldsOnly ψ (r >>= f) := by
  cases r with
  | error e => exact error e
  | ok a => exact hf a rfl

theorem mapM {f : α → Except Failure β} {as : List α} (h : ∀ a ∈ as, YieldsOnly ψ (f a)) :
    YieldsOnly (fun bs => ∀ b ∈ bs, ψ b) (as.mapM f) := by
  induction as with
  | nil => exact ok (by simp)
  | cons a as ih =>
    obtain ⟨ha, has⟩ := List.forall_mem_cons.1 h
    rw [List.mapM_cons]
    refine bind fun b hb => bind fun bs hbs => ok ?_
    exact List.forall_mem_cons.2 ⟨ha b hb, ih has bs hbs⟩

theorem join {r : Except Failure (List (List β))}
    (h : YieldsOnly (fun rows => ∀ row ∈ rows, ∀ b ∈ row, ψ b) r) :
    YieldsOnly (fun bs => ∀ b ∈ bs, ψ b) (r >>= fun rows => .ok rows.flatten) := by
  refine bind fun rows hrows => ok fun b hb => ?_
  obtain ⟨row, hrow, hb⟩ := List.mem_flatten.1 hb
  exact h rows hrows row hrow b hb

end YieldsOnly

end Results

/-! ### Types that writes keep -/

namespace Assign

/-- All results have one type. -/
abbrev OfKind (kind : Kind) : Except Failure (List Value) → Prop :=
  YieldsOnly fun results => ∀ v ∈ results, v.kind = kind

/-- Results have the type of the target, unless that is null. -/
def KeepsType (fill : Fill) : Prop := ∀ target, target ≠ .null → OfKind target.kind (fill target)

variable {fill : Fill}

theorem OfKind.single (v : Value) : OfKind v.kind (.ok [v]) := .ok (by simp)

theorem entries_ofKind (names : List String) (es : Entries Value) :
    OfKind .object (entries fill names es) := by
  refine .bind fun rows _ => .ok fun v hv => ?_
  obtain ⟨row, -, rfl⟩ := List.mem_map.1 hv
  rfl

theorem elements_ofKind (indices : List Int) (items : List Value) :
    OfKind .array (elements fill indices items) := by
  refine .bind fun rows _ => .ok fun v hv => ?_
  obtain ⟨row, -, rfl⟩ := List.mem_map.1 hv
  rfl

/-- Only null becomes something else under a key. -/
theorem promote_of_ne {target : Value} (h : target ≠ .null) (key : Value) :
    promote target key = target := by
  cases target with
  | null => exact absurd rfl h
  | _ => rfl

theorem keys_keepsType (optional : Bool) (ks : List Value) :
    KeepsType (keys fill optional ks) := by
  intro target hnull
  cases ks with
  | nil => exact .single target
  | cons first ks =>
    simp only [keys, promote_of_ne hnull]
    split
    · split
      · exact .single target
      · exact .error _
    · cases target with
      | object es => exact entries_ofKind _ es
      | array items =>
        simp only
        split
        · split
          · exact .single _
          · exact .error _
        · exact elements_ofKind _ items
      | _ => exact .single _

theorem each_keepsType (optional : Bool) : KeepsType (each fill optional) := by
  intro target hnull
  cases target with
  | null => exact absurd rfl hnull
  | array items =>
    refine .bind fun rows _ => .ok fun v hv => ?_
    obtain ⟨row, -, rfl⟩ := List.mem_map.1 hv
    rfl
  | object es => exact entries_ofKind _ es
  | _ =>
    simp only [each]
    split
    · exact .single _
    · exact .error _

theorem slice_keepsType (op : AssignmentOp) (optional : Bool) (start stop : Value) :
    KeepsType (slice fill op optional start stop) := by
  intro target hnull
  cases target with
  | null => exact absurd rfl hnull
  | string s =>
    refine .bind fun range _ => .bind fun candidates _ => .mapM fun v _ => ?_
    cases v with
    | string t => exact .ok rfl
    | _ => exact .error _
  | array items =>
    refine .bind fun range _ => .bind fun candidates _ => .mapM fun v _ => ?_
    cases v with
    | array xs => exact .ok rfl
    | _ => exact .error _
  | _ =>
    simp only [slice]
    split
    · exact .single _
    · exact .error _

theorem slices_keepsType (op : AssignmentOp) (optional : Bool) (starts stops : List Value) :
    KeepsType (slices fill op optional starts stops) := by
  intro target hnull
  refine .join (.mapM fun a _ => .join (.mapM fun b _ => ?_))
  exact slice_keepsType op optional a b target hnull

/-! ### Operators that are not named -/

/-- What is done with candidates of other types makes no difference if there are none. -/
theorem bind_mapM_congr {kind : Kind} {r : Except Failure (List Value)} (h : OfKind kind r)
    {f g : Value → Except Failure Value} (hfg : ∀ v, v.kind = kind → f v = g v) :
    (r >>= fun vs => vs.mapM f) = r >>= fun vs => vs.mapM g := by
  cases r with
  | error e => rfl
  | ok vs =>
    have hkinds := h vs rfl
    change vs.mapM f = vs.mapM g
    clear h
    induction vs with
    | nil => rfl
    | cons v vs ih =>
      obtain ⟨hv, hvs⟩ := List.forall_mem_cons.1 hkinds
      rw [List.mapM_cons, List.mapM_cons, hfg v hv, ih hvs]

theorem slice_array_op (h : KeepsType fill) (op op' : AssignmentOp) (start stop target : Value)
    (items : List Value) :
    slice.array fill op start stop target items = slice.array fill op' start stop target items := by
  refine bind_congr fun ⟨i, j⟩ => bind_mapM_congr (h _ (by simp)) fun v hv => ?_
  cases v with
  | array xs => rfl
  | _ => cases hv

/-- A slice that is filled with something of its own type does not ask for the operator. -/
theorem slice_op (h : KeepsType fill) (op op' : AssignmentOp) (optional : Bool)
    (start stop target : Value) :
    slice fill op optional start stop target = slice fill op' optional start stop target := by
  cases target with
  | string s =>
    refine bind_congr fun ⟨i, j⟩ => bind_mapM_congr (h _ (by simp)) fun v hv => ?_
    cases v with
    | string t => rfl
    | _ => cases hv
  | array items => exact slice_array_op h op op' start stop _ items
  | null => exact slice_array_op h op op' start stop _ []
  | _ => rfl

theorem slices_op (h : KeepsType fill) (op op' : AssignmentOp) (optional : Bool)
    (starts stops : List Value) (target : Value) :
    slices fill op optional starts stops target = slices fill op' optional starts stops target := by
  simp only [slices, slice_op h op op']

end Assign

/-! ### Walks along paths -/

namespace Run

variable {call : Call} {scope : Scope} {fill : Assign.Fill}

/-- The walk along two paths fills the slots of the first by the walk along the second. -/
theorem assign_append (p q : List (Selector Pipeline)) (input : Value) (op : AssignmentOp) :
    assign call (p ++ q) scope input op fill =
      assign call p scope input op (assign call q scope input op fill) := by
  induction p with
  | nil =>
    funext target
    rw [List.nil_append, assign]
  | cons s p ih =>
    funext target
    cases s with
    | field key optional => rw [List.cons_append, assign, assign, ih]
    | iterate optional => rw [List.cons_append, assign, assign, ih]
    | slice start stop optional => rw [List.cons_append, assign, assign, ih]
    | call args bound optional => rw [List.cons_append, assign, assign]

theorem assign_input {path : List (Selector Pipeline)}
    (h : ∀ x ∈ path.flatMap Selector.parts, Feed.IgnoresInput call scope x) (v w : Value)
    (op : AssignmentOp) :
    assign call path scope v op fill = assign call path scope w op fill := by
  induction path with
  | nil =>
    funext target
    rw [assign, assign]
  | cons s path ih =>
    rw [List.flatMap_cons] at h
    obtain ⟨hs, hpath⟩ := List.forall_mem_append.1 h
    funext target
    cases s with
    | field key optional =>
      rw [assign, assign, (hs key (by simp [Selector.parts])).collect_eq v w, ih hpath]
    | iterate optional => rw [assign, assign, ih hpath]
    | slice start stop optional =>
      rw [assign, assign, (hs start (by simp [Selector.parts])).collect_eq v w,
        (hs stop (by simp [Selector.parts])).collect_eq v w, ih hpath]
    | call args bound optional => rw [assign, assign]

/-- What is put in place of a target is the same for all inputs, if the right side ignores its input
    or is run on the target instead. -/
theorem assigned_input {op : AssignmentOp} {value : Pipeline}
    (h : op = .update ∨ Feed.IgnoresInput call scope value) (v w : Value) :
    assigned op (fun _ => pipeline call value scope v) (pipeline call value scope) =
      assigned op (fun _ => pipeline call value scope w) (pipeline call value scope) := by
  funext target
  rcases h with rfl | h
  · rfl
  · simp only [assigned, h.collect_eq v w]

/-- A walk along at least one step does not change the type of what is not null. -/
theorem assign_keepsType {path : List (Selector Pipeline)} (hpath : path ≠ []) (input : Value)
    (op : AssignmentOp) : Assign.KeepsType (assign call path scope input op fill) := by
  intro target hnull
  cases path with
  | nil => exact absurd rfl hpath
  | cons s path =>
    cases s with
    | field key optional =>
      rw [assign]
      exact .bind fun ks _ => Assign.keys_keepsType optional ks target hnull
    | iterate optional =>
      rw [assign]
      exact Assign.each_keepsType optional target hnull
    | slice start stop optional =>
      rw [assign]
      refine .bind fun starts _ => .bind fun stops _ => ?_
      exact Assign.slices_keepsType op optional starts stops target hnull
    | call args bound optional =>
      rw [assign]
      exact .error _

/-- The operator makes no difference to a walk that ends in something of the type it finds. -/
theorem assign_op (h : Assign.KeepsType fill) (path : List (Selector Pipeline)) (input : Value)
    (op op' : AssignmentOp) :
    assign call path scope input op fill = assign call path scope input op' fill := by
  induction path with
  | nil =>
    funext target
    rw [assign, assign]
  | cons s path ih =>
    have hrest : Assign.KeepsType (assign call path scope input op' fill) := by
      by_cases hpath : path = []
      · subst hpath
        intro target
        rw [assign]
        exact h target
      · exact assign_keepsType hpath input op'
    funext target
    cases s with
    | field key optional => rw [assign, assign, ih]
    | iterate optional => rw [assign, assign, ih]
    | slice start stop optional =>
      simp only [assign, ih, Assign.slices_op hrest op op']
    | call args bound optional => rw [assign, assign]

theorem pipeline_access (base : Pipeline) (path : List (Selector Pipeline)) (input : Value) :
    pipeline call [.access base path] scope input =
      (pipeline call base scope input).bind fun v => select call path scope input v none := by
  simp only [pipeline, instruction]

theorem pipeline_assign (base : Pipeline) (path : List (Selector Pipeline)) (op : AssignmentOp)
    (value : Pipeline) (input : Value) :
    pipeline call [.assign base path op value] scope input =
      (pipeline call base scope input).bind fun document =>
        .ofExcept (assign call path scope input op
          (assigned op (fun _ => pipeline call value scope input) (pipeline call value scope))
          document) := by
  simp only [pipeline, instruction]

/-- The nested write is run on the slot, and all that it gives goes there. -/
theorem assigned_nested {q : List (Selector Pipeline)} {op : AssignmentOp} {value : Pipeline}
    (hq : ∀ x ∈ q.flatMap Selector.parts, Feed.IgnoresInput call scope x)
    (hvalue : op = .update ∨ Feed.IgnoresInput call scope value) (input : Value)
    (onInput : Unit → Outcome Value) :
    assigned .update onInput (pipeline call [.assign [] q op value] scope) =
      assign call q scope input op
        (assigned op (fun _ => pipeline call value scope input) (pipeline call value scope)) := by
  funext target
  rw [assigned, pipeline_assign, pipeline, Outcome.one_bind, Outcome.collect_ofExcept,
    assigned_input hvalue target input, assign_input hq target input]

end Run

/-! ### Writes in two steps -/

/-- A write along two paths gives the same documents, or the same failure, as an update along the
    first that writes along the second. -/
theorem Feed.evaluate_assign_append {call : Call} {scope : Scope}
    {p q : List (Selector Pipeline)} {op : AssignmentOp} {value : Pipeline} (hq : q ≠ [])
    (hoperands : ∀ x ∈ q.flatMap Selector.parts, Feed.IgnoresInput call scope x)
    (hvalue : op = .update ∨ Feed.IgnoresInput call scope value) (base : Pipeline) (input : Value) :
    evaluate call [.assign base (p ++ q) op value] scope input =
      evaluate call [.assign base p .update [.assign [] q op value]] scope input := by
  rw [evaluate_eq, evaluate_eq, Run.pipeline_assign, Run.pipeline_assign]
  congr 2
  funext document
  rw [Run.assign_append, Run.assigned_nested hoperands hvalue input,
    Run.assign_op (Run.assign_keepsType hq input op) p input op .update]

/-- `["a", "b"][1:]` -/
def tails : List (Selector Pipeline) :=
  [.field [.concat [[.string "a"], [.string "b"]]] false,
    .slice [.number (.ofNat 1)] [.null] false]

/-- `[].k?` -/
def keysOfEach : List (Selector Pipeline) := [.iterate false, .named "k" true]

/-- `{"a": [null, {"k": "x"}, true]}` -/
def rowsDocument : Value :=
  .object [("a", .array [.null, .object [("k", .string "x")], .bool true])]

/-- Of the two slices one is of an absent entry, one slot does not fit and is left alone, and there
    are two candidates for the other. -/
theorem Feed.evaluate_assign_append_tails :
    (evaluate (Run.call 0) [.assign [] (tails ++ keysOfEach) (.arithmetic .addition)
        [.concat [[.string "1"], [.string "2"]]]] [] rowsDocument).toOption.map
          (·.map Value.json) =
      some ["\x7b\"a\":[null,\x7b\"k\":\"x1\"\x7d,true],\"b\":[]\x7d",
        "\x7b\"a\":[null,\x7b\"k\":\"x2\"\x7d,true],\"b\":[]\x7d"] ∧
    evaluate (Run.call 0) [.assign [] (tails ++ keysOfEach) (.arithmetic .addition)
        [.concat [[.string "1"], [.string "2"]]]] [] rowsDocument =
      evaluate (Run.call 0) [.assign [] tails .update [.assign [] keysOfEach
        (.arithmetic .addition) [.concat [[.string "1"], [.string "2"]]]]] [] rowsDocument := by
  have hkey : IgnoresInput (Run.call 0) [] [.string "k"] :=
    ignoresInput_literals [.string "k"] (by simp [Value.IsJson.string])
  have hvalue : IgnoresInput (Run.call 0) [] [.concat [[.string "1"], [.string "2"]]] :=
    ignoresInput_literals [.string "1", .string "2"] (by simp [Value.IsJson.string])
  refine ⟨by decide +kernel, evaluate_assign_append (by simp [keysOfEach]) ?_ (.inr hvalue) [] _⟩
  simpa [keysOfEach, Selector.parts, Selector.named] using hkey

end JsonPipe
