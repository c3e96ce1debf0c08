import JsonPipe.Proofs.Run.Continuation
import JsonPipe.Proofs.Value.Entries
import JsonPipe.Run.Call

/-! Constructors of joined parts.

    An object constructor makes an object for every choice of entries, an interpolated string a text
    for every choice of inserts. A choice from two lists of parts behind one another is a choice from
    the first and a choice from the second (`product_append`), and what is made of it is the sum of
    what is made of the two: the later entries hide the earlier ones in the object that is made of
    all of them, as the right object does in a sum (`Entries.ofList_append_same`). So joined parts
    give the sums of what each half gives, in the same order, and fail with the half that fails first
    (`Feed.evaluate_constructor_append`). -/

namespace JsonPipe

/-- A choice from the lists of two families is a choice from each of them. -/
theorem product_append {α : Type} (lists more : List (List α)) :
    product (lists ++ more) =
      (product lists).flatMap fun row => (product more).map (row ++ ·) := by
  induction lists with
  | nil => simp [product]
  | cons xs lists ih =>
    rw [List.cons_append, product, product, ih, List.flatMap_assoc]
    refine List.flatMap_congr fun x _ => ?_
    rw [List.map_flatMap, List.flatMap_map]
    refine List.flatMap_congr fun row _ => ?_
    rw [List.map_map]
    rfl

/-- Entries stored behind others, and the same entries as an object that is laid over the object of
    the others. -/
theorem Entries.ofList_append_same (earlier later : List (String × Value)) :
    (Value.object (ofList (earlier ++ later))).same
      (.object ((ofList earlier).writeAll (ofList later))) = true := by
  have hshape : (ofList (earlier ++ later)).mapValues Value.shape =
      ((ofList earlier).writeAll (ofList later)).mapValues Value.shape := by
    refine ext_of_sorted (((sorted_ofList earlier).writeAll _).mapValues _)
      ((sorted_ofList _).mapValues _) fun name => ?_
    rw [get?_mapValues, get?_mapValues, get?_ofList_append,
      map_get?_writeAll (keepsView_shape fun _ => True) (fun _ _ => trivial) (fun _ _ => trivial)
        (sorted_ofList later).nodup]
  rw [Value.same_iff, Value.shape, Value.viewed_object, Value.viewed_object]
  exact congrArg Value.object hshape

/-! ### Sums of results -/

/-- A result is the sum of two others: it has the outputs of the first added to those of the second,
    each to each and those of the second varying faster, up to `R`. Whichever fails first, the first
    before the second, is its failure. -/
structure IsSum (R : Value → Value → Prop) (first second whole : Except Failure (List Value)) :
    Prop where
  outputs : ∀ xs ys, first = .ok xs → second = .ok ys →
    ∃ zs sums, whole = .ok zs ∧
      (xs.flatMap fun x => ys.map (x, ·)).mapM (fun p => p.1.add p.2) = .ok sums ∧
      List.Forall₂ R zs sums
  left : ∀ e, first = .error e → whole = .error e
  right : ∀ xs e, first = .ok xs → second = .error e → whole = .error e

section Rows

variable {α : Type} {R : Value → Value → Prop} {f g h : List α → Value}
  {sum : List α → List α → Value}

/-- Rows of joined lists, if what is made of a joined row is the sum of what is made of its
    halves. -/
theorem product_sums (hsum : ∀ r s, (f r).add (g s) = .ok (sum r s))
    (hjoined : ∀ r s, R (h (r ++ s)) (sum r s)) (lists more : List (List α)) :
    ∃ sums, (((product lists).map f).flatMap fun x => ((product more).map g).map (x, ·)).mapM
        (fun p => p.1.add p.2) = .ok sums ∧
      List.Forall₂ R ((product (lists ++ more)).map h) sums := by
  -- the pairs of halves, from which both sides are made
  let halves : List (List α × List α) :=
    (product lists).flatMap fun r => (product more).map (r, ·)
  have hpairs : (((product lists).map f).flatMap fun x => ((product more).map g).map (x, ·)) =
      halves.map fun p => (f p.1, g p.2) := by
    simp only [halves, List.flatMap_map, List.map_flatMap, List.map_map]
    rfl
  have hrows : (product (lists ++ more)).map h = halves.map fun p => h (p.1 ++ p.2) := by
    simp only [halves, product_append, List.map_flatMap, List.map_map]
    rfl
  refine ⟨halves.map fun p => sum p.1 p.2, ?_, ?_⟩
  · rw [hpairs, List.mapM_map]
    exact mapM_eq_ok_map.2 fun p _ => hsum p.1 p.2
  · rw [hrows]
    exact List.forall₂_map_left_iff.2 (List.forall₂_map_right_iff.2
      (List.forall₂_same.2 fun p _ => hjoined p.1 p.2))

/-- What constructors make of the lists of choices that their parts leave. -/
theorem IsSum.of_choices (hsum : ∀ r s, (f r).add (g s) = .ok (sum r s))
    (hjoined : ∀ r s, R (h (r ++ s)) (sum r s)) (lists more : Except Failure (List (List α))) :
    IsSum R (lists.map fun c => (product c).map f) (more.map fun c => (product c).map g)
      ((do return (← lists) ++ (← more)).map fun c => (product c).map h) := by
  cases lists with
  | error e => exact ⟨nofun, fun _ he => by cases he; rfl, nofun⟩
  | ok lists =>
    cases more with
    | error e => exact ⟨nofun, nofun, fun _ _ _ he => by cases he; rfl⟩
    | ok more =>
      refine ⟨fun xs ys hxs hys => ?_, nofun, nofun⟩
      cases hxs
      cases hys
      obtain ⟨sums, hsums, hrelated⟩ := product_sums hsum hjoined lists more
      exact ⟨_, sums, rfl, hsums, hrelated⟩

end Rows

/-! ### Constructors -/

namespace Run

variable {call : Call} {scope : Scope} {input : Value}

theorem choices_append (fields more : List (Field Pipeline)) :
    choices call (fields ++ more) scope input =
      do return (← choices call fields scope input) ++ (← choices call more scope input) := by
  induction fields with
  | nil =>
    rw [List.nil_append, choices]
    cases choices call more scope input <;> rfl
  | cons field fields ih =>
    obtain ⟨key, value, optional⟩ := field
    rw [List.cons_append, choices, choices, ih]
    simp

theorem texts_append (parts more : List (String × Pipeline)) :
    texts call (parts ++ more) scope input =
      do return (← texts call parts scope input) ++ (← texts call more scope input) := by
  induction parts with
  | nil =>
    rw [List.nil_append, texts]
    cases texts call more scope input <;> rfl
  | cons part parts ih =>
    obtain ⟨before, p⟩ := part
    rw [List.cons_append, texts, texts, ih]
    simp

end Run

namespace Feed

variable {call : Call} {scope : Scope} {input : Value}

/-- The object of a choice of entries. -/
def objectOf (row : List (Option (String × Value))) : Value :=
  .object (Entries.ofList (row.filterMap id))

theorem evaluate_object (fields : List (Field Pipeline)) :
    evaluate call [.object fields] scope input =
      (Run.choices call fields scope input).map fun c => (product c).map objectOf := by
  rw [evaluate_eq, Run.pipeline, Run.instruction]
  · cases Run.choices call fields scope input with
    | error e => rfl
    | ok candidates =>
      simp only [Run.objects, Outcome.choices_eq, Outcome.map_ofList, Outcome.collect_ofList]
      rfl
  · simp

theorem evaluate_interpolated (parts : List (String × Pipeline)) (after : String) :
    evaluate call [.interpolated parts after] scope input =
      (Run.texts call parts scope input).map fun c =>
        (product c).map fun row => .string (String.join row ++ after) := by
  rw [evaluate_eq, Run.pipeline, Run.instruction]
  · cases Run.texts call parts scope input with
    | error e => rfl
    | ok candidates =>
      simp only [Outcome.choices_eq, Outcome.map_ofList, Outcome.collect_ofList]
      rfl
  · simp

/-- An object constructor with the fields of two others puts out the sums of their objects, up to
    equality, and an interpolated string with the parts of two others the sums of their texts: those
    of the first added to those of the second, which vary faster. If one half fails so does the
    whole, and with the same failure. -/
theorem evaluate_constructor_append (call : Call) (scope : Scope) (input : Value) :
    (∀ f g : List (Field Pipeline),
      IsSum (fun z sum => z.same sum = true) (evaluate call [.object f] scope input)
        (evaluate call [.object g] scope input) (evaluate call [.object (f ++ g)] scope input)) ∧
    ∀ (i j : List (String × Pipeline)) (after : String),
      IsSum (· = ·) (evaluate call [.interpolated i ""] scope input)
        (evaluate call [.interpolated j after] scope input)
        (evaluate call [.interpolated (i ++ j) after] scope input) := by
  refine ⟨fun f g => ?_, fun i j after => ?_⟩
  · rw [evaluate_object, evaluate_object, evaluate_object, Run.choices_append]
    refine IsSum.of_choices (fun r s => rfl) (fun r s => ?_) _ _
    rw [objectOf, List.filterMap_append]
    exact Entries.ofList_append_same _ _
  · rw [evaluate_interpolated, evaluate_interpolated, evaluate_interpolated, Run.texts_append]
    refine IsSum.of_choices (fun r s => rfl) (fun r s => ?_) _ _
    simp [String.join_append, String.append_assoc]

/-- `{k: ("x", "y")}`, with two values for one key. -/
def xOrYUnderK : List (Field Pipeline) :=
  [⟨[.string "k"], [.concat [[.string "x"], [.string "y"]]], false⟩]

/-- `{k?: (null, "z")}`, which leaves the key out or has another value for it. -/
def nothingOrZUnderK : List (Field Pipeline) :=
  [⟨[.string "k"], [.concat [[.null], [.string "z"]]], true⟩]

/-- A field that is left out hides nothing, and one that is there hides the same key in front. -/
theorem evaluate_constructor_append_hidden :
    let run := fun fields => evaluate (Run.call 0) [.object fields] [] .null
    let underK := fun s => Value.object [("k", .string s)]
    run xOrYUnderK = .ok [underK "x", underK "y"] ∧
      run nothingOrZUnderK = .ok [.object [], underK "z"] ∧
      ∃ sums, ([(underK "x", .object []), (underK "x", underK "z"), (underK "y", .object []),
          (underK "y", underK "z")].mapM fun p => p.1.add p.2) = .ok sums ∧
        List.Forall₂ (fun z sum => z.same sum = true)
          [underK "x", underK "z", underK "y", underK "z"] sums := by
  intro run underK
  have hfirst : run xOrYUnderK = .ok [underK "x", underK "y"] := rfl
  have hsecond : run nothingOrZUnderK = .ok [.object [], underK "z"] := rfl
  have hwhole : run (xOrYUnderK ++ nothingOrZUnderK) =
      .ok [underK "x", underK "z", underK "y", underK "z"] := rfl
  obtain ⟨zs, sums, hzs, hsums, hrelated⟩ :=
    ((evaluate_constructor_append (Run.call 0) [] .null).1 xOrYUnderK nothingOrZUnderK).outputs
      _ _ hfirst hsecond
  cases hwhole.symm.trans hzs
  exact ⟨hfirst, hsecond, sums, hsums, hrelated⟩

end Feed

end JsonPipe
