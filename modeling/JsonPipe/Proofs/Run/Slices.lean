import JsonPipe.Proofs.Run.AccessPaths
import JsonPipe.Proofs.Run.OptionalWrites

/-! Slices and what is put in their place.

    Bounds of a slice that are null or any number come to two ends inside of the array or text, the
    first not behind the second (`Value.exists_ends`). Reading and writing cut at the same ends. What
    is in front of them, between them and behind them is the whole, so to put the slice back changes
    nothing, and what else is put there is found between ends that are as far apart as it is long
    (`Feed.evaluate_slice_parts`).

    Arrays and texts differ only in what they are made of, so all of this is said of lists of their
    parts (`Value.Sequence`): the elements of an array, the characters of a text. -/

namespace JsonPipe

namespace Items

variable {α : Type}

/-- The parts between two ends. -/
def between (i j : Nat) (xs : List α) : List α := (xs.take j).drop i

/-- The parts with others in place of those between two ends. -/
def splice (i j : Nat) (xs ys : List α) : List α := xs.take i ++ ys ++ xs.drop j

variable {i j : Nat} {xs : List α}

theorem between_front (j : Nat) (xs : List α) : between 0 j xs = xs.take j := List.drop_zero

theorem between_back (i : Nat) (xs : List α) : between i xs.length xs = xs.drop i := by
  rw [between, List.take_length]

/-- What is between the ends, with what is in front of it and behind it, is the whole. -/
theorem splice_between (h : i ≤ j) : splice i j xs (between i j xs) = xs := by
  have hfront : xs.take i = (xs.take j).take i := by rw [List.take_take, Nat.min_eq_left h]
  rw [splice, between, hfront, List.take_append_drop, List.take_append_drop]

/-- What was put between the ends is found there. -/
theorem between_splice (h : i ≤ xs.length) (ys : List α) :
    between i (i + ys.length) (splice i j xs ys) = ys := by
  have hfront : (xs.take i).length = i := List.length_take_of_le h
  have hlength : (xs.take i ++ ys).length = i + ys.length := by rw [List.length_append, hfront]
  rw [between, splice, ← hlength, List.take_left, List.drop_left' hfront]

theorem le_length_splice (h : i ≤ xs.length) (ys : List α) :
    i + ys.length ≤ (splice i j xs ys).length := by
  simp only [splice, List.length_append, List.length_take, List.length_drop]
  omega

end Items

namespace Value

/-- What has slices, given by its parts: an array by its elements and a text by its characters. -/
inductive Sequence : {α : Type} → (List α → Value) → Prop
  | array : Sequence Value.array
  | text : Sequence fun cs : List Char => .string (String.ofList cs)

/-! ### Ends -/

/-- A bound comes to an end inside, unless it has the wrong type. -/
theorem exists_end {bound : Value} (h : Assign.isBound bound = true) {length openEnd : Nat}
    (hopen : openEnd ≤ length) (target : Value) :
    ∃ n, target.sliceBound length bound openEnd = .ok n ∧ n ≤ length := by
  cases bound with
  | null => exact ⟨openEnd, rfl, hopen⟩
  | number n => exact ⟨_, rfl, Nat.min_le_left _ _⟩
  | _ => cases h

/-- Two bounds come to two ends inside, the first not behind the second. -/
theorem exists_ends {a b : Value} (ha : Assign.isBound a = true) (hb : Assign.isBound b = true)
    (length : Nat) (target : Value) :
    ∃ i j, target.sliceRange length a b = .ok (i, j) ∧ i ≤ j ∧ j ≤ length := by
  obtain ⟨i, hi, hile⟩ := exists_end ha (Nat.zero_le length) target
  obtain ⟨j, hj, hjle⟩ := exists_end hb (Nat.le_refl length) target
  refine ⟨i, max i j, ?_, Nat.le_max_left i j, Nat.max_le.2 ⟨hile, hjle⟩⟩
  rw [sliceRange, hi, hj]
  rfl

/-- A number that stands for an end inside comes to that end. -/
theorem sliceBound_index {n : Number} {i length : Nat} (hn : n.toIndex = i) (hi : i ≤ length)
    (target : Value) (openEnd : Nat) :
    target.sliceBound length (.number n) openEnd = .ok i := by
  have hresolve : (Items.resolve length n.toIndex).toNat = i := by
    rw [hn, Items.resolve, if_neg (by omega), Int.toNat_natCast]
  rw [sliceBound, hresolve, Nat.min_eq_right hi]

namespace Sequence

variable {α : Type} {wrap : List α → Value} {a b : Value} {xs : List α} {i j : Nat}

/-! ### One slice -/

/-- The slice is what is between the ends. -/
theorem slice_eq (h : Sequence wrap) (hends : (wrap xs).sliceRange xs.length a b = .ok (i, j)) :
    (wrap xs).slice a b = .ok (wrap (Items.between i j xs)) := by
  cases h with
  | array =>
    rw [slice, hends]
    rfl
  | text =>
    rw [slice, String.toList_ofList, hends]
    rfl

/-- The slice between two numbers that stand for ends inside. -/
theorem slice_indices (h : Sequence wrap) {lo hi : Number} (hlo : lo.toIndex = i)
    (hhi : hi.toIndex = j) (hij : i ≤ j) (hj : j ≤ xs.length) :
    (wrap xs).slice (.number lo) (.number hi) = .ok (wrap (Items.between i j xs)) := by
  refine h.slice_eq ?_
  rw [sliceRange, sliceBound_index hlo (hij.trans hj), sliceBound_index hhi hj]
  exact congrArg (fun k => Except.ok (i, k)) (Nat.max_eq_right hij)

/-- One bound cuts the whole in two. -/
theorem slice_cut (h : Sequence wrap) (n : Number) (xs : List α) :
    ∃ front back, (wrap xs).slice .null (.number n) = .ok (wrap front) ∧
      (wrap xs).slice (.number n) .null = .ok (wrap back) ∧ front ++ back = xs := by
  obtain ⟨k, hk, hle⟩ : ∃ k, (wrap xs).sliceBound xs.length (.number n) xs.length = .ok k ∧
      k ≤ xs.length := exists_end rfl (Nat.le_refl _) _
  have hfront : (wrap xs).sliceRange xs.length .null (.number n) = .ok (0, k) := by
    rw [sliceRange, hk]
    exact congrArg (fun j => Except.ok (0, j)) (Nat.zero_max k)
  have hback : (wrap xs).sliceRange xs.length (.number n) .null = .ok (k, xs.length) := by
    have hstart : (wrap xs).sliceBound xs.length (.number n) 0 = .ok k := hk
    rw [sliceRange, hstart]
    exact congrArg (fun j => Except.ok (k, j)) (Nat.max_eq_right hle)
  refine ⟨xs.take k, xs.drop k, ?_, ?_, List.take_append_drop k xs⟩
  · rw [h.slice_eq hfront, Items.between_front]
  · rw [h.slice_eq hback, Items.between_back]

/-- A write puts every candidate in the place of the slice. -/
theorem write_eq (h : Sequence wrap) (hends : (wrap xs).sliceRange xs.length a b = .ok (i, j))
    {fill : Assign.Fill} {candidates : List (List α)}
    (hfill : fill (wrap (Items.between i j xs)) = .ok (candidates.map wrap)) (op : AssignmentOp)
    (optional : Bool) :
    Assign.slice fill op optional a b (wrap xs) =
      .ok (candidates.map fun ys => wrap (Items.splice i j xs ys)) := by
  -- a candidate of the target's type is spliced in under every operator
  cases h with
  | array =>
    rw [Assign.slice, Assign.slice.array, hends]
    change (fill (.array (Items.between i j xs)) >>= _) = _
    rw [hfill]
    change (candidates.map Value.array).mapM _ = _
    rw [List.mapM_map]
    exact mapM_eq_ok_map.2 fun _ _ => rfl
  | text =>
    rw [Assign.slice, String.toList_ofList, hends]
    change (fill (.string (String.ofList (Items.between i j xs))) >>= _) = _
    rw [hfill]
    change (candidates.map fun cs => Value.string (String.ofList cs)).mapM _ = _
    rw [List.mapM_map]
    refine mapM_eq_ok_map.2 fun ys _ => ?_
    simp only [Function.comp_apply, String.toList_ofList]
    rfl

end Sequence

end Value

/-! ### Programs -/

namespace Feed

variable {call : Call} {scope : Scope} {start stop : Pipeline} {a b v : Value}

theorem evaluate_slice (hstart : evaluate call start scope v = .ok [a])
    (hstop : evaluate call stop scope v = .ok [b]) {part : Value} (hpart : v.slice a b = .ok part)
    (optional : Bool) :
    evaluate call [.access [] [.slice start stop optional]] scope v = .ok [part] := by
  have hstarts : Run.pipeline call start scope v = .one a := run_of_evaluate hstart
  have hstops : Run.pipeline call stop scope v = .one b := run_of_evaluate hstop
  rw [evaluate_eq, Run.pipeline_access, Run.pipeline, Outcome.one_bind, Run.select, hstarts,
    Outcome.one_bind, hstops, Outcome.one_bind, hpart, Run.guarded, Run.select, Outcome.collect_one]

theorem evaluate_assign_slice (hstart : evaluate call start scope v = .ok [a])
    (hstop : evaluate call stop scope v = .ok [b]) {op : AssignmentOp} {value : Pipeline}
    {optional : Bool} {documents : List Value}
    (hwrite : Assign.slice (Run.assigned op (fun _ => Run.pipeline call value scope v)
      (Run.pipeline call value scope)) op optional a b v = .ok documents) :
    evaluate call [.assign [] [.slice start stop optional] op value] scope v = .ok documents := by
  rw [evaluate_eq] at hstart hstop
  have hfill : ∀ fill : Assign.Fill, Run.assign call [] scope v op fill = fill := fun fill => by
    funext target
    rw [Run.assign]
  rw [evaluate_eq, Run.pipeline_assign, Run.pipeline, Outcome.one_bind, Outcome.collect_ofExcept,
    Run.assign, hstart, hstop, hfill]
  change Assign.slices _ op optional [a] [b] v = _
  simp only [Assign.slices, List.mapM_cons, List.mapM_nil, hwrite]
  exact congrArg Except.ok (by simp)

/-- Bounds that are null or any number come to ends inside of an array or text, the first not behind
    the second. The slice is what is between them, and with what is in front and behind it is the
    whole; one bound cuts the whole into what is in front of it and what is behind. An update of the
    slice with itself gives the array or text as it was. A write of others of the same type gives
    what is in front, the replacement, and what is behind, for each of them, and between ends that
    are as far apart as the replacement is long the replacement is read back. -/
theorem evaluate_slice_parts {α : Type} {wrap : List α → Value} (hwrap : Value.Sequence wrap)
    (xs : List α) (hstart : evaluate call start scope (wrap xs) = .ok [a])
    (hstop : evaluate call stop scope (wrap xs) = .ok [b]) (ha : Assign.isBound a = true)
    (hb : Assign.isBound b = true) (optional : Bool) :
    (∃ i j, (wrap xs).sliceRange xs.length a b = .ok (i, j) ∧ i ≤ j ∧ j ≤ xs.length ∧
      (∃ part, evaluate call [.access [] [.slice start stop optional]] scope (wrap xs) =
        .ok [wrap part] ∧ xs.take i ++ part ++ xs.drop j = xs) ∧
      evaluate call [.assign [] [.slice start stop optional] .update []] scope (wrap xs) =
        .ok [wrap xs] ∧
      (∀ (value : Pipeline) (replacements : List (List α)),
        evaluate call value scope (wrap xs) = .ok (replacements.map wrap) →
        evaluate call [.assign [] [.slice start stop optional] .set value] scope (wrap xs) =
          .ok (replacements.map fun ys => wrap (xs.take i ++ ys ++ xs.drop j))) ∧
      ∀ ys : List α, ((xs.take i ++ ys ++ xs.drop j).take (i + ys.length)).drop i = ys ∧
        ∀ lo hi : Number, lo.toIndex = i → hi.toIndex = i + ys.length →
          (wrap (xs.take i ++ ys ++ xs.drop j)).slice (.number lo) (.number hi) =
            .ok (wrap ys)) ∧
    ∀ (cut : Pipeline) (n : Number), evaluate call cut scope (wrap xs) = .ok [.number n] →
      ∃ front back,
        evaluate call [.access [] [.slice [.null] cut optional]] scope (wrap xs) =
          .ok [wrap front] ∧
        evaluate call [.access [] [.slice cut [.null] optional]] scope (wrap xs) =
          .ok [wrap back] ∧
        front ++ back = xs := by
  obtain ⟨i, j, hends, hij, hj⟩ := Value.exists_ends ha hb xs.length (wrap xs)
  have hi : i ≤ xs.length := hij.trans hj
  refine ⟨⟨i, j, hends, hij, hj, ?_, ?_, ?_, ?_⟩, ?_⟩
  · exact ⟨_, evaluate_slice hstart hstop (hwrap.slice_eq hends) optional,
      Items.splice_between hij⟩
  · have hfill : Run.assigned .update (fun _ => Run.pipeline call [] scope (wrap xs))
        (Run.pipeline call [] scope) (wrap (Items.between i j xs)) =
          .ok ([Items.between i j xs].map wrap) := by
      rw [Run.assigned, Run.pipeline, Outcome.collect_one, List.map_singleton]
    rw [evaluate_assign_slice hstart hstop (hwrap.write_eq hends hfill .update optional),
      List.map_singleton, Items.splice_between hij]
  · intro value replacements hvalue
    rw [evaluate_eq] at hvalue
    exact evaluate_assign_slice hstart hstop (hwrap.write_eq hends hvalue .set optional)
  · intro ys
    refine ⟨Items.between_splice hi ys, fun lo hi' hlo hhi => ?_⟩
    have hread : (wrap (Items.splice i j xs ys)).slice (.number lo) (.number hi') =
        .ok (wrap (Items.between i (i + ys.length) (Items.splice i j xs ys))) :=
      hwrap.slice_indices hlo hhi (Nat.le_add_right i _) (Items.le_length_splice hi ys)
    rwa [Items.between_splice hi ys] at hread
  · intro cut n hcut
    obtain ⟨front, back, hfront, hback, hwhole⟩ := hwrap.slice_cut n xs
    have hopen : evaluate call [.null] scope (wrap xs) = .ok [.null] := rfl
    exact ⟨front, back, evaluate_slice hopen hcut hfront optional,
      evaluate_slice hcut hopen hback optional, hwhole⟩

/-- `-3` -/
def thirdLast : Pipeline := [.number (.ofNat 3), .negate]

/-- `-1.5` -/
def lastButFraction : Pipeline := [.number (.nearest false (3 * unitsPerOne) 2), .negate]

/-- `"", "xyz"` -/
def noneAndThree : Pipeline := [.concat [[.string ""], [.string "xyz"]]]

theorem evaluate_slice_parts_text :
    let run := fun p => evaluate (Run.call 0) p [] (.string "añ€b")
    let part := Selector.slice thirdLast lastButFraction false
    run [.access [] [part]] = .ok [.string "ñ€"] ∧
      run [.assign [] [part] .update []] = .ok [.string "añ€b"] ∧
      run [.assign [] [part] .set noneAndThree] = .ok [.string "ab", .string "axyzb"] ∧
      (Value.string "axyzb").slice (.number (.ofNat 1)) (.number (.ofNat 4)) =
        .ok (.string "xyz") ∧
      ∃ front back,
        run [.access [] [.slice [.null] [.number (.infinite true)] false]] =
          .ok [.string (String.ofList front)] ∧
        run [.access [] [.slice [.number (.infinite true)] [.null] false]] =
          .ok [.string (String.ofList back)] ∧
        front ++ back = ['a', 'ñ', '€', 'b'] := by
  intro run part
  have hstart : evaluate (Run.call 0) thirdLast [] (.string "añ€b") =
      .ok [.number (Number.ofNat 3).neg] := rfl
  have hstop : evaluate (Run.call 0) lastButFraction [] (.string "añ€b") =
      .ok [.number (Number.nearest false (3 * unitsPerOne) 2).neg] := rfl
  obtain ⟨⟨i, j, hends, -, -, ⟨found, hread, hwhole⟩, hsame, hset, hback⟩, hcut⟩ :=
    evaluate_slice_parts .text ['a', 'ñ', '€', 'b'] hstart hstop rfl rfl false
  obtain ⟨rfl, rfl⟩ : i = 1 ∧ j = 3 := by
    have hrange : ((Value.string "añ€b").sliceRange 4 (.number (Number.ofNat 3).neg)
        (.number (Number.nearest false (3 * unitsPerOne) 2).neg)).toOption = some (1, 3) := by
      decide +kernel
    change (Value.string "añ€b").sliceRange 4 _ _ = _ at hends
    rw [hends] at hrange
    exact Prod.mk.inj (Option.some.inj hrange)
  have hparts : ['a'] ++ found ++ ['b'] = ['a'] ++ ['ñ', '€'] ++ ['b'] := hwhole
  obtain rfl : found = ['ñ', '€'] := List.append_cancel_left (List.append_cancel_right hparts)
  refine ⟨hread, hsame, hset noneAndThree [[], ['x', 'y', 'z']] rfl, ?_, ?_⟩
  · exact (hback ['x', 'y', 'z']).2 (.ofNat 1) (.ofNat 4) (by decide +kernel) (by decide +kernel)
  · exact hcut [.number (.infinite true)] (.infinite true) rfl
end Feed

end JsonPipe
