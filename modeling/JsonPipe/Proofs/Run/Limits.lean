import JsonPipe.Proofs.Run.Slices
import JsonPipe.Proofs.Value.Choices
import JsonPipe.Proofs.Value.Provenance

/-! What a number can ask for.

    A number asks for memory in two places: a text is repeated as often as it says, and an array that
    is written to under it grows up to the slot. Both look at the limit before anything is built. The
    number of copies is the number without its fraction, and they are made if they are not longer than
    the limit in bytes (`Value.multiplyText_repetition`). Indices are looked at one by one, each
    against the array as it was; as an index never counts from beyond the ends of the grown array, the
    writes after one another need no more slots than the one that needs most (`Items.length_writeAll`),
    so no array gets longer than that (`Assign.keys_resized`). -/

namespace JsonPipe

/-! ### Copies of a text -/

namespace Number

variable {n : Number}

/-- A number below one has no whole part, if it has any. -/
theorem truncated?_of_key_lt (hnan : n ≠ .nan) (h : n.key < unitsPerOne) :
    n = .infinite true ∨ ∃ count < 1, n.truncated? = some count := by
  cases n with
  | nan => exact absurd rfl hnan
  | infinite negative =>
    cases negative with
    | true => exact .inl rfl
    | false =>
      have hover : unitsPerOne ≤ overflowUnits := pow2_le (Nat.le_add_left _ _)
      simp only [key] at h
      omega
  | finite negative m =>
    right
    cases negative with
    | true =>
      have hwhole : (0 : Int) ≤ ↑(m.units / unitsPerOne) := Int.natCast_nonneg _
      refine ⟨_, ?_, rfl⟩
      simp only [if_true]
      omega
    | false =>
      have hunits : m.units < unitsPerOne := by
        simp only [key] at h
        omega
      refine ⟨_, ?_, rfl⟩
      simp [Nat.div_eq_of_lt hunits]

/-- Any other number is a count of at least one, without its fraction, unless it is too large for any
    count or no number at all. -/
theorem exists_count (h : ¬ (n ≠ .nan ∧ n.key < unitsPerOne)) :
    n = .nan ∨ n = .infinite false ∨ ∃ count : Nat, 1 ≤ count ∧ n.truncated? = some ↑count := by
  cases n with
  | nan => exact .inl rfl
  | infinite negative =>
    cases negative with
    | false => exact .inr (.inl rfl)
    | true =>
      have hpos : 0 < unitsPerOne := pow2_pos _
      refine absurd ⟨by simp, ?_⟩ h
      simp only [key]
      omega
  | finite negative m =>
    have hkey : (unitsPerOne : Int) ≤ key (.finite negative m) := by
      by_contra hlt
      exact h ⟨by simp, Int.not_le.1 hlt⟩
    have hpos : 0 < unitsPerOne := pow2_pos _
    cases negative with
    | true =>
      simp only [key] at hkey
      omega
    | false =>
      have hunits : unitsPerOne ≤ m.units := Int.ofNat_le.1 hkey
      exact .inr (.inr ⟨m.units / unitsPerOne, (Nat.one_le_div_iff hpos).2 hunits, rfl⟩)

end Number

namespace Value

theorem toList_repeated (text : String) (count : Nat) :
    (repeated text count).toList = (List.replicate count text.toList).flatten := by
  induction count with
  | zero => rfl
  | succ count ih =>
    rw [repeated, Nat.repeat, ← repeated, String.toList_append, ih, List.replicate_succ',
      List.flatten_concat]

theorem utf8ByteSize_repeated (text : String) (count : Nat) :
    (repeated text count).utf8ByteSize = count * text.utf8ByteSize := by
  induction count with
  | zero => simp [repeated, Nat.repeat]
  | succ count ih =>
    rw [repeated, Nat.repeat, ← repeated, String.utf8ByteSize_append, ih, Nat.succ_mul]

/-- A text repeated by a number: null if there is not one copy of it, the copies if they are within
    the limit, and otherwise a failure. Of the empty text any number of copies is empty, be it
    infinite or NaN. -/
inductive Repetition (text : String) (n : Number) : Except Failure Value → Prop
  | none : n = .infinite true ∨ (∃ count < 1, n.truncated? = some count) →
    Repetition text n (.ok .null)
  | copies (count : Nat) (result : String) : 1 ≤ count → n.truncated? = some ↑count →
    result.toList = (List.replicate count text.toList).flatten →
    result.utf8ByteSize ≤ maxCollectionLength → Repetition text n (.ok (.string result))
  | empty : text = "" → n = .nan ∨ n = .infinite false → Repetition text n (.ok (.string ""))
  | tooLong : text ≠ "" →
    n = .nan ∨ n = .infinite false ∨
      (∃ count : Nat, n.truncated? = some ↑count ∧
        maxCollectionLength < count * text.utf8ByteSize) →
    Repetition text n (.error (.of (.sizeLimitExceeded maxCollectionLength)))

theorem multiplyText_repetition (text : String) (n : Number) :
    Repetition text n (multiplyText text n) := by
  rw [multiplyText]
  split
  · next hless => exact .none (Number.truncated?_of_key_lt hless.1 hless.2)
  · next hnot =>
    have hcount := Number.exists_count hnot
    split
    · next hempty =>
      obtain rfl : text = "" := by simpa using hempty
      rcases hcount with hnan | hinf | ⟨count, hone, hwhole⟩
      · exact .empty rfl (.inl hnan)
      · exact .empty rfl (.inr hinf)
      · exact .copies count "" hone hwhole (by simp) (by decide)
    · next hempty =>
      have htext : text ≠ "" := by
        rintro rfl
        exact hempty rfl
      rcases hcount with rfl | rfl | ⟨count, hone, hwhole⟩
      · exact .tooLong htext (.inl rfl)
      · exact .tooLong htext (.inr (.inl rfl))
      · rw [hwhole]
        simp only [Int.toNat_natCast]
        split
        · next hfits =>
          refine .copies count _ hone hwhole (toList_repeated text count) ?_
          rwa [utf8ByteSize_repeated, Nat.mul_comm]
        · next hover =>
          refine .tooLong htext (.inr (.inr ⟨count, hwhole, ?_⟩))
          rw [Nat.mul_comm]
          omega

end Value

/-! ### Slots of an array -/

/-- A row has one value for every slot. -/
theorem Items.length_of_mem_combinations {source row : List Value} {slots rows : List (List Value)}
    (h : combinations source slots = .ok rows) (hrow : row ∈ rows) : row.length = slots.length := by
  rw [(combinations_eq_ok_iff.1 h).2] at hrow
  obtain ⟨chosen, hchosen, rfl⟩ := List.mem_map.1 hrow
  have hlength := (mem_product.1 hchosen).length_eq
  rw [List.length_zipWith, length_fit, hlength, Nat.min_self]

namespace Assign

variable {fill : Fill} {indices : List Int} {items : List Value} {length limit : Nat}

theorem foldl_max_le (hlength : length ≤ limit) (h : ∀ i ∈ indices, neededLength i ≤ limit) :
    (indices.map neededLength).foldl max length ≤ limit := by
  induction indices generalizing length with
  | nil => exact hlength
  | cons i indices ih =>
    obtain ⟨hi, hindices⟩ := List.forall_mem_cons.1 h
    exact ih (Nat.max_le.2 ⟨hlength, hi⟩) hindices

/-- Calls on all elements of a list give one result each, unless one of them fails. -/
theorem mapM_cases {α β : Type} (f : α → Except Failure β) (as : List α) :
    (∃ a ∈ as, ∃ e, f a = .error e ∧ as.mapM f = .error e) ∨
      ∃ bs, as.mapM f = .ok bs ∧ bs.length = as.length := by
  induction as with
  | nil => exact .inr ⟨[], rfl, rfl⟩
  | cons a as ih =>
    rw [List.mapM_cons]
    cases ha : f a with
    | error e => exact .inl ⟨a, List.mem_cons_self, e, ha, rfl⟩
    | ok b =>
      rcases ih with ⟨c, hc, e, hfail, hfails⟩ | ⟨bs, hbs, hlength⟩
      · rw [hfails]
        exact .inl ⟨c, List.mem_cons_of_mem _ hc, e, hfail, rfl⟩
      · rw [hbs]
        exact .inr ⟨b :: bs, rfl, congrArg (· + 1) hlength⟩

/-- The rows for several slots, unless one of them cannot be filled or there are too many rows to
    count. -/
theorem slotRows_cases (fill : Fill) (current : List Value) :
    (∃ v ∈ current, ∃ e, fill v = .error e ∧ slotRows fill current = .error e) ∨
      (∃ slots, current.mapM fill = .ok slots ∧ ¬ FitsWord slots ∧
        slotRows fill current = .error (.of .overflow)) ∨
      ∃ rows, slotRows fill current = .ok rows ∧ ∀ row ∈ rows, row.length = current.length := by
  rcases mapM_cases fill current with ⟨v, hv, e, hfill, hfails⟩ | ⟨slots, hslots, hlength⟩
  · refine .inl ⟨v, hv, e, hfill, ?_⟩
    rw [slotRows, hfails]
    rfl
  · have hrows : slotRows fill current = Items.combinations current slots := by
      rw [slotRows, hslots]
      rfl
    by_cases hfits : FitsWord slots
    · have hcombinations := Items.combinations_eq current hfits
      refine .inr (.inr ⟨_, hrows.trans hcombinations, fun row hrow => ?_⟩)
      rw [Items.length_of_mem_combinations hcombinations hrow, hlength]
    · exact .inr (.inl ⟨slots, hslots, hfits,
        hrows.trans (Items.counted_of_not_fitsWord hfits _)⟩)

/-- An array with the slots under some indices written: the first index that is beyond the limit
    fails, or leaves the array alone if the write is optional. If there is none, the write fails with
    one of the slots, breaks off because the choices of candidates cannot be counted, or gives arrays
    that are just as long as the indices need them to be. -/
inductive Resized (fill : Fill) (optional : Bool) (indices : List Int) (items : List Value) :
    Except Failure (List Value) → Prop
  | refused (i : Int) : optional = false → i ∈ indices →
    max items.length maxCollectionLength < neededLength i →
    Resized fill optional indices items (.error (.of (.indexOutOfRange i items.length)))
  | spared (i : Int) : optional = true → i ∈ indices →
    max items.length maxCollectionLength < neededLength i →
    Resized fill optional indices items (.ok [.array items])
  | failed (i : Int) (e : Failure) :
    (∀ i ∈ indices, neededLength i ≤ max items.length maxCollectionLength) → i ∈ indices →
    fill ((Items.get? items i).getD .null) = .error e →
    Resized fill optional indices items (.error e)
  | overflow (candidates : List (List Value)) :
    (∀ i ∈ indices, neededLength i ≤ max items.length maxCollectionLength) →
    (indices.map fun i => (Items.get? items i).getD .null).mapM fill = .ok candidates →
    ¬ FitsWord candidates →
    Resized fill optional indices items (.error (.of .overflow))
  | written (arrays : List (List Value)) :
    (∀ i ∈ indices, neededLength i ≤ max items.length maxCollectionLength) →
    (∀ xs ∈ arrays, xs.length = (indices.map neededLength).foldl max items.length ∧
      xs.length ≤ max items.length maxCollectionLength) →
    Resized fill optional indices items (.ok (arrays.map .array))

theorem elements_resized (optional : Bool)
    (h : ∀ i ∈ indices, neededLength i ≤ max items.length maxCollectionLength) :
    Resized fill optional indices items (elements fill indices items) := by
  rcases slotRows_cases fill (indices.map fun i => (Items.get? items i).getD .null) with
    ⟨v, hv, e, hfill, hfails⟩ | ⟨slots, hslots, hfits, hfails⟩ | ⟨rows, hrows, hlength⟩
  · obtain ⟨i, hi, rfl⟩ := List.mem_map.1 hv
    rw [elements, hfails]
    exact .failed i e h hi hfill
  · rw [elements, hfails]
    exact .overflow slots h hslots hfits
  · have hwritten : elements fill indices items =
        .ok ((rows.map fun row => Items.writeAll .null items (indices.zip row)).map .array) := by
      rw [elements, hrows, List.map_map]
      rfl
    rw [hwritten]
    refine .written _ h fun xs hxs => ?_
    obtain ⟨row, hrow, rfl⟩ := List.mem_map.1 hxs
    have hzip : (indices.zip row).map Prod.fst = indices := by
      refine List.map_fst_zip ?_
      rw [hlength row hrow, List.length_map]
    have hneeded : (Items.writeAll .null items (indices.zip row)).length =
        (indices.map neededLength).foldl max items.length := by
      rw [Items.length_writeAll]
      change ((indices.zip row).map (neededLength ∘ Prod.fst)).foldl max _ = _
      rw [← List.map_map, hzip]
    exact ⟨hneeded, hneeded ▸ foldl_max_le (Nat.le_max_left _ _) h⟩

theorem keys_resized (fill : Fill) (optional : Bool) (ns : List Number) (items : List Value) :
    Resized fill optional (ns.map Number.toIndex) items
      (keys fill optional (ns.map .number) (.array items)) := by
  cases ns with
  | nil =>
    refine .written [items] (by simp) fun xs hxs => ?_
    obtain rfl := List.mem_singleton.1 hxs
    exact ⟨rfl, Nat.le_max_left _ _⟩
  | cons n ns =>
    have hfits : ((n :: ns).map Value.number).find? (fun k => !fits (.array items) k) = none := by
      refine List.find?_eq_none.2 fun k hk => ?_
      obtain ⟨m, -, rfl⟩ := List.mem_map.1 hk
      simp [fits]
    have hnumbers : ((n :: ns).map Value.number).filterMap Value.number? = n :: ns := by
      rw [List.filterMap_map]
      exact List.filterMap_some
    rw [List.map_cons] at hfits hnumbers
    simp only [keys, List.map_cons, promote, hfits, hnumbers]
    split
    · next i hfind =>
      have hfound := List.find?_some hfind
      have hbeyond : max items.length maxCollectionLength < neededLength i :=
        of_decide_eq_true hfound
      have hi := List.mem_of_find?_eq_some hfind
      cases optional with
      | true => exact .spared i rfl hi hbeyond
      | false => exact .refused i rfl hi hbeyond
    · next hfind =>
      refine elements_resized optional fun i hi => Nat.not_lt.1 fun hbeyond => ?_
      exact List.find?_eq_none.1 hfind i hi (decide_eq_true hbeyond)

end Assign

/-! ### Programs -/

namespace Feed

/-- What a write gives for a slot that it has come to: the candidates along the rest of its path. -/
def slotFill (call : Call) (rest : List (Selector Pipeline)) (scope : Scope) (input : Value)
    (op : AssignmentOp) (value : Pipeline) : Assign.Fill :=
  Run.assign call rest scope input op
    (Run.assigned op (fun _ => Run.pipeline call value scope input) (Run.pipeline call value scope))

/-- A number cannot ask for more than the limit. A text times a number, on either side, is null, the
    text as often as the number without its fraction says, in no more bytes than the limit, or a
    failure, which needs a text that is not empty and a number that is NaN or asks for more. A write
    to the slots under any number keys of an array, wherever in a document it stands, fails, leaves
    the array alone because it is optional, breaks off because the choices of candidates cannot be
    counted, or gives arrays that are as long as the key needs them to be that needs most, and not
    longer than the limit unless the array was. -/
theorem number_sizes_bounded (call : Call) (scope : Scope) (input : Value) :
    (∀ (text : String) (n : Number),
      ArithmeticOp.multiplication.apply (.number n) (.string text) =
        ArithmeticOp.multiplication.apply (.string text) (.number n) ∧
      Value.Repetition text n (ArithmeticOp.multiplication.apply (.string text) (.number n))) ∧
    ∀ (key : Pipeline) (ns : List Number), evaluate call key scope input = .ok (ns.map .number) →
      ∀ (optional : Bool) (rest : List (Selector Pipeline)) (op : AssignmentOp)
        (items : List Value),
        (∀ fill : Assign.Fill,
          Assign.Resized (Run.assign call rest scope input op fill) optional
            (ns.map Number.toIndex) items
            (Run.assign call (.field key optional :: rest) scope input op fill (.array items))) ∧
        ∀ base value : Pipeline, evaluate call base scope input = .ok [.array items] →
          Assign.Resized (slotFill call rest scope input op value) optional
            (ns.map Number.toIndex) items
            (evaluate call [.assign base (.field key optional :: rest) op value] scope input) := by
  refine ⟨fun text n => ⟨rfl, Value.multiplyText_repetition text n⟩, ?_⟩
  intro key ns hkey optional rest op items
  have hwalk : ∀ fill : Assign.Fill,
      Assign.Resized (Run.assign call rest scope input op fill) optional (ns.map Number.toIndex)
        items
        (Run.assign call (.field key optional :: rest) scope input op fill (.array items)) := by
    intro fill
    rw [evaluate_eq] at hkey
    rw [Run.assign, hkey]
    exact Assign.keys_resized _ optional ns items
  refine ⟨hwalk, fun base value hbase => ?_⟩
  have hbase : Run.pipeline call base scope input = .one (.array items) := run_of_evaluate hbase
  rw [evaluate_eq, Run.pipeline_assign, hbase, Outcome.one_bind, Outcome.collect_ofExcept]
  exact hwalk _

/-- `3, -6` -/
def fourthAndSixthLast : Pipeline :=
  [.concat [[.number (.ofNat 3)], [.number (.ofNat 6), .negate]]]

/-- An array of one grows at the back for the first key and at the front for the second, up to six. -/
theorem number_sizes_bounded_both_ends :
    let twoAndHalf := Number.nearest false (5 * unitsPerOne) 2
    let write := evaluate (Run.call 0) [.assign [] [.field fourthAndSixthLast false] .set
      [.string "x"]] [] (.array [.bool true])
    ((ArithmeticOp.multiplication.apply (.number twoAndHalf) (.string "añ")).toOption.map
        Value.json = some "\"añañ\"" ∧
      Value.Repetition "añ" twoAndHalf
        (ArithmeticOp.multiplication.apply (.number twoAndHalf) (.string "añ"))) ∧
    write.toOption.map (·.map Value.json) = some ["[\"x\",null,true,null,null,\"x\"]"] ∧
    Assign.Resized (slotFill (Run.call 0) [] [] (.array [.bool true]) .set [.string "x"]) false
      [3, -6] [.bool true] write := by
  intro twoAndHalf write
  have hkey : evaluate (Run.call 0) fourthAndSixthLast [] (.array [.bool true]) =
      .ok ([.ofNat 3, (Number.ofNat 6).neg].map .number) := rfl
  obtain ⟨htexts, hkeys⟩ := number_sizes_bounded (Run.call 0) [] (.array [.bool true])
  have hindices : [.ofNat 3, (Number.ofNat 6).neg].map Number.toIndex = [3, -6] := by
    decide +kernel
  refine ⟨⟨by decide +kernel, (htexts "añ" twoAndHalf).2⟩, by decide +kernel, ?_⟩
  rw [← hindices]
  exact (hkeys _ _ hkey false [] .set [.bool true]).2 [] [.string "x"] rfl

end Feed

end JsonPipe
