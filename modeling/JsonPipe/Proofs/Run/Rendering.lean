import JsonPipe.Proofs.Run.Border

/-! One text for equal values.

    The JSON text of a value is the text of its host data, with null for what JSON lacks
    (`Value.jsonText_hostData`). Host data does not see which function stands where nor the sign of
    zero, and neither does the order of values: equal values have the same host data, so the same
    text, and they fail for the same number (`Value.same_hostData`). In the other direction the text
    of JSON data is a program that puts the data out, and a program puts out one thing, so data with
    one text is equal (`Value.IsJson.same_of_json_eq`). -/

namespace JsonPipe

/-! ### The text of host data -/

theorem Number.jsonText_hostData (n : Number) (rest : List Char) :
    n.hostData.jsonText rest = n.jsonText ++ rest := by
  cases n with
  | finite negative m =>
    rw [hostData, jsonText, hostInteger?_eq]
    cases (Number.finite negative m).jsonInteger? with
    | some i => rw [Json.jsonText]
    | none => rw [Json.jsonText]
  | _ => rfl

mutual

theorem Value.jsonText_hostData (v : Value) (rest : List Char) :
    v.hostData.jsonText rest = v.jsonText rest := by
  match v with
  | .null | .string _ | .function _ => rfl
  | .bool true | .bool false => rfl
  | .number n => rw [Value.hostData, Value.jsonText, n.jsonText_hostData]
  | .array items => rw [Value.hostData, Json.jsonText, Value.jsonText, itemsText_hostData]
  | .object es => rw [Value.hostData, Json.jsonText, Value.jsonText, entriesText_hostData]
termination_by structural v

theorem itemsText_hostData (vs : List Value) (rest : List Char) :
    Json.itemsText (hostDataOfItems vs) rest = itemsText vs rest := by
  match vs with
  | [] => rfl
  | [v] => exact v.jsonText_hostData rest
  | v :: w :: more =>
    have hmore := itemsText_hostData (w :: more) rest
    rw [hostDataOfItems] at hmore
    rw [hostDataOfItems, hostDataOfItems, Json.itemsText, itemsText, v.jsonText_hostData, hmore]
    · simp
    · simp
termination_by structural vs

theorem entriesText_hostData (es : List (String × Value)) (rest : List Char) :
    Json.entriesText (hostDataOfEntries es) rest = entriesText es rest := by
  match es with
  | [] => rfl
  | [(k, v)] =>
    rw [hostDataOfEntries, hostDataOfEntries, Json.entriesText, entriesText, v.jsonText_hostData]
  | (k, v) :: e :: more =>
    have hmore := entriesText_hostData (e :: more) rest
    rw [hostDataOfEntries] at hmore
    rw [hostDataOfEntries, hostDataOfEntries, Json.entriesText, entriesText, v.jsonText_hostData,
      hmore]
    · simp
    · simp
termination_by structural es

end

/-! ### Equal values -/

namespace Number

theorem isFinite_unsigned (n : Number) : n.unsigned.isFinite = n.isFinite := by
  cases n with
  | finite negative m => rw [unsigned_finite]; rfl
  | _ => rfl

theorem hostData_unsigned (n : Number) : n.unsigned.hostData = n.hostData := by
  cases n with
  | finite negative m =>
    by_cases hzero : m.units = 0
    · have hint : m.IsInteger := Magnitude.isInteger_of_zero hzero
      have hwhole : ∀ negative, signedInteger negative (m.units / unitsPerOne) = 0 := by
        intro negative
        rw [hzero, Nat.zero_div]
        cases negative <;> rfl
      rw [unsigned_finite, hostData_finite, hostData_finite, if_pos hint, if_pos hint, hwhole,
        hwhole]
    · rw [unsigned_finite, decide_eq_true hzero, Bool.and_true]
  | _ => rfl

/-- The signs of zeros do not matter to what is let through. -/
theorem accept_unsigned {α : Type} (ns : List Number) (a : α) :
    accept (ns.map unsigned) a = accept ns a := by
  have hfinite : ((fun n => !n.isFinite) ∘ unsigned) = fun n => !n.isFinite := by
    funext n
    rw [Function.comp_apply, isFinite_unsigned]
  rw [accept, accept, List.find?_map, hfinite]
  cases hfind : ns.find? fun n => !n.isFinite with
  | none => rfl
  | some n =>
    have hnot := List.find?_some hfind
    cases n with
    | finite negative m => cases hnot
    | _ => rfl

end Number

namespace Value

variable {v w : Value}

theorem numbers_viewed (g : Function → Function) (v : Value) :
    (v.viewed g).numbers = v.numbers.map Number.unsigned := by
  induction v using Value.induction with
  | array items ih =>
    rw [viewed_array, numbers_array, numbers_array, List.flatMap_map, List.map_flatMap]
    exact List.flatMap_congr ih
  | object entries ih =>
    rw [viewed_object, numbers_object, numbers_object, Entries.values_mapValues, List.flatMap_map,
      List.map_flatMap]
    exact List.flatMap_congr ih
  | _ => rfl

theorem hostData_viewed (g : Function → Function) (v : Value) :
    (v.viewed g).hostData = v.hostData := by
  induction v using Value.induction with
  | number n => exact n.hostData_unsigned
  | array items ih =>
    rw [viewed_array, hostData_array, hostData_array, List.map_map]
    exact congrArg Json.array (List.map_congr_left ih)
  | object entries ih =>
    rw [viewed_object, hostData_object, hostData_object, Entries.mapValues_mapValues]
    exact congrArg Json.object (Entries.mapValues_congr ih)
  | _ => rfl

theorem json_eq (v : Value) : v.json = v.hostData.text := by
  rw [json, Json.text, jsonText_hostData]

/-- Equal values are the same on the other side of the border, and in text. -/
theorem same_hostData (h : v.same w = true) : v.json = w.json ∧ v.toJson = w.toJson := by
  have hshape : v.shape = w.shape := (same_iff v w).1 h
  have hdata : v.hostData = w.hostData := by
    rw [← hostData_viewed (fun _ => .builtin .id) v, ← hostData_viewed (fun _ => .builtin .id) w]
    exact congrArg hostData hshape
  have hnumbers : v.numbers.map Number.unsigned = w.numbers.map Number.unsigned := by
    rw [← numbers_viewed (fun _ => .builtin .id) v, ← numbers_viewed (fun _ => .builtin .id) w]
    exact congrArg numbers hshape
  constructor
  · rw [json_eq, json_eq, hdata]
  · rw [toJson_eq, toJson_eq, ← Number.accept_unsigned, hnumbers, Number.accept_unsigned, hdata]

/-- JSON data with one text is equal: as a program, the text puts out the one and the other. -/
theorem IsJson.same_of_json_eq (hv : v.IsJson) (hw : w.IsJson) (h : v.json = w.json) :
    v.same w = true := by
  have hliteral : v.literal = w.literal := by
    have hparse := v.parse_json
    rw [h, w.parse_json] at hparse
    exact (Except.ok.inj hparse).symm
  have hunsigned : v.unsigned = w.unsigned := by
    have hrun := Run.literal_one hv (Run.call 0) [] .null
    rw [hliteral, Run.literal_one hw] at hrun
    have houtput := congrArg Outcome.collect hrun
    rw [Outcome.collect_one, Outcome.collect_one] at houtput
    exact (List.singleton_inj.1 (Except.ok.inj houtput)).symm
  rw [same_iff, ← (same_iff _ _).1 v.unsigned_same, hunsigned]
  exact (same_iff _ _).1 w.unsigned_same

/-- Equal values have one JSON text, and the same host data or the same failure. Values without
    functions whose numbers are finite are equal if they have one text. If a value goes out, what
    goes out has the text of the value, with its keys in order. It fails to go out exactly if there
    is a number in it that is not finite, and then the first of these is named. -/
theorem json_canonical (v w : Value) :
    (v.same w = true → v.json = w.json ∧ v.toJson = w.toJson) ∧
    (v.IsJson → w.IsJson → v.json = w.json → v.same w = true) ∧
    (∀ j, v.toJson = .ok j → j.text = v.json ∧ (v.Orderly → j.Canonical)) ∧
    ((∃ e, v.toJson = .error e) ↔ ∃ n ∈ v.numbers, n.isFinite = false) ∧
    ∀ e, v.toJson = .error e ↔
      ∃ n, v.numbers.find? (fun n => !n.isFinite) = some n ∧ e = n.refusal := by
  refine ⟨same_hostData, IsJson.same_of_json_eq, fun j h => ⟨?_, fun horderly => ?_⟩, ?_, ?_⟩
  · obtain ⟨-, rfl⟩ := toJson_eq_ok_iff.1 h
    exact (json_eq v).symm
  · obtain ⟨hjson, rfl⟩ := exists_isJson_of_toJson horderly h
    exact hjson.canonical_hostData
  · constructor
    · rintro ⟨e, he⟩
      rw [toJson_eq, Number.accept_eq_error_iff] at he
      obtain ⟨n, hfind, -⟩ := he
      exact ⟨n, List.mem_of_find?_eq_some hfind, by simpa using List.find?_some hfind⟩
    · rintro ⟨n, hn, hnot⟩
      cases hout : v.toJson with
      | error e => exact ⟨e, rfl⟩
      | ok j =>
        rw [(toJson_eq_ok_iff.1 hout).1 n hn] at hnot
        cases hnot
  · intro e
    rw [toJson_eq, Number.accept_eq_error_iff]

/-- `mixedDocument` with another function and without the sign of its zero. -/
def otherMixedDocument : Value :=
  .object [("f", .function (.closure ["x"] [] [])),
    ("n", .array [.number .zero, .number (.nearest true (3 * unitsPerOne) 2),
      .number (.ofNat 9007199254740992)])]

theorem json_canonical_mixed :
    mixedDocument.same otherMixedDocument = true ∧
    mixedDocument.json = otherMixedDocument.json ∧
    mixedDocument.toJson = otherMixedDocument.toJson ∧
    mixedDocument.hostData.text = mixedDocument.json ∧ mixedDocument.hostData.Canonical ∧
    (Value.number (.finite true .zero)).json = "0" ∧
    (Value.number (.finite true .zero)).same (.number .zero) = true := by
  obtain ⟨hequal, -, hout, -⟩ := json_canonical mixedDocument otherMixedDocument
  have hsame : mixedDocument.same otherMixedDocument = true := by decide +kernel
  have hdata : mixedDocument.toJson = .ok mixedDocument.hostData :=
    toJson_eq_ok_iff.2 ⟨by decide +kernel, rfl⟩
  have hzero : (Value.number (.finite true .zero)).json = (Value.number .zero).json := by
    decide +kernel
  exact ⟨hsame, (hequal hsame).1, (hequal hsame).2, (hout _ hdata).1,
    (hout _ hdata).2 mixedDocument_orderly, by decide +kernel,
    (json_canonical _ _).2.1 (.number rfl) (.number rfl) hzero⟩

end Value

end JsonPipe
