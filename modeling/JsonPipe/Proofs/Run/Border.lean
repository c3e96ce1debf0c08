import JsonPipe.Json
import JsonPipe.Proofs.Run.UpdateRead
import JsonPipe.Proofs.Value.TotalOrder

/-! Values across the border.

    Host data is made of a value part by part, and only numbers can go wrong: a value has a form as
    host data whatever its numbers are (`Value.hostData`), and the first number in it that is not
    finite is what refuses it (`Value.toJson_eq`). Which host data comes out can be told from the
    data alone (`Json.Canonical`): whole numbers below `2^53` are integers and no others are, and
    keys are in order. Such data goes in and comes out as it was, and a value goes out and comes in
    as it was but for its functions, which are null by then, and the signs of its zeros
    (`Value.toJson_toValue`). -/

namespace JsonPipe

/-! ### Whole numbers -/

theorem pow2_lt {m n : Nat} (h : m < n) : pow2 m < pow2 n := Nat.pow_lt_pow_right (by decide) h

/-- A whole number up to `2^53`. -/
def Magnitude.whole (n : Nat) (h : n ≤ pow2 53) : Magnitude where
  units := n * unitsPerOne
  fits := scaled_fits unitExponent h
  bounded := by
    refine Nat.lt_of_le_of_lt (Nat.mul_le_mul_right _ h) ?_
    rw [unitsPerOne, ← pow2_add]
    exact pow2_lt (Nat.add_lt_add_right (by decide) unitExponent)

namespace Number

/-- An integer with an exact magnitude is that number. -/
theorem ofInt_eq {i : Int} {m : Magnitude} (h : m.units = i.natAbs * unitsPerOne) :
    ofInt i = .finite (decide (i < 0)) m := by
  have hexact := nearest_exact (decide (i < 0)) m Nat.one_pos
  rwa [Nat.mul_one, h] at hexact

/-- Of a whole number, to be below `2^53` and to be at most the largest safe integer is one. -/
theorem hostInteger?_eq (n : Number) : n.hostInteger? = n.jsonInteger? := by
  have hlimit : pow2 53 = 9007199254740992 := rfl
  rw [hostInteger?, jsonInteger?]
  congr 1
  funext i
  rw [decide_eq_decide, hlimit, maxSafeInteger]
  omega

/-! ### Numbers that are let through -/

/-- A number as host data, with null for what JSON lacks. -/
def hostData (n : Number) : Json :=
  match n with
  | .finite negative m =>
    match n.hostInteger? with
    | some i => .integer i
    | none => .fraction negative m
  | _ => .null

/-- The failure of a number that JSON lacks. -/
def refusal (n : Number) : Failure :=
  .of (.normalization ("cannot represent " ++ n.display ++ " as JSON"))

/-- A result that is there if all of some numbers are finite; otherwise the first that is not is
    refused. -/
def accept {α : Type} (ns : List Number) (a : α) : Except Failure α :=
  match ns.find? fun n => !n.isFinite with
  | some n => .error n.refusal
  | none => .ok a

variable {α β γ : Type}

theorem toJson_eq (n : Number) : n.toJson = accept [n] n.hostData := by
  cases n with
  | finite negative m =>
    rw [toJson, hostData]
    cases (Number.finite negative m).hostInteger? <;> rfl
  | _ => rfl

theorem accept_map (ns : List Number) (f : α → β) (a : α) :
    (do return f (← accept ns a)) = accept ns (f a) := by
  rw [accept, accept]
  cases ns.find? fun n => !n.isFinite <;> rfl

theorem accept_append (ns more : List Number) (f : α → β → γ) (a : α) (b : β) :
    (do return f (← accept ns a) (← accept more b)) = accept (ns ++ more) (f a b) := by
  rw [accept, accept, accept, List.find?_append]
  cases ns.find? fun n => !n.isFinite with
  | some n => rfl
  | none => cases more.find? fun n => !n.isFinite <;> rfl

theorem accept_eq_ok_iff {ns : List Number} {a b : α} :
    accept ns a = .ok b ↔ (∀ n ∈ ns, n.isFinite = true) ∧ a = b := by
  rw [accept]
  cases hfind : ns.find? fun n => !n.isFinite with
  | some n =>
    have hn : n ∈ ns := List.mem_of_find?_eq_some hfind
    have hnot : n.isFinite = false := by simpa using List.find?_some hfind
    simp only [reduceCtorEq, false_iff, not_and]
    intro h
    rw [h n hn] at hnot
    cases hnot
  | none =>
    have hall : ∀ n ∈ ns, n.isFinite = true := by simpa using hfind
    exact ⟨fun h => ⟨hall, Except.ok.inj h⟩, fun h => congrArg Except.ok h.2⟩

theorem accept_eq_error_iff {ns : List Number} {a : α} {e : Failure} :
    accept ns a = .error e ↔ ∃ n, ns.find? (fun n => !n.isFinite) = some n ∧ e = n.refusal := by
  rw [accept]
  cases ns.find? fun n => !n.isFinite <;> simp [eq_comm]

end Number

/-! ### Values -/

mutual

/-- The numbers that stand in a value, not counting those inside functions. -/
def Value.numbers : Value → List Number
  | .number n => [n]
  | .array items => numbersOfItems items
  | .object es => numbersOfEntries es
  | _ => []
termination_by structural x => x

/-- The numbers that stand in the elements of an array. -/
def numbersOfItems : List Value → List Number
  | [] => []
  | v :: vs => v.numbers ++ numbersOfItems vs
termination_by structural x => x

/-- The numbers that stand in the values of an object. -/
def numbersOfEntries : List (String × Value) → List Number
  | [] => []
  | (_, v) :: es => v.numbers ++ numbersOfEntries es
termination_by structural x => x

end

mutual

/-- A value as host data, with null for functions and for numbers that JSON lacks. -/
def Value.hostData : Value → Json
  | .null => .null
  | .bool b => .bool b
  | .number n => n.hostData
  | .string s => .string s
  | .array items => .array (hostDataOfItems items)
  | .object es => .object (hostDataOfEntries es)
  | .function _ => .null
termination_by structural x => x

/-- The elements of an array as host data. -/
def hostDataOfItems : List Value → List Json
  | [] => []
  | v :: vs => v.hostData :: hostDataOfItems vs
termination_by structural x => x

/-- The entries of an object as host data. -/
def hostDataOfEntries : List (String × Value) → List (String × Json)
  | [] => []
  | (k, v) :: es => (k, v.hostData) :: hostDataOfEntries es
termination_by structural x => x

end

mutual

/-- The value with null in the place of every function. -/
def Value.withoutFunctions : Value → Value
  | .array items => .array (itemsWithoutFunctions items)
  | .object es => .object (entriesWithoutFunctions es)
  | .function _ => .null
  | v => v
termination_by structural x => x

/-- The elements of an array with null in the place of every function. -/
def itemsWithoutFunctions : List Value → List Value
  | [] => []
  | v :: vs => v.withoutFunctions :: itemsWithoutFunctions vs
termination_by structural x => x

/-- The entries of an object with null in the place of every function. -/
def entriesWithoutFunctions : List (String × Value) → List (String × Value)
  | [] => []
  | (k, v) :: es => (k, v.withoutFunctions) :: entriesWithoutFunctions es
termination_by structural x => x

end

mutual

/-- A value goes out if its numbers do, and only the first that does not is heard of. -/
theorem Value.toJson_eq (v : Value) : v.toJson = Number.accept v.numbers v.hostData := by
  match v with
  | .null | .bool _ | .string _ | .function _ => rfl
  | .number n => rw [Value.toJson, n.toJson_eq, Value.numbers, Value.hostData]
  | .array items =>
    rw [Value.toJson, itemsToJson_eq items, Number.accept_map, Value.numbers, Value.hostData]
  | .object es =>
    rw [Value.toJson, entriesToJson_eq es, Number.accept_map, Value.numbers, Value.hostData]
termination_by structural v

theorem itemsToJson_eq (vs : List Value) :
    itemsToJson vs = Number.accept (numbersOfItems vs) (hostDataOfItems vs) := by
  match vs with
  | [] => rfl
  | v :: vs =>
    rw [itemsToJson, v.toJson_eq, itemsToJson_eq vs, Number.accept_append, numbersOfItems,
      hostDataOfItems]
termination_by structural vs

theorem entriesToJson_eq (es : List (String × Value)) :
    entriesToJson es = Number.accept (numbersOfEntries es) (hostDataOfEntries es) := by
  match es with
  | [] => rfl
  | (k, v) :: es =>
    rw [entriesToJson, v.toJson_eq, entriesToJson_eq es,
      Number.accept_append _ _ (fun j js => (k, j) :: js), numbersOfEntries, hostDataOfEntries]
termination_by structural es

end

/-! Containers, part by part. -/

namespace Value

@[simp] theorem numbers_array (items : List Value) :
    (Value.array items).numbers = items.flatMap numbers := by
  rw [numbers]
  induction items with
  | nil => rfl
  | cons v vs ih => rw [numbersOfItems, ih, List.flatMap_cons]

@[simp] theorem numbers_object (es : Entries Value) :
    (Value.object es).numbers = es.values.flatMap numbers := by
  rw [numbers]
  induction es with
  | nil => rfl
  | cons e es ih =>
    rw [numbersOfEntries, ih]
    rfl

@[simp] theorem hostData_array (items : List Value) :
    (Value.array items).hostData = .array (items.map hostData) :=
  congrArg Json.array (eq_map_of_cons rfl (fun _ _ => rfl) items)

@[simp] theorem hostData_object (es : Entries Value) :
    (Value.object es).hostData = .object (es.mapValues hostData) :=
  congrArg Json.object (eq_map_of_cons rfl (fun _ _ => rfl) es)

@[simp] theorem withoutFunctions_array (items : List Value) :
    (Value.array items).withoutFunctions = .array (items.map withoutFunctions) :=
  congrArg Value.array (eq_map_of_cons rfl (fun _ _ => rfl) items)

@[simp] theorem withoutFunctions_object (es : Entries Value) :
    (Value.object es).withoutFunctions = .object (es.mapValues withoutFunctions) :=
  congrArg Value.object (eq_map_of_cons rfl (fun _ _ => rfl) es)

end Value

namespace Json

@[simp] theorem toValue_array (items : List Json) :
    (Json.array items).toValue = .array (items.map toValue) :=
  congrArg Value.array (eq_map_of_cons rfl (fun _ _ => rfl) items)

@[simp] theorem toValue_object (es : Entries Json) :
    (Json.object es).toValue = .object (Entries.ofList (es.mapValues toValue)) :=
  congrArg (fun es => Value.object (Entries.ofList es)) (eq_map_of_cons rfl (fun _ _ => rfl) es)

end Json

/-! ### Data as it comes out -/

/-- The magnitude is that of an integer below `2^53`. -/
def Magnitude.IsInteger (m : Magnitude) : Prop :=
  m.units % unitsPerOne = 0 ∧ m.units / unitsPerOne < pow2 53

instance (m : Magnitude) : Decidable m.IsInteger :=
  inferInstanceAs (Decidable (_ ∧ _))

theorem Magnitude.isInteger_of_zero {m : Magnitude} (h : m.units = 0) : m.IsInteger := by
  rw [IsInteger, h, Nat.zero_mod, Nat.zero_div]
  decide

/-- Host data in the form in which values come out: integers are below `2^53`, a number that could be
    such an integer is none of the fractions, and keys are in order, as those of a map are. -/
inductive Json.Canonical : Json → Prop
  | null : Canonical .null
  | bool (b : Bool) : Canonical (.bool b)
  | integer {i : Int} (h : i.natAbs < pow2 53) : Canonical (.integer i)
  | fraction (negative : Bool) {m : Magnitude} (h : ¬ m.IsInteger) :
    Canonical (.fraction negative m)
  | string (s : String) : Canonical (.string s)
  | array {items : List Json} (h : ∀ j ∈ items, Canonical j) : Canonical (.array items)
  | object {entries : Entries Json} (hsorted : entries.Sorted)
    (h : ∀ e ∈ entries, Canonical e.2) : Canonical (.object entries)

namespace Number

/-- An integer by its sign and its absolute value. -/
def signedInteger (negative : Bool) (whole : Nat) : Int := if negative then -whole else whole

theorem natAbs_signedInteger (negative : Bool) (whole : Nat) :
    (signedInteger negative whole).natAbs = whole := by
  cases negative <;> simp [signedInteger]

theorem signedInteger_neg_iff (negative : Bool) (whole : Nat) :
    decide (signedInteger negative whole < 0) = (negative && decide (whole ≠ 0)) := by
  cases negative <;> simp [signedInteger, Nat.pos_iff_ne_zero]

theorem signedInteger_natAbs (i : Int) : signedInteger (decide (i < 0)) i.natAbs = i := by
  rw [signedInteger]
  split
  · next hneg =>
    have hneg := of_decide_eq_true hneg
    omega
  · next hnot =>
    rw [decide_eq_true_eq] at hnot
    omega

theorem unsigned_finite (negative : Bool) (m : Magnitude) :
    (Number.finite negative m).unsigned = .finite (negative && decide (m.units ≠ 0)) m := by
  cases negative with
  | false => rfl
  | true => by_cases hzero : m.units = 0 <;> simp [unsigned, hzero]

theorem hostData_finite (negative : Bool) (m : Magnitude) :
    (Number.finite negative m).hostData =
      if m.IsInteger then .integer (signedInteger negative (m.units / unitsPerOne))
      else .fraction negative m := by
  have hsafe : (m.units % unitsPerOne = 0 ∧
      ((m.units / unitsPerOne : Nat) : Int) ≤ maxSafeInteger) ↔ m.IsInteger := by
    have hlimit : pow2 53 = 9007199254740992 := rfl
    rw [Magnitude.IsInteger, maxSafeInteger, hlimit]
    generalize m.units / unitsPerOne = whole
    omega
  rw [hostData, hostInteger?_eq, jsonInteger?_finite]
  simp only [hsafe]
  by_cases h : m.IsInteger
  · rw [if_pos h, if_pos h]
    rfl
  · rw [if_neg h, if_neg h]

theorem canonical_hostData {n : Number} (h : n.isFinite = true) : n.hostData.Canonical := by
  cases n with
  | finite negative m =>
    rw [hostData_finite]
    split
    · next hint =>
      refine .integer ?_
      rw [natAbs_signedInteger]
      exact hint.2
    · next hnot => exact .fraction negative hnot
  | _ => cases h

/-- A number comes in as it went out, but for the sign of zero. -/
theorem toValue_hostData {n : Number} (h : n.isFinite = true) :
    n.hostData.toValue = .number n.unsigned := by
  cases n with
  | finite negative m =>
    rw [hostData_finite]
    by_cases hint : m.IsInteger
    · have hunits : m.units / unitsPerOne * unitsPerOne = m.units :=
        Nat.div_mul_cancel (Nat.dvd_of_mod_eq_zero hint.1)
      have hofInt : ofInt (signedInteger negative (m.units / unitsPerOne)) =
          .finite (decide (signedInteger negative (m.units / unitsPerOne) < 0)) m := by
        refine ofInt_eq ?_
        rw [natAbs_signedInteger, hunits]
      have hzero : m.units / unitsPerOne = 0 ↔ m.units = 0 := by
        refine ⟨fun hdiv => ?_, fun hzero => by rw [hzero, Nat.zero_div]⟩
        rw [← hunits, hdiv, Nat.zero_mul]
      rw [if_pos hint, Json.toValue, hofInt, unsigned_finite, signedInteger_neg_iff]
      simp only [ne_eq, hzero]
    · have hpos : m.units ≠ 0 := fun hzero => hint (Magnitude.isInteger_of_zero hzero)
      rw [if_neg hint, Json.toValue, unsigned_finite, decide_eq_true hpos, Bool.and_true]
  | _ => cases h

/-- There is a number for every integer below `2^53`. -/
theorem exists_ofInt {i : Int} (h : i.natAbs < pow2 53) :
    ∃ m : Magnitude, m.units = i.natAbs * unitsPerOne ∧ ofInt i = .finite (decide (i < 0)) m :=
  ⟨.whole i.natAbs (Nat.le_of_lt h), rfl, ofInt_eq rfl⟩

theorem isFinite_ofInt {i : Int} (h : i.natAbs < pow2 53) : (ofInt i).isFinite = true := by
  obtain ⟨m, -, hm⟩ := exists_ofInt h
  rw [hm]
  rfl

/-- An integer goes out as it came in. -/
theorem hostData_ofInt {i : Int} (h : i.natAbs < pow2 53) : (ofInt i).hostData = .integer i := by
  obtain ⟨m, hunits, hm⟩ := exists_ofInt h
  have hpos : 0 < unitsPerOne := pow2_pos _
  have hwhole : m.units / unitsPerOne = i.natAbs := by rw [hunits, Nat.mul_div_cancel _ hpos]
  have hint : m.IsInteger := by
    refine ⟨?_, by rwa [hwhole]⟩
    rw [hunits, Nat.mul_mod_left]
  rw [hm, hostData_finite, if_pos hint, hwhole, signedInteger_natAbs]

end Number

/-! ### There and back -/

namespace Value

variable {v : Value} {j : Json}

theorem toJson_eq_ok_iff :
    v.toJson = .ok j ↔ (∀ n ∈ v.numbers, n.isFinite = true) ∧ v.hostData = j := by
  rw [toJson_eq, Number.accept_eq_ok_iff]

/-- Functions go out as the null that is put in their place. -/
theorem hostData_withoutFunctions (v : Value) : v.withoutFunctions.hostData = v.hostData := by
  induction v using Value.induction with
  | array items ih =>
    rw [withoutFunctions_array, hostData_array, hostData_array, List.map_map]
    exact congrArg Json.array (List.map_congr_left ih)
  | object entries ih =>
    rw [withoutFunctions_object, hostData_object, hostData_object, Entries.mapValues_mapValues]
    exact congrArg Json.object (Entries.mapValues_congr ih)
  | _ => rfl

/-- Without its functions, a value with finite numbers and its keys in order is JSON data. -/
theorem isJson_withoutFunctions (horderly : v.Orderly)
    (hfinite : ∀ n ∈ v.numbers, n.isFinite = true) : v.withoutFunctions.IsJson := by
  induction v using Value.induction with
  | null => exact .null
  | bool b => exact .bool b
  | number n => exact .number (hfinite n (List.mem_singleton.2 rfl))
  | string s => exact .string s
  | function f => exact .null
  | array items ih =>
    rw [orderly_array] at horderly
    rw [numbers_array, List.forall_mem_flatMap] at hfinite
    rw [withoutFunctions_array]
    refine .array fun w hw => ?_
    obtain ⟨v, hv, rfl⟩ := List.mem_map.1 hw
    exact ih v hv (horderly v hv) (hfinite v hv)
  | object entries ih =>
    rw [orderly_object] at horderly
    rw [numbers_object, List.forall_mem_flatMap] at hfinite
    rw [withoutFunctions_object]
    refine .object (horderly.1.mapValues _) fun e he => ?_
    obtain ⟨entry, hentry, rfl⟩ := List.mem_map.1 he
    have hv : entry.2 ∈ Entries.values entries := List.mem_map_of_mem hentry
    exact ih entry.2 hv (horderly.2 entry.2 hv) (hfinite entry.2 hv)

/-- JSON data goes out in its canonical form. -/
theorem IsJson.canonical_hostData (h : v.IsJson) : v.hostData.Canonical := by
  induction h with
  | null => exact .null
  | bool b => exact .bool b
  | number hn => exact Number.canonical_hostData hn
  | string s => exact .string s
  | array hitems ih =>
    rw [hostData_array]
    refine .array fun j hj => ?_
    obtain ⟨v, hv, rfl⟩ := List.mem_map.1 hj
    exact ih v hv
  | object hsorted hentries ih =>
    rw [hostData_object]
    refine .object (hsorted.mapValues _) fun e he => ?_
    obtain ⟨entry, hentry, rfl⟩ := List.mem_map.1 he
    exact ih entry hentry

/-- JSON data comes in as it went out, but for the signs of zeros. -/
theorem IsJson.toValue_hostData (h : v.IsJson) : v.hostData.toValue = v.unsigned := by
  induction h with
  | null | bool b | string s => rfl
  | number hn => exact Number.toValue_hostData hn
  | array hitems ih =>
    rw [hostData_array, Json.toValue_array, List.map_map, unsigned, viewed_array]
    exact congrArg Value.array (List.map_congr_left ih)
  | @object entries hsorted hentries ih =>
    have hvalues : entries.mapValues (Json.toValue ∘ hostData) = entries.mapValues unsigned := by
      refine Entries.mapValues_congr fun v hv => ?_
      obtain ⟨e, he, rfl⟩ := List.mem_map.1 hv
      exact ih e he
    rw [hostData_object, Json.toValue_object, Entries.mapValues_mapValues, hvalues,
      Entries.ofList_of_sorted (hsorted.mapValues _), unsigned, viewed_object]

end Value

namespace Json.Canonical

variable {j : Json}

/-- Host data in canonical form comes in as JSON data. -/
theorem isJson_toValue (h : j.Canonical) : j.toValue.IsJson := by
  induction h with
  | null => exact .null
  | bool b => exact .bool b
  | integer h => exact .number (Number.isFinite_ofInt h)
  | fraction negative h => exact .number rfl
  | string s => exact .string s
  | array hitems ih =>
    rw [toValue_array]
    refine .array fun v hv => ?_
    obtain ⟨j, hj, rfl⟩ := List.mem_map.1 hv
    exact ih j hj
  | object hsorted hentries ih =>
    rw [toValue_object, Entries.ofList_of_sorted (hsorted.mapValues _)]
    refine .object (hsorted.mapValues _) fun e he => ?_
    obtain ⟨entry, hentry, rfl⟩ := List.mem_map.1 he
    exact ih entry hentry

/-- Host data in canonical form goes out as it came in. -/
theorem hostData_toValue (h : j.Canonical) : j.toValue.hostData = j := by
  induction h with
  | null | bool b | string s => rfl
  | integer h => rw [toValue, Value.hostData, Number.hostData_ofInt h]
  | fraction negative h =>
    rw [toValue, Value.hostData, Number.hostData_finite, if_neg h]
  | array hitems ih =>
    rw [toValue_array, Value.hostData_array, List.map_map]
    exact congrArg Json.array ((List.map_congr_left ih).trans (List.map_id _))
  | @object entries hsorted hentries ih =>
    have hvalues : entries.mapValues (Value.hostData ∘ toValue) = entries := by
      refine (Entries.mapValues_congr fun j hj => ?_).trans (Entries.mapValues_id entries)
      obtain ⟨e, he, rfl⟩ := List.mem_map.1 hj
      exact ih e he
    rw [toValue_object, Entries.ofList_of_sorted (hsorted.mapValues _), Value.hostData_object,
      Entries.mapValues_mapValues, hvalues]

end Json.Canonical

namespace Value

variable {v : Value} {j : Json}

/-- JSON data goes out. -/
theorem IsJson.toJson_eq (h : v.IsJson) : v.toJson = .ok v.hostData := by
  refine toJson_eq_ok_iff.2 ⟨?_, rfl⟩
  induction h with
  | null | bool b | string s =>
    intro n hn
    cases hn
  | number hn =>
    intro n hmem
    rw [numbers, List.mem_singleton] at hmem
    rwa [hmem]
  | array hitems ih =>
    rw [numbers_array, List.forall_mem_flatMap]
    exact ih
  | object hsorted hentries ih =>
    rw [numbers_object, List.forall_mem_flatMap]
    intro v hv
    obtain ⟨e, he, rfl⟩ := List.mem_map.1 hv
    exact ih e he

/-- What goes out is what goes out without the functions, and that is JSON data. -/
theorem exists_isJson_of_toJson (horderly : v.Orderly) (h : v.toJson = .ok j) :
    v.withoutFunctions.IsJson ∧ v.withoutFunctions.hostData = j := by
  obtain ⟨hfinite, rfl⟩ := toJson_eq_ok_iff.1 h
  exact ⟨isJson_withoutFunctions horderly hfinite, hostData_withoutFunctions v⟩

/-- What a value goes out as comes in equal to the value with null in the place of every function;
    the two differ by signs of zeros at most. What comes out is host data in canonical form, and all
    of it does; it goes out again as it came in. -/
theorem toJson_toValue (v : Value) (j : Json) :
    (v.Orderly → v.toJson = .ok j →
      j.toValue.same v.withoutFunctions = true ∧ j.toValue = v.withoutFunctions.unsigned) ∧
    (j.Canonical ↔ ∃ w : Value, w.Orderly ∧ w.toJson = .ok j) ∧
    (j.Canonical → j.toValue.toJson = .ok j) := by
  have hback : j.Canonical → j.toValue.toJson = .ok j := by
    intro hj
    rw [hj.isJson_toValue.toJson_eq, hj.hostData_toValue]
  refine ⟨fun horderly h => ?_, ⟨fun hj => ?_, ?_⟩, hback⟩
  · obtain ⟨hjson, rfl⟩ := exists_isJson_of_toJson horderly h
    rw [hjson.toValue_hostData]
    exact ⟨unsigned_same _, rfl⟩
  · exact ⟨j.toValue, hj.isJson_toValue.orderly, hback hj⟩
  · rintro ⟨w, horderly, hw⟩
    obtain ⟨hjson, rfl⟩ := exists_isJson_of_toJson horderly hw
    exact hjson.canonical_hostData

/-- A function, a negative zero, a fraction and the first integer that is too large to be one. -/
def mixedDocument : Value :=
  .object [("f", .function (.builtin .id)),
    ("n", .array [.number (.finite true .zero), .number (.nearest true (3 * unitsPerOne) 2),
      .number (.ofNat 9007199254740992)])]

theorem mixedDocument_orderly : mixedDocument.Orderly := by
  refine orderly_object.2 ⟨by decide, ?_⟩
  simp only [Entries.values, List.map_cons, List.map_nil, List.forall_mem_cons, orderly_array]
  refine ⟨orderly_of_plain rfl, ⟨orderly_of_plain rfl, orderly_of_plain rfl, orderly_of_plain rfl,
    ?_⟩, ?_⟩ <;> simp

theorem toJson_toValue_mixed :
    (mixedDocument.toJson.toOption.map Json.text =
      some "\x7b\"f\":null,\"n\":[0,-1.5,9007199254740992.0]\x7d") ∧
    mixedDocument.toJson = .ok mixedDocument.hostData ∧
    mixedDocument.hostData.toValue.same mixedDocument.withoutFunctions = true ∧
    mixedDocument.hostData.toValue.toJson = .ok mixedDocument.hostData := by
  have hout : mixedDocument.toJson = .ok mixedDocument.hostData := by
    refine toJson_eq_ok_iff.2 ⟨by decide +kernel, rfl⟩
  obtain ⟨hin, hcanonical, hback⟩ := toJson_toValue mixedDocument mixedDocument.hostData
  exact ⟨by decide +kernel, hout, (hin mixedDocument_orderly hout).1,
    hback (hcanonical.2 ⟨_, mixedDocument_orderly, hout⟩)⟩

end Value

end JsonPipe
