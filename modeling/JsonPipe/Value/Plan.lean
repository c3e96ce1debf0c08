import JsonPipe.Value.Assign

/-! Plans of writes.

    Which slots a write asks for depends on the target and the keys alone, and so does what becomes
    of the candidates. A plan keeps the two apart: it lists the slots in the order in which they are
    filled, and says how documents are built from the candidates. Every write performs its plan
    (`keys_eq`, `each_eq`, `slice_eq`). -/

namespace JsonPipe.Assign

/-- What a write is going to do. -/
structure Plan where
  /-- What the slots hold now. -/
  slots : List Value
  /-- The documents, given the candidates for each slot. -/
  build : List (List Value) → Except Failure (List Value)

namespace Plan

/-- Fills the slots one after the other and builds the documents. -/
def perform (fill : Fill) (plan : Plan) : Except Failure (List Value) := do
  plan.build (← plan.slots.mapM fill)

/-- A write whose result is known without any slot. -/
def settled (result : Except Failure (List Value)) : Plan := ⟨[], fun _ => result⟩

/-- A write that replaces every slot of a row at once. -/
def ofRow (current : List Value) (document : List Value → Value) : Plan :=
  ⟨current, fun candidates => return (← Items.combinations current candidates).map document⟩

/-- A write into one slot, where a candidate may turn out not to fit. -/
def ofPart (current : Value) (document : Value → Except Failure Value) : Plan :=
  ⟨[current], fun candidates => candidates.flatten.mapM document⟩

end Plan

/-- The plan to write the named entries of an object. -/
def entriesPlan (names : List String) (es : Entries Value) : Plan :=
  .ofRow (names.map fun name => (es.get? name).getD .null) fun row =>
    .object (es.writeAll (names.zip row))

/-- The plan to write the elements of an array at the given indices. -/
def elementsPlan (indices : List Int) (items : List Value) : Plan :=
  .ofRow (indices.map fun i => (Items.get? items i).getD .null) fun row =>
    .array (Items.writeAll .null items (indices.zip row))

/-- The result of a write that does not fit its target. -/
def misfit (optional : Bool) (target : Value) (cause : Cause) : Except Failure (List Value) :=
  if optional then .ok [target] else .error (.of cause)

/-- The plan to write the slots under several keys. -/
def keysPlan (optional : Bool) (ks : List Value) (target : Value) : Plan :=
  match ks with
  | [] => .settled (.ok [target])
  | first :: _ =>
    let target := promote target first
    match ks.find? fun k => !fits target k with
    | some k => .settled (misfit optional target (.typeMismatch target.kind k.kind))
    | none =>
      match target with
      | .object es => entriesPlan (ks.filterMap Value.string?) es
      | .array items =>
        let indices := (ks.filterMap Value.number?).map Number.toIndex
        let limit := max items.length maxCollectionLength
        match indices.find? fun i => limit < neededLength i with
        | some i => .settled (misfit optional target (.indexOutOfRange i items.length))
        | none => elementsPlan indices items
      | _ => .settled (.ok [target])

/-- The plan to write every element of an array or every entry of an object. -/
def eachPlan (optional : Bool) (target : Value) : Plan :=
  match target with
  | .array items => .ofRow items .array
  | .object es => entriesPlan (Entries.keys es) es
  | .null => .settled (.ok [.null])
  | v => .settled (misfit optional v (.notIterable v.kind))

/-- A text with the part between two ends replaced, if the candidate is a text. -/
def splicedText (op : AssignmentOp) (s : String) (i j : Nat) : Value → Except Failure Value
  | .string t => .ok (.string (String.ofList (s.toList.take i ++ t.toList ++ s.toList.drop j)))
  | v => .error ((Value.string s).invalidOperand op.symbol v)

/-- An array with the part between two ends replaced, if the candidate is an array; `target` is
    what the array stands for. -/
def splicedItems (op : AssignmentOp) (target : Value) (items : List Value) (i j : Nat) :
    Value → Except Failure Value
  | .array xs => .ok (.array (items.take i ++ xs ++ items.drop j))
  | v => .error (target.invalidOperand op.symbol v)

/-- The plan to replace the part of an array between two bounds. -/
def itemsSlicePlan (op : AssignmentOp) (start stop target : Value) (items : List Value) : Plan :=
  match target.sliceRange items.length start stop with
  | .ok (i, j) =>
    .ofPart (.array ((items.take j).drop i)) (splicedItems op target items i j)
  | .error e => .settled (.error e)

/-- The plan to replace the part of a text or array between two bounds. -/
def slicePlan (op : AssignmentOp) (optional : Bool) (start stop target : Value) : Plan :=
  match target with
  | .string s =>
    match target.sliceRange s.toList.length start stop with
    | .ok (i, j) =>
      .ofPart (.string (String.ofList ((s.toList.take j).drop i))) (splicedText op s i j)
    | .error e => .settled (.error e)
  | .array items => itemsSlicePlan op start stop target items
  | .null => itemsSlicePlan op start stop target []
  | v => .settled (misfit optional v (.notSliceable v.kind))

/-! ### Writes perform their plans -/

variable (fill : Fill)

theorem perform_ofRow (current : List Value) (document : List Value → Value) :
    (Plan.ofRow current document).perform fill =
      slotRows fill current >>= fun rows => .ok (rows.map document) := by
  simp only [Plan.perform, Plan.ofRow, slotRows]
  cases current.mapM fill <;> rfl

theorem perform_ofPart (current : Value) (document : Value → Except Failure Value) :
    (Plan.ofPart current document).perform fill = fill current >>= fun vs => vs.mapM document := by
  simp only [Plan.perform, Plan.ofPart, List.mapM_cons, List.mapM_nil]
  cases fill current with
  | error e => rfl
  | ok vs => exact congrArg (List.mapM document) (List.append_nil vs)

theorem entries_eq (names : List String) (es : Entries Value) :
    entries fill names es = (entriesPlan names es).perform fill :=
  (perform_ofRow fill _ _).symm

theorem elements_eq (indices : List Int) (items : List Value) :
    elements fill indices items = (elementsPlan indices items).perform fill :=
  (perform_ofRow fill _ _).symm

theorem keys_eq (optional : Bool) (ks : List Value) (target : Value) :
    keys fill optional ks target = (keysPlan optional ks target).perform fill := by
  cases ks with
  | nil => rfl
  | cons first ks =>
    simp only [keys, keysPlan]
    generalize promote target first = target
    cases (first :: ks).find? fun k => !fits target k with
    | some k => rfl
    | none =>
      cases target with
      | object es => exact entries_eq fill _ es
      | array items =>
        simp only
        generalize ((first :: ks).filterMap Value.number?).map Number.toIndex = indices
        cases indices.find? fun i => max items.length maxCollectionLength < neededLength i with
        | some i => rfl
        | none => exact elements_eq fill indices items
      | _ => rfl

theorem each_eq (optional : Bool) (target : Value) :
    each fill optional target = (eachPlan optional target).perform fill := by
  cases target with
  | array items => exact (perform_ofRow fill items .array).symm
  | object es => exact entries_eq fill _ es
  | _ => rfl

theorem slice_array_eq (op : AssignmentOp) (start stop target : Value) (items : List Value) :
    slice.array fill op start stop target items =
      (itemsSlicePlan op start stop target items).perform fill := by
  simp only [slice.array, itemsSlicePlan]
  cases target.sliceRange items.length start stop with
  | error e => rfl
  | ok range => exact (perform_ofPart fill _ _).symm

theorem slice_eq (op : AssignmentOp) (optional : Bool) (start stop target : Value) :
    slice fill op optional start stop target =
      (slicePlan op optional start stop target).perform fill := by
  cases target with
  | string s =>
    simp only [slice, slicePlan]
    cases (Value.string s).sliceRange s.toList.length start stop with
    | error e => rfl
    | ok range => exact (perform_ofPart fill _ _).symm
  | array items => exact slice_array_eq fill op start stop _ items
  | null => exact slice_array_eq fill op start stop _ []
  | _ => rfl

end JsonPipe.Assign
