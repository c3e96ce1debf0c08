import JsonPipe.Value.Access
import JsonPipe.Value.Operators

/-! Writing into parts of values.

    A write names some slots of a target and gets, from `fill`, the candidates for each slot, given
    what the slot holds now. The results are all the documents that take one candidate per slot. A
    null target becomes an object or an array, whichever the first key asks for. An optional write
    leaves a target alone that it does not fit. -/

namespace JsonPipe.Assign

/-- What a slot may hold after the write, given what it holds before. -/
abbrev Fill := Value → Except Failure (List Value)

/-- Every row with one candidate for each of the current slots. -/
def slotRows (fill : Fill) (current : List Value) : Except Failure (List (List Value)) := do
  Items.combinations current (← current.mapM fill)

/-- The length that an array needs to have a slot at an index. -/
def neededLength (index : Int) : Nat := if index < 0 then index.natAbs else index.natAbs + 1

/-- A null target as the empty container that a key asks for. -/
def promote : Value → Value → Value
  | .null, .string _ => .object []
  | .null, .number _ => .array []
  | target, _ => target

/-- The key fits the container. -/
def fits : Value → Value → Bool
  | .object _, .string _ => true
  | .array _, .number _ => true
  | _, _ => false

/-- Writes the named entries of an object. -/
def entries (fill : Fill) (names : List String) (es : Entries Value) :
    Except Failure (List Value) := do
  let rows ← slotRows fill (names.map fun name => (es.get? name).getD .null)
  return rows.map fun row => .object (es.writeAll (names.zip row))

/-- Writes the elements of an array at the given indices. -/
def elements (fill : Fill) (indices : List Int) (items : List Value) :
    Except Failure (List Value) := do
  let rows ← slotRows fill (indices.map fun i => (Items.get? items i).getD .null)
  return rows.map fun row => .array (Items.writeAll .null items (indices.zip row))

/-- Writes the slots under several keys. -/
def keys (fill : Fill) (optional : Bool) (ks : List Value) (target : Value) :
    Except Failure (List Value) :=
  match ks with
  | [] => .ok [target]
  | first :: _ =>
    let target := promote target first
    match ks.find? fun k => !fits target k with
    | some k => if optional then .ok [target] else .error (.of (.typeMismatch target.kind k.kind))
    | none =>
      match target with
      | .object es => entries fill (ks.filterMap Value.string?) es
      | .array items =>
        let indices := (ks.filterMap Value.number?).map Number.toIndex
        let limit := max items.length maxCollectionLength
        match indices.find? fun i => limit < neededLength i with
        | some i =>
          if optional then .ok [target] else .error (.of (.indexOutOfRange i items.length))
        | none => elements fill indices items
      | _ => .ok [target]

/-- Writes every element of an array or every entry of an object; null has none. -/
def each (fill : Fill) (optional : Bool) (target : Value) : Except Failure (List Value) :=
  match target with
  | .array items => return (← slotRows fill items).map .array
  | .object es => entries fill (Entries.keys es) es
  | .null => .ok [.null]
  | v => if optional then .ok [v] else .error (.of (.notIterable v.kind))

/-- Replaces the part of a text or array between two bounds; the candidates must have the type of
    the target. Null counts as an empty array. -/
def slice (fill : Fill) (op : AssignmentOp) (optional : Bool) (start stop target : Value) :
    Except Failure (List Value) :=
  match target with
  | .string s => do
    let cs := s.toList
    let (i, j) ← target.sliceRange cs.length start stop
    (← fill (.string (String.ofList ((cs.take j).drop i)))).mapM fun
      | .string t => .ok (.string (String.ofList (cs.take i ++ t.toList ++ cs.drop j)))
      | v => .error (target.invalidOperand op.symbol v)
  | .array items => array items
  | .null => array []
  | v => if optional then .ok [v] else .error (.of (.notSliceable v.kind))
where
  /-- The case of an array. -/
  array (items : List Value) : Except Failure (List Value) := do
    let (i, j) ← target.sliceRange items.length start stop
    (← fill (.array ((items.take j).drop i))).mapM fun
      | .array xs => .ok (.array (items.take i ++ xs ++ items.drop j))
      | v => .error (target.invalidOperand op.symbol v)

/-- Writes the slices between all pairs of bounds, each into the target as it is. -/
def slices (fill : Fill) (op : AssignmentOp) (optional : Bool) (starts stops : List Value)
    (target : Value) : Except Failure (List Value) := do
  let rows ← starts.mapM fun a => do
    return (← stops.mapM fun b => slice fill op optional a b target).flatten
  return rows.flatten

end JsonPipe.Assign
