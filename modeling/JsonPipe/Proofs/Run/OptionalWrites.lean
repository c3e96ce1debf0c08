import JsonPipe.Product
import JsonPipe.Run.Call

/-! Optional writes that do not fit.

    A selector of an assignment path turns into requests once its operands have been run: one for
    all of its keys, or one for every pair of bounds. A request may ask for something that its
    target cannot give. An optional selector then leaves the target as it is, but for two cases
    (`Request.spares`): a null target has turned into what the first key asks for before the keys
    are looked at, and a bound of the wrong type is looked at without regard to the mark. -/

namespace JsonPipe

namespace Assign

/-- What a selector asks of its target. -/
inductive Request where
  /-- The slots under all of these keys. -/
  | keys (ks : List Value)
  /-- Every element or entry. -/
  | each
  /-- The part between two bounds. -/
  | slice (start stop : Value)

/-- What keys write to: null becomes the container that the first of them asks for. -/
def container : List Value → Value → Value
  | [], target => target
  | first :: _, target => promote target first

/-- The index asks for an array that would be too long. -/
def exceeds : Value → Value → Bool
  | .array items, .number n => max items.length maxCollectionLength < neededLength n.toIndex
  | _, _ => false

/-- The value can stand for an end of a slice. -/
def isBound : Value → Bool
  | .null => true
  | .number _ => true
  | _ => false

/-- There are slices of the value. -/
def isSliceable : Value → Bool
  | .null => true
  | .array _ => true
  | .string _ => true
  | _ => false

/-- The elements or entries of the value can be written; null has none. -/
def isIterable : Value → Bool
  | .null => true
  | .array _ => true
  | .object _ => true
  | _ => false

namespace Request

/-- Writes to what is asked for. -/
def write (fill : Fill) (op : AssignmentOp) (optional : Bool) : Request → Fill
  | .keys ks => Assign.keys fill optional ks
  | .each => Assign.each fill optional
  | .slice start stop => Assign.slice fill op optional start stop

/-- The request cannot be met: the target, a key or a bound has the wrong type, or an index is
    beyond the limit. -/
def misses : Request → Value → Bool
  | .keys ks, target =>
    ks.any fun k => !fits (container ks target) k || exceeds (container ks target) k
  | .each, target => !isIterable target
  | .slice start stop, target => !isSliceable target || !isBound start || !isBound stop

/-- The target is neither a null that the first key turns into a container nor something that a
    bound of the wrong type could make a slice of. -/
def spares : Request → Value → Bool
  | .keys (.string _ :: _), .null => false
  | .keys (.number _ :: _), .null => false
  | .slice _ _, target => !isSliceable target
  | _, _ => true

/-- What an optional request that cannot be met leaves. -/
def leftover : Request → Value → Except Failure Value
  | .keys ks, target => .ok (container ks target)
  | .each, target => .ok target
  | .slice start stop, target =>
    if isSliceable target then
      .error (.of (.typeMismatch target.kind (if isBound start then stop else start).kind))
    else .ok target

/-! ### One request -/

variable {fill : Fill} {op : AssignmentOp} {target : Value}

theorem keys_of_misses {ks : List Value} (h : (keys ks).misses target = true) :
    Assign.keys fill true ks target = .ok [container ks target] := by
  cases ks with
  | nil => cases h
  | cons first ks =>
    simp only [misses, container, Assign.keys] at h ⊢
    generalize promote target first = target at h ⊢
    cases hfits : (first :: ks).find? fun k => !fits target k with
    | some k => rfl
    | none =>
      -- all keys fit, so one of them is an index that is too large
      have hall : ∀ k ∈ first :: ks, fits target k = true := by
        simpa using List.find?_eq_none.1 hfits
      obtain ⟨k, hk, hexceeds⟩ : ∃ k ∈ first :: ks, exceeds target k = true := by
        obtain ⟨k, hk, hmiss⟩ := List.any_eq_true.1 h
        exact ⟨k, hk, by simpa [hall k hk] using hmiss⟩
      unfold exceeds at hexceeds
      split at hexceeds
      · next items n =>
        have hindex : n.toIndex ∈
            ((first :: ks).filterMap Value.number?).map Number.toIndex :=
          List.mem_map_of_mem (List.mem_filterMap.2 ⟨_, hk, rfl⟩)
        cases hfind : (((first :: ks).filterMap Value.number?).map Number.toIndex).find?
            fun i => max items.length maxCollectionLength < neededLength i with
        | some i =>
          simp only [hfind]
          rfl
        | none => exact absurd hexceeds (List.find?_eq_none.1 hfind _ hindex)
      · cases hexceeds

theorem sliceRange_of_bound {length : Nat} {start stop : Value}
    (h : (!isBound start || !isBound stop) = true) :
    target.sliceRange length start stop =
      .error (.of (.typeMismatch target.kind (if isBound start then stop else start).kind)) := by
  have hbound : ∀ (v : Value) (openEnd : Nat), (isBound v = true ∧
      ∃ n, target.sliceBound length v openEnd = .ok n) ∨ (isBound v = false ∧
        target.sliceBound length v openEnd = .error (.of (.typeMismatch target.kind v.kind))) := by
    intro v openEnd
    cases v with
    | null => exact .inl ⟨rfl, _, rfl⟩
    | number n => exact .inl ⟨rfl, _, rfl⟩
    | _ => exact .inr ⟨rfl, rfl⟩
  rw [Value.sliceRange]
  rcases hbound start 0 with ⟨hstart, low, hlow⟩ | ⟨hstart, hlow⟩
  · rcases hbound stop length with ⟨hstop, -⟩ | ⟨-, hhigh⟩
    · simp [hstart, hstop] at h
    · rw [hlow, hhigh, hstart]
      rfl
  · rw [hlow, hstart]
    rfl

theorem slice_of_misses {start stop : Value} (h : (slice start stop).misses target = true) :
    Assign.slice fill op true start stop target =
      ((slice start stop).leftover target).map ([·]) := by
  have harray : ∀ items, isSliceable target = true →
      slice.array fill op start stop target items =
        ((slice start stop).leftover target).map ([·]) := by
    intro items hsliceable
    simp only [misses, hsliceable, Bool.not_true, Bool.false_or] at h
    rw [slice.array, sliceRange_of_bound h, leftover, if_pos hsliceable]
    rfl
  cases target with
  | null => exact harray [] rfl
  | array items => exact harray items rfl
  | string s =>
    rw [Assign.slice, sliceRange_of_bound h]
    rfl
  | _ => rfl

/-- What becomes of a target that does not fit an optional request. -/
theorem write_of_misses {r : Request} (h : r.misses target = true) :
    r.write fill op true target = (r.leftover target).map ([·]) := by
  cases r with
  | keys ks => exact keys_of_misses h
  | each =>
    cases target with
    | null | array | object => cases h
    | _ => rfl
  | slice start stop => exact slice_of_misses h

/-- The target is left as it is exactly if it is spared. -/
theorem leftover_eq_ok_iff {r : Request} : r.leftover target = .ok target ↔ r.spares target = true := by
  cases r with
  | keys ks =>
    cases ks with
    | nil => simp [leftover, container, spares]
    | cons first ks => cases target <;> cases first <;> simp [leftover, container, promote, spares]
  | each => simp [leftover, spares]
  | slice start stop =>
    rw [leftover, spares]
    cases isSliceable target <;> simp

end Request

end Assign

namespace Feed

open Assign (Request Fill)

variable {call : Call} {scope : Scope} {input target : Value} {op : AssignmentOp} {fill : Fill}

/-- What a selector asks for. A call cannot be asked for. -/
def requests (call : Call) (scope : Scope) (input : Value) :
    Selector Pipeline → Except Failure (List Request)
  | .field key _ => return [.keys (← evaluate call key scope input)]
  | .iterate _ => return [.each]
  | .slice start stop _ => do
    let starts ← evaluate call start scope input
    let stops ← evaluate call stop scope input
    return starts.flatMap fun a => stops.map (.slice a ·)
  | .call _ _ _ => .error (.of (.invalidAssignmentPath "a function call cannot be assigned to"))

/-- A write along a path meets the requests of the first selector one after the other. -/
theorem assign_cons (s : Selector Pipeline) (rest : List (Selector Pipeline)) :
    assign call (s :: rest) scope input op fill target =
      requests call scope input s >>= fun rs => List.flatten <$> rs.mapM fun r =>
        r.write (assign call rest scope input op fill) op s.optional target := by
  cases s with
  | field key optional =>
    rw [assign, requests, evaluate]
    simp [Request.write, Selector.optional]
  | iterate optional =>
    rw [assign, requests]
    simp [Request.write, Selector.optional]
  | slice start stop optional =>
    rw [assign, requests, evaluate, evaluate]
    simp [Assign.slices, flatten_mapM_flatMap, Function.comp_def, Request.write, Selector.optional]
  | call args bound optional => rw [assign]; rfl

/-- Results of one document each, joined. -/
theorem flatten_mapM_single {α β : Type} {f : α → Except Failure (List β)}
    {g : α → Except Failure β} {as : List α} (h : ∀ a ∈ as, f a = (g a).map ([·])) :
    List.flatten <$> as.mapM f = as.mapM g := by
  induction as with
  | nil => rfl
  | cons a as ih =>
    obtain ⟨ha, has⟩ := List.forall_mem_cons.1 h
    rw [List.mapM_cons, List.mapM_cons, ha, ← ih has]
    cases g a <;> cases as.mapM f <;> rfl

/-- An optional selector of an assignment path whose requests cannot be met by the target: every
    request leaves one document, or fails, without a look at the rest of the path. Each document is
    the target itself exactly if the target is spared: it is no null that the first key turns into
    a container, and nothing that a bound of the wrong type could make a slice of. -/
theorem assign_optional {s : Selector Pipeline} {rs : List Request} (hoptional : s.optional = true)
    (hrequests : requests call scope input s = .ok rs)
    (hmisses : ∀ r ∈ rs, r.misses target = true) (rest : List (Selector Pipeline)) :
    assign call (s :: rest) scope input op fill target = rs.mapM (·.leftover target) ∧
      (assign call (s :: rest) scope input op fill target = .ok (rs.map fun _ => target) ↔
        ∀ r ∈ rs, r.spares target = true) := by
  have hleaves : assign call (s :: rest) scope input op fill target =
      rs.mapM (·.leftover target) := by
    rw [assign_cons, hrequests]
    refine flatten_mapM_single fun r hr => ?_
    rw [hoptional, Request.write_of_misses (hmisses r hr)]
  refine ⟨hleaves, ?_⟩
  rw [hleaves, mapM_eq_ok_map]
  exact forall₂_congr fun r _ => Request.leftover_eq_ok_iff

/-- The keys 0 and 16777216, of which the second needs an array beyond the limit. -/
def farKeys : Pipeline := [.concat [[.number (.ofNat 0)], [.number (.ofNat 16777216)]]]

/-- One index of two is too large, and the path goes on into something that is no container. -/
theorem assign_optional_farKeys :
    assign (Run.call 0) [.field farKeys true, .iterate false] [] .null .set
        (fun _ => .ok [.bool false]) (.array [.bool true]) = .ok [.array [.bool true]] := by
  have hrequests : requests (Run.call 0) [] .null (.field farKeys true) =
      .ok [.keys [.number (.ofNat 0), .number (.ofNat 16777216)]] := rfl
  have hmisses : ∀ r ∈ [Request.keys [.number (.ofNat 0), .number (.ofNat 16777216)]],
      r.misses (.array [.bool true]) = true := by
    rintro r hr
    rw [List.mem_singleton.1 hr]
    decide +kernel
  refine (assign_optional rfl hrequests hmisses [.iterate false]).2.2 fun r hr => ?_
  rw [List.mem_singleton.1 hr]
  rfl

/-- Two optional writes that do not fit, `.["a":]? = [0]` to an array and `.["a", 1]? = 0` to null:
    the first one fails for the bound, and the second one leaves an empty object. -/
theorem assign_badBound_mixedKeys :
    (Request.slice (.string "a") .null).misses (.array [.bool true]) = true ∧
      evaluate (Run.call 0)
        [.assign [] [.slice [.string "a"] [.null] true] .set [.array [.number (.ofNat 0)]]] []
        (.array [.bool true]) = .error (.of (.typeMismatch .array .string)) ∧
      (Request.keys [.string "a", .number (.ofNat 1)]).misses .null = true ∧
      evaluate (Run.call 0)
        [.assign [] [.field [.concat [[.string "a"], [.number (.ofNat 1)]]] true] .set
          [.number (.ofNat 0)]] [] .null = .ok [.object []] :=
  ⟨rfl, rfl, rfl, rfl⟩

end Feed

end JsonPipe
