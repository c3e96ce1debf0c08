import JsonPipe.Proofs.Run.AssignmentPaths
import JsonPipe.Proofs.Run.OptionalWrites
import JsonPipe.Proofs.Value.Slots

/-! Writing and reading along keys.

    A path of single keys leads to one slot. A write along it makes what is missing on the way: null
    becomes the container that the next key asks for, objects get new entries, and arrays grow at
    the end that an index leads beyond. Reading along the same keys then finds the way that the
    write has made, and so does the next write (`Feed.evaluate_set_keys`).

    Both are recursions on the keys (`Value.put`, `Value.found`), and each of their laws comes from
    a law of one slot. The one thing to be looked at on the way is that a container keeps the part
    that it has if the write has made an equal one of it. -/

namespace JsonPipe

/-- The selector names one slot, whatever the input of its key, and is not optional. -/
inductive Selector.Names (call : Call) (scope : Scope) : Selector Pipeline → Value → Prop
  | field {key : Pipeline} {k : Value}
    (h : ∀ input, Feed.evaluate call key scope input = .ok [k]) :
      Names call scope (.field key false) k

/-- A literal key. -/
theorem Selector.Names.literal {call : Call} {scope : Scope} {k : Value} (h : k.IsJson) :
    Names call scope (.field k.literal false) k.unsigned :=
  .field fun input => by
    rw [Feed.evaluate_eq, Run.literal_one h, Outcome.collect_one]

namespace Value

/-- The key names a slot of the container, and there is room for it. -/
def admits (c k : Value) : Bool := Assign.fits c k && !Assign.exceeds c k

/-- The value with another one at the end of some keys, if they lead anywhere. What is missing on
    the way is made. -/
def put : List Value → Value → Value → Option Value
  | [], _, new => some new
  | k :: ks, v, new =>
    let c := Assign.promote v k
    if c.admits k then (put ks (c.slot k) new).map fun part =>
      c.stored k ((c.slot k).overwrite part)
    else none

/-- What stands at the end of some keys, if all of them find something. -/
def found : List Value → Value → Option Value
  | [], v => some v
  | k :: ks, v =>
    match v.field k with
    | .ok (some c) => found ks c
    | _ => none

variable {c k v v' w new other o : Value} {ks : List Value}

/-! ### The slot of one key -/

theorem fits_of_admits (h : c.admits k = true) : Assign.fits c k = true :=
  (Bool.and_eq_true_iff.1 h).1

/-- A container with something in the slot has the room for it. -/
theorem admits_stored (h : c.admits k = true) (v : Value) : (c.stored k v).admits k = true := by
  obtain ⟨es, name, rfl, rfl⟩ | ⟨items, n, rfl, rfl⟩ := exists_of_fits (fits_of_admits h)
  · rfl
  · have hroom := Items.neededLength_le_store .null items n.toIndex v
    simp only [admits, stored, Assign.fits, Assign.exceeds, Bool.true_and, Bool.not_eq_true',
      decide_eq_false_iff_not]
    omega

/-- A container is what it is, whatever the key asks for. -/
theorem promote_stored (h : c.admits k = true) (v : Value) :
    Assign.promote (c.stored k v) k = c.stored k v := by
  obtain ⟨es, name, rfl, rfl⟩ | ⟨items, n, rfl, rfl⟩ := exists_of_fits (fits_of_admits h) <;> rfl

/-- To put something below a slot is to put it into what was stored there. -/
theorem put_stored (h : c.admits k = true) (v : Value) :
    (c.stored k v).put (k :: ks) new =
      (v.put ks new).map fun part => c.stored k (v.overwrite part) := by
  rw [put, promote_stored h, slot_stored v (fits_of_admits h), if_pos (admits_stored h v)]
  simp only [stored_stored]

theorem found_stored (h : c.admits k = true) (v : Value) :
    (c.stored k v).found (k :: ks) = v.found ks := by
  rw [found, field_stored v (fits_of_admits h)]

/-- What comes out has something new in the slot of the first key, or still has what it is equal
    to. -/
theorem put_cons (h : v.put (k :: ks) new = some v') :
    (Assign.promote v k).admits k = true ∧
      ∃ part, ((Assign.promote v k).slot k).put ks new = some part ∧
        v' = (Assign.promote v k).stored k (((Assign.promote v k).slot k).overwrite part) := by
  rw [put] at h
  split at h
  · next hadmits =>
    obtain ⟨part, hpart, rfl⟩ := Option.map_eq_some_iff.1 h
    exact ⟨hadmits, part, hpart, rfl⟩
  · cases h

/-! ### Laws of a path -/

/-- Keys find equal values in equal values. -/
theorem found_of_same (h : v.same w = true) (hv : v.found ks = some o) :
    ∃ o', w.found ks = some o' ∧ o.same o' = true := by
  induction ks generalizing v w with
  | nil =>
    cases hv
    exact ⟨w, rfl, h⟩
  | cons k ks ih =>
    rw [found] at hv
    split at hv
    · next c hc =>
      obtain ⟨d, hd, hcd⟩ := field_of_same h hc
      rw [found, hd]
      exact ih hcd hv
    · cases hv

/-- Whether the keys lead anywhere does not depend on what is put there. -/
theorem isSome_put (ks : List Value) (v new other : Value) :
    (v.put ks new).isSome = (v.put ks other).isSome := by
  induction ks generalizing v with
  | nil => rfl
  | cons k ks ih =>
    rw [put, put]
    split
    · rw [Option.isSome_map, Option.isSome_map, ih]
    · rfl

/-- What was put at the end of the keys is found there, up to equality. -/
theorem found_put (h : v.put ks new = some v') :
    ∃ o, v'.found ks = some o ∧ o.same new = true := by
  induction ks generalizing v v' with
  | nil =>
    cases h
    exact ⟨new, rfl, (same_iff new new).2 rfl⟩
  | cons k ks ih =>
    obtain ⟨hadmits, part, hpart, rfl⟩ := put_cons h
    rw [found_stored hadmits]
    obtain ⟨o, ho, hnew⟩ := ih hpart
    -- the part that stands there now is equal to the one that was made
    have hsame := ((Assign.promote v k).slot k).overwrite_same part
    rw [same_iff] at hsame hnew
    obtain ⟨o', ho', hoo'⟩ := found_of_same ((same_iff _ _).2 hsame.symm) ho
    rw [same_iff] at hoo'
    exact ⟨o', ho', (same_iff _ _).2 (hoo'.symm.trans hnew)⟩

/-- To put it there again changes nothing. -/
theorem put_again (h : v.put ks new = some v') : v'.put ks new = some v' := by
  induction ks generalizing v v' with
  | nil => exact h
  | cons k ks ih =>
    obtain ⟨hadmits, part, hpart, rfl⟩ := put_cons h
    generalize Assign.promote v k = c at hadmits hpart ⊢
    rw [put_stored hadmits]
    rcases (c.slot k).overwrite_or part with hkept | hnew
    · -- the slot has kept what it had, so the same part is made of it again
      rw [hkept, hpart, Option.map_some, hkept]
    · rw [hnew, ih hpart, Option.map_some, overwrite_self]

/-- What was put there before makes no difference, up to equality. -/
theorem put_other (h : v.put ks new = some v') (hother : v.put ks other = some w) :
    ∃ w', v'.put ks other = some w' ∧ w'.same w = true := by
  induction ks generalizing v v' w with
  | nil =>
    cases hother
    exact ⟨other, rfl, (same_iff other other).2 rfl⟩
  | cons k ks ih =>
    obtain ⟨hadmits, part, hpart, rfl⟩ := put_cons h
    obtain ⟨-, first, hfirst, rfl⟩ := put_cons hother
    generalize Assign.promote v k = c at hadmits hpart hfirst ⊢
    rw [put_stored hadmits]
    rcases (c.slot k).overwrite_or part with hkept | hnew
    · rw [hkept, hfirst, Option.map_some]
      exact ⟨_, rfl, (same_iff _ _).2 rfl⟩
    · obtain ⟨second, hsecond, hsame⟩ := ih hpart hfirst
      rw [hnew, hsecond, Option.map_some]
      refine ⟨_, rfl, stored_same c k ?_⟩
      -- both are equal to what the write would make of the slot as it was
      have hleft := part.overwrite_same second
      have hright := (c.slot k).overwrite_same first
      rw [same_iff] at hleft hright hsame ⊢
      rw [hleft, hsame, hright]

end Value

/-! ### Running a write -/

namespace Assign

variable {fill : Fill} {k target : Value} {new : Option Value}

/-- Writing to null is writing to the container that the first key asks for. -/
theorem keys_promote (optional : Bool) (first : Value) (ks : List Value) (target : Value) :
    keys fill optional (first :: ks) (promote target first) =
      keys fill optional (first :: ks) target := by
  cases target <;> cases first <;> rfl

/-- An index without room for it is refused. -/
theorem keys_of_exceeds {items : List Value} {n : Number}
    (h : max items.length maxCollectionLength < neededLength n.toIndex) :
    keys fill false [.number n] (.array items) =
      .error (.of (.indexOutOfRange n.toIndex items.length)) := by
  have hfind : [n.toIndex].find? (fun i =>
      decide (max items.length maxCollectionLength < neededLength i)) = some n.toIndex :=
    List.find?_cons_of_pos (decide_eq_true h)
  have hfits : [Value.number n].find? (fun k => !fits (.array items) k) = none := rfl
  have hnumbers : [Value.number n].filterMap Value.number? = [n] := rfl
  simp only [keys, promote, hfits, hnumbers, List.map_cons, List.map_nil, hfind]
  rfl

theorem keys_of_not_fits {c : Value} (hpromote : promote c k = c) (h : fits c k = false) :
    keys fill false [k] c = .error (.of (.typeMismatch c.kind k.kind)) := by
  have hfind : [k].find? (fun k => !fits c k) = some k :=
    List.find?_cons_of_pos (by rw [h]; rfl)
  simp only [keys, hpromote, hfind]
  rfl

/-- A write under one key settles if what fills its slot does. -/
theorem keys_settles (h : Settles (fill ((promote target k).slot k)) new) :
    Settles (keys fill false [k] target)
      (if (promote target k).admits k then
        new.map fun part => (promote target k).stored k (((promote target k).slot k).overwrite part)
      else none) := by
  have hpromote : promote (promote target k) k = promote target k := by
    cases target <;> cases k <;> rfl
  rw [← keys_promote]
  generalize promote target k = c at h hpromote ⊢
  cases hfits : fits c k with
  | false =>
    have hadmits : c.admits k = false := by rw [Value.admits, hfits, Bool.false_and]
    rw [hadmits]
    exact ⟨_, keys_of_not_fits hpromote hfits⟩
  | true =>
    obtain ⟨es, name, rfl, rfl⟩ | ⟨items, n, rfl, rfl⟩ := Value.exists_of_fits hfits
    · have hkeys : keys fill false [.string name] (.object es) = entries fill [name] es :=
        keys_object false [name] es
      rw [hkeys]
      exact entries_settles h
    · by_cases hroom : max items.length maxCollectionLength < neededLength n.toIndex
      · have hadmits : (Value.array items).admits (.number n) = false := by
          rw [Value.admits, exceeds, decide_eq_true hroom, Bool.not_true, Bool.and_false]
        rw [hadmits]
        exact ⟨_, keys_of_exceeds hroom⟩
      · have hadmits : (Value.array items).admits (.number n) = true := by
          rw [Value.admits, exceeds, decide_eq_false hroom, hfits]
          rfl
        have hall : ∀ m ∈ [n], neededLength m.toIndex ≤ max items.length maxCollectionLength :=
          List.forall_mem_singleton.2 (Nat.le_of_not_lt hroom)
        have hkeys : keys fill false ([n].map .number) (.array items) =
            elements fill ([n].map Number.toIndex) items := keys_array false hall
        rw [hadmits]
        exact Eq.mpr (congrArg (Settles · _) hkeys) (elements_settles h)

end Assign

namespace Run

variable {call : Call} {scope : Scope} {path : List (Selector Pipeline)} {ks : List Value}

/-- A write along keys puts the value at their end. -/
theorem assign_settles (hpath : List.Forall₂ (Selector.Names call scope) path ks)
    {fill : Assign.Fill} {new : Value} (hfill : ∀ t, fill t = .ok [new]) (input : Value)
    (op : AssignmentOp) (v : Value) :
    Assign.Settles (assign call path scope input op fill v) (v.put ks new) := by
  induction hpath generalizing v with
  | nil => exact (assign.eq_1 ..).trans (hfill v)
  | @cons selector k path ks hnames _ ih =>
    cases hnames with
    | @field key _ hkey =>
      have hk : (pipeline call key scope input).collect = .ok [k] := by
        rw [← Feed.evaluate_eq, hkey]
      rw [assign, hk]
      exact Assign.keys_settles (ih _)

/-- Reading along keys puts out what they find. -/
theorem select_found (hpath : List.Forall₂ (Selector.Names call scope) path ks) {v o : Value}
    (h : v.found ks = some o) (input : Value) (parent : Option Value) :
    select call path scope input v parent = .one o := by
  induction hpath generalizing v parent with
  | nil =>
    cases h
    rw [select]
  | @cons selector k path ks hnames _ ih =>
    cases hnames with
    | @field key _ hkey =>
      have hk : pipeline call key scope input = .one k := Feed.run_of_evaluate (hkey input)
      rw [Value.found] at h
      split at h
      · next c hc =>
        rw [select, hk, Outcome.one_bind, hc]
        exact ih h _
      · cases h

end Run

namespace Feed

variable {call : Call} {scope : Scope} {path : List (Selector Pipeline)} {ks : List Value}

theorem evaluate_set (hpath : List.Forall₂ (Selector.Names call scope) path ks) {value : Pipeline}
    {document v : Value} (hvalue : evaluate call value scope document = .ok [v]) :
    Assign.Settles (evaluate call [.assign [] path .set value] scope document)
      (document.put ks v) := by
  rw [evaluate_eq, Run.pipeline_assign, Run.pipeline, Outcome.one_bind, Outcome.collect_ofExcept]
  refine Run.assign_settles hpath (fun t => ?_) document .set document
  rw [Run.assigned, ← evaluate_eq, hvalue]

theorem evaluate_found (hpath : List.Forall₂ (Selector.Names call scope) path ks)
    {document o : Value} (h : document.found ks = some o) :
    evaluate call [.access [] path] scope document = .ok [o] := by
  rw [evaluate_eq, Run.pipeline_access, Run.pipeline, Outcome.one_bind, Run.select_found hpath h,
    Outcome.collect_one]

/-- A write of one value along keys that succeeds gives one document, whatever was missing on the
    way. Reading along the same keys then finds what was written, up to equality; the same write
    again gives the document that is there; and another write along the keys gives what it would
    have given at first, up to equality. -/
theorem evaluate_set_keys (hpath : List.Forall₂ (Selector.Names call scope) path ks)
    {value : Pipeline} {document v : Value}
    (hvalue : evaluate call value scope document = .ok [v]) {outputs : List Value}
    (hwrite : evaluate call [.assign [] path .set value] scope document = .ok outputs) :
    ∃ written, outputs = [written] ∧
      (∃ o, evaluate call [.access [] path] scope written = .ok [o] ∧ o.same v = true) ∧
      (∀ again, evaluate call again scope written = .ok [v] →
        evaluate call [.assign [] path .set again] scope written = .ok [written]) ∧
      ∀ w first second, evaluate call first scope document = .ok [w] →
        evaluate call second scope written = .ok [w] →
        ∃ x y, evaluate call [.assign [] path .set first] scope document = .ok [x] ∧
          evaluate call [.assign [] path .set second] scope written = .ok [y] ∧
          y.same x = true := by
  have hsettles := evaluate_set hpath hvalue
  rw [hwrite] at hsettles
  cases hput : document.put ks v with
  | none =>
    rw [hput] at hsettles
    obtain ⟨e, he⟩ := hsettles
    cases he
  | some written =>
    rw [hput] at hsettles
    refine ⟨written, Except.ok.inj hsettles, ?_, fun again hagain => ?_, ?_⟩
    · obtain ⟨o, ho, hsame⟩ := Value.found_put hput
      exact ⟨o, evaluate_found hpath ho, hsame⟩
    · have hrepeated := evaluate_set hpath hagain
      rwa [Value.put_again hput] at hrepeated
    · intro w first second hfirst hsecond
      have hsome : (document.put ks w).isSome = true := by
        rw [Value.isSome_put ks document w v, hput]
        rfl
      obtain ⟨x, hx⟩ := Option.isSome_iff_exists.1 hsome
      obtain ⟨y, hy, hsame⟩ := Value.put_other hput hx
      have honce := evaluate_set hpath hfirst
      have htwice := evaluate_set hpath hsecond
      rw [hx] at honce
      rw [hy] at htwice
      exact ⟨x, y, honce, htwice, hsame⟩

/-- `.a[-2][1]` -/
def secondOfNewRow : List (Selector Pipeline) :=
  [.named "a" false, .field [.number (.ofNat 2), .negate] false, .field [.number (.ofNat 1)] false]

theorem secondOfNewRow_names : List.Forall₂ (Selector.Names (Run.call 0) []) secondOfNewRow
    [.string "a", .number (Number.ofNat 2).neg, .number (.ofNat 1)] := by
  refine .cons ?_ (.cons (.field fun _ => rfl) (.cons (.field fun _ => rfl) .nil))
  exact .literal (.string "a")

/-- The object has no entry yet: the write makes one, with an array that grows at its front around
    an array that grows at its end. -/
theorem evaluate_set_keys_empty :
    ∃ written,
      evaluate (Run.call 0) [.assign [] secondOfNewRow .set [.string "v"]] [] (.object []) =
        .ok [written] ∧
      written.json = "\x7b\"a\":[[null,\"v\"],null]\x7d" ∧
      (∃ o, evaluate (Run.call 0) [.access [] secondOfNewRow] [] written = .ok [o] ∧
        o.same (.string "v") = true) ∧
      evaluate (Run.call 0) [.assign [] secondOfNewRow .set [.string "v"]] [] written =
        .ok [written] ∧
      ∃ x y,
        evaluate (Run.call 0) [.assign [] secondOfNewRow .set [.string "w"]] [] (.object []) =
          .ok [x] ∧
        evaluate (Run.call 0) [.assign [] secondOfNewRow .set [.string "w"]] [] written = .ok [y] ∧
        y.same x = true := by
  have hjson : (evaluate (Run.call 0) [.assign [] secondOfNewRow .set [.string "v"]] []
      (.object [])).toOption.map (·.map Value.json) =
        some ["\x7b\"a\":[[null,\"v\"],null]\x7d"] := by
    decide +kernel
  cases hwrite : evaluate (Run.call 0) [.assign [] secondOfNewRow .set [.string "v"]] []
      (.object []) with
  | error e =>
    rw [hwrite] at hjson
    cases hjson
  | ok outputs =>
    rw [hwrite] at hjson
    have hvalue : evaluate (Run.call 0) [.string "v"] [] (.object []) = .ok [.string "v"] := rfl
    obtain ⟨written, rfl, hread, hagain, hother⟩ :=
      evaluate_set_keys secondOfNewRow_names hvalue hwrite
    refine ⟨written, rfl, ?_, hread, hagain _ rfl, hother (.string "w") _ _ rfl rfl⟩
    simpa [Except.toOption] using hjson

end Feed

end JsonPipe
