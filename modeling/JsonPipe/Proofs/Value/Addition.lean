import JsonPipe.Proofs.Value.Merging

/-! Addition of values that are not numbers.

    Null is neutral on both sides. Two other values have a sum only if they are of one type, a text,
    an array or an object, and then the sum is of that type too (`Value.kind_of_add`). So with three
    values of which none is null, either they are all of one such type or both ways to add them up
    fail. Texts and arrays are joined, which is associative; with objects the last value under a name
    stands in the end, up to equality, in whichever order they are laid over one another. -/

namespace JsonPipe

namespace Value

variable {a b c v w : Value}

/-- Both computations fail, or both succeed with equal values. -/
inductive SameOutcome : Except Failure Value → Except Failure Value → Prop
  | ok {v w : Value} : v.same w = true → SameOutcome (.ok v) (.ok w)
  | error (f g : Failure) : SameOutcome (.error f) (.error g)

theorem SameOutcome.refl (r : Except Failure Value) : SameOutcome r r := by
  cases r with
  | ok v => exact .ok (same_equivalence.refl v)
  | error f => exact .error f f

/-! ### Null -/

theorem null_add (v : Value) : Value.null.add v = .ok v := by
  cases v with
  | _ => rfl

theorem add_null (v : Value) : v.add .null = .ok v := by
  cases v with
  | _ => rfl

/-! ### Types -/

/-- A sum of two values that are not null is of the type of both. -/
theorem kind_of_add (hv : v ≠ .null) (hw : w ≠ .null) {sum : Value} (h : v.add w = .ok sum) :
    v.kind = sum.kind ∧ w.kind = sum.kind := by
  cases v with
  | null => exact absurd rfl hv
  | number x =>
    cases w with
    | null => exact absurd rfl hw
    | number y =>
      cases h
      exact ⟨rfl, rfl⟩
    | _ => cases h
  | string s =>
    cases w with
    | null => exact absurd rfl hw
    | string t =>
      cases h
      exact ⟨rfl, rfl⟩
    | _ => cases h
  | array xs =>
    cases w with
    | null => exact absurd rfl hw
    | array ys =>
      cases h
      exact ⟨rfl, rfl⟩
    | _ => cases h
  | object es =>
    cases w with
    | null => exact absurd rfl hw
    | object fs =>
      cases h
      exact ⟨rfl, rfl⟩
    | _ => cases h
  | _ =>
    cases w with
    | null => exact absurd rfl hw
    | _ => cases h

theorem ne_null_of_kind_eq (hv : v ≠ .null) (h : v.kind = w.kind) : w ≠ .null := by
  rintro rfl
  cases v with
  | null => exact hv rfl
  | _ => cases h

theorem add_error_of_kind_ne (hv : v ≠ .null) (hw : w ≠ .null) (h : v.kind ≠ w.kind) :
    ∃ f, v.add w = .error f := by
  cases hadd : v.add w with
  | error f => exact ⟨f, rfl⟩
  | ok sum =>
    obtain ⟨hleft, hright⟩ := kind_of_add hv hw hadd
    exact absurd (hleft.trans hright.symm) h

/-- If one of two values is of another type than the third, neither way to add them up succeeds. -/
theorem add_add_of_kind_ne (ha : a ≠ .null) (hb : b ≠ .null) (hc : c ≠ .null)
    (h : a.kind ≠ b.kind ∨ b.kind ≠ c.kind) :
    SameOutcome (a.add b >>= (·.add c)) (b.add c >>= (a.add ·)) := by
  have hleft : ∃ f, (a.add b >>= (·.add c)) = .error f := by
    cases hab : a.add b with
    | error f => exact ⟨f, rfl⟩
    | ok sum =>
      obtain ⟨hka, hkb⟩ := kind_of_add ha hb hab
      have hne : sum.kind ≠ c.kind := by
        rw [← hkb]
        exact h.resolve_left (not_not_intro (hka.trans hkb.symm))
      exact add_error_of_kind_ne (ne_null_of_kind_eq ha hka) hc hne
  have hright : ∃ f, (b.add c >>= (a.add ·)) = .error f := by
    cases hbc : b.add c with
    | error f => exact ⟨f, rfl⟩
    | ok sum =>
      obtain ⟨hkb, hkc⟩ := kind_of_add hb hc hbc
      have hne : a.kind ≠ sum.kind := by
        rw [← hkb]
        exact h.resolve_right (not_not_intro (hkb.trans hkc.symm))
      exact add_error_of_kind_ne ha (ne_null_of_kind_eq hb hkb) hne
  obtain ⟨f, hf⟩ := hleft
  obtain ⟨g, hg⟩ := hright
  rw [hf, hg]
  exact .error f g

/-! ### Objects -/

/-- Objects can be laid over one another from the left or from the right. -/
theorem writeAll_writeAll_same {es fs gs : Entries Value} (hes : es.Sorted) (hfs : fs.Sorted)
    (hgs : gs.Sorted) :
    (Value.object ((es.writeAll fs).writeAll gs)).same (.object (es.writeAll (fs.writeAll gs))) =
      true := by
  have hview : ∀ {es fs : Entries Value}, fs.Sorted → ∀ name,
      ((es.writeAll fs).get? name).map shape =
        ((fs.get? name).map shape).or ((es.get? name).map shape) := by
    intro es fs h name
    rw [Entries.map_get?_writeAll (keepsView_shape fun _ => True) (fun _ _ => trivial)
      (fun _ _ => trivial) h.nodup, Option.map_or]
  have hshape : ∀ es : Entries Value, (Value.object es).shape = .object (es.mapValues shape) :=
    viewed_object _
  rw [same_iff, hshape, hshape, Value.object.injEq]
  have hleft := ((hes.writeAll fs).writeAll gs).mapValues shape
  have hright := (hes.writeAll (fs.writeAll gs)).mapValues shape
  refine Entries.ext_of_sorted hright hleft fun name => ?_
  rw [Entries.get?_mapValues, Entries.get?_mapValues]
  rw [hview hgs, hview hfs, hview (hfs.writeAll gs), hview hgs, Option.or_assoc]

/-! ### The laws -/

/-- Values of one type, of which none is a number, can be added up either way. -/
theorem add_add_of_kind_eq (ha : a.Orderly) (hb : b.Orderly) (hc : c.Orderly) (hnull : a ≠ .null)
    (hnumber : a.kind ≠ .number) (hab : a.kind = b.kind) (hbc : b.kind = c.kind) :
    SameOutcome (a.add b >>= (·.add c)) (b.add c >>= (a.add ·)) := by
  cases a with
  | null => exact absurd rfl hnull
  | bool x =>
    cases b with
    | bool y =>
      cases c with
      | bool z => exact .error _ _
      | _ => cases hbc
    | _ => cases hab
  | number x => exact absurd rfl hnumber
  | string s =>
    cases b with
    | string t =>
      cases c with
      | string u =>
        refine .ok ?_
        rw [String.append_assoc]
        exact same_equivalence.refl _
      | _ => cases hbc
    | _ => cases hab
  | array xs =>
    cases b with
    | array ys =>
      cases c with
      | array zs =>
        refine .ok ?_
        rw [List.append_assoc]
        exact same_equivalence.refl _
      | _ => cases hbc
    | _ => cases hab
  | object es =>
    cases b with
    | object fs =>
      cases c with
      | object gs =>
        obtain ⟨hes, -⟩ := orderly_object.1 ha
        obtain ⟨hfs, -⟩ := orderly_object.1 hb
        obtain ⟨hgs, -⟩ := orderly_object.1 hc
        exact .ok (writeAll_writeAll_same hes hfs hgs)
      | _ => cases hbc
    | _ => cases hab
  | function f =>
    cases b with
    | function g =>
      cases c with
      | function h => exact .error _ _
      | _ => cases hbc
    | _ => cases hab

theorem add_assoc (ha : a.Orderly) (hb : b.Orderly) (hc : c.Orderly)
    (hnumber : ¬ (a.kind = .number ∧ b.kind = .number ∧ c.kind = .number)) :
    SameOutcome (a.add b >>= (·.add c)) (b.add c >>= (a.add ·)) := by
  by_cases hna : a = .null
  · subst hna
    have hright : (b.add c >>= (Value.null.add ·)) = b.add c := by
      simp only [null_add]
      exact bind_pure _
    rw [null_add, hright]
    exact .refl _
  by_cases hnb : b = .null
  · subst hnb
    rw [add_null, null_add]
    exact .refl _
  by_cases hnc : c = .null
  · subst hnc
    have hleft : (a.add b >>= (·.add .null)) = a.add b := by
      simp only [add_null]
      exact bind_pure _
    rw [add_null, hleft]
    exact .refl _
  by_cases hab : a.kind = b.kind
  · by_cases hbc : b.kind = c.kind
    · have hone : a.kind ≠ .number := fun h => hnumber ⟨h, hab ▸ h, hbc ▸ hab ▸ h⟩
      exact add_add_of_kind_eq ha hb hc hna hone hab hbc
    · exact add_add_of_kind_ne hna hnb hnc (.inr hbc)
  · exact add_add_of_kind_ne hna hnb hnc (.inl hab)

/-- Away from numbers addition is a monoid: unless all three are numbers, both ways to add up three
    values fail, or both succeed with equal results, and null is neutral. The sum and the product of
    two objects are the same in whatever order the entries of the right one are visited, and those
    of every object in it that is merged. -/
theorem add_monoid :
    (∀ a b c : Value, a.Orderly → b.Orderly → c.Orderly →
      ¬ (a.kind = .number ∧ b.kind = .number ∧ c.kind = .number) →
      SameOutcome (a.add b >>= (·.add c)) (b.add c >>= (a.add ·))) ∧
    (∀ v : Value, Value.null.add v = .ok v ∧ v.add .null = .ok v) ∧
    ∀ es fs : Entries Value, (Value.object es).Orderly → (Value.object fs).Orderly →
      (∀ visits, visits.Perm fs →
        (Value.object es).add (.object fs) = .ok (.object (es.writeAll visits))) ∧
      ∀ w, MergesOver (.object fs) (some (.object es)) w ↔
        (Value.object es).multiply (.object fs) = .ok w := by
  refine ⟨fun a b c => add_assoc, fun v => ⟨null_add v, add_null v⟩, fun es fs hes hfs => ?_⟩
  obtain ⟨hsorted, -⟩ := orderly_object.1 hes
  obtain ⟨hsorted', -⟩ := orderly_object.1 hfs
  have hmultiply : (Value.object es).multiply (.object fs) =
      .ok (mergeOver (.object fs) (some (.object es))) := rfl
  refine ⟨fun visits hvisits => ?_, fun w => ?_⟩
  · rw [Entries.writeAll_perm hsorted hvisits hsorted'.nodup]
    rfl
  · rw [mergesOver_iff hfs (fun u hu => Option.some.inj hu ▸ hes), hmultiply, Except.ok.injEq,
      eq_comm]

/-- Two objects after an array fail either way. With two objects after null, the entries of the
    right one are visited from the back. -/
theorem add_monoid_nested :
    SameOutcome
      ((Value.array []).add (.object nestedEntries) >>= (·.add (.object otherEntries)))
      ((Value.object nestedEntries).add (.object otherEntries) >>= ((Value.array []).add ·)) ∧
    SameOutcome
      (Value.null.add (.object nestedEntries) >>= (·.add (.object otherEntries)))
      ((Value.object nestedEntries).add (.object otherEntries) >>= (Value.null.add ·)) ∧
    (Value.object nestedEntries).add (.object otherEntries) =
      .ok (.object (nestedEntries.writeAll otherEntries.reverse)) ∧
    MergesOver (.object otherEntries) (some (.object nestedEntries))
      (.object (merge nestedEntries otherEntries)) := by
  obtain ⟨hassoc, -, horder⟩ := add_monoid
  have harray : (Value.array []).Orderly := orderly_array.2 (by simp)
  have hnull : Value.null.Orderly := orderly_of_plain rfl
  obtain ⟨hadd, hmultiply⟩ := horder _ _ nestedEntries_orderly otherEntries_orderly
  exact ⟨hassoc _ _ _ harray nestedEntries_orderly otherEntries_orderly (by decide),
    hassoc _ _ _ hnull nestedEntries_orderly otherEntries_orderly (by decide),
    hadd _ (List.reverse_perm _), (hmultiply _).2 rfl⟩

end Value

end JsonPipe
