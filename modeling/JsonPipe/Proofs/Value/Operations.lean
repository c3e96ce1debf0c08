import JsonPipe.Proofs.Value.Alike
import JsonPipe.Run.Pipeline
import JsonPipe.Value.Plan

/-! Operations on values that are alike.

    Operators, selectors, constructors and writes on values that are alike either all succeed, with
    results that are alike, or all fail for the same cause, a recoverable one or a count that
    overflows (`Matching`). In a write this is said of its plan: the slots are alike, and so are the
    documents built from candidates that are (`Assign.Plan.Alike`). -/

namespace JsonPipe

variable {α β γ δ : Type} {R : α → β → Prop} {S : γ → δ → Prop} {F : Function → Function → Prop}

/-- Two results that are related, or the same failure of an operation. -/
inductive Matching (R : α → β → Prop) : Except Failure α → Except Failure β → Prop
  | ok {a : α} {b : β} : R a b → Matching R (.ok a) (.ok b)
  | error (cause : Cause) : cause.isFatal = false →
    Matching R (.error (.of cause)) (.error (.of cause))
  | overflow : Matching R (.error (.of .overflow)) (.error (.of .overflow))

namespace Matching

theorem bind {r : Except Failure α} {r' : Except Failure β} {f : α → Except Failure γ}
    {f' : β → Except Failure δ} (h : Matching R r r')
    (hf : ∀ a b, R a b → Matching S (f a) (f' b)) : Matching S (r >>= f) (r' >>= f') := by
  cases h with
  | ok h => exact hf _ _ h
  | error cause h => exact .error cause h
  | overflow => exact .overflow

theorem mapM {f : α → Except Failure γ} {f' : β → Except Failure δ}
    (hf : ∀ a b, R a b → Matching S (f a) (f' b)) {as : List α} {bs : List β}
    (h : List.Forall₂ R as bs) : Matching (List.Forall₂ S) (as.mapM f) (bs.mapM f') := by
  induction h with
  | nil => exact .ok .nil
  | cons h _ ih =>
    rw [List.mapM_cons, List.mapM_cons]
    exact (hf _ _ h).bind fun _ _ hc => ih.bind fun _ _ hcs => .ok (.cons hc hcs)

end Matching

/-- What is made of numbers of choices among candidates that are alike. -/
theorem Items.counted_alike {as bs : List (List Value)} (hs : List.Forall₂ (Items.Alike F) as bs)
    {make : Nat → α} {make' : Nat → β} (h : ∀ n, R (make n) (make' n)) :
    Matching R (counted as make) (counted bs make') := by
  rw [counted, counted, choiceCount_alike hs]
  cases choiceCount bs with
  | some n => exact .ok (h n)
  | none => exact .overflow

theorem Items.combinations_alike {xs ys : List Value} (h : Items.Alike F xs ys)
    {as bs : List (List Value)} (hs : List.Forall₂ (Items.Alike F) as bs) :
    Matching (List.Forall₂ (Items.Alike F)) (combinations xs as) (combinations ys bs) := by
  refine counted_alike hs fun n => List.rel_map (R := Eq) ?_ (List.forall₂_same.2 fun i _ => rfl)
  rintro i _ rfl
  exact row_alike h hs i

/-! ### Operators -/

namespace Value

variable {v v' w w' : Value}

theorem add_alike (hv : v.Alike F v') (hw : w.Alike F w') :
    Matching (Alike F) (v.add w) (v'.add w') := by
  cases hv with
  | null => exact .ok hw
  | number x =>
    cases hw with
    | null => exact .ok (.number x)
    | number y => exact .ok (.number _)
    | _ => exact .error _ rfl
  | string s =>
    cases hw with
    | null => exact .ok (.string s)
    | string t => exact .ok (.string _)
    | _ => exact .error _ rfl
  | array hxs =>
    cases hw with
    | null => exact .ok (.array hxs)
    | array hys => exact .ok (.array (List.rel_append hxs hys))
    | _ => exact .error _ rfl
  | object hes =>
    cases hw with
    | null => exact .ok (.object hes)
    | object hfs => exact .ok (.object (Entries.writeAll_alike hes hfs))
    | _ => exact .error _ rfl
  | bool b =>
    cases hw with
    | null => exact .ok (.bool b)
    | _ => exact .error _ rfl
  | function hf =>
    cases hw with
    | null => exact .ok (.function hf)
    | _ => exact .error _ rfl

theorem any_same_alike {x x' : Value} (hx : x.Alike F x') {ys ys' : List Value}
    (hys : Items.Alike F ys ys') : (ys.any fun y => x.same y) = ys'.any fun y => x'.same y := by
  induction hys with
  | nil => rfl
  | cons hy _ ih => rw [List.any_cons, List.any_cons, hx.same hy, ih]

theorem subtract_alike (hv : v.Alike F v') (hw : w.Alike F w') :
    Matching (Alike F) (v.subtract w) (v'.subtract w') := by
  cases hv with
  | number x =>
    cases hw with
    | number y => exact .ok (.number _)
    | _ => exact .error _ rfl
  | array hxs =>
    cases hw with
    | array hys =>
      refine .ok (.array (List.rel_filter ?_ hxs))
      intro x x' hx
      simp only [any_same_alike hx hys]
    | _ => exact .error _ rfl
  | _ => cases hw <;> exact .error _ rfl

/-- A text repeated by a number is a text or null. -/
theorem multiplyText_alike (s : String) (n : Number) :
    Matching (Alike F) (multiplyText s n) (multiplyText s n) := by
  unfold multiplyText
  simp only
  split
  · exact .ok .null
  split
  · exact .ok (.string _)
  split
  · split
    · exact .ok (.string _)
    · exact .error _ rfl
  · exact .error _ rfl

mutual

/-- Merging looks at which values are objects and at their names. -/
theorem mergeOver_alike {v v' : Value} {old old' : Option Value} (hv : v.Alike F v')
    (hold : Option.Rel (Alike F) old old') : (mergeOver v old).Alike F (mergeOver v' old') := by
  match v, v', hv with
  | .object es, .object fs, .object h =>
    cases hold with
    | none => exact .object h
    | some hold =>
      cases hold with
      | object hin => exact .object (Entries.writeAll_alike hin (mergedEntries_alike h hin))
      | _ => exact .object h
  | _, _, .null => exact .null
  | _, _, .bool b => exact .bool b
  | _, _, .number n => exact .number n
  | _, _, .string s => exact .string s
  | .array _, .array _, .array h => exact .array h
  | .function _, .function _, .function h => exact .function h
termination_by structural v

theorem mergedEntries_alike {es fs left left' : List (String × Value)} (h : Entries.Alike F es fs)
    (hleft : Entries.Alike F left left') :
    Entries.Alike F (mergedEntries es left) (mergedEntries fs left') := by
  match es, fs, h with
  | [], [], .nil => exact .nil
  | (k, v) :: es, (_, w) :: fs, .cons (.under _ h) hs =>
    exact .cons (.under k (mergeOver_alike h (Entries.get?_related hleft k)))
      (mergedEntries_alike hs hleft)
termination_by structural es

end

theorem multiply_alike (hv : v.Alike F v') (hw : w.Alike F w') :
    Matching (Alike F) (v.multiply w) (v'.multiply w') := by
  cases hv with
  | number x =>
    cases hw with
    | number y => exact .ok (.number _)
    | string t => exact multiplyText_alike t x
    | _ => exact .error _ rfl
  | string s =>
    cases hw with
    | number y => exact multiplyText_alike s y
    | _ => exact .error _ rfl
  | object hes =>
    cases hw with
    | object hfs => exact .ok (.object (Entries.writeAll_alike hes (mergedEntries_alike hfs hes)))
    | _ => exact .error _ rfl
  | _ => cases hw <;> exact .error _ rfl

theorem divide_alike (hv : v.Alike F v') (hw : w.Alike F w') :
    Matching (Alike F) (v.divide w) (v'.divide w') := by
  cases hv with
  | number x =>
    cases hw with
    | number y =>
      rw [divide]
      split
      · exact .error _ rfl
      · exact .ok (.number _)
    | _ => exact .error _ rfl
  | string s =>
    cases hw with
    | string t =>
      refine .ok (.array (List.forall₂_same.2 fun part hpart => ?_))
      obtain ⟨t, _, rfl⟩ := List.mem_map.1 hpart
      exact .string t
    | _ => exact .error _ rfl
  | _ => cases hw <;> exact .error _ rfl

theorem remainder_alike (hv : v.Alike F v') (hw : w.Alike F w') :
    Matching (Alike F) (v.remainder w) (v'.remainder w') := by
  cases hv with
  | number x =>
    cases hw with
    | number y =>
      rw [remainder]
      split
      · exact .error _ rfl
      · exact .ok (.number _)
    | _ => exact .error _ rfl
  | _ => cases hw <;> exact .error _ rfl

theorem negate_alike (hv : v.Alike F v') : Matching (Alike F) v.negate v'.negate := by
  cases hv with
  | number x => exact .ok (.number _)
  | _ => exact .error _ rfl

theorem not_alike (hv : v.Alike F v') : v.not.Alike F v'.not := by
  rw [not, not, hv.isTruthy]
  exact .bool _

/-! ### Selectors -/

theorem field_alike (hv : v.Alike F v') (hk : w.Alike F w') :
    Matching (Option.Rel (Alike F)) (v.field w) (v'.field w') := by
  cases hv with
  | null => exact .ok .none
  | object hes =>
    cases hk with
    | string name => exact .ok (Entries.get?_related hes name)
    | _ => exact .error _ rfl
  | array hxs =>
    cases hk with
    | number n =>
      have hget := Items.get?_alike hxs n.toIndex
      rw [field, field, hxs.length_eq]
      revert hget
      cases Items.get? _ n.toIndex <;> cases Items.get? _ n.toIndex <;> rintro ⟨⟩
      · exact .error _ rfl
      · rename_i hx
        exact .ok (.some hx)
    | _ => exact .error _ rfl
  | _ => cases hk <;> exact .error _ rfl

theorem iterate_alike (hv : v.Alike F v') :
    Matching (Items.Alike F) v.iterate v'.iterate := by
  cases hv with
  | array hxs => exact .ok hxs
  | object hes => exact .ok (Entries.values_related hes)
  | _ => exact .error _ rfl

theorem sliceRange_alike {a a' b b' : Value} (hv : v.Alike F v') (length : Nat)
    (ha : a.Alike F a') (hb : b.Alike F b') :
    Matching Eq (v.sliceRange length a b) (v'.sliceRange length a' b') := by
  have hbound : ∀ {c c' : Value}, c.Alike F c' → ∀ openEnd,
      Matching Eq (v.sliceBound length c openEnd) (v'.sliceBound length c' openEnd) := by
    intro c c' hc openEnd
    cases hc with
    | null | number => exact .ok rfl
    | _ =>
      rw [sliceBound, sliceBound, hv.kind]
      · exact .error _ rfl
      all_goals simp
  refine (hbound ha 0).bind ?_
  rintro low _ rfl
  refine (hbound hb length).bind ?_
  rintro high _ rfl
  exact .ok rfl

theorem slice_alike {a a' b b' : Value} (hv : v.Alike F v') (ha : a.Alike F a')
    (hb : b.Alike F b') : Matching (Alike F) (v.slice a b) (v'.slice a' b') := by
  cases hv with
  | null => exact .ok .null
  | array hxs =>
    rw [slice, slice, hxs.length_eq]
    refine (sliceRange_alike (.array hxs) _ ha hb).bind ?_
    rintro ⟨i, j⟩ _ rfl
    exact .ok (.array (List.forall₂_drop i (List.forall₂_take j hxs)))
  | string s =>
    refine (sliceRange_alike (F := F) (.string s) _ ha hb).bind ?_
    rintro ⟨i, j⟩ _ rfl
    exact .ok (.string _)
  | _ => exact .error _ rfl

end Value

theorem ArithmeticOp.apply_alike (op : ArithmeticOp) {v v' w w' : Value} (hv : v.Alike F v')
    (hw : w.Alike F w') : Matching (Value.Alike F) (op.apply v w) (op.apply v' w') := by
  cases op with
  | addition => exact Value.add_alike hv hw
  | subtraction => exact Value.subtract_alike hv hw
  | multiplication => exact Value.multiply_alike hv hw
  | division => exact Value.divide_alike hv hw
  | remainder => exact Value.remainder_alike hv hw

theorem ComparisonOp.apply_alike (op : ComparisonOp) {v v' w w' : Value} (hv : v.Alike F v')
    (hw : w.Alike F w') : op.apply v w = op.apply v' w' := by
  rw [apply_eq, apply_eq, Value.order_alike _ _ hv hw]

/-! ### Constructors -/

namespace Run

/-- Entries that an object may get: none on both sides, or the same name with values alike. -/
abbrev EntryAlike (F : Function → Function → Prop) :
    Option (String × Value) → Option (String × Value) → Prop :=
  Option.Rel (Entry.Related (Value.Alike F))

theorem fieldChoices_alike (optional : Bool) {ks ks' vs vs' : List Value}
    (hks : Items.Alike F ks ks') (hvs : Items.Alike F vs vs') :
    Matching (List.Forall₂ (EntryAlike F)) (fieldChoices optional ks vs)
      (fieldChoices optional ks' vs') := by
  refine (Matching.mapM (S := List.Forall₂ (EntryAlike F)) (fun k k' hk => ?_) hks).bind
    fun _ _ hrows => .ok (List.rel_flatten hrows)
  cases hk with
  | string name =>
    refine .ok (List.rel_map (fun v v' hv => ?_) hvs)
    rw [hv.isNull]
    split
    · exact .none
    · exact .some (.under name hv)
  | _ => exact .error _ rfl

theorem object_alike {row row' : List (Option (String × Value))}
    (h : List.Forall₂ (EntryAlike F) row row') :
    (Value.object (Entries.ofList (row.filterMap id))).Alike F
      (.object (Entries.ofList (row'.filterMap id))) :=
  .object (Entries.ofList_related (List.rel_filterMap (fun _ _ h => h) h))

end Run

/-! ### Writes -/

theorem forall₂_find? {p : α → Bool} {q : β → Bool} (hpq : ∀ a b, R a b → p a = q b)
    {as : List α} {bs : List β} (h : List.Forall₂ R as bs) :
    Option.Rel R (as.find? p) (bs.find? q) := by
  induction h with
  | nil => exact .none
  | cons h _ ih =>
    rw [List.find?_cons, List.find?_cons, hpq _ _ h]
    split
    · exact .some h
    · exact ih

theorem filterMap_eq_of_forall₂ {f : α → Option γ} {g : β → Option γ}
    (hfg : ∀ a b, R a b → f a = g b) {as : List α} {bs : List β} (h : List.Forall₂ R as bs) :
    as.filterMap f = bs.filterMap g := by
  induction h with
  | nil => rfl
  | cons h _ ih => rw [List.filterMap_cons, List.filterMap_cons, hfg _ _ h, ih]

theorem getD_alike {v w : Option Value} (h : Option.Rel (Value.Alike F) v w) {d d' : Value}
    (hd : d.Alike F d') : (v.getD d).Alike F (w.getD d') := by
  cases h with
  | none => exact hd
  | some h => exact h

namespace Assign

/-- Plans with slots that are alike, which build documents that are alike. -/
structure Plan.Alike (F : Function → Function → Prop) (plan plan' : Plan) : Prop where
  slots : Items.Alike F plan.slots plan'.slots
  build : ∀ candidates candidates', List.Forall₂ (Items.Alike F) candidates candidates' →
    Matching (Items.Alike F) (plan.build candidates) (plan'.build candidates')

variable {target target' : Value}

theorem settled_alike {r r' : Except Failure (List Value)} (h : Matching (Items.Alike F) r r') :
    (Plan.settled r).Alike F (.settled r') :=
  ⟨.nil, fun _ _ _ => h⟩

theorem ofRow_alike {current current' : List Value} {document document' : List Value → Value}
    (h : Items.Alike F current current')
    (hdoc : ∀ row row', Items.Alike F row row' → (document row).Alike F (document' row')) :
    (Plan.ofRow current document).Alike F (.ofRow current' document') :=
  ⟨h, fun _ _ hs => (Items.combinations_alike h hs).bind fun _ _ hrows =>
    .ok (List.rel_map hdoc hrows)⟩

theorem ofPart_alike {current current' : Value} {document document' : Value → Except Failure Value}
    (h : current.Alike F current')
    (hdoc : ∀ v v', v.Alike F v' → Matching (Value.Alike F) (document v) (document' v')) :
    (Plan.ofPart current document).Alike F (.ofPart current' document') :=
  ⟨.cons h .nil, fun _ _ hs => Matching.mapM hdoc (List.rel_flatten hs)⟩

theorem misfit_alike (optional : Bool) (h : target.Alike F target') {cause : Cause}
    (hcause : cause.isFatal = false) :
    (Plan.settled (misfit optional target cause)).Alike F
      (.settled (misfit optional target' cause)) := by
  apply settled_alike
  rw [misfit, misfit]
  split
  · exact .ok (.cons h .nil)
  · exact .error cause hcause

theorem entriesPlan_alike (names : List String) {es fs : Entries Value} (h : Entries.Alike F es fs) :
    (entriesPlan names es).Alike F (entriesPlan names fs) := by
  refine ofRow_alike ?_ fun row row' hrow => .object (Entries.writeAll_alike h ?_)
  · refine List.rel_map (R := Eq) ?_ (List.forall₂_same.2 fun name _ => rfl)
    rintro name _ rfl
    exact getD_alike (Entries.get?_related h name) .null
  · refine forall₂_zipWith (R := Eq) ?_ (List.forall₂_same.2 fun name _ => rfl) hrow
    rintro name _ v w rfl hv
    exact .under name hv

theorem elementsPlan_alike (indices : List Int) {xs ys : List Value} (h : Items.Alike F xs ys) :
    (elementsPlan indices xs).Alike F (elementsPlan indices ys) := by
  refine ofRow_alike ?_ fun row row' hrow => .array (Items.writeAll_alike .null h hrow)
  refine List.rel_map (R := Eq) ?_ (List.forall₂_same.2 fun i _ => rfl)
  rintro i _ rfl
  exact getD_alike (Items.get?_alike h i) .null

theorem promote_alike {k k' : Value} (h : target.Alike F target') (hk : k.Alike F k') :
    (promote target k).Alike F (promote target' k') := by
  have hsame := h
  cases h with
  | null =>
    cases hk with
    | string name => exact .object .nil
    | number n => exact .array .nil
    | _ => exact .null
  | _ => exact hsame

theorem fits_alike {k k' : Value} (h : target.Alike F target') (hk : k.Alike F k') :
    fits target k = fits target' k' := by
  cases h <;> cases hk <;> rfl

theorem keysPlan_alike (optional : Bool) {ks ks' : List Value} (hks : Items.Alike F ks ks')
    (h : target.Alike F target') :
    (keysPlan optional ks target).Alike F (keysPlan optional ks' target') := by
  cases hks with
  | nil => exact settled_alike (.ok (.cons h .nil))
  | @cons k k' ks ks' hk hks =>
    have hkeys : Items.Alike F (k :: ks) (k' :: ks') := .cons hk hks
    simp only [keysPlan]
    have hto := promote_alike h hk
    revert hto
    generalize promote target k = target, promote target' k' = target'
    intro hto
    have hfind := forall₂_find? (p := fun k => !fits target k) (q := fun k => !fits target' k)
      (fun _ _ hk => by rw [fits_alike hto hk]) hkeys
    revert hfind
    generalize (k :: ks).find? _ = found, (k' :: ks').find? _ = found'
    rintro (hbad | _)
    · simp only [hto.kind, hbad.kind]
      exact misfit_alike optional hto rfl
    · have hsame := hto
      cases hto with
      | object hes =>
        simp only [filterMap_eq_of_forall₂ (fun _ _ hk => hk.string?) hkeys]
        exact entriesPlan_alike _ hes
      | array hxs =>
        simp only [filterMap_eq_of_forall₂ (fun _ _ hk => hk.number?) hkeys, hxs.length_eq]
        split
        · exact misfit_alike optional (.array hxs) rfl
        · exact elementsPlan_alike _ hxs
      | _ => exact settled_alike (.ok (.cons hsame .nil))

theorem eachPlan_alike (optional : Bool) (h : target.Alike F target') :
    (eachPlan optional target).Alike F (eachPlan optional target') := by
  have hsame := h
  cases h with
  | array hxs => exact ofRow_alike hxs fun _ _ hrow => .array hrow
  | object hes =>
    rw [eachPlan, eachPlan, Entries.keys_related hes]
    exact entriesPlan_alike _ hes
  | null => exact settled_alike (.ok (.cons .null .nil))
  | _ => exact misfit_alike optional hsame rfl

theorem itemsSlicePlan_alike (op : AssignmentOp) {a a' b b' : Value} (ha : a.Alike F a')
    (hb : b.Alike F b') (h : target.Alike F target') {xs ys : List Value}
    (hxs : Items.Alike F xs ys) :
    (itemsSlicePlan op a b target xs).Alike F (itemsSlicePlan op a' b' target' ys) := by
  have hrange := Value.sliceRange_alike h ys.length ha hb
  rw [itemsSlicePlan, itemsSlicePlan, hxs.length_eq]
  revert hrange
  generalize target.sliceRange ys.length a b = r, target'.sliceRange ys.length a' b' = r'
  rintro (hr | ⟨cause, hcause⟩ | _)
  · rename_i range range'
    obtain ⟨i, j⟩ := range
    subst hr
    refine ofPart_alike (.array (List.forall₂_drop i (List.forall₂_take j hxs))) fun v v' hv => ?_
    cases hv with
    | array hvs =>
      exact .ok (.array (List.rel_append (List.rel_append (List.forall₂_take i hxs) hvs)
        (List.forall₂_drop j hxs)))
    | _ =>
      simp only [splicedItems, Value.invalidOperand, h.kind]
      exact .error _ rfl
  · exact settled_alike (.error cause hcause)
  · exact settled_alike .overflow

theorem slicePlan_alike (op : AssignmentOp) (optional : Bool) {a a' b b' : Value}
    (ha : a.Alike F a') (hb : b.Alike F b') (h : target.Alike F target') :
    (slicePlan op optional a b target).Alike F (slicePlan op optional a' b' target') := by
  have hsame := h
  cases h with
  | array hxs => exact itemsSlicePlan_alike op ha hb (.array hxs) hxs
  | null => exact itemsSlicePlan_alike op ha hb .null .nil
  | string s =>
    have hrange := Value.sliceRange_alike (F := F) (.string s) s.toList.length ha hb
    rw [slicePlan, slicePlan]
    revert hrange
    generalize (Value.string s).sliceRange s.toList.length a b = r,
      (Value.string s).sliceRange s.toList.length a' b' = r'
    rintro (hr | ⟨cause, hcause⟩ | _)
    · rename_i range range'
      obtain ⟨i, j⟩ := range
      subst hr
      refine ofPart_alike (.string _) fun v v' hv => ?_
      cases hv with
      | string t => exact .ok (.string _)
      | _ => exact .error _ rfl
    · exact settled_alike (.error cause hcause)
    · exact settled_alike .overflow
  | _ => exact misfit_alike optional hsame rfl

end Assign

end JsonPipe
