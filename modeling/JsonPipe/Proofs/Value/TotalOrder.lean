import JsonPipe.Proofs.Value.Order

/-! The order of values is total.

    Every comparison is made of smaller ones that are tried one after the other: the types, then the
    keys, then the elements in turn, and the first that tells the two values apart decides. So it is
    enough to know what a single comparison does to three values in a row, and that this is kept
    when a second comparison is put behind the first (`Composes.behind`). Keys, arrays and the
    values of objects are all compared as lists are (`List.compareLex`), which leaves one lemma
    about lists for the induction over values. It follows that equality is an equivalence, and that
    equal values can stand for each other in every comparison (`Value.order_isTotalPreorder`). -/

namespace JsonPipe

/-! ### Three in a row -/

/-- The orders of the first and the second, the second and the third, and the first and the third of
    three things in a row fit together: what is equal to the second may stand in its place, and two
    steps in the same direction make one. -/
structure Composes (ab bc ac : Ordering) : Prop where
  left : ab = .eq → ac = bc
  right : bc = .eq → ac = ab
  both : ab = bc → ac = ab

namespace Composes

variable {ab bc ac ab' bc' ac' : Ordering}

theorem of_transCmp {α : Type} (cmp : α → α → Ordering) [Std.TransCmp cmp] (a b c : α) :
    Composes (cmp a b) (cmp b c) (cmp a c) where
  left h := Std.TransCmp.congr_left h
  right h := (Std.TransCmp.congr_right h).symm
  both h := by
    cases hab : cmp a b with
    | lt => exact Std.TransCmp.lt_trans hab (h ▸ hab)
    | eq => rw [Std.TransCmp.congr_left hab, ← h, hab]
    | gt => exact Std.TransCmp.gt_trans hab (h ▸ hab)

/-- A second comparison behind the first counts only where the first tells nothing apart. -/
theorem behind (h : Composes ab bc ac) (h' : ab = .eq → bc = .eq → Composes ab' bc' ac') :
    Composes (ab.then ab') (bc.then bc') (ac.then ac') := by
  cases ab with
  | eq =>
    obtain rfl := h.left rfl
    cases ac with
    | eq => exact h' rfl rfl
    | lt | gt => exact ⟨fun _ => rfl, nofun, fun hsame => hsame.symm⟩
  | lt | gt =>
    cases bc with
    | eq =>
      obtain rfl := h.right rfl
      exact ⟨nofun, fun _ => rfl, fun _ => rfl⟩
    | lt | gt =>
      refine ⟨nofun, nofun, fun hsame => ?_⟩
      cases hsame
      all_goals simp [h.both rfl]

/-- Going up or staying level twice is not going down. -/
theorem isLE (h : Composes ab bc ac) (hab : ab.isLE = true) (hbc : bc.isLE = true) :
    ac.isLE = true := by
  cases ab with
  | eq => rwa [h.left rfl]
  | gt => cases hab
  | lt =>
    cases bc with
    | eq => rw [h.right rfl]; rfl
    | lt => rw [h.both rfl]; rfl
    | gt => cases hbc

end Composes

/-! ### Lists -/

section Lists

variable {α : Type} {cmp : α → α → Ordering}

theorem compareLex_swap {xs : List α} (h : ∀ x ∈ xs, ∀ y, cmp x y = (cmp y x).swap)
    (ys : List α) : List.compareLex cmp xs ys = (List.compareLex cmp ys xs).swap := by
  induction xs generalizing ys with
  | nil => cases ys <;> rfl
  | cons x xs ih =>
    obtain ⟨hx, hxs⟩ := List.forall_mem_cons.1 h
    cases ys with
    | nil => rfl
    | cons y ys =>
      simp only [List.compareLex_cons_cons, Ordering.swap_then, ← hx y, ← ih hxs ys]

/-- Lists go together as their elements do; a shorter list comes before its continuations. -/
theorem compareLex_composes {xs : List α}
    (h : ∀ x ∈ xs, ∀ y z, Composes (cmp x y) (cmp y z) (cmp x z)) (ys zs : List α) :
    Composes (List.compareLex cmp xs ys) (List.compareLex cmp ys zs)
      (List.compareLex cmp xs zs) := by
  induction xs generalizing ys zs with
  | nil =>
    cases ys with
    | nil => exact ⟨fun _ => rfl, fun h => h, fun h => h.symm⟩
    | cons y ys =>
      rw [List.compareLex_nil_cons]
      cases zs with
      | nil => exact ⟨nofun, nofun, nofun⟩
      | cons z zs => exact ⟨nofun, fun _ => rfl, fun _ => rfl⟩
  | cons x xs ih =>
    obtain ⟨hx, hxs⟩ := List.forall_mem_cons.1 h
    cases ys with
    | nil =>
      rw [List.compareLex_cons_nil]
      cases zs with
      | nil => exact ⟨nofun, fun _ => rfl, nofun⟩
      | cons z zs => exact ⟨nofun, nofun, nofun⟩
    | cons y ys =>
      cases zs with
      | nil => exact ⟨fun _ => rfl, nofun, fun h => h.symm⟩
      | cons z zs =>
        simp only [List.compareLex_cons_cons]
        exact (hx y z).behind fun _ _ => ih hxs ys zs

end Lists

namespace Text

theorem order_swap (s t : String) : order s t = (order t s).swap :=
  Std.OrientedOrd.eq_swap (α := String)

theorem order_composes (s t u : String) : Composes (order s t) (order t u) (order s u) :=
  .of_transCmp compare s t u

theorem orderList_eq (ss ts : List String) :
    orderList ss ts = List.compareLex order ss ts := by
  induction ss generalizing ts with
  | nil => cases ts <;> rfl
  | cons s ss ih =>
    cases ts with
    | nil => rfl
    | cons t ts =>
      rw [orderList, List.compareLex_cons_cons, ← ih]
      cases order s t <;> rfl

end Text

theorem orderItems_eq (xs ys : List Value) :
    orderItems xs ys = List.compareLex Value.order xs ys := by
  induction xs generalizing ys with
  | nil => cases ys <;> rfl
  | cons x xs ih =>
    cases ys with
    | nil => rfl
    | cons y ys =>
      rw [orderItems, List.compareLex_cons_cons, ← ih]
      cases x.order y <;> rfl

/-- The values of two objects are compared as lists are if there are equally many. -/
theorem orderEntries_eq {es fs : List (String × Value)} (h : es.length = fs.length) :
    orderEntries es fs = List.compareLex Value.order (Entries.values es) (Entries.values fs) := by
  induction es generalizing fs with
  | nil =>
    obtain rfl := List.length_eq_zero_iff.1 h.symm
    rfl
  | cons e es ih =>
    cases fs with
    | nil => cases h
    | cons f fs =>
      have hrest := ih (Nat.succ.inj h)
      change _ = List.compareLex Value.order (e.2 :: Entries.values es) (f.2 :: Entries.values fs)
      rw [List.compareLex_cons_cons, ← hrest, orderEntries]
      cases e.2.order f.2 <;> rfl

/-! ### Values -/

/-- Kinds of the same rank are the same. -/
theorem Kind.rank_inj {j k : Kind} (h : j.rank = k.rank) : j = k := by
  cases j <;> cases k <;> first | rfl | cases h

/-- Values of the same type. -/
inductive Value.Akin : Value → Value → Prop
  | null : Akin .null .null
  | bool (a b : Bool) : Akin (.bool a) (.bool b)
  | number (x y : Number) : Akin (.number x) (.number y)
  | string (s t : String) : Akin (.string s) (.string t)
  | array (xs ys : List Value) : Akin (.array xs) (.array ys)
  | object (es fs : Entries Value) : Akin (.object es) (.object fs)
  | function (f g : Function) : Akin (.function f) (.function g)

theorem Value.akin_of_kind {v w : Value} (h : v.kind = w.kind) : v.Akin w := by
  cases v <;> cases w <;> first | constructor | cases h

section Induction

variable {motive : Value → Prop} (null : motive .null) (bool : ∀ b, motive (.bool b))
  (number : ∀ n, motive (.number n)) (string : ∀ s, motive (.string s))
  (array : ∀ items, (∀ v ∈ items, motive v) → motive (.array items))
  (object : ∀ entries, (∀ v ∈ Entries.values entries, motive v) → motive (.object entries))
  (function : ∀ f, motive (.function f))
include null bool number string array object function

-- The cases are used up by the recursion, which the linter does not see.
set_option linter.unusedSectionVars false in
mutual

/-- A property of all values follows if arrays inherit it from their elements and objects from the
    values of their entries. -/
theorem Value.induction (v : Value) : motive v := by
  match v with
  | .null => exact null
  | .bool b => exact bool b
  | .number n => exact number n
  | .string s => exact string s
  | .array items => exact array items (items_induction items)
  | .object entries => exact object entries (entries_induction entries)
  | .function f => exact function f
termination_by structural v

theorem items_induction (items : List Value) : ∀ v ∈ items, motive v := by
  match items with
  | [] => exact nofun
  | v :: items => exact List.forall_mem_cons.2 ⟨Value.induction v, items_induction items⟩
termination_by structural items

theorem entries_induction (entries : List (String × Value)) :
    ∀ v ∈ Entries.values entries, motive v := by
  match entries with
  | [] => exact nofun
  | (_, v) :: entries =>
    exact List.forall_mem_cons.2 ⟨Value.induction v, entries_induction entries⟩
termination_by structural entries

end

end Induction

namespace Value

theorem order_array (xs ys : List Value) :
    (Value.array xs).order (.array ys) = List.compareLex order xs ys := orderItems_eq xs ys

/-- Objects are compared by their keys, and by their values if they have the same keys. -/
theorem order_object (es fs : Entries Value) :
    (Value.object es).order (.object fs) =
      (List.compareLex Text.order es.keys fs.keys).then
        (List.compareLex order es.values fs.values) := by
  rw [order, ← Text.orderList_eq]
  cases hkeys : Text.orderList es.keys fs.keys with
  | eq =>
    have hlength : es.length = fs.length := by
      simpa [Entries.keys] using congrArg List.length ((Text.orderList_eq_iff _ _).1 hkeys)
    exact orderEntries_eq hlength
  | lt | gt => rfl

/-- Values of different types stand in the order of their types. -/
theorem order_of_kind_ne {v w : Value} (h : v.kind ≠ w.kind) :
    v.order w = compare v.kind.rank w.kind.rank := by
  cases v <;> cases w <;> first | rfl | exact absurd rfl h

/-- The types come first. -/
theorem order_eq_then (v w : Value) :
    v.order w = (compare v.kind.rank w.kind.rank).then (v.order w) := by
  by_cases h : v.kind = w.kind
  · rw [h, Nat.compare_eq_eq.2 rfl]
    rfl
  · rw [order_of_kind_ne h]
    cases compare v.kind.rank w.kind.rank <;> rfl

/-- Two values need to be looked into only if they have the same type. -/
theorem order_swap_of_akin {v w : Value} (h : v.Akin w → v.order w = (w.order v).swap) :
    v.order w = (w.order v).swap := by
  by_cases hkind : v.kind = w.kind
  · exact h (akin_of_kind hkind)
  · rw [order_of_kind_ne hkind, order_of_kind_ne (Ne.symm hkind)]
    exact Std.OrientedOrd.eq_swap

/-- Three values need to be looked into only if they have the same type. -/
theorem order_composes_of_akin {u v w : Value}
    (h : u.Akin v → v.Akin w → Composes (u.order v) (v.order w) (u.order w)) :
    Composes (u.order v) (v.order w) (u.order w) := by
  rw [order_eq_then u v, order_eq_then v w, order_eq_then u w]
  refine (Composes.of_transCmp compare _ _ _).behind fun huv hvw => h ?_ ?_
  · exact akin_of_kind (Kind.rank_inj (Nat.compare_eq_eq.1 huv))
  · exact akin_of_kind (Kind.rank_inj (Nat.compare_eq_eq.1 hvw))

theorem order_swap (v w : Value) : v.order w = (w.order v).swap := by
  induction v using Value.induction generalizing w with
  | null | function f =>
    refine order_swap_of_akin fun h => ?_
    cases h
    rfl
  | bool a =>
    refine order_swap_of_akin fun h => ?_
    cases h
    exact Std.OrientedOrd.eq_swap
  | number x =>
    refine order_swap_of_akin fun h => ?_
    cases h
    exact Std.OrientedOrd.eq_swap
  | string s =>
    refine order_swap_of_akin fun h => ?_
    cases h
    exact Text.order_swap s _
  | array xs ih =>
    refine order_swap_of_akin fun h => ?_
    cases h
    rw [order_array, order_array, compareLex_swap ih]
  | object es ih =>
    refine order_swap_of_akin fun h => ?_
    cases h
    rw [order_object, order_object, Ordering.swap_then, ← compareLex_swap ih,
      ← compareLex_swap fun s _ t => Text.order_swap s t]

/-- The orders of three values fit together. -/
theorem order_composes (u v w : Value) : Composes (u.order v) (v.order w) (u.order w) := by
  induction u using Value.induction generalizing v w with
  | null | function f =>
    refine order_composes_of_akin fun huv hvw => ?_
    cases huv
    cases hvw
    exact ⟨fun _ => rfl, fun _ => rfl, fun _ => rfl⟩
  | bool a =>
    refine order_composes_of_akin fun huv hvw => ?_
    cases huv
    cases hvw
    exact .of_transCmp compare a _ _
  | number x =>
    refine order_composes_of_akin fun huv hvw => ?_
    cases huv
    cases hvw
    exact .of_transCmp compare x.key _ _
  | string s =>
    refine order_composes_of_akin fun huv hvw => ?_
    cases huv
    cases hvw
    exact Text.order_composes s _ _
  | array xs ih =>
    refine order_composes_of_akin fun huv hvw => ?_
    cases huv
    cases hvw
    simp only [order_array]
    exact compareLex_composes ih _ _
  | object es ih =>
    refine order_composes_of_akin fun huv hvw => ?_
    cases huv
    cases hvw
    simp only [order_object]
    exact (compareLex_composes (fun s _ t u => Text.order_composes s t u) _ _).behind fun _ _ =>
      compareLex_composes ih _ _

/-- Not to be told apart is not to be told apart from anything else either. -/
theorem order_congr {v v' w w' : Value} (hv : v.same v' = true) (hw : w.same w' = true) :
    v.order w = v'.order w' := by
  rw [same_eq, beq_iff_eq] at hv hw
  calc v.order w = v'.order w := (order_composes v v' w).left hv
    _ = v'.order w' := ((order_composes v' w w').right hw).symm

/-- Equality is an equivalence. -/
theorem same_equivalence : Equivalence fun v w : Value => v.same w = true where
  refl v := (same_iff v v).2 rfl
  symm h := (same_iff _ _).2 ((same_iff _ _).1 h).symm
  trans h h' := (same_iff _ _).2 (((same_iff _ _).1 h).trans ((same_iff _ _).1 h'))

/-- The order of values is a total preorder. Comparing two values gives this order, whether or not
    it looks into the parts that the two share, for every value is level with itself. The other way
    round the order is reversed, and it is transitive. So equality is an equivalence, and the order
    of two values does not change if either is replaced by an equal one. -/
theorem order_isTotalPreorder :
    (∀ v w : Value, (v.orderShared w).1 = v.order w) ∧
    (∀ v : Value, v.order v = .eq) ∧
    (∀ v w : Value, v.order w = (w.order v).swap) ∧
    (∀ u v w : Value, (u.order v).isLE = true → (v.order w).isLE = true →
      (u.order w).isLE = true) ∧
    Equivalence (fun v w : Value => v.same w = true) ∧
    ∀ v v' w w' : Value, v.same v' = true → w.same w' = true → v.order w = v'.order w' :=
  ⟨fun v w => (v.orderShared w).2, order_self, order_swap,
    fun u v w => (order_composes u v w).isLE, same_equivalence,
    fun _ _ _ _ => order_congr⟩

/-- An array of NaN comes before one of a negative zero, which is level with one of zero. -/
theorem order_isTotalPreorder_nan :
    ((Value.array [.number .nan]).order (.array [.number (.finite true .zero)])).isLE = true ∧
      (Value.array [.number (.finite true .zero)]).same (.array [.number .zero]) = true ∧
      ((Value.array [.number .nan]).order (.array [.number .zero])).isLE = true := by
  have hnan : ((Value.array [.number .nan]).order
      (.array [.number (.finite true .zero)])).isLE = true := by decide +kernel
  have hzero : (Value.array [.number (.finite true .zero)]).same
      (.array [.number .zero]) = true := by decide +kernel
  obtain ⟨-, hself, -, -, -, hcongr⟩ := order_isTotalPreorder
  have hsame := hcongr (.array [.number .nan]) _ _ _ (by rw [same_eq, hself]; rfl) hzero
  exact ⟨hnan, hzero, hsame ▸ hnan⟩

end Value

end JsonPipe
