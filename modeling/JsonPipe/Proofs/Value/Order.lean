import JsonPipe.Value.Order

/-! What the order of values tells apart.

    Two values stand at the same place of the order exactly when they look alike once the sign of
    zero is dropped and every function is replaced by one and the same (`order_eq_iff`). So
    equality of values is an equivalence, and it is coarser than identity in two ways only: at any
    depth it sees neither the sign of zero nor which function stands there. `Value.viewed` is the
    view in general, with a given function in the place of each function; `Value.unsigned` keeps
    the functions as they are, and `Value.shape` forgets them. -/

namespace JsonPipe

/-! ### Numbers and texts -/

theorem Magnitude.ext_units {m n : Magnitude} (h : m.units = n.units) : m = n := by
  cases m
  cases n
  simpa only [Magnitude.mk.injEq] using h

namespace Number

/-- The number, zero without its sign. -/
def unsigned : Number → Number
  | .finite true m => if m.units = 0 then .finite false m else .finite true m
  | x => x

/-- Dropping the sign of zero keeps the place in the order. -/
theorem key_unsigned (x : Number) : x.unsigned.key = x.key := by
  cases x with
  | nan => rfl
  | infinite s => rfl
  | finite s m => by_cases h0 : m.units = 0 <;> cases s <;> simp [unsigned, key, h0]

/-- Numbers share a place in the order exactly when they differ by the sign of zero at most. -/
theorem key_eq_iff (x y : Number) : x.key = y.key ↔ x.unsigned = y.unsigned := by
  constructor
  · intro h
    have pos : 0 < overflowUnits := pow2_pos _
    cases x with
    | nan =>
      cases y with
      | nan => rfl
      | infinite t => cases t <;> simp only [key] at h <;> omega
      | finite t n => have := n.bounded; cases t <;> simp only [key] at h <;> omega
    | infinite s =>
      cases y with
      | nan => cases s <;> simp only [key] at h <;> omega
      | infinite t =>
        have hst : s = t := by cases s <;> cases t <;> simp only [key] at h ⊢ <;> omega
        rw [hst]
      | finite t n =>
        have := n.bounded
        cases s <;> cases t <;> simp only [key] at h <;> omega
    | finite s m =>
      have := m.bounded
      cases y with
      | nan => cases s <;> simp only [key] at h <;> omega
      | infinite t => cases s <;> cases t <;> simp only [key] at h <;> omega
      | finite t n =>
        have hu : m.units = n.units := by
          cases s <;> cases t <;> simp only [key] at h <;> omega
        obtain rfl : m = n := Magnitude.ext_units hu
        by_cases h0 : m.units = 0
        · cases s <;> cases t <;> simp [unsigned, h0]
        · have hst : s = t := by cases s <;> cases t <;> simp only [key] at h ⊢ <;> omega
          rw [hst]
  · intro h
    rw [← key_unsigned x, h, key_unsigned]

theorem order_eq_iff (x y : Number) : x.order y = .eq ↔ x.unsigned = y.unsigned := by
  rw [order, Std.compare_eq_iff_eq, key_eq_iff]

end Number

namespace Text

theorem order_eq_iff (s t : String) : order s t = .eq ↔ s = t := by
  constructor
  · intro h
    rw [order, compareOfLessAndEq] at h
    split at h
    · cases h
    · split at h
      · assumption
      · cases h
  · rintro rfl
    exact order_self s

theorem orderList_eq_iff (ss ts : List String) : orderList ss ts = .eq ↔ ss = ts := by
  constructor
  · intro h
    induction ss generalizing ts with
    | nil =>
      cases ts with
      | nil => rfl
      | cons t ts => cases h
    | cons s ss ih =>
      cases ts with
      | nil => cases h
      | cons t ts =>
        rw [orderList] at h
        split at h
        · next hst => rw [(order_eq_iff s t).1 hst, ih ts h]
        · next hst => exact absurd h hst
  · rintro rfl
    exact orderList_self ss

end Text

/-! ### Views of values -/

mutual

/-- The value without the signs of its zeros, with `g f` in the place of each function `f`. -/
def Value.viewed (g : Function → Function) : Value → Value
  | .null => .null
  | .bool b => .bool b
  | .number n => .number n.unsigned
  | .string s => .string s
  | .array items => .array (viewedItems g items)
  | .object es => .object (viewedEntries g es)
  | .function f => .function (g f)
termination_by structural x => x

/-- The elements of an array, each viewed. -/
def viewedItems (g : Function → Function) : List Value → List Value
  | [] => []
  | v :: vs => v.viewed g :: viewedItems g vs
termination_by structural x => x

/-- The entries of an object, each value viewed. -/
def viewedEntries (g : Function → Function) : List (String × Value) → List (String × Value)
  | [] => []
  | (k, v) :: es => (k, v.viewed g) :: viewedEntries g es
termination_by structural x => x

end

/-- A function of lists that goes from element to element. -/
theorem eq_map_of_cons {α β : Type} {f : α → β} {F : List α → List β} (hnil : F [] = [])
    (hcons : ∀ a as, F (a :: as) = f a :: F as) (as : List α) : F as = as.map f := by
  induction as with
  | nil => exact hnil
  | cons a as ih => rw [hcons, ih, List.map_cons]

theorem viewedItems_eq (g : Function → Function) (vs : List Value) :
    viewedItems g vs = vs.map (Value.viewed g) :=
  eq_map_of_cons rfl (fun _ _ => rfl) vs

/-- Applies a function to every value of an object. -/
def Entries.mapValues {α β : Type} (f : α → β) (es : Entries α) : Entries β :=
  es.map fun e => (e.1, f e.2)

@[simp] theorem Entries.keys_mapValues {α β : Type} (f : α → β) (es : Entries α) :
    (es.mapValues f).keys = es.keys := by
  simp [keys, mapValues]

theorem viewedEntries_eq (g : Function → Function) (es : List (String × Value)) :
    viewedEntries g es = Entries.mapValues (Value.viewed g) es :=
  eq_map_of_cons rfl (fun _ _ => rfl) es

namespace Value

@[simp] theorem viewed_array (g : Function → Function) (vs : List Value) :
    (Value.array vs).viewed g = .array (vs.map (viewed g)) := by
  rw [viewed, viewedItems_eq]

@[simp] theorem viewed_object (g : Function → Function) (es : List (String × Value)) :
    (Value.object es).viewed g = .object (Entries.mapValues (viewed g) es) := by
  rw [viewed, viewedEntries_eq]

/-- The value without the signs of its zeros. -/
def unsigned : Value → Value := viewed id

/-- The value without the signs of its zeros and with one function in the place of all. -/
def shape : Value → Value := viewed fun _ => .builtin .id

end Value

/-! ### The order sees the shape and nothing else -/

mutual

/-- Values are equal in the order exactly when they have the same shape. -/
theorem Value.order_eq_iff (v w : Value) : v.order w = .eq ↔ v.shape = w.shape := by
  match v with
  | .null => cases w <;> simp [Value.order, Value.shape, Value.viewed, Value.kind, Kind.rank]
  | .bool a =>
    cases w with
    | bool b => simp [Value.order, Value.shape, Value.viewed]
    | _ => simp [Value.order, Value.shape, Value.viewed, Value.kind, Kind.rank]
  | .number x =>
    cases w with
    | number y => simp [Value.order, Value.shape, Value.viewed, Number.order_eq_iff]
    | _ => simp [Value.order, Value.shape, Value.viewed, Value.kind, Kind.rank]
  | .string s =>
    cases w with
    | string t => simp [Value.order, Value.shape, Value.viewed, Text.order_eq_iff]
    | _ => simp [Value.order, Value.shape, Value.viewed, Value.kind, Kind.rank]
  | .array xs =>
    cases w with
    | array ys =>
      rw [Value.order, orderItems_eq_iff xs ys, Value.shape, Value.viewed_array,
        Value.viewed_array, Value.array.injEq]
    | _ => simp [Value.order, Value.shape, Value.viewed, Value.kind, Kind.rank]
  | .object es =>
    cases w with
    | object fs =>
      have h := orderEntries_eq_iff es fs
      rw [Value.shape] at h
      rw [Value.order, Value.shape, Value.viewed_object, Value.viewed_object,
        Value.object.injEq, ← h, ← Text.orderList_eq_iff]
      cases Text.orderList (Entries.keys es) (Entries.keys fs) <;> simp
    | _ => simp [Value.order, Value.shape, Value.viewed, Value.kind, Kind.rank]
  | .function f => cases w <;> simp [Value.order, Value.shape, Value.viewed, Value.kind, Kind.rank]
termination_by structural v

theorem orderItems_eq_iff (xs ys : List Value) :
    orderItems xs ys = .eq ↔ xs.map Value.shape = ys.map Value.shape := by
  match xs, ys with
  | [], [] => simp [orderItems]
  | [], _ :: _ => simp [orderItems]
  | _ :: _, [] => simp [orderItems]
  | x :: xs, y :: ys =>
    rw [orderItems, List.map_cons, List.map_cons, List.cons.injEq, ← Value.order_eq_iff x y,
      ← orderItems_eq_iff xs ys]
    cases x.order y <;> simp
termination_by structural xs

theorem orderEntries_eq_iff (es fs : List (String × Value)) :
    Entries.keys es = Entries.keys fs ∧ orderEntries es fs = .eq ↔
      Entries.mapValues Value.shape es = Entries.mapValues Value.shape fs := by
  match es, fs with
  | [], [] => simp [orderEntries, Entries.keys]
  | [], _ :: _ => simp [Entries.keys, Entries.mapValues]
  | _ :: _, [] => simp [Entries.keys, Entries.mapValues]
  | (j, x) :: es, (k, y) :: fs =>
    have hx := Value.order_eq_iff x y
    have hrest := orderEntries_eq_iff es fs
    simp only [orderEntries, Entries.keys, Entries.mapValues, List.map_cons, List.cons.injEq,
      Prod.mk.injEq] at hrest ⊢
    rw [← hx, ← hrest]
    cases x.order y <;> simp [and_assoc]
termination_by structural es

end

/-- Values are equal exactly when they have the same shape. -/
theorem Value.same_iff (v w : Value) : v.same w = true ↔ v.shape = w.shape := by
  rw [same_eq, beq_iff_eq, order_eq_iff]

/-! ### Functions inside values -/

mutual

/-- The functions that stand in a value, not counting those inside functions. -/
def Value.functions : Value → List Function
  | .array items => functionsOfItems items
  | .object es => functionsOfEntries es
  | .function f => [f]
  | _ => []
termination_by structural x => x

/-- The functions that stand in the elements of an array. -/
def functionsOfItems : List Value → List Function
  | [] => []
  | v :: vs => v.functions ++ functionsOfItems vs
termination_by structural x => x

/-- The functions that stand in the values of an object. -/
def functionsOfEntries : List (String × Value) → List Function
  | [] => []
  | (_, v) :: es => v.functions ++ functionsOfEntries es
termination_by structural x => x

end

mutual

/-- Views that agree on the functions of a value show the same. -/
theorem Value.viewed_congr {g h : Function → Function} (v : Value)
    (agree : ∀ f ∈ v.functions, g f = h f) : v.viewed g = v.viewed h := by
  match v with
  | .null | .bool _ | .number _ | .string _ => rfl
  | .array items => rw [Value.viewed, Value.viewed, viewedItems_congr items agree]
  | .object es => rw [Value.viewed, Value.viewed, viewedEntries_congr es agree]
  | .function f => rw [Value.viewed, Value.viewed, agree f (List.mem_singleton.2 rfl)]
termination_by structural v

theorem viewedItems_congr {g h : Function → Function} (vs : List Value)
    (agree : ∀ f ∈ functionsOfItems vs, g f = h f) : viewedItems g vs = viewedItems h vs := by
  match vs with
  | [] => rfl
  | v :: vs =>
    rw [functionsOfItems] at agree
    rw [viewedItems, viewedItems,
      Value.viewed_congr v fun f hf => agree f (List.mem_append_left _ hf),
      viewedItems_congr vs fun f hf => agree f (List.mem_append_right _ hf)]
termination_by structural vs

theorem viewedEntries_congr {g h : Function → Function} (es : List (String × Value))
    (agree : ∀ f ∈ functionsOfEntries es, g f = h f) :
    viewedEntries g es = viewedEntries h es := by
  match es with
  | [] => rfl
  | (k, v) :: es =>
    rw [functionsOfEntries] at agree
    rw [viewedEntries, viewedEntries,
      Value.viewed_congr v fun f hf => agree f (List.mem_append_left _ hf),
      viewedEntries_congr es fun f hf => agree f (List.mem_append_right _ hf)]
termination_by structural es

end

theorem Number.unsigned_unsigned (x : Number) : x.unsigned.unsigned = x.unsigned :=
  (key_eq_iff _ _).1 (key_unsigned x)

mutual

/-- A view of a view is a view. -/
theorem Value.viewed_viewed (g h : Function → Function) (v : Value) :
    (v.viewed g).viewed h = v.viewed (h ∘ g) := by
  match v with
  | .null | .bool _ | .string _ | .function _ => rfl
  | .number x => simp only [Value.viewed, Number.unsigned_unsigned]
  | .array items => simp only [Value.viewed, viewedItems_viewed]
  | .object es => simp only [Value.viewed, viewedEntries_viewed]
termination_by structural v

theorem viewedItems_viewed (g h : Function → Function) (vs : List Value) :
    viewedItems h (viewedItems g vs) = viewedItems (h ∘ g) vs := by
  match vs with
  | [] => rfl
  | v :: vs =>
    rw [viewedItems, viewedItems, viewedItems, v.viewed_viewed, viewedItems_viewed g h vs]
termination_by structural vs

theorem viewedEntries_viewed (g h : Function → Function) (es : List (String × Value)) :
    viewedEntries h (viewedEntries g es) = viewedEntries (h ∘ g) es := by
  match es with
  | [] => rfl
  | (k, v) :: es =>
    rw [viewedEntries, viewedEntries, viewedEntries, v.viewed_viewed, viewedEntries_viewed g h es]
termination_by structural es

end

/-- Dropping the signs of zeros gives an equal value. -/
theorem Value.unsigned_same (v : Value) : v.unsigned.same v = true := by
  rw [same_iff, shape, unsigned, viewed_viewed]
  rfl

/-- Equal values whose functions are all one and the same differ by signs of zeros at most. -/
theorem Value.unsigned_eq_of_same {v w : Value} {f : Function} (h : v.same w = true)
    (hv : ∀ g ∈ v.functions, g = f) (hw : ∀ g ∈ w.functions, g = f) : v.unsigned = w.unsigned := by
  -- With `f` in the place of every function, the shape of a value is the value.
  have restore : ∀ u : Value, (∀ g ∈ u.functions, g = f) →
      u.shape.viewed (fun _ => f) = u.unsigned := by
    intro u hu
    rw [shape, viewed_viewed]
    exact viewed_congr u fun g hg => (hu g hg).symm
  rw [← restore v hv, (same_iff v w).1 h, restore w hw]

end JsonPipe
