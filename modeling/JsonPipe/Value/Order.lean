import JsonPipe.Value.Basic

/-! The total order of values.

    Values of different types stand in the order null, boolean, number, string, array, object,
    function. Booleans put `false` first, numbers put NaN first, strings go by code points, arrays
    by their elements one after the other, objects by their key lists and then by their values in
    key order. All functions are equal.

    A document that was put together from parts may hold the same part many times over.
    `Value.orderShared` finds the same order without looking into parts that the two values share:
    every value is equal to itself (`order_self`), so there is nothing to be found in there. -/

namespace JsonPipe

namespace Text

/-- Texts by code points. -/
def order (s t : String) : Ordering := compareOfLessAndEq s t

/-- Lists of texts, one after the other; a shorter list comes before its continuations. -/
def orderList : List String → List String → Ordering
  | [], [] => .eq
  | [], _ :: _ => .lt
  | _ :: _, [] => .gt
  | s :: ss, t :: ts =>
    match order s t with
    | .eq => orderList ss ts
    | o => o

theorem order_self (s : String) : order s s = .eq := by
  rw [order, compareOfLessAndEq, if_neg (String.lt_irrefl s), if_pos rfl]

theorem orderList_self (ss : List String) : orderList ss ss = .eq := by
  induction ss with
  | nil => rfl
  | cons s ss ih => simp [orderList, order_self, ih]

end Text

mutual

/-- The order of two values. -/
def Value.order : Value → Value → Ordering
  | .bool a, .bool b => compare a b
  | .number x, .number y => x.order y
  | .string s, .string t => Text.order s t
  | .array xs, .array ys => orderItems xs ys
  | .object es, .object fs =>
    match Text.orderList (Entries.keys es) (Entries.keys fs) with
    | .eq => orderEntries es fs
    | o => o
  | v, w => compare v.kind.rank w.kind.rank
termination_by structural x => x

/-- Arrays, element by element; a shorter one comes before its continuations. -/
def orderItems : List Value → List Value → Ordering
  | [], [] => .eq
  | [], _ :: _ => .lt
  | _ :: _, [] => .gt
  | x :: xs, y :: ys =>
    match x.order y with
    | .eq => orderItems xs ys
    | o => o
termination_by structural x => x

/-- The values of two objects with the same keys, in key order. -/
def orderEntries : List (String × Value) → List (String × Value) → Ordering
  | (_, x) :: es, (_, y) :: fs =>
    match x.order y with
    | .eq => orderEntries es fs
    | o => o
  | _, _ => .eq
termination_by structural x => x

end

/-! ### Every value is equal to itself -/

mutual

theorem Value.order_self : (v : Value) → v.order v = .eq
  | .null => rfl
  | .bool b => by cases b <;> rfl
  | .number x => by simp [Value.order, Number.order, Std.ReflCmp.compare_self]
  | .string s => by simp [Value.order, Text.order_self]
  | .array xs => by rw [Value.order]; exact orderItems_self xs
  | .object es => by rw [Value.order, Text.orderList_self]; exact orderEntries_self es
  | .function _ => rfl
termination_by structural v => v

theorem orderItems_self : (xs : List Value) → orderItems xs xs = .eq
  | [] => rfl
  | x :: xs => by rw [orderItems, Value.order_self x]; exact orderItems_self xs
termination_by structural xs => xs

theorem orderEntries_self : (es : List (String × Value)) → orderEntries es es = .eq
  | [] => rfl
  | (_, x) :: es => by rw [orderEntries, Value.order_self x]; exact orderEntries_self es
termination_by structural es => es

end

/-! ### Shared parts -/

/-- Finds the order `o` of `x` and `y`, at once if the two are one and the same piece of memory;
    what is in the same piece of memory is the same, and then the order is known. -/
def sharing {α : Type} (x y : α) {o : Ordering} (self : x = y → o = .eq)
    (find : Unit → { p : Ordering // p = o }) : { p : Ordering // p = o } :=
  let found := Thunk.mk find
  if h : withPtrEq x y (fun _ => found.get.1 == .eq) (fun e => by simp [found.get.2, self e]) then
    ⟨.eq, by
      rw [← found.get.2]
      exact (eq_of_beq h).symm⟩
  else found.get

mutual

/-- The order of two values, without looking into what they share. -/
def Value.orderShared : (v w : Value) → { o : Ordering // o = v.order w }
  | .array xs, .array ys =>
    sharing xs ys (fun e => by rw [e]; exact Value.order_self (.array ys)) fun _ =>
      ⟨(orderItemsShared xs ys).1, (orderItemsShared xs ys).2⟩
  | .object es, .object fs =>
    sharing es fs (fun e => by rw [e]; exact Value.order_self (.object fs)) fun _ =>
      match h : Text.orderList (Entries.keys es) (Entries.keys fs) with
      | .eq => ⟨(orderEntriesShared es fs).1, by
          rw [Value.order, h]; exact (orderEntriesShared es fs).2⟩
      | .lt => ⟨.lt, by rw [Value.order, h]⟩
      | .gt => ⟨.gt, by rw [Value.order, h]⟩
  | v, w => ⟨v.order w, rfl⟩
termination_by structural v => v

/-- The order of two arrays, without looking into what they share. -/
def orderItemsShared : (xs ys : List Value) → { o : Ordering // o = orderItems xs ys }
  | [], [] => ⟨.eq, rfl⟩
  | [], _ :: _ => ⟨.lt, rfl⟩
  | _ :: _, [] => ⟨.gt, rfl⟩
  | x :: xs, y :: ys =>
    match x.orderShared y with
    | ⟨.eq, h⟩ => ⟨(orderItemsShared xs ys).1, by
        rw [orderItems, ← h]; exact (orderItemsShared xs ys).2⟩
    | ⟨.lt, h⟩ => ⟨.lt, by rw [orderItems, ← h]⟩
    | ⟨.gt, h⟩ => ⟨.gt, by rw [orderItems, ← h]⟩
termination_by structural xs => xs

/-- The order of the values of two objects, without looking into what they share. -/
def orderEntriesShared :
    (es fs : List (String × Value)) → { o : Ordering // o = orderEntries es fs }
  | (_, x) :: es, (_, y) :: fs =>
    match x.orderShared y with
    | ⟨.eq, h⟩ => ⟨(orderEntriesShared es fs).1, by
        rw [orderEntries, ← h]; exact (orderEntriesShared es fs).2⟩
    | ⟨.lt, h⟩ => ⟨.lt, by rw [orderEntries, ← h]⟩
    | ⟨.gt, h⟩ => ⟨.gt, by rw [orderEntries, ← h]⟩
  | [], _ => ⟨.eq, by simp [orderEntries]⟩
  | _ :: _, [] => ⟨.eq, by simp [orderEntries]⟩
termination_by structural es => es

end

namespace Value

/-- Values that the order does not tell apart. -/
def same (v w : Value) : Bool := (v.orderShared w).1 == .eq

theorem same_eq (v w : Value) : v.same w = (v.order w == .eq) := by
  rw [same, (v.orderShared w).2]

instance : BEq Value := ⟨same⟩

end Value

end JsonPipe
