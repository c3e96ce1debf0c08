import JsonPipe.Proofs.Value.Order
import JsonPipe.Value.Access
import Mathlib.Data.List.Forall2

/-! Values that are alike but for their functions.

    Nothing that is done to values looks into a function: two functions are equal in the order, are
    `null` in a text, and have the same type. So two values that differ in nothing but functions
    behave alike, and what is made of them differs in nothing but functions again. `Value.Alike F`
    relates such values, with functions in the relation `F` at corresponding places. -/

namespace JsonPipe

variable {α β : Type} {F : Function → Function → Prop}

/-- Entries with the same name and related contents. -/
inductive Entry.Related (R : α → β → Prop) : String × α → String × β → Prop
  | under (name : String) {a : α} {b : β} : R a b → Related R (name, a) (name, b)

/-- The values are the same but for their functions, which are related by `F`. -/
inductive Value.Alike (F : Function → Function → Prop) : Value → Value → Prop
  | null : Alike F .null .null
  | bool (b : Bool) : Alike F (.bool b) (.bool b)
  | number (n : Number) : Alike F (.number n) (.number n)
  | string (s : String) : Alike F (.string s) (.string s)
  | array {xs ys : List Value} : List.Forall₂ (Alike F) xs ys → Alike F (.array xs) (.array ys)
  | object {es fs : List (String × Value)} :
    List.Forall₂ (Entry.Related (Alike F)) es fs → Alike F (.object es) (.object fs)
  | function {f g : Function} : F f g → Alike F (.function f) (.function g)

/-- Lists of values that are alike one by one. -/
abbrev Items.Alike (F : Function → Function → Prop) : List Value → List Value → Prop :=
  List.Forall₂ (Value.Alike F)

/-- Entries with the same names and values that are alike. -/
abbrev Entries.Alike (F : Function → Function → Prop) : Entries Value → Entries Value → Prop :=
  List.Forall₂ (Entry.Related (Value.Alike F))

/-! ### Likeness and equality -/

mutual

/-- Values are alike to themselves if their functions are. -/
theorem Value.alike_self (v : Value) (h : ∀ f ∈ v.functions, F f f) : v.Alike F v := by
  match v with
  | .null => exact .null
  | .bool b => exact .bool b
  | .number n => exact .number n
  | .string s => exact .string s
  | .array items => exact .array (items_alike_self items h)
  | .object es => exact .object (entries_alike_self es h)
  | .function f => exact .function (h f (List.mem_singleton.2 rfl))
termination_by structural v

theorem items_alike_self (vs : List Value) (h : ∀ f ∈ functionsOfItems vs, F f f) :
    Items.Alike F vs vs := by
  match vs with
  | [] => exact .nil
  | v :: vs =>
    rw [functionsOfItems] at h
    obtain ⟨hv, hvs⟩ := List.forall_mem_append.1 h
    exact .cons (Value.alike_self v hv) (items_alike_self vs hvs)
termination_by structural vs

theorem entries_alike_self (es : List (String × Value)) (h : ∀ f ∈ functionsOfEntries es, F f f) :
    Entries.Alike F es es := by
  match es with
  | [] => exact .nil
  | (k, v) :: es =>
    rw [functionsOfEntries] at h
    obtain ⟨hv, hes⟩ := List.forall_mem_append.1 h
    exact .cons (.under k (Value.alike_self v hv)) (entries_alike_self es hes)
termination_by structural es

end

mutual

/-- Values are the same if they are alike with functions that are the same. -/
theorem Value.eq_of_alike (hF : ∀ f g, F f g → f = g) {v w : Value} (h : v.Alike F w) : v = w := by
  match v, w, h with
  | _, _, .null | _, _, .bool _ | _, _, .number _ | _, _, .string _ => rfl
  | .array _, .array _, .array h => rw [items_eq_of_alike hF h]
  | .object _, .object _, .object h => rw [entries_eq_of_alike hF h]
  | .function _, .function _, .function h => rw [hF _ _ h]
termination_by structural v

theorem items_eq_of_alike (hF : ∀ f g, F f g → f = g) {xs ys : List Value}
    (h : Items.Alike F xs ys) : xs = ys := by
  match xs, ys, h with
  | [], [], .nil => rfl
  | x :: xs, y :: ys, .cons h hs => rw [Value.eq_of_alike hF h, items_eq_of_alike hF hs]
termination_by structural xs

theorem entries_eq_of_alike (hF : ∀ f g, F f g → f = g) {es fs : List (String × Value)}
    (h : Entries.Alike F es fs) : es = fs := by
  match es, fs, h with
  | [], [], .nil => rfl
  | (_, v) :: es, (_, w) :: fs, .cons (.under _ h) hs =>
    rw [Value.eq_of_alike hF h, entries_eq_of_alike hF hs]
termination_by structural es

end

mutual

/-- The functions of values that are alike are related one by one. -/
theorem Value.functions_alike {v w : Value} (h : v.Alike F w) :
    List.Forall₂ F v.functions w.functions := by
  match v, w, h with
  | _, _, .null | _, _, .bool _ | _, _, .number _ | _, _, .string _ => exact .nil
  | .array _, .array _, .array h => exact functionsOfItems_alike h
  | .object _, .object _, .object h => exact functionsOfEntries_alike h
  | .function _, .function _, .function h => exact .cons h .nil
termination_by structural v

theorem functionsOfItems_alike {xs ys : List Value} (h : Items.Alike F xs ys) :
    List.Forall₂ F (functionsOfItems xs) (functionsOfItems ys) := by
  match xs, ys, h with
  | [], [], .nil => exact .nil
  | x :: xs, y :: ys, .cons h hs =>
    exact List.rel_append (Value.functions_alike h) (functionsOfItems_alike hs)
termination_by structural xs

theorem functionsOfEntries_alike {es fs : List (String × Value)} (h : Entries.Alike F es fs) :
    List.Forall₂ F (functionsOfEntries es) (functionsOfEntries fs) := by
  match es, fs, h with
  | [], [], .nil => exact .nil
  | (_, v) :: es, (_, w) :: fs, .cons (.under _ h) hs =>
    exact List.rel_append (Value.functions_alike h) (functionsOfEntries_alike hs)
termination_by structural es

end

/-! ### What is the same of values that are alike -/

namespace Value.Alike

variable {v w : Value}

theorem kind (h : Alike F v w) : v.kind = w.kind := by cases h <;> rfl

theorem isNull (h : Alike F v w) : v.isNull = w.isNull := by cases h <;> rfl

theorem isTruthy (h : Alike F v w) : v.isTruthy = w.isTruthy := by
  cases h with
  | bool b => rfl
  | _ => rfl

theorem string? (h : Alike F v w) : v.string? = w.string? := by cases h <;> rfl

theorem number? (h : Alike F v w) : v.number? = w.number? := by cases h <;> rfl

end Value.Alike

namespace Entries

variable {R : α → β → Prop} {es : Entries α} {fs : Entries β}

theorem keys_related (h : List.Forall₂ (Entry.Related R) es fs) : es.keys = fs.keys := by
  induction h with
  | nil => rfl
  | cons h _ ih =>
    obtain ⟨name, _⟩ := h
    exact congrArg (name :: ·) ih

theorem values_related (h : List.Forall₂ (Entry.Related R) es fs) :
    List.Forall₂ R es.values fs.values := by
  induction h with
  | nil => exact .nil
  | cons h _ ih =>
    obtain ⟨name, h⟩ := h
    exact .cons h ih

end Entries

mutual

/-- The order does not look into functions. -/
theorem Value.order_alike {v v' : Value} (w w' : Value) (hv : v.Alike F v')
    (hw : w.Alike F w') : v.order w = v'.order w' := by
  match v, v', hv with
  | _, _, .null => cases hw <;> rfl
  | _, _, .bool b => cases hw <;> rfl
  | _, _, .number n => cases hw <;> rfl
  | _, _, .string s => cases hw <;> rfl
  | .array xs, .array xs', .array hxs =>
    cases hw with
    | array hys => exact orderItems_alike _ _ hxs hys
    | _ => rfl
  | .object es, .object es', .object hes =>
    cases hw with
    | object hfs =>
      rw [Value.order, Value.order, Entries.keys_related hes, Entries.keys_related hfs,
        orderEntries_alike _ _ hes hfs]
    | _ => rfl
  | .function f, .function g, .function hf => cases hw <;> rfl
termination_by structural v

theorem orderItems_alike {xs xs' : List Value} (ys ys' : List Value) (hx : Items.Alike F xs xs')
    (hy : Items.Alike F ys ys') : orderItems xs ys = orderItems xs' ys' := by
  match xs, xs', hx with
  | [], [], .nil => cases hy <;> rfl
  | x :: xs, x' :: xs', .cons hx hxs =>
    cases hy with
    | nil => rfl
    | cons hy hys =>
      rw [orderItems, orderItems, Value.order_alike _ _ hx hy, orderItems_alike _ _ hxs hys]
termination_by structural xs

theorem orderEntries_alike {es es' : List (String × Value)} (fs fs' : List (String × Value))
    (he : Entries.Alike F es es') (hf : Entries.Alike F fs fs') :
    orderEntries es fs = orderEntries es' fs' := by
  match es, es', he with
  | [], [], .nil => simp [orderEntries]
  | (_, x) :: es, (_, x') :: es', .cons (.under _ hx) hxs =>
    cases hf with
    | nil => simp [orderEntries]
    | cons hy hys =>
      obtain ⟨_, hy⟩ := hy
      rw [orderEntries, orderEntries, Value.order_alike _ _ hx hy,
        orderEntries_alike _ _ hxs hys]
termination_by structural es

end

mutual

/-- The JSON text does not look into functions. -/
theorem Value.jsonText_alike {v v' : Value} (h : v.Alike F v') (rest : List Char) :
    v.jsonText rest = v'.jsonText rest := by
  match v, v', h with
  | _, _, .null | _, _, .bool _ | _, _, .number _ | _, _, .string _ => rfl
  | .array _, .array _, .array h => exact congrArg ('[' :: ·) (itemsText_alike h _)
  | .object _, .object _, .object h => exact congrArg ('\x7b' :: ·) (entriesText_alike h _)
  | .function _, .function _, .function _ => rfl
termination_by structural v

theorem itemsText_alike {xs ys : List Value} (h : Items.Alike F xs ys) (rest : List Char) :
    itemsText xs rest = itemsText ys rest := by
  match xs, ys, h with
  | [], [], .nil => rfl
  | [x], [y], .cons h .nil => exact Value.jsonText_alike h rest
  | x :: x' :: xs, y :: y' :: ys, .cons h hs =>
    show x.jsonText (',' :: itemsText (x' :: xs) rest) = y.jsonText (',' :: itemsText (y' :: ys) rest)
    rw [Value.jsonText_alike h, itemsText_alike hs]
termination_by structural xs

theorem entriesText_alike {es fs : List (String × Value)} (h : Entries.Alike F es fs)
    (rest : List Char) : entriesText es rest = entriesText fs rest := by
  match es, fs, h with
  | [], [], .nil => rfl
  | [(k, v)], [(_, w)], .cons (.under _ h) .nil =>
    rw [entriesText, entriesText, Value.jsonText_alike h]
  | (k, v) :: e :: es, (_, w) :: f :: fs, .cons (.under _ h) hs =>
    show Text.jsonText k ++ ':' :: v.jsonText (',' :: entriesText (e :: es) rest) =
      Text.jsonText k ++ ':' :: w.jsonText (',' :: entriesText (f :: fs) rest)
    rw [Value.jsonText_alike h, entriesText_alike hs]
termination_by structural es

end

namespace Value.Alike

variable {v v' w w' : Value}

theorem same (hv : Alike F v v') (hw : Alike F w w') : v.same w = v'.same w' := by
  rw [same_eq, same_eq, order_alike _ _ hv hw]

theorem text (h : Alike F v w) : v.text = w.text := by
  cases h with
  | string s => rfl
  | array h => simp only [Value.text, json, jsonText_alike (.array h)]
  | object h => simp only [Value.text, json, jsonText_alike (.object h)]
  | _ => rfl

theorem overwrite (hv : Alike F v v') (hw : Alike F w w') :
    Alike F (v.overwrite w) (v'.overwrite w') := by
  rw [Value.overwrite, Value.overwrite, hv.same hw]
  split
  · exact hv
  · exact hw

end Value.Alike

/-! ### Entries -/

namespace Entries

variable {es fs : Entries Value}

theorem get?_related {R : α → β → Prop} {es : Entries α} {fs : Entries β}
    (h : List.Forall₂ (Entry.Related R) es fs) (name : String) :
    Option.Rel R (es.get? name) (fs.get? name) := by
  induction h with
  | nil => exact .none
  | cons h _ ih =>
    obtain ⟨k, h⟩ := h
    rw [get?, get?]
    split
    · exact .some h
    · exact ih

theorem insert_related {R : α → β → Prop} {es : Entries α} {fs : Entries β}
    (h : List.Forall₂ (Entry.Related R) es fs) (name : String) {a : α} {b : β} (hab : R a b) :
    List.Forall₂ (Entry.Related R) (es.insert name a) (fs.insert name b) := by
  induction h with
  | nil => exact .cons (.under name hab) .nil
  | cons h hs ih =>
    obtain ⟨k, h⟩ := h
    rw [insert, insert]
    split
    · exact .cons (.under name hab) hs
    · split
      · exact .cons (.under name hab) (.cons (.under k h) hs)
      · exact .cons (.under k h) ih

theorem ofList_related {R : α → β → Prop} {es : List (String × α)} {fs : List (String × β)}
    (h : List.Forall₂ (Entry.Related R) es fs) :
    List.Forall₂ (Entry.Related R) (ofList es) (ofList fs) := by
  refine List.rel_foldl ?_ .nil h
  rintro es fs hs _ _ ⟨name, hab⟩
  exact insert_related hs name hab

theorem write_alike (h : Alike F es fs) (name : String) {v w : Value} (hv : v.Alike F w) :
    Alike F (es.write name v) (fs.write name w) := by
  have hget := get?_related h name
  rw [write, write]
  revert hget
  cases es.get? name <;> cases fs.get? name <;> rintro ⟨⟩
  · exact insert_related h name hv
  · rename_i hold
    exact insert_related h name (hold.overwrite hv)

theorem writeAll_alike (h : Alike F es fs) {ps qs : List (String × Value)} (hps : Alike F ps qs) :
    Alike F (es.writeAll ps) (fs.writeAll qs) := by
  refine List.rel_foldl ?_ h hps
  rintro es fs hs _ _ ⟨name, hv⟩
  exact write_alike hs name hv

end Entries

/-! ### Items -/

theorem forall₂_getElem? {R : α → β → Prop} {as : List α} {bs : List β}
    (h : List.Forall₂ R as bs) (i : Nat) : Option.Rel R as[i]? bs[i]? := by
  induction h generalizing i with
  | nil => exact .none
  | cons h _ ih =>
    cases i with
    | zero => exact .some h
    | succ i => exact ih i

theorem forall₂_set {R : α → β → Prop} {as : List α} {bs : List β} {a : α} {b : β}
    (h : List.Forall₂ R as bs) (hab : R a b) (i : Nat) : List.Forall₂ R (as.set i a) (bs.set i b) := by
  induction h generalizing i with
  | nil => exact .nil
  | cons h hs ih =>
    cases i with
    | zero => exact .cons hab hs
    | succ i => exact .cons h (ih i)

theorem forall₂_replicate {R : α → β → Prop} {a : α} {b : β} (hab : R a b) (n : Nat) :
    List.Forall₂ R (List.replicate n a) (List.replicate n b) := by
  induction n with
  | zero => exact .nil
  | succ n ih => exact .cons hab ih

theorem forall₂_zipWith {γ α' β' γ' : Type} {R : α → α' → Prop} {S : β → β' → Prop}
    {T : γ → γ' → Prop} {f : α → β → γ} {f' : α' → β' → γ'}
    (hf : ∀ a a' b b', R a a' → S b b' → T (f a b) (f' a' b')) {as as' bs bs'}
    (ha : List.Forall₂ R as as') (hb : List.Forall₂ S bs bs') :
    List.Forall₂ T (List.zipWith f as bs) (List.zipWith f' as' bs') := by
  induction ha generalizing bs bs' with
  | nil => exact .nil
  | cons ha _ ih =>
    cases hb with
    | nil => exact .nil
    | cons hb hbs => exact .cons (hf _ _ _ _ ha hb) (ih hbs)

theorem product_related {R : α → β → Prop} {as : List (List α)} {bs : List (List β)}
    (h : List.Forall₂ (List.Forall₂ R) as bs) :
    List.Forall₂ (List.Forall₂ R) (product as) (product bs) := by
  induction h with
  | nil => exact .cons .nil .nil
  | cons h _ ih =>
    exact List.rel_flatMap h fun _ _ hab => List.rel_map (fun _ _ hrow => .cons hab hrow) ih

namespace Items

variable {xs ys : List Value}

theorem get?_alike (h : Alike F xs ys) (i : Int) :
    Option.Rel (Value.Alike F) (get? xs i) (get? ys i) := by
  cases i with
  | ofNat i => exact forall₂_getElem? h i
  | negSucc i =>
    rw [get?, get?, h.length_eq]
    split
    · exact forall₂_getElem? h _
    · exact .none

theorem write_alike {filler filler' v w : Value} (hfiller : filler.Alike F filler')
    (h : Alike F xs ys) (i : Int) (hv : v.Alike F w) :
    Alike F (write filler xs i v) (write filler' ys i w) := by
  rw [write, write, h.length_eq]
  split
  · rename_i i _
    have hget := forall₂_getElem? h i
    revert hget
    cases xs[i]? <;> cases ys[i]? <;> rintro ⟨⟩
    · exact List.rel_append (List.rel_append h (forall₂_replicate hfiller _)) (.cons hv .nil)
    · rename_i hold
      exact forall₂_set h (hold.overwrite hv) i
  · exact .cons hv (List.rel_append (forall₂_replicate hfiller _) h)

theorem writeAll_alike {filler filler' : Value} (hfiller : filler.Alike F filler')
    (h : Alike F xs ys) {indices : List Int} {vs ws : List Value} (hvs : Alike F vs ws) :
    Alike F (writeAll filler xs (indices.zip vs)) (writeAll filler' ys (indices.zip ws)) := by
  induction indices generalizing xs ys vs ws with
  | nil => exact h
  | cons i indices ih =>
    cases hvs with
    | nil => exact h
    | cons hv hvs => exact ih (write_alike hfiller h i hv) hvs

theorem fit_alike (h : Alike F xs ys) (length : Nat) : Alike F (fit length xs) (fit length ys) := by
  rw [fit, fit, h.length_eq]
  exact List.rel_append (List.forall₂_take length h) (forall₂_replicate .null _)

theorem choice_related {R : α → β → Prop} {as : List (List α)} {bs : List (List β)}
    (h : List.Forall₂ (List.Forall₂ R) as bs) (n : Nat) :
    (choice n as).1 = (choice n bs).1 ∧ List.Forall₂ R (choice n as).2 (choice n bs).2 := by
  induction h with
  | nil => exact ⟨rfl, .nil⟩
  | @cons xs ys as bs h _ ih =>
    have hget := forall₂_getElem? h ((choice n bs).1 % ys.length)
    simp only [choice, ih.1, h.length_eq]
    revert hget
    cases xs[(choice n bs).1 % ys.length]? <;> cases ys[(choice n bs).1 % ys.length]? <;>
      rintro ⟨⟩
    · exact ⟨rfl, ih.2⟩
    · rename_i hxy
      exact ⟨rfl, .cons hxy ih.2⟩

theorem choiceCount_alike {as bs : List (List Value)} (h : List.Forall₂ (Alike F) as bs) :
    choiceCount as = choiceCount bs := by
  rw [choiceCount, choiceCount]
  generalize 1 = n
  induction h generalizing n with
  | nil => rfl
  | cons hxy _ ih =>
    rw [List.foldlM_cons, List.foldlM_cons, hxy.length_eq]
    simp only [ih]

/-- A row that is written over the first slots. -/
theorem row_alike (h : Alike F xs ys) {as bs : List (List Value)}
    (hs : List.Forall₂ (Alike F) as bs) (i : Nat) :
    Alike F (List.zipWith Value.overwrite (fit as.length xs) (choice i as).2)
      (List.zipWith Value.overwrite (fit bs.length ys) (choice i bs).2) := by
  rw [hs.length_eq]
  exact forall₂_zipWith (fun _ _ _ _ => .overwrite) (fit_alike h _) (choice_related hs i).2

end Items

end JsonPipe
