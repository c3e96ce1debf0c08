import JsonPipe.Proofs.Value.Replacement
import Mathlib.Logic.Function.Basic

/-! Arrays that grow under writes.

    A write beyond either end makes an array longer, and one before the first element also shifts
    the others. So slots are counted here from where the first element stood before all writes: an
    element keeps its coordinate, and the slots in front of it have negative ones. What an array
    holds is a function of coordinates, null where there is nothing.

    One write changes one coordinate (`content_write`). Indices, though, are counted from the ends
    of the array as it has become. Where an index lands depends on how far the writes before it
    have gone (`landings`), and it lands in the slot that it named at first exactly if none of
    them has put slots in at the end that it is counted from (`landings_eq_iff`). -/

namespace JsonPipe

namespace Items

/-- What stands at a coordinate, if there are `front` slots before the first one. -/
def content (front : Nat) (items : List Value) (x : Int) : Value :=
  match front + x with
  | .ofNat i => items[i]?.getD .null
  | .negSucc _ => .null

/-- What stands at a coordinate of an array that is padded with `filler`. -/
def held (filler : Value) (front : Nat) (items : List Value) (x : Int) : Value :=
  match front + x with
  | .ofNat i => items[i]?.getD filler
  | .negSucc _ => filler

/-- How far an array has grown at either end. -/
structure Span where
  front : Nat
  back : Nat

/-- Grows as far as a coordinate. -/
def Span.reach (length : Nat) (s : Span) (x : Int) : Span :=
  ⟨max s.front (-x).toNat, max s.back (x + 1 - length).toNat⟩

@[simp] theorem Span.reach_front (length : Nat) (s : Span) (x : Int) :
    (s.reach length x).front = max s.front (-x).toNat := rfl

@[simp] theorem Span.reach_back (length : Nat) (s : Span) (x : Int) :
    (s.reach length x).back = max s.back (x + 1 - length).toNat := rfl

/-- The coordinate to which an index leads in an array that has grown. -/
def landing (length : Nat) (s : Span) (index : Int) : Int :=
  resolve (s.front + length + s.back) index - s.front

/-- The coordinates to which indices lead one after the other, each write growing the array as far
    as it has to. -/
def landings (length : Nat) : Span → List Int → List Int
  | _, [] => []
  | s, index :: indices =>
    landing length s index :: landings length (s.reach length (landing length s index)) indices

/-- How far an array grows under writes at indices. -/
def reached (length : Nat) (indices : List Int) : Span :=
  (landings length ⟨0, 0⟩ indices).foldl (Span.reach length) ⟨0, 0⟩

/-- Content with values written over what stands at some coordinates, one after the other. -/
def written (m : Int → Value) (changes : List (Int × Value)) : Int → Value :=
  changes.foldl (fun m c => Function.update m c.1 ((m c.1).overwrite c.2)) m

/-- The span reaches as far as all coordinates that it has grown to. -/
theorem Span.foldl_reach (length : Nat) (s : Span) (xs : List Int) :
    s.front ≤ (xs.foldl (reach length) s).front ∧ s.back ≤ (xs.foldl (reach length) s).back ∧
      ∀ x ∈ xs, 0 ≤ (xs.foldl (reach length) s).front + x ∧
        x < length + (xs.foldl (reach length) s).back := by
  induction xs generalizing s with
  | nil => simp
  | cons x xs ih =>
    obtain ⟨hfront, hback, hmem⟩ := ih (s.reach length x)
    rw [reach_front] at hfront
    rw [reach_back] at hback
    rw [List.foldl_cons]
    refine ⟨by omega, by omega, List.forall_mem_cons.2 ⟨by omega, hmem⟩⟩

/-! ### Content -/

theorem held_of_nat {filler : Value} {front i : Nat} {x : Int} (h : front + x = i)
    (items : List Value) : held filler front items x = items[i]?.getD filler := by
  rw [held, h]

theorem held_of_neg {filler : Value} {front : Nat} {x : Int} (h : front + x < 0)
    (items : List Value) : held filler front items x = filler := by
  obtain ⟨n, hn⟩ := Int.eq_negSucc_of_lt_zero h
  rw [held, hn]

theorem getElem?_eq_held (filler : Value) {front i : Nat} {items : List Value}
    (h : i < items.length) : items[i]? = some (held filler front items (i - front)) := by
  rw [held_of_nat (by omega : (front : Int) + (i - front) = i), List.getElem?_eq_getElem h]
  rfl

/-- Content is what an array holds that is padded with null. -/
theorem content_eq_held (front : Nat) (items : List Value) :
    content front items = held .null front items := rfl

theorem content_of_nat {front i : Nat} {x : Int} (h : front + x = i) (items : List Value) :
    content front items x = items[i]?.getD .null := held_of_nat h items

theorem getElem?_eq_content {front i : Nat} {items : List Value} (h : i < items.length) :
    items[i]? = some (content front items (i - front)) := getElem?_eq_held .null h

/-- What an index finds is the content at the coordinate that it resolves to. -/
theorem get?_getD (items : List Value) (index : Int) :
    (get? items index).getD .null = content 0 items (resolve items.length index) := by
  rw [get?_eq, position?]
  cases hr : resolve items.length index with
  | ofNat i =>
    have hcontent : content 0 items (.ofNat i) = items[i]?.getD .null :=
      content_of_nat (by simp) items
    rw [hcontent]
    simp only
    split
    · rfl
    · rw [List.getElem?_eq_none (by omega)]
      rfl
  | negSucc n => rfl

/-! ### One write -/

theorem length_write (filler : Value) (items : List Value) (index : Int) (value : Value) :
    (write filler items index value).length =
      (-resolve items.length index).toNat +
        max items.length (resolve items.length index + 1).toNat := by
  rw [write]
  cases resolve items.length index with
  | ofNat i =>
    simp only
    cases hi : items[i]? with
    | some old =>
      have hlt : i < items.length := (List.getElem?_eq_some_iff.1 hi).1
      simp only [List.length_set, Int.ofNat_eq_natCast]
      omega
    | none =>
      have hle : items.length ≤ i := List.getElem?_eq_none_iff.1 hi
      simp only [List.length_append, List.length_replicate, List.length_singleton,
        Int.ofNat_eq_natCast]
      omega
  | negSucc missing =>
    simp only [List.length_cons, List.length_append, List.length_replicate]
    omega

/-- What a write leaves in the slot that it goes to: the new value, unless an equal one stands
    there. -/
def afterWrite (items : List Value) (index : Int) (value : Value) : Value :=
  ((get? items index).map (·.overwrite value)).getD value

theorem afterWrite_same (items : List Value) (index : Int) (value : Value) :
    (afterWrite items index value).same value = true := by
  rw [afterWrite]
  cases get? items index with
  | some old => exact Value.overwrite_same old value
  | none => exact (Value.same_iff value value).2 rfl

/-- A slot that was not there counts as null here, which is never kept. -/
theorem afterWrite_eq (items : List Value) (index : Int) (value : Value) :
    afterWrite items index value =
      (content 0 items (resolve items.length index)).overwrite value := by
  rw [afterWrite, ← get?_getD]
  cases get? items index with
  | some old => rfl
  | none => exact (Value.overwrite_null value).symm

/-- A write at or behind the start. -/
theorem getD_write_of_nat {items : List Value} {index : Int} {i : Nat}
    (h : resolve items.length index = i) (filler value : Value) (j : Nat) :
    (write filler items index value)[j]?.getD filler =
      if j = i then afterWrite items index value else items[j]?.getD filler := by
  rw [write, afterWrite, get?_eq, position?, h]
  simp only
  cases hi : items[i]? with
  | some old =>
    have hlt : i < items.length := (List.getElem?_eq_some_iff.1 hi).1
    by_cases hj : j = i
    · subst hj
      rw [if_pos rfl, if_pos hlt, Option.bind_some, hi, List.getElem?_set_self hlt]
      rfl
    · simp [List.getElem?_set_ne (Ne.symm hj), hj]
  | none =>
    -- the slots between the last element and the new one hold the filler, as they did before
    have hle : items.length ≤ i := List.getElem?_eq_none_iff.1 hi
    rw [if_neg (Nat.not_lt.2 hle), List.append_assoc]
    by_cases hlt : j < items.length
    · rw [List.getElem?_append_left hlt, if_neg (by omega)]
    · rw [List.getElem?_append_right (by omega),
        List.getElem?_eq_none (by omega : items.length ≤ j)]
      rcases Nat.lt_trichotomy j i with hj | rfl | hj
      · rw [List.getElem?_append_left (by rw [List.length_replicate]; omega), if_neg (by omega),
          List.getElem?_replicate_of_lt (by omega)]
        rfl
      · rw [List.getElem?_append_right (Nat.le_of_eq List.length_replicate),
          List.length_replicate, Nat.sub_self, if_pos rfl]
        rfl
      · rw [List.getElem?_eq_none (by simp; omega), if_neg (by omega)]

/-- A write in front of the start. -/
theorem getD_write_of_neg {items : List Value} {index : Int} {missing : Nat}
    (h : resolve items.length index = .negSucc missing) (filler value : Value) (j : Nat) :
    (write filler items index value)[j]?.getD filler =
      if j = 0 then afterWrite items index value
      else if j ≤ missing then filler else items[j - (missing + 1)]?.getD filler := by
  rw [write, afterWrite, get?_eq, position?, h]
  simp only
  cases j with
  | zero => rfl
  | succ j =>
    rw [List.cons_append, List.getElem?_cons_succ, if_neg (by omega)]
    split
    · rw [List.getElem?_append_left (by rw [List.length_replicate]; omega),
        List.getElem?_replicate_of_lt (by omega)]
      rfl
    · rw [List.getElem?_append_right (by rw [List.length_replicate]; omega), List.length_replicate]
      congr 2
      omega

/-- A write changes what is held at the coordinate where it lands, and nowhere else. -/
theorem held_write (filler : Value) (front : Nat) (items : List Value) (index : Int)
    (value : Value) :
    held filler (front + (-resolve items.length index).toNat) (write filler items index value) =
      Function.update (held filler front items) (resolve items.length index - front)
        (afterWrite items index value) := by
  funext x
  rw [Function.update_apply]
  cases hr : resolve items.length index with
  | ofNat i =>
    have hfront : front + (-Int.ofNat i).toNat = front := by simp
    rw [hfront]
    by_cases hneg : front + x < 0
    · rw [held_of_neg hneg, held_of_neg hneg, if_neg (by simp; omega)]
    · obtain ⟨j, hj⟩ := Int.eq_ofNat_of_zero_le (Int.not_lt.1 hneg)
      rw [held_of_nat hj, held_of_nat hj, getD_write_of_nat hr]
      congr 1
      simp only [Int.ofNat_eq_natCast, eq_iff_iff]
      omega
  | negSucc missing =>
    have hlanding : Int.negSucc missing = -(missing + 1 : Nat) := rfl
    have hfront : front + (-Int.negSucc missing).toNat = front + (missing + 1) := rfl
    rw [hfront, hlanding]
    by_cases hneg : ↑(front + (missing + 1)) + x < 0
    · rw [held_of_neg hneg, held_of_neg (by omega), if_neg (by omega)]
    · obtain ⟨j, hj⟩ := Int.eq_ofNat_of_zero_le (Int.not_lt.1 hneg)
      rw [held_of_nat hj, getD_write_of_neg hr]
      by_cases hzero : j = 0
      · rw [if_pos hzero, if_pos (by omega)]
      · have hne : ¬x = -(missing + 1 : Nat) - front := by omega
        rw [if_neg hzero, if_neg hne]
        split
        · rw [held_of_neg (by omega)]
        · rw [held_of_nat (by omega : (front : Int) + x = ↑(j - (missing + 1)))]

/-! ### Writes one after the other -/

/-- The array has grown to a span. -/
def Spans (length : Nat) (s : Span) (items : List Value) : Prop :=
  items.length = s.front + length + s.back

/-- Before any write. -/
theorem spans_start (items : List Value) : Spans items.length ⟨0, 0⟩ items := by simp [Spans]

theorem Spans.write {length : Nat} {s : Span} {items : List Value} (h : Spans length s items)
    (filler : Value) (index : Int) (value : Value) :
    Spans length (s.reach length (landing length s index))
      (Items.write filler items index value) := by
  rw [Spans] at h ⊢
  rw [length_write, Span.reach_front, Span.reach_back, landing, ← h]
  omega

theorem Spans.held_write {length : Nat} {s : Span} {items : List Value}
    (h : Spans length s items) (filler : Value) (index : Int) (value : Value) :
    held filler (s.reach length (landing length s index)).front
        (Items.write filler items index value) =
      Function.update (held filler s.front items) (landing length s index)
        (afterWrite items index value) := by
  rw [Spans] at h
  have hfront : (s.reach length (landing length s index)).front =
      s.front + (-resolve items.length index).toNat := by
    rw [Span.reach_front, landing, ← h]
    omega
  rw [hfront, Items.held_write, landing, ← h]

theorem Spans.content_write {length : Nat} {s : Span} {items : List Value}
    (h : Spans length s items) (index : Int) (value : Value) :
    content (s.reach length (landing length s index)).front
        (Items.write .null items index value) =
      Function.update (content s.front items) (landing length s index)
        ((content s.front items (landing length s index)).overwrite value) := by
  have hat : content 0 items (resolve items.length index) =
      content s.front items (landing length s index) := by
    rw [Spans] at h
    rw [landing, ← h, content, content]
    congr 1
    omega
  rw [content_eq_held, h.held_write, afterWrite_eq, hat]
  rfl

theorem Spans.writeAll {length : Nat} {s : Span} {items : List Value} (h : Spans length s items)
    (filler : Value) (changes : List (Int × Value)) :
    Spans length ((landings length s (changes.map Prod.fst)).foldl (Span.reach length) s)
      (Items.writeAll filler items changes) := by
  induction changes generalizing s items with
  | nil => exact h
  | cons c changes ih => exact ih (h.write filler c.1 c.2)

/-- Writes change the content at the coordinates where they land. -/
theorem Spans.content_writeAll {length : Nat} {s : Span} {items : List Value}
    (h : Spans length s items) (changes : List (Int × Value)) :
    content ((landings length s (changes.map Prod.fst)).foldl (Span.reach length) s).front
        (Items.writeAll .null items changes) =
      written (content s.front items)
        ((landings length s (changes.map Prod.fst)).zip (changes.map Prod.snd)) := by
  induction changes generalizing s items with
  | nil => rfl
  | cons c changes ih =>
    have hstep := ih (h.write .null c.1 c.2)
    rw [h.content_write c.1 c.2] at hstep
    exact hstep

/-! ### Where indices land -/

/-- An index does not put slots in at the end from which the other is counted. -/
def Undisturbed (length : Nat) (index other : Int) : Prop :=
  (index < -length → other < 0) ∧ (length ≤ index → 0 ≤ other)

instance (length : Nat) (index other : Int) : Decidable (Undisturbed length index other) :=
  inferInstanceAs (Decidable (_ ∧ _))

theorem landing_eq_iff (length : Nat) (s : Span) (index : Int) :
    landing length s index = resolve length index ↔
      (0 < s.front → index < 0) ∧ (0 < s.back → 0 ≤ index) := by
  rw [landing, resolve, resolve]
  split <;> omega

/-- Indices land in the slots that they name if the array has not grown yet at the ends from which
    they are counted, and none of them puts slots in at the end from which a later one is. -/
theorem landings_eq_iff_span (length : Nat) (s : Span) (indices : List Int) :
    landings length s indices = indices.map (resolve length) ↔
      (∀ index ∈ indices, (0 < s.front → index < 0) ∧ (0 < s.back → 0 ≤ index)) ∧
        indices.Pairwise (Undisturbed length) := by
  induction indices generalizing s with
  | nil => simp [landings]
  | cons index indices ih =>
    rw [landings, List.map_cons, List.cons.injEq, landing_eq_iff, List.forall_mem_cons,
      List.pairwise_cons]
    have hreach : landing length s index = resolve length index →
        ∀ other : Int, ((0 < (s.reach length (landing length s index)).front → other < 0) ∧
          (0 < (s.reach length (landing length s index)).back → 0 ≤ other)) ↔
          ((0 < s.front → other < 0) ∧ (0 < s.back → 0 ≤ other)) ∧
            Undisturbed length index other := by
      intro h other
      rw [h, Span.reach_front, Span.reach_back, Undisturbed, resolve]
      split <;> omega
    constructor
    · rintro ⟨hfirst, hrest⟩
      obtain ⟨hspan, hpair⟩ := (ih _).1 hrest
      have hboth := fun other hother =>
        (hreach ((landing_eq_iff length s index).2 hfirst) other).1 (hspan other hother)
      exact ⟨⟨hfirst, fun other hother => (hboth other hother).1⟩,
        fun other hother => (hboth other hother).2, hpair⟩
    · rintro ⟨⟨hfirst, hspan⟩, hhead, hpair⟩
      refine ⟨hfirst, (ih _).2 ⟨fun other hother => ?_, hpair⟩⟩
      exact (hreach ((landing_eq_iff length s index).2 hfirst) other).2
        ⟨hspan other hother, hhead other hother⟩

/-- In an array that has not grown yet. -/
theorem landings_eq_iff (length : Nat) (indices : List Int) :
    landings length ⟨0, 0⟩ indices = indices.map (resolve length) ↔
      indices.Pairwise (Undisturbed length) := by
  rw [landings_eq_iff_span]
  simp

/-! ### Slots that keep their own update -/

/-- Values that depend on the coordinate alone, and would be kept if they stood there already, are
    found at their coordinates. -/
theorem written_settled {m z : Int → Value} {xs : List Int}
    (h : ∀ x ∈ xs, (m x).overwrite (z x) = z x) (x : Int) :
    written m (xs.zip (xs.map z)) x = if x ∈ xs then z x else m x := by
  induction xs generalizing m with
  | nil => rfl
  | cons y ys ih =>
    obtain ⟨hy, hys⟩ := List.forall_mem_cons.1 h
    rw [List.map_cons, List.zip_cons_cons, written, List.foldl_cons]
    simp only [hy]
    have hnext : ∀ x ∈ ys, (Function.update m y (z y) x).overwrite (z x) = z x := by
      intro x hx
      rw [Function.update_apply]
      split
      · next heq => rw [heq, Value.overwrite_self]
      · exact hys x hx
    refine (ih hnext).trans ?_
    rw [Function.update_apply]
    by_cases heq : x = y
    · simp [heq]
    · simp [heq]

end Items

end JsonPipe
