import JsonPipe.Value.Operators
import JsonPipe.Value.Text

/-! Division of texts.

    A text is cut in one walk from its front (`Text.Walk`): where a separator stands it is passed as a
    whole, anywhere else one character goes to the part in hand. What is known of the parts is known
    of each step of the walk: with separators in between they are the text again, and no part has a
    separator in it. Which separators the text is cut at is said without the walk (`Text.Leftmost`):
    they do not overlap, and a separator that is passed over begins inside of one that is not. There
    is one such choice of places for every text (`Text.Leftmost.unique`), and the parts are what is
    between them. -/

namespace JsonPipe

namespace Text

variable {separator text rest : List Char} {parts : List (List Char)} {places others : List Nat}

/-! ### The walk -/

/-- The ways to go on from a place in a text, with the parts that the rest of it is cut into. -/
inductive Walk (separator : List Char) : List Char → List (List Char) → Prop
  | done : Walk separator [] [[]]
  | cut {rest : List Char} {parts : List (List Char)} :
      Walk separator rest parts → Walk separator (separator ++ rest) ([] :: parts)
  | keep {c : Char} {rest part : List Char} {parts : List (List Char)} :
      ¬ separator <+: c :: rest → Walk separator rest (part :: parts) →
      Walk separator (c :: rest) ((c :: part) :: parts)

/-- From any place the text is cut as by a walk over what is not yet passed over, and the part that
    was read so far is the front of the first part. -/
theorem splitFrom_walk (hseparator : separator ≠ []) (skip : Nat) (front text : List Char) :
    ∃ part parts, splitFrom separator skip front text = (front.reverse ++ part) :: parts ∧
      Walk separator (text.drop skip) (part :: parts) := by
  induction text generalizing skip front with
  | nil => exact ⟨[], [], by simp [splitFrom], by simpa using Walk.done⟩
  | cons c rest ih =>
    cases skip with
    | succ skip => exact ih skip front
    | zero =>
      by_cases hstands : separator <+: c :: rest
      · obtain ⟨part, parts, hparts, hwalk⟩ := ih (separator.length - 1) []
        have hrest : separator ++ rest.drop (separator.length - 1) = c :: rest := by
          have hpos : separator.length = separator.length - 1 + 1 :=
            (Nat.sub_add_cancel (List.length_pos_iff.2 hseparator)).symm
          rw [← List.drop_succ_cons, ← hpos]
          exact List.prefix_iff_eq_append.1 hstands
        refine ⟨[], part :: parts, ?_, ?_⟩
        · simp [splitFrom, List.isPrefixOf_iff_prefix.2 hstands, hparts]
        · rw [List.drop_zero, ← hrest]
          exact .cut hwalk
      · obtain ⟨part, parts, hparts, hwalk⟩ := ih 0 (c :: front)
        refine ⟨c :: part, parts, ?_, .keep hstands hwalk⟩
        rw [← List.isPrefixOf_iff_prefix] at hstands
        simp [splitFrom, hstands, hparts]

theorem splitAtEach_walk (hseparator : separator ≠ []) (text : List Char) :
    Walk separator text (splitAtEach separator text) := by
  obtain ⟨part, parts, hparts, hwalk⟩ := splitFrom_walk hseparator 0 [] text
  rw [splitAtEach, hparts]
  exact hwalk

/-! ### The parts -/

theorem Walk.ne_nil (h : Walk separator text parts) : parts ≠ [] := by
  cases h <;> simp

/-- Nothing is lost: the parts with separators in between are the text. -/
theorem Walk.joined (h : Walk separator text parts) : separator.intercalate parts = text := by
  induction h with
  | done => rfl
  | cut hwalk ih => rw [List.intercalate_cons_of_ne_nil hwalk.ne_nil, ih, List.nil_append]
  | @keep c rest part parts hnot hwalk ih =>
    cases parts with
    | nil => simpa using ih
    | cons next more =>
      rw [List.intercalate_cons_cons] at ih ⊢
      simp [← ih]

theorem Walk.head_prefix {part : List Char} (h : Walk separator text (part :: parts)) :
    part <+: text := by
  rw [← h.joined]
  cases parts with
  | nil => simp
  | cons next more =>
    rw [List.intercalate_cons_cons, List.append_assoc]
    exact List.prefix_append ..

/-- No part has a separator in it: in front of the first character that was kept no separator
    stands in the text, and the part goes on as the text does. -/
theorem Walk.not_infix (hseparator : separator ≠ []) (h : Walk separator text parts) :
    ∀ part ∈ parts, ¬ separator <:+: part := by
  induction h with
  | done => simpa using hseparator
  | cut hwalk ih => simpa [hseparator] using ih
  | keep hnot hwalk ih =>
    rw [List.forall_mem_cons] at ih ⊢
    refine ⟨fun hwithin => ?_, ih.2⟩
    rcases List.infix_cons_iff.1 hwithin with hfront | hlater
    · exact hnot (hfront.trans (List.cons_prefix_cons.2 ⟨rfl, hwalk.head_prefix⟩))
    · exact ih.1 hlater

/-! ### The places -/

/-- A separator at one of the places reaches over `i`. -/
def Covers (width : Nat) (places : List Nat) (i : Nat) : Prop := ∃ p ∈ places, p ≤ i ∧ i < p + width

/-- The places where a text is cut: separators stand there, no two of them overlap, and any other
    separator in the text begins inside of one of these. -/
structure Leftmost (separator text : List Char) (places : List Nat) : Prop where
  stands : ∀ p ∈ places, separator <+: text.drop p
  apart : places.Pairwise fun p q => p + separator.length ≤ q
  covers : ∀ i, separator <+: text.drop i → Covers separator.length places i

instance (width : Nat) (places : List Nat) (i : Nat) : Decidable (Covers width places i) :=
  inferInstanceAs (Decidable (∃ p ∈ places, p ≤ i ∧ i < p + width))

/-- Only the places inside of a text need to be looked at. -/
theorem leftmost_iff : Leftmost separator text places ↔
    (∀ p ∈ places, separator <+: text.drop p) ∧
    (places.Pairwise fun p q => p + separator.length ≤ q) ∧
    ∀ i < text.length + 1, separator <+: text.drop i → Covers separator.length places i := by
  constructor
  · exact fun h => ⟨h.stands, h.apart, fun i _ => h.covers i⟩
  · rintro ⟨hstands, hapart, hcovers⟩
    refine ⟨hstands, hapart, fun i hi => ?_⟩
    rcases Nat.lt_or_ge i (text.length + 1) with hlt | hge
    · exact hcovers i hlt hi
    · -- Behind the end there is only room for an empty separator, which covers nothing.
      rw [List.drop_eq_nil_of_le (Nat.le_of_succ_le hge), List.prefix_nil] at hi
      subst hi
      obtain ⟨p, -, hle, hlt⟩ := hcovers 0 (Nat.succ_pos _) List.nil_prefix
      exact absurd hlt (Nat.not_lt.2 hle)

instance (separator text : List Char) (places : List Nat) :
    Decidable (Leftmost separator text places) :=
  decidable_of_iff' _ leftmost_iff

example : Leftmost "aa".toList "aabaaa".toList [0, 3] := by decide

example : ¬ Leftmost "aa".toList "aabaaa".toList [0, 4] := by decide

/-- What is between separators at the given places, from a place on. -/
def partsAt (width : Nat) (text : List Char) : Nat → List Nat → List (List Char)
  | start, [] => [text.drop start]
  | start, p :: more => text.extract start p :: partsAt width text (p + width) more

theorem Covers.head_le {width i p : Nat} (h : Covers width (p :: places) i)
    (hplaces : (p :: places).Pairwise fun p q => p + width ≤ q) : p ≤ i := by
  obtain ⟨q, hq, hle, -⟩ := h
  rcases List.mem_cons.1 hq with rfl | hmem
  · exact hle
  · have := (List.pairwise_cons.1 hplaces).1 q hmem
    omega

theorem Covers.tail {width i p : Nat} (h : Covers width (p :: places) i) (hfar : p + width ≤ i) :
    Covers width places i := by
  obtain ⟨q, hq, hle, hlt⟩ := h
  rcases List.mem_cons.1 hq with rfl | hmem
  · omega
  · exact ⟨q, hmem, hle, hlt⟩

/-- Places that are apart are the same as others if each list covers the other. -/
theorem eq_of_covers {width : Nat} (hplaces : places.Pairwise fun p q => p + width ≤ q)
    (hothers : others.Pairwise fun p q => p + width ≤ q)
    (hcovered : ∀ p ∈ places, Covers width others p)
    (hcovers : ∀ q ∈ others, Covers width places q) : places = others := by
  induction places generalizing others with
  | nil =>
    cases others with
    | nil => rfl
    | cons q others => simpa [Covers] using hcovers q
  | cons p places ih =>
    cases others with
    | nil => simpa [Covers] using hcovered p
    | cons q others =>
      have hle : q ≤ p := (hcovered p List.mem_cons_self).head_le hothers
      have hge : p ≤ q := (hcovers q List.mem_cons_self).head_le hplaces
      obtain rfl : p = q := Nat.le_antisymm hge hle
      rw [List.pairwise_cons] at hplaces hothers
      rw [List.forall_mem_cons] at hcovered hcovers
      -- Later places are too far from the first one to be covered by it.
      have htail : ∀ p' ∈ places, Covers width others p' := fun p' hp' =>
        (hcovered.2 p' hp').tail (hplaces.1 p' hp')
      have htail' : ∀ q' ∈ others, Covers width places q' := fun q' hq' =>
        (hcovers.2 q' hq').tail (hothers.1 q' hq')
      rw [ih hplaces.2 hothers.2 htail htail']

/-- There is only one way to choose the places. -/
theorem Leftmost.unique (h : Leftmost separator text places) (h' : Leftmost separator text others) :
    places = others :=
  eq_of_covers h.apart h'.apart (fun p hp => h'.covers p (h.stands p hp))
    fun q hq => h.covers q (h'.stands q hq)

/-- A text in front moves the places of the rest. Its own come before them, if they cover every
    separator that begins in it and none of theirs goes over into the rest. -/
theorem Leftmost.append (h : Leftmost separator rest places) (front : List Char) (first : List Nat)
    (hstands : ∀ p ∈ first, separator <+: (front ++ rest).drop p)
    (hapart : first.Pairwise fun p q => p + separator.length ≤ q)
    (hends : ∀ p ∈ first, p + separator.length ≤ front.length)
    (hcovers : ∀ i < front.length, separator <+: (front ++ rest).drop i →
      Covers separator.length first i) :
    Leftmost separator (front ++ rest) (first ++ places.map (front.length + ·)) where
  stands p hp := by
    rcases List.mem_append.1 hp with hp | hp
    · exact hstands p hp
    · obtain ⟨q, hq, rfl⟩ := List.mem_map.1 hp
      rw [List.drop_length_add_append]
      exact h.stands q hq
  apart := by
    refine List.pairwise_append.2 ⟨hapart, ?_, fun p hp q hq => ?_⟩
    · refine List.pairwise_map.2 (h.apart.imp fun hpq => ?_)
      omega
    · obtain ⟨q, -, rfl⟩ := List.mem_map.1 hq
      have := hends p hp
      omega
  covers i hi := by
    rcases Nat.lt_or_ge i front.length with hlt | hge
    · obtain ⟨p, hp, hcover⟩ := hcovers i hlt hi
      exact ⟨p, List.mem_append_left _ hp, hcover⟩
    · obtain ⟨j, rfl⟩ := Nat.exists_eq_add_of_le hge
      rw [List.drop_length_add_append] at hi
      obtain ⟨p, hp, hle, hlt⟩ := h.covers j hi
      refine ⟨front.length + p, List.mem_append_right _ (List.mem_map_of_mem hp), ?_, ?_⟩
      · omega
      · omega

/-- Behind a text in front the parts of the rest stay as they are. -/
theorem partsAt_append (width start : Nat) (front rest : List Char) (places : List Nat) :
    partsAt width (front ++ rest) (front.length + start) (places.map (front.length + ·)) =
      partsAt width rest start places := by
  induction places generalizing start with
  | nil => simp [partsAt, List.drop_length_add_append]
  | cons p places ih =>
    simp only [partsAt, List.map_cons, List.extract_eq_take_drop, List.drop_length_add_append,
      Nat.add_sub_add_left, Nat.add_assoc, ih]

/-- One more character in front belongs to the first part. -/
theorem partsAt_cons {width : Nat} {c : Char} {part : List Char}
    (h : partsAt width rest 0 places = part :: parts) :
    partsAt width (c :: rest) 0 (places.map (1 + ·)) = (c :: part) :: parts := by
  cases places with
  | nil => simp_all [partsAt]
  | cons p places =>
    obtain ⟨rfl, rfl⟩ := List.cons.inj h
    have hbehind := partsAt_append width (p + width) [c] rest places
    simp_all [partsAt, Nat.add_comm 1, Nat.add_assoc]

/-- A walk cuts the text at the leftmost separators. -/
theorem Walk.exists_leftmost (hseparator : separator ≠ []) (h : Walk separator text parts) :
    ∃ places, Leftmost separator text places ∧ parts = partsAt separator.length text 0 places := by
  induction h with
  | done => exact ⟨[], ⟨by simp, by simp, by simp [hseparator]⟩, rfl⟩
  | @cut rest parts hwalk ih =>
    obtain ⟨places, hplaces, rfl⟩ := ih
    refine ⟨0 :: places.map (separator.length + ·), ?_, ?_⟩
    · refine hplaces.append separator [0] ?_ ?_ ?_ ?_
      · simp
      · simp
      · simp
      · intro i hi _
        exact ⟨0, by simp, by omega, by omega⟩
    · have hbehind := partsAt_append separator.length 0 separator rest places
      simp_all [partsAt]
  | @keep c rest part parts hnot hwalk ih =>
    obtain ⟨places, hplaces, hparts⟩ := ih
    refine ⟨places.map (1 + ·), ?_, (partsAt_cons hparts.symm).symm⟩
    refine hplaces.append [c] [] (by simp) (by simp) (by simp) fun i hi hstands => ?_
    obtain rfl : i = 0 := by simpa using hi
    exact absurd hstands hnot

/-! ### Texts -/

theorem split_empty (text : String) : (split "" text).map String.toList = text.toList.map ([·]) := by
  by_cases htext : text = ""
  · simp [split, htext]
  · simp [split, htext, Function.comp_def]

/-- Unless one of the two texts is empty, the parts come from a walk. -/
theorem split_walk {separator text : String} (hseparator : separator ≠ "") (htext : text ≠ "") :
    Walk separator.toList text.toList ((split separator text).map String.toList) := by
  have hchars : separator.toList ≠ [] := by simpa using hseparator
  have hparts : (split separator text).map String.toList =
      splitAtEach separator.toList text.toList := by
    simp [split, hseparator, htext, Function.comp_def]
  rw [hparts]
  exact splitAtEach_walk hchars text.toList

theorem split_eq_nil_iff {separator text : String} : split separator text = [] ↔ text = "" := by
  by_cases htext : text = ""
  · simp [split, htext]
  by_cases hseparator : separator = ""
  · simp [split, hseparator, htext]
  · simpa [htext] using (split_walk hseparator htext).ne_nil

theorem intercalate_chars (text : List Char) : List.intercalate [] (text.map ([·])) = text := by
  induction text with
  | nil => rfl
  | cons c rest ih =>
    cases rest with
    | nil => rfl
    | cons d rest => simp_all [List.intercalate_cons_cons]

theorem joined_split (separator text : String) : joined separator (split separator text) = text := by
  rw [joined, ← String.toList_inj, String.toList_intercalate]
  by_cases htext : text = ""
  · simp [split, htext]
  by_cases hseparator : separator = ""
  · subst hseparator
    rw [split_empty]
    exact intercalate_chars text.toList
  · exact (split_walk hseparator htext).joined

end Text

/-! ### Division -/

namespace Value

/-- A text divided by a text is an array of texts, of none exactly if the first one is empty. With
    the second text in between, the parts are the first one again. If the second text is empty they
    are its characters. Otherwise no part has the second text in it, and the parts are what is between
    the leftmost places where it stands that do not overlap. -/
theorem divide_texts (text separator : String) :
    ∃ parts : List String,
      (Value.string text).divide (.string separator) = .ok (.array (parts.map .string)) ∧
      (parts = [] ↔ text = "") ∧
      Text.joined separator parts = text ∧
      (separator = "" → parts.map String.toList = text.toList.map ([·])) ∧
      (separator ≠ "" → text ≠ "" →
        (∀ part ∈ parts, ¬ separator.toList <:+: part.toList) ∧
        ∃ places,
          (∀ others, Text.Leftmost separator.toList text.toList others ↔ others = places) ∧
          parts.map String.toList = Text.partsAt separator.toList.length text.toList 0 places) := by
  refine ⟨Text.split separator text, rfl, Text.split_eq_nil_iff, Text.joined_split separator text,
    ?_, ?_⟩
  · rintro rfl
    exact Text.split_empty text
  · intro hseparator htext
    have hchars : separator.toList ≠ [] := by simpa using hseparator
    have hwalk := Text.split_walk hseparator htext
    refine ⟨by simpa using hwalk.not_infix hchars, ?_⟩
    obtain ⟨places, hplaces, hparts⟩ := hwalk.exists_leftmost hchars
    refine ⟨places, fun others => ⟨fun hothers => hothers.unique hplaces, ?_⟩, hparts⟩
    rintro rfl
    exact hplaces

/-- Of the three places where `aa` stands in `aabaaa`, the last one is inside of the second. Divided
    by the empty text, a text is cut into its characters. -/
theorem divide_texts_overlapping :
    ("aa" ≠ "" ∧ "aabaaa" ≠ "" ∧
      (Value.string "aabaaa").divide (.string "aa") = .ok (.array (["", "b", "a"].map .string)) ∧
      (∀ part ∈ ["", "b", "a"], ¬ "aa".toList <:+: part.toList) ∧
      ["", "b", "a"].map String.toList = Text.partsAt 2 "aabaaa".toList 0 [0, 3]) ∧
    ∃ parts : List String,
      (Value.string "añ").divide (.string "") = .ok (.array (parts.map .string)) ∧
      parts.map String.toList = [['a'], ['ñ']] := by
  have hseparator : "aa" ≠ "" := by decide
  have htext : "aabaaa" ≠ "" := by decide
  have hparts : (Value.string "aabaaa").divide (.string "aa") =
      .ok (.array (["", "b", "a"].map .string)) := by rfl
  constructor
  · obtain ⟨parts, hdivide, -, -, -, hcut⟩ := divide_texts "aabaaa" "aa"
    obtain rfl : ["", "b", "a"] = parts := by
      have hmap := Value.array.inj (Except.ok.inj (hparts.symm.trans hdivide))
      exact (List.map_inj_right fun _ _ => Value.string.inj).1 hmap
    obtain ⟨hwithout, places, hplaces, hbetween⟩ := hcut hseparator htext
    obtain rfl : [0, 3] = places := (hplaces [0, 3]).1 (by decide)
    exact ⟨hseparator, htext, hparts, hwithout, hbetween⟩
  · obtain ⟨parts, hdivide, -, -, hchars, -⟩ := divide_texts "añ" ""
    exact ⟨parts, hdivide, hchars rfl⟩

end Value

end JsonPipe
