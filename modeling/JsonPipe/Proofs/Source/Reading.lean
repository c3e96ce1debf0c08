import JsonPipe.Source.Reader

/-! What readers make of a text.

    `Takes I J r t a u` says that the reader `r`, in front of the text `t`, yields `a` and leaves
    the text `u`; whatever is behind the cursor, if `I` holds of it before, then `J` holds after.
    The condition that matters is `Apart`: the cursor does not stand inside a name. It is what a
    keyword asks for, and every token leaves it behind, so most of the time it is both `I` and `J`
    (`Reads`). The rules below follow the way readers are put together, and each of the basic
    readers has a rule for the text it takes and one for the text that it leaves alone. -/

namespace JsonPipe.Source

open Reader

variable {α β γ : Type}

/-! ### Places in a text -/

/-- The text does not go on with a character of a name. -/
def BreaksOff (text : List Char) : Prop := text.head?.any isNameChar = false

/-- The cursor does not stand inside a name. -/
def Apart (c : Cursor) : Prop := BreaksOff c.before ∨ BreaksOff c.after

/-- Any place at all. -/
def Anywhere (_ : Cursor) : Prop := True

/-- The reader yields `a` in front of `t` and leaves `u`. -/
def Takes (I J : Cursor → Prop) (r : Reader α) (t : List Char) (a : α) (u : List Char) : Prop :=
  ∀ b, I ⟨b, t⟩ → ∃ b', J ⟨b', u⟩ ∧ r ⟨b, t⟩ = .ok (a, ⟨b', u⟩)

/-- The reader takes a token, or several. -/
abbrev Reads (r : Reader α) (t : List Char) (a : α) (u : List Char) : Prop :=
  Takes Apart Apart r t a u

/-! ### Rules of composition -/

section Composition

variable {I J K : Cursor → Prop} {t u v : List Char}

theorem bind_ok {r : Reader α} {f : α → Reader β} {c c' : Cursor} {a : α}
    (h : r c = .ok (a, c')) : (r >>= f) c = f a c' := by
  show (r c >>= fun p => f p.1 p.2) = f a c'
  rw [h]
  rfl

theorem takes_pure (a : α) : Takes I I (pure a : Reader α) t a t :=
  fun b hb => ⟨b, hb, rfl⟩

theorem Takes.bind {r : Reader α} {f : α → Reader β} {a : α} {x : β} (hr : Takes I J r t a u)
    (hf : Takes J K (f a) u x v) : Takes I K (r >>= f) t x v := by
  intro b hb
  obtain ⟨b', hb', hr⟩ := hr b hb
  obtain ⟨b'', hb'', hf⟩ := hf b' hb'
  exact ⟨b'', hb'', by rw [bind_ok hr, hf]⟩

theorem Takes.map {r : Reader α} {a : α} (f : α → β) (hr : Takes I J r t a u) :
    Takes I J (f <$> r) t (f a) u := by
  rw [map_eq_pure_bind]
  exact hr.bind (takes_pure _)

/-- What works anywhere works under any condition. -/
theorem Takes.anywhere {r : Reader α} {a : α} (hr : Takes Anywhere J r t a u) :
    Takes I J r t a u :=
  fun b _ => hr b trivial

end Composition

/-! ### Trivia -/

/-- The text does not start with trivia. -/
def isSolid : List Char → Bool
  | '/' :: '*' :: _ => false
  | '#' :: _ => false
  | c :: _ => !Text.isBlank c
  | [] => true

/-- The text without a space at its start. -/
def stripped : List Char → List Char
  | ' ' :: t => t
  | t => t

/-- There is no trivia at the start of the text but perhaps a space. -/
def isTidy (t : List Char) : Bool := isSolid (stripped t)

theorem skipTrivia_solid {t : List Char} (h : isSolid t = true) (b : List Char) :
    Cursor.skipTrivia .between b t = .ok ⟨b, t⟩ := by
  unfold isSolid at h
  split at h
  · cases h
  · cases h
  · next c t hcomment hline =>
    rw [Bool.not_eq_true'] at h
    rw [Cursor.skipTrivia.eq_3 b c t hcomment hline, if_neg (by simp [h])]
  · rfl

theorem reads_skipTrivia {t : List Char} (h : isTidy t = true) :
    Reads skipTrivia t () (stripped t) := by
  intro b hb
  unfold isTidy at h
  unfold stripped at h ⊢
  split at h
  · next t =>
    refine ⟨' ' :: b, .inl rfl, ?_⟩
    have hspace : Cursor.skipTrivia .between b (' ' :: t) =
        Cursor.skipTrivia .between (' ' :: b) t := rfl
    simp only [skipTrivia, hspace, skipTrivia_solid h]
    rfl
  · next t _ =>
    refine ⟨b, hb, ?_⟩
    simp only [skipTrivia, skipTrivia_solid h]
    rfl

/-! ### Symbols -/

/-- The symbol is what follows, and none of the refused characters comes after it. -/
def begins (symbol refused : String) (t : List Char) : Bool :=
  symbol.toList.isPrefixOf t &&
    !(t.drop symbol.toList.length).head?.any refused.toList.contains

theorem pass?_eq (phrase b t : List Char) :
    Cursor.pass? phrase ⟨b, t⟩ =
      if phrase.isPrefixOf t then some ⟨phrase.reverse ++ b, t.drop phrase.length⟩ else none := by
  induction phrase generalizing b t with
  | nil => simp [Cursor.pass?]
  | cons x phrase ih =>
    cases t with
    | nil => rfl
    | cons y t =>
      rw [Cursor.pass?]
      by_cases h : x = y
      · subst h
        simp [ih]
      · simp [h]

theorem pass?_append (phrase b t : List Char) :
    Cursor.pass? phrase ⟨b, phrase ++ t⟩ = some ⟨phrase.reverse ++ b, t⟩ := by
  simp [pass?_eq]

theorem symbol_miss {I : Cursor → Prop} {s refused : String} {t : List Char}
    (h : begins s refused t = false) : Takes I I (symbolNotBefore s refused) t false t := by
  intro b hb
  refine ⟨b, hb, ?_⟩
  rw [begins] at h
  simp only [symbolNotBefore, pass?_eq]
  split
  · rfl
  · next c' hc' =>
    split at hc'
    · next hpassed =>
      rw [← Option.some.inj hc']
      simp only [hpassed, Bool.true_and, Bool.not_eq_false'] at h
      simp only [h, if_true]
    · cases hc'

/-- A symbol is taken with the space after it. -/
theorem symbol_hit (I : Cursor → Prop) (s refused : String) {t : List Char}
    (hs : BreaksOff s.toList.reverse) (hne : s.toList ≠ [])
    (hr : t.head?.any refused.toList.contains = false) (ht : isTidy t = true) :
    Takes I Apart (symbolNotBefore s refused) (s.toList ++ t) true (stripped t) := by
  intro b _
  have hb : BreaksOff (s.toList.reverse ++ b) := by
    obtain ⟨x, xs, hx⟩ := List.exists_cons_of_ne_nil (List.reverse_ne_nil_iff.2 hne)
    rw [hx] at hs ⊢
    exact hs
  obtain ⟨b', hb', hskip⟩ := reads_skipTrivia ht (s.toList.reverse ++ b) (.inl hb)
  refine ⟨b', hb', ?_⟩
  simp only [symbolNotBefore, pass?_append, hr, Bool.false_eq_true, if_false, hskip]
  rfl

theorem any_none_of (o : Option Char) : o.any "".toList.contains = false := by
  cases o <;> rfl

/-- A symbol that nothing is refused after. -/
theorem symbol_takes (I : Cursor → Prop) (s : String) {t : List Char}
    (hs : BreaksOff s.toList.reverse) (hne : s.toList ≠ []) (ht : isTidy t = true) :
    Takes I Apart (symbol s) (s.toList ++ t) true (stripped t) :=
  symbol_hit I s "" hs hne (any_none_of _) ht

/-! ### Keywords and names -/

theorem keyword_miss {I : Cursor → Prop} {w : String} {t : List Char}
    (h : w.toList.isPrefixOf t = false) : Takes I I (keyword w) t false t := by
  intro b hb
  refine ⟨b, hb, ?_⟩
  simp only [keyword, pass?_eq, h, Bool.false_eq_true, if_false]

/-- A keyword is taken with the space after it, unless the text goes on with the same name. -/
theorem keyword_hit (w : String) {t : List Char} (hw : w.toList.head?.any isNameChar = true)
    (hbreak : BreaksOff t) (ht : isTidy t = true) :
    Reads (keyword w) (w.toList ++ t) true (stripped t) := by
  intro b hb
  have hbefore : BreaksOff b := by
    rcases hb with hb | hb
    · exact hb
    · rw [BreaksOff, List.head?_append] at hb
      cases hhead : w.toList.head? with
      | none => simp [hhead] at hw
      | some x => simp_all
  obtain ⟨b', hb', hskip⟩ := reads_skipTrivia ht (w.toList.reverse ++ b) (.inr hbreak)
  refine ⟨b', hb', ?_⟩
  rw [BreaksOff] at hbreak hbefore
  simp only [keyword, pass?_append, hbreak, hbefore, Bool.or_self, Bool.false_eq_true, if_false,
    hskip]
  rfl

/-- A keyword that is passed over in front of a name is the name or is not all of it. -/
theorem pass?_name {w name rest b : List Char} {c : Cursor}
    (hw : ∀ x ∈ w, isNameChar x = true) (hname : ∀ x ∈ name, isNameChar x = true)
    (hrest : BreaksOff rest) (h : Cursor.pass? w ⟨b, name ++ rest⟩ = some c) :
    c.after.head?.any isNameChar = true ∨ name = w := by
  induction w generalizing name b with
  | nil =>
    cases name with
    | nil => exact .inr rfl
    | cons x name =>
      rw [← Option.some.inj h]
      exact .inl (by simpa using hname x List.mem_cons_self)
  | cons y w ih =>
    cases name with
    | nil =>
      cases rest with
      | nil => cases h
      | cons x rest =>
        rw [List.nil_append, Cursor.pass?] at h
        split at h
        · next heq =>
          have hy := hw y List.mem_cons_self
          rw [BreaksOff, List.head?_cons, Option.any_some, ← heq, hy] at hrest
          cases hrest
        · cases h
    | cons x name =>
      rw [List.cons_append, Cursor.pass?] at h
      split at h
      · next heq =>
        rcases ih (fun z hz => hw z (List.mem_cons_of_mem _ hz))
          (fun z hz => hname z (List.mem_cons_of_mem _ hz)) h with h | h
        · exact .inl h
        · exact .inr (by rw [heq, h])
      · cases h

/-- A name is not taken for a keyword that it is not. -/
theorem keyword_miss_name {I : Cursor → Prop} {w : String} {name rest : List Char}
    (hw : ∀ x ∈ w.toList, isNameChar x = true) (hname : ∀ x ∈ name, isNameChar x = true)
    (hrest : BreaksOff rest) (hne : name ≠ w.toList) :
    Takes I I (keyword w) (name ++ rest) false (name ++ rest) := by
  intro b hb
  refine ⟨b, hb, ?_⟩
  rw [keyword]
  split
  · rfl
  · next c hc =>
    rcases pass?_name hw hname hrest hc with h | h
    · rw [h, Bool.true_or, if_pos rfl]
    · exact absurd h hne

theorem span_append {p : Char → Bool} (run : List Char) {rest : List Char} (b : List Char)
    (hrun : ∀ x ∈ run, p x = true) (hrest : rest.head?.any p = false) :
    Cursor.span p ⟨b, run ++ rest⟩ = (run, ⟨run.reverse ++ b, rest⟩) := by
  have htake : rest.takeWhile p = [] := by
    cases rest with
    | nil => rfl
    | cons x rest => rw [List.takeWhile_cons, if_neg (by simpa using hrest)]
  have hdrop : rest.dropWhile p = rest := by
    cases rest with
    | nil => rfl
    | cons x rest => rw [List.dropWhile_cons, if_neg (by simpa using hrest)]
  simp only [Cursor.span]
  rw [List.takeWhile_append_of_pos hrun, List.dropWhile_append_of_pos hrun, htake, hdrop,
    List.append_nil]

/-- The texts that are names of variables. -/
structure IsVariableName (name : String) : Prop where
  starts : name.toList.head?.any isNameStart = true
  chars : ∀ x ∈ name.toList, isNameChar x = true
  free : keywords.contains name = false

theorem nextName?_append {name rest : List Char} (b : List Char)
    (hstart : name.head?.any isNameStart = true) (hname : ∀ x ∈ name, isNameChar x = true)
    (hrest : BreaksOff rest) :
    nextName? ⟨b, name ++ rest⟩ = some (String.ofList name, ⟨name.reverse ++ b, rest⟩) := by
  have hhead : (name ++ rest).head?.any isNameStart = true := by
    cases name with
    | nil => cases hstart
    | cons x name => exact hstart
  simp only [nextName?, hhead, if_true, span_append name b hname hrest]

theorem variableName_hit {name : String} (h : IsVariableName name) {t : List Char}
    (hbreak : BreaksOff t) (ht : isTidy t = true) :
    Reads variableName (name.toList ++ t) (some name) (stripped t) := by
  intro b _
  obtain ⟨b', hb', hskip⟩ := reads_skipTrivia ht (name.toList.reverse ++ b) (.inr hbreak)
  refine ⟨b', hb', ?_⟩
  simp only [variableName, nextName?_append b h.starts h.chars hbreak, String.ofList_toList, h.free,
    Bool.false_eq_true, if_false, hskip]
  rfl

theorem nextName?_miss {b t : List Char} (h : t.head?.any isNameStart = false) :
    nextName? ⟨b, t⟩ = none := by
  simp only [nextName?, h, Bool.false_eq_true, if_false]

theorem variableName_miss {I : Cursor → Prop} {t : List Char}
    (h : t.head?.any isNameStart = false) : Takes I I variableName t none t := by
  intro b hb
  exact ⟨b, hb, by simp only [variableName, nextName?_miss h]⟩

theorem name_miss {I : Cursor → Prop} {t : List Char} (h : t.head?.any isNameStart = false) :
    Takes I I name t none t := by
  intro b hb
  exact ⟨b, hb, by simp only [name, nextName?_miss h]⟩

/-! ### Repetition -/

/-- A step is taken over and over, and each time the text gets shorter; the last time it yields
    nothing. -/
inductive Repeats (I J : Cursor → Prop) (step : Reader (Option α)) :
    List Char → List α → List Char → Prop
  | done {t u : List Char} (h : Takes I J step t none u) : Repeats I J step t [] u
  | more {t u v : List Char} {a : α} {as : List α} (h : Takes I I step t (some a) u)
      (hlt : u.length < t.length) (hrest : Repeats I J step u as v) : Repeats I J step t (a :: as) v

theorem Repeats.along {I J : Cursor → Prop} {step : Reader (Option α)} {t u : List Char}
    {as : List α} (h : Repeats I J step t as u) (bound : List Char)
    (hbound : t.length ≤ bound.length) : Takes I J (repeatAlong step bound) t as u := by
  induction h generalizing bound with
  | done h =>
    intro b hb
    obtain ⟨b', hb', hstep⟩ := h b hb
    refine ⟨b', hb', ?_⟩
    cases bound <;> simp only [repeatAlong, hstep] <;> rfl
  | @more t u v a as h hlt hrest ih =>
    intro b hb
    obtain ⟨b', hb', hstep⟩ := h b hb
    cases bound with
    | nil => exact absurd hbound (by simp only [List.length_nil]; omega)
    | cons x bound =>
      have hshort : u.length ≤ bound.length := by
        simp only [List.length_cons] at hbound
        omega
      obtain ⟨b'', hb'', hmore⟩ := ih bound hshort b' hb'
      refine ⟨b'', hb'', ?_⟩
      simp only [repeatAlong, hstep]
      show (repeatAlong step bound ⟨b', u⟩ >>= fun p => Except.ok (a :: p.1, p.2)) = _
      rw [hmore]
      rfl

theorem Repeats.many {I J : Cursor → Prop} {step : Reader (Option α)} {t u : List Char}
    {as : List α} (h : Repeats I J step t as u) : Takes I J (many step) t as u :=
  fun b hb => h.along t (Nat.le_refl _) b hb

end JsonPipe.Source
