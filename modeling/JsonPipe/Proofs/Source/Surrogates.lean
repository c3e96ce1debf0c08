import JsonPipe.Proofs.Source.RoundTrip
import JsonPipe.Proofs.Source.SeamGrammar

/-! Strings and surrogates in program text.

    A text between quotes that writes a string in any way is read as that string
    (`parse_quoted_writing`). But a surrogate that is escaped in a string has to be half of a pair:
    a high one in front of the escape of a low one, or a low one behind the escape of a high one. A
    program text with any other escaped surrogate in it is a syntax error (`parse_lone_surrogate`).
    A reader that yields something leaves such a surrogate ahead of it, so no reader gets to the end
    of the text: that is a way to link a reading with itself (`Linking.lone`), so it is enough to
    follow the readers of tokens. Only the escapes of a string have to look at the codes. -/

namespace JsonPipe

namespace Source

open Reader

/-! ### Escaped surrogates -/

/-- The text goes on with the escape of a low surrogate. -/
def StartsLow (t : List Char) : Prop :=
  ∃ digits code rest, t = '\\' :: 'u' :: digits ++ rest ∧ WritesCode digits code ∧
    isLowSurrogate code = true

/-- The text, which starts in the given region, ends with the escape of a high surrogate. -/
def EndsHigh (region : Region) (opened : List Opening) (t : List Char) : Prop :=
  ∃ start digits code, t = start ++ '\\' :: 'u' :: digits ∧ region.scan opened start = .string ∧
    WritesCode digits code ∧ isHighSurrogate code = true

/-- A code escaped between two texts is a surrogate without the other half of its pair. -/
def Unpaired (region : Region) (opened : List Opening) (before : List Char) (code : Nat)
    (after : List Char) : Prop :=
  isHighSurrogate code = true ∧ ¬ StartsLow after ∨
    isLowSurrogate code = true ∧ ¬ EndsHigh region opened before

/-- In a string in the text, which starts in the given region, there is an escaped surrogate that is
    not part of a pair. -/
def LoneSurrogate (region : Region) (opened : List Opening) (t : List Char) : Prop :=
  ∃ before digits code after, t = before ++ '\\' :: 'u' :: digits ++ after ∧
    region.scan opened before = .string ∧ WritesCode digits code ∧
    Unpaired region opened before code after

variable {region region' : Region} {opened opened' : List Opening} {t : List Char}

theorem Unpaired.behind {run before after : List Char} {code : Nat}
    (h : Unpaired region opened (run ++ before) code after)
    (hscan : ∀ v, v <+: before → region.scan opened (run ++ v) = region'.scan opened' v) :
    Unpaired region' opened' before code after := by
  refine h.imp_right fun ⟨hlow, hnot⟩ => ⟨hlow, ?_⟩
  rintro ⟨start, digits, high, rfl, hstart, hdigits, hhigh⟩
  exact hnot ⟨run ++ start, digits, high, (List.append_assoc ..).symm,
    (hscan start (List.prefix_append ..)).trans hstart, hdigits, hhigh⟩

/-- A lone surrogate in a text starts in the first part of it or is one of the rest. -/
theorem LoneSurrogate.split {run : List Char} (h : LoneSurrogate region opened (run ++ t))
    (hscan : ∀ v, v <+: t → region.scan opened (run ++ v) = region'.scan opened' v) :
    LoneSurrogate region' opened' t ∨
      ∃ before more digits code after, run = before ++ '\\' :: more ∧
        region.scan opened before = .string ∧ '\\' :: more ++ t = '\\' :: 'u' :: digits ++ after ∧
        WritesCode digits code ∧ Unpaired region opened before code after := by
  obtain ⟨before, digits, code, after, heq, hstring, hdigits, hunpaired⟩ := h
  rw [List.append_assoc] at heq
  rcases List.append_eq_append_iff.1 heq with ⟨more, hbefore, ht⟩ | ⟨more, hrun, ht⟩
  · subst hbefore
    have hmore : more <+: t := ⟨_, ht.symm⟩
    refine .inl ⟨more, digits, code, after, ?_, ?_, hdigits,
      hunpaired.behind fun v hv => hscan v (hv.trans hmore)⟩
    · rw [ht, List.append_assoc]
    · rw [← hscan more hmore, hstring]
  · cases more with
    | nil =>
      rw [List.append_nil] at hrun
      subst hrun
      refine .inl ⟨[], digits, code, after, ht.symm, ?_, hdigits, ?_⟩
      · rw [← hscan [] List.nil_prefix, List.append_nil, hstring]
      · rw [← List.append_nil run] at hunpaired
        exact hunpaired.behind fun v hv => hscan v (hv.trans List.nil_prefix)
    | cons x more =>
      obtain rfl : x = '\\' := (List.cons.inj ht).1.symm
      exact .inr ⟨before, more, digits, code, after, hrun, hstring, ht.symm, hdigits, hunpaired⟩

/-- Characters are passed of which none is a backslash. -/
theorem LoneSurrogate.pass {run : List Char} (h : LoneSurrogate region opened (run ++ t))
    (hrun : '\\' ∉ run)
    (hscan : ∀ v, v <+: t → region.scan opened (run ++ v) = region'.scan opened' v) :
    LoneSurrogate region' opened' t := by
  rcases h.split hscan with h | ⟨before, more, _, _, _, rfl, -⟩
  · exact h
  · simp at hrun

/-- A character is passed that does not start an escape by code in a string. -/
theorem LoneSurrogate.tail {x : Char} (h : LoneSurrogate region opened (x :: t))
    (hscan : ∀ v, v <+: t → region.scan opened (x :: v) = region'.scan opened' v)
    (hx : region = .string → x = '\\' → t.head? ≠ some 'u') : LoneSurrogate region' opened' t := by
  have h : LoneSurrogate region opened ([x] ++ t) := h
  rcases h.split hscan with h | ⟨before, more, digits, code, after, hrun, hstring, heq, -⟩
  · exact h
  · cases before with
    | nil =>
      cases hrun
      have hregion : region = .string := by rwa [Region.scan.eq_17] at hstring
      refine absurd ?_ (hx hregion rfl)
      have ht : t = 'u' :: (digits ++ after) := (List.cons.inj heq).2
      rw [ht]
      rfl
    | cons y before => simp at hrun

/-- A character outside strings is passed. -/
theorem LoneSurrogate.step {x : Char} (h : LoneSurrogate region opened (x :: t))
    (hregion : region ≠ .string)
    (hscan : ∀ v, v <+: t → region.scan opened (x :: v) = region'.scan opened' v) :
    LoneSurrogate region' opened' t :=
  h.tail hscan fun hstring => absurd hstring hregion

/-- A character of code. -/
theorem LoneSurrogate.inert {x : Char} (h : LoneSurrogate .code opened (x :: t))
    (hx : Region.isInert x = true) (hcomment : ∀ u, x = '/' → t ≠ '*' :: u) :
    LoneSurrogate .code opened t := by
  refine h.step (by decide) (fun v hv => Region.scan_inert hx ?_ opened)
  rintro u hslash rfl
  obtain ⟨w, rfl⟩ := hv
  exact hcomment (u ++ w) hslash rfl

/-- A run of characters of code. -/
theorem LoneSurrogate.inert_append {run : List Char} (h : LoneSurrogate .code opened (run ++ t))
    (hrun : ∀ x ∈ run, Region.isInert x = true ∧ x ≠ '/') : LoneSurrogate .code opened t := by
  induction run with
  | nil => exact h
  | cons x run ih =>
    obtain ⟨⟨hx, hslash⟩, hrun⟩ := List.forall_mem_cons.1 hrun
    exact ih (LoneSurrogate.inert h hx fun _ heq => absurd heq hslash) hrun

theorem LoneSurrogate.ne_nil (h : LoneSurrogate region opened t) : t ≠ [] := by
  obtain ⟨before, digits, code, after, rfl, -⟩ := h
  simp

/-! ### A reading linked with itself -/

/-- One and the same place, of which something holds. -/
def At (I : Cursor → Prop) (c d : Cursor) : Prop := c = d ∧ I c

theorem mirrors_at {α : Type} {ok : α → Cursor → Prop} {I : Cursor → Prop}
    {J : α → Cursor → Prop} {r : Reader α}
    (h : ∀ ⦃c a d⦄, I c → r c = .ok (a, d) → J a d) : Mirrors ok (At I) r r fun a => At (J a) := by
  rintro c d ⟨hcd, hc⟩ a e hr -
  subst hcd
  exact ⟨e, ⟨rfl, h hc hr⟩, hr⟩

/-- A lone surrogate is ahead. -/
def Ahead (region : Region) (opened : List Opening) (c : Cursor) : Prop :=
  LoneSurrogate region opened c.after

/-- A lone surrogate is ahead, and a token starts here. -/
def AheadOfToken (opened : List Opening) (c : Cursor) : Prop :=
  isSolid c.after = true ∧ Ahead .code opened c

/-! ### Trivia -/

theorem skipTrivia_ahead {mode : Cursor.Trivia} {b : List Char} {c : Cursor}
    (h : LoneSurrogate mode.region opened t) (hskip : Cursor.skipTrivia mode b t = .ok c) :
    AheadOfToken opened c := by
  fun_induction Cursor.skipTrivia mode b t with
  | case1 b t ih =>
    have h : LoneSurrogate .code opened (['/', '*'] ++ t) := h
    exact ih (h.pass (by decide) fun v _ => rfl) hskip
  | case2 b t ih => exact ih (h.step (by decide) fun v _ => rfl) hskip
  | case3 b x t hcomment _ hblank ih =>
    have hinert := isInert_of_isBlank hblank
    exact ih (h.inert hinert.1 fun u hx => absurd hx hinert.2) hskip
  | case4 b x t hcomment hline hblank =>
    cases hskip
    exact ⟨isSolid_cons hcomment hline hblank, h⟩
  | case5 => exact absurd rfl h.ne_nil
  | case6 b t ih => exact ih (h.step (by decide) fun v _ => rfl) hskip
  | case7 b x t hend ih =>
    exact ih (h.step (by decide) fun v _ => Region.scan.eq_9 _ _ _ hend) hskip
  | case8 => exact absurd rfl h.ne_nil
  | case9 start b t ih =>
    have h : LoneSurrogate .block opened (['*', '/'] ++ t) := h
    exact ih (h.pass (by decide) fun v _ => rfl) hskip
  | case10 start b x t hend ih =>
    refine ih (h.step (by simp [Cursor.Trivia.region]) fun v hv => Region.scan.eq_11 _ _ _ ?_) hskip
    rintro u hx rfl
    obtain ⟨w, rfl⟩ := hv
    exact hend (u ++ w) hx rfl
  | case11 => cases hskip

theorem ahead_skipTrivia {c d : Cursor} {u : Unit} (hc : Ahead .code opened c)
    (h : skipTrivia c = .ok (u, d)) : AheadOfToken opened d := by
  rw [skipTrivia_eq] at h
  cases hskip : Cursor.skipTrivia .between c.before c.after with
  | error e => rw [hskip] at h; cases h
  | ok e =>
    rw [hskip] at h
    cases h
    have hbetween : LoneSurrogate Cursor.Trivia.between.region opened c.after := hc
    exact skipTrivia_ahead hbetween hskip

/-! ### Words, names and numbers -/

/-- What follows a word and the trivia after it. -/
theorem ahead_word {phrase : List Char} {refused : Char → Bool} {apart hit : Bool} {c d : Cursor}
    (hpass : ∀ t, isSolid (phrase ++ t) = true → LoneSurrogate .code opened (phrase ++ t) →
      LoneSurrogate .code opened' t)
    (hc : AheadOfToken opened c) (h : word phrase refused apart c = .ok (hit, d)) :
    AheadOfToken (bif hit then opened' else opened) d := by
  rw [word] at h
  split at h
  · next hstands =>
    obtain ⟨t, ht⟩ := prefix_of_stands hstands
    obtain ⟨u, e, hskip, h⟩ := bind_eq_ok h
    cases h
    obtain ⟨hsolid, hlone⟩ := hc
    rw [Ahead, ← ht] at hlone
    rw [← ht] at hsolid
    refine ahead_skipTrivia ?_ hskip
    rw [Ahead, skipped, ← ht, List.drop_left]
    exact hpass t hsolid hlone
  · cases h
    exact hc

/-- A word that is code by itself. -/
theorem ahead_plain {phrase : List Char} {refused : Char → Bool} {apart hit : Bool} {c d : Cursor}
    (hplain : isPlain phrase = true) (hc : AheadOfToken opened c)
    (h : word phrase refused apart c = .ok (hit, d)) : AheadOfToken opened d := by
  suffices hword : AheadOfToken (bif hit then opened else opened) d by rwa [Bool.cond_self] at hword
  refine ahead_word (fun t hsolid hlone => ?_) hc h
  obtain ⟨x, tail, rfl⟩ : ∃ x tail, phrase = x :: tail := by
    refine List.exists_cons_of_ne_nil ?_
    rintro rfl
    cases hplain
  have htail : ∀ y ∈ tail, Region.isInert y = true ∧ y ≠ '/' := by
    intro y hy
    obtain ⟨hedge, hinert⟩ := isPlain_tail hplain y hy
    exact ⟨hinert, by rintro rfl; revert hedge; decide⟩
  have hx : Region.isInert x = true := by
    simp only [isPlain, Bool.and_eq_true] at hplain
    exact hplain.1.1.1
  have hopen : ∀ u, x = '/' → tail ++ t ≠ '*' :: u := by
    rintro u rfl hu
    rw [List.cons_append, hu] at hsolid
    cases hsolid
  have hrest : LoneSurrogate .code opened (tail ++ t) := LoneSurrogate.inert hlone hx hopen
  exact hrest.inert_append htail

/-- A run of characters of a class. -/
theorem ahead_span {p : Char → Bool} (hp : IsRun p) {c : Cursor} (hc : Ahead .code opened c) :
    Ahead .code opened (c.span p).2 := by
  have hsplit : c.after.takeWhile p ++ c.after.dropWhile p = c.after :=
    List.takeWhile_append_dropWhile
  rw [Ahead, ← hsplit] at hc
  refine hc.inert_append fun x hx => ?_
  have hpx := List.all_eq_true.1 List.all_takeWhile x hx
  exact ⟨hp.inert x hpx, hp.ne_slash hpx⟩

theorem ahead_nameIf {test : String → Bool} {c d : Cursor} {found : Option String}
    (hc : AheadOfToken opened c) (h : nameIf test c = .ok (found, d)) : AheadOfToken opened d := by
  rw [nameIf] at h
  split at h
  · next s e he =>
    split at h
    · obtain ⟨u, f, hskip, h⟩ := bind_eq_ok h
      cases h
      rw [nextName?] at he
      split at he
      · cases he
        exact ahead_skipTrivia (ahead_span isRun_isNameChar hc.2) hskip
      · cases he
    · cases h
      exact hc
  · cases h
    exact hc

theorem ahead_takeOneOf {set : String} {c d : Cursor} {found : Option Char}
    (hset : set.toList.all (fun x => !isEdge x && Region.isInert x) = true)
    (hc : Ahead .code opened c) (h : takeOneOf set c = .ok (found, d)) : Ahead .code opened d := by
  obtain ⟨b, t⟩ := c
  cases t with
  | nil => exact absurd rfl hc.ne_nil
  | cons x t =>
    rw [takeOneOf_cons] at h
    split at h
    · next hx =>
      cases h
      have hall := List.all_eq_true.1 hset x (List.contains_iff_mem.1 hx)
      simp only [Bool.and_eq_true, Bool.not_eq_true'] at hall
      refine LoneSurrogate.inert hc hall.2 ?_
      rintro u rfl
      exact absurd hall.1 (by decide)
    · cases h
      exact hc

theorem mirrors_takeOneOf_ahead {set : String}
    (hset : set.toList.all (fun x => !isEdge x && Region.isInert x) = true) :
    Mirrors Always (At (Ahead .code opened)) (takeOneOf set) (takeOneOf set)
      fun _ => At (Ahead .code opened) :=
  mirrors_at fun _ _ _ => ahead_takeOneOf hset

theorem mirrors_takeWhile_ahead {p : Char → Bool} (hp : IsRun p) :
    Mirrors Always (At (Ahead .code opened)) (takeWhile p) (takeWhile p)
      fun _ => At (Ahead .code opened) := by
  refine mirrors_at fun c run d hc h => ?_
  cases h
  exact ahead_span hp hc

theorem mirrors_skipTrivia_ahead :
    Mirrors Always (At (Ahead .code opened)) skipTrivia skipTrivia
      fun _ => At (AheadOfToken opened) :=
  mirrors_at fun _ _ _ => ahead_skipTrivia

theorem mirrors_number_ahead :
    Mirrors Always (At (AheadOfToken opened)) number number fun _ => At (AheadOfToken opened) := by
  have hdigits : Mirrors Always (At (AheadOfToken opened)) (takeWhile Char.isDigit)
      (takeWhile Char.isDigit)
      fun ds => bif ds.isEmpty then At (AheadOfToken opened) else At (Ahead .code opened) := by
    rintro c d ⟨hcd, hc⟩ ds e h -
    subst hcd
    refine ⟨e, ?_, h⟩
    cases ds with
    | nil =>
      rw [takeWhile_nil h]
      exact ⟨rfl, hc⟩
    | cons x ds =>
      obtain rfl : (c.span Char.isDigit).2 = e := congrArg Prod.snd (Except.ok.inj h)
      exact ⟨rfl, ahead_span isRun_isDigit hc.2⟩
  exact mirrors_number mirrors_takeOneOf_ahead mirrors_takeWhile_ahead hdigits
    mirrors_skipTrivia_ahead

/-! ### Codes -/

/-- Four digits that are read are a code. -/
theorem hex4_eq_ok {c d : Cursor} {code : Nat} (h : hex4 c = .ok (code, d)) :
    ∃ digits, c.after = digits ++ d.after ∧ WritesCode digits code := by
  have hdigit : ∀ {c d : Cursor} {n : Nat}, hexDigit c = .ok (n, d) →
      ∃ x, c.after = x :: d.after ∧ n < 16 ∧ x.toLower = Nat.digitChar n := by
    rintro ⟨b, t⟩ d n h
    cases t with
    | nil => cases h
    | cons x t =>
      rw [hexDigit_cons] at h
      cases hx : hexValue? x with
      | none => rw [hx] at h; cases h
      | some m =>
        rw [hx] at h
        cases h
        exact ⟨x, rfl, hexValue?_eq_some_iff.1 hx⟩
  obtain ⟨n₁, c₁, h₁, h⟩ := bind_eq_ok h
  obtain ⟨n₂, c₂, h₂, h⟩ := bind_eq_ok h
  obtain ⟨n₃, c₃, h₃, h⟩ := bind_eq_ok h
  obtain ⟨n₄, c₄, h₄, h⟩ := bind_eq_ok h
  cases h
  obtain ⟨x₁, ht₁, hlt₁, hx₁⟩ := hdigit h₁
  obtain ⟨x₂, ht₂, hlt₂, hx₂⟩ := hdigit h₂
  obtain ⟨x₃, ht₃, hlt₃, hx₃⟩ := hdigit h₃
  obtain ⟨x₄, ht₄, hlt₄, hx₄⟩ := hdigit h₄
  refine ⟨[x₁, x₂, x₃, x₄], by rw [ht₁, ht₂, ht₃, ht₄]; rfl, by omega, ?_⟩
  have hvalue : ∀ {m n : Nat}, m % 16 = n → Nat.digitChar n = Text.hexDigit m := by
    rintro m - rfl
    rfl
  simp only [List.map_cons, List.map_nil, Text.hex4, hx₁, hx₂, hx₃, hx₄]
  rw [hvalue (show (((n₁ * 16 + n₂) * 16 + n₃) * 16 + n₄) / 4096 % 16 = n₁ by omega),
    hvalue (show (((n₁ * 16 + n₂) * 16 + n₃) * 16 + n₄) / 256 % 16 = n₂ by omega),
    hvalue (show (((n₁ * 16 + n₂) * 16 + n₃) * 16 + n₄) / 16 % 16 = n₃ by omega),
    hvalue (show (((n₁ * 16 + n₂) * 16 + n₃) * 16 + n₄) % 16 = n₄ by omega)]

/-- The digits of a code are neither quotes nor backslashes. -/
theorem WritesCode.plain {digits : List Char} {code : Nat} (h : WritesCode digits code) :
    ∀ x ∈ digits, x ≠ '"' ∧ x ≠ '\\' := by
  intro x hx
  have hlower : x.toLower ∈ Text.hex4 code := h.2 ▸ List.mem_map_of_mem hx
  obtain ⟨n, hn⟩ : ∃ n, x.toLower = Text.hexDigit n := by
    simp only [Text.hex4, List.mem_cons, List.not_mem_nil, or_false] at hlower
    rcases hlower with h | h | h | h <;> exact ⟨_, h⟩
  have hvalue := hexValue?_eq_some_iff.2 ⟨Nat.mod_lt n (by decide), hn⟩
  constructor
  · rintro rfl
    cases hvalue
  · rintro rfl
    cases hvalue

theorem WritesCode.length_eq {digits : List Char} {code : Nat} (h : WritesCode digits code) :
    digits.length = 4 := by
  have hlength := congrArg List.length h.2
  rwa [List.length_map] at hlength

theorem WritesCode.code_eq {digits : List Char} {code code' : Nat} (h : WritesCode digits code)
    (h' : WritesCode digits code') : code = code' := by
  obtain ⟨b, -, ht⟩ := h.takes [] [] trivial
  obtain ⟨b', -, ht'⟩ := h'.takes [] [] trivial
  rw [ht] at ht'
  cases ht'
  rfl

/-! ### Strings -/

theorem scan_digits {digits : List Char} {code : Nat} (h : WritesCode digits code)
    (opened : List Opening) (v : List Char) :
    Region.string.scan opened (digits ++ v) = Region.string.scan opened v := by
  have hplain := h.plain
  clear h
  induction digits with
  | nil => rfl
  | cons x digits ih =>
    obtain ⟨⟨hquote, hslash⟩, hdigits⟩ := List.forall_mem_cons.1 hplain
    rw [List.cons_append, Region.scan.eq_14 _ x _ hquote hslash, ih hdigits]

/-- In the digits of a code there is no backslash. -/
theorem WritesCode.not_append {digits before more : List Char} {code : Nat}
    (h : WritesCode digits code) : digits ≠ before ++ '\\' :: more := by
  rintro rfl
  exact (h.plain '\\' (by simp)).2 rfl

/-- A lone surrogate behind an escape by code is that code or lies further on. -/
theorem LoneSurrogate.escape {digits : List Char} {code : Nat} (hdigits : WritesCode digits code)
    (h : LoneSurrogate .string opened ('\\' :: 'u' :: digits ++ t)) :
    LoneSurrogate .string opened t ∨ Unpaired .string opened [] code t := by
  rcases h.split fun v _ => scan_digits hdigits opened v with
    h | ⟨before, more, digits', code', after, hrun, hstring, ht, hdigits', hunpaired⟩
  · exact .inl h
  refine .inr ?_
  -- the only backslash of the escape is its first character
  have hbefore : before = [] := by
    match before with
    | [] => rfl
    | [_] => simp at hrun
    | _ :: _ :: before =>
      simp only [List.cons_append, List.cons.injEq] at hrun
      exact absurd hrun.2.2 hdigits.not_append
  subst hbefore
  obtain rfl : more = 'u' :: digits := (List.cons.inj hrun).2.symm
  have hsame : digits ++ t = digits' ++ after := by simpa using ht
  obtain ⟨rfl, rfl⟩ := List.append_inj hsame (hdigits.length_eq.trans hdigits'.length_eq.symm)
  rwa [hdigits.code_eq hdigits']

theorem isLowSurrogate_of_high {n : Nat} (h : isHighSurrogate n = true) :
    isLowSurrogate n = false := by
  simp only [isHighSurrogate, Bool.and_eq_true, decide_eq_true_eq] at h
  exact isLowSurrogate_eq_false (by omega)

/-- Between two escapes by code the next backslash is that of the second. -/
theorem WritesCode.append_eq {high low before more : List Char} {first second : Nat}
    (hhigh : WritesCode high first) (hlow : WritesCode low second)
    (h : high ++ '\\' :: 'u' :: low = before ++ '\\' :: more) :
    before = high ∧ more = 'u' :: low := by
  rcases List.append_eq_append_iff.1 h with ⟨rest, rfl, hrest⟩ | ⟨rest, rfl, hrest⟩
  · match rest with
    | [] => exact ⟨List.append_nil _, (List.cons.inj hrest).2.symm⟩
    | [_] => simp at hrest
    | _ :: _ :: rest =>
      simp only [List.cons_append, List.cons.injEq] at hrest
      exact absurd hrest.2.2 hlow.not_append
  · cases rest with
    | nil => exact ⟨(List.append_nil _).symm, (List.cons.inj hrest).2⟩
    | cons x rest =>
      obtain rfl : '\\' = x := (List.cons.inj hrest).1
      exact absurd rfl hhigh.not_append

/-- A pair of surrogates is passed. -/
theorem LoneSurrogate.pair {high low : List Char} {first second : Nat}
    (hhigh : WritesCode high first) (hlow : WritesCode low second)
    (hfirst : isHighSurrogate first = true) (hsecond : isLowSurrogate second = true)
    (h : LoneSurrogate .string opened ('\\' :: 'u' :: high ++ '\\' :: 'u' :: low ++ t)) :
    LoneSurrogate .string opened t := by
  have hscan : ∀ v, Region.string.scan opened ('\\' :: 'u' :: high ++ '\\' :: 'u' :: low ++ v) =
      Region.string.scan opened v := by
    intro v
    rw [List.append_assoc]
    exact (scan_digits hhigh opened _).trans (scan_digits hlow opened v)
  rcases h.split fun v _ => hscan v with
    h | ⟨before, more, digits, code, after, hrun, hstring, ht, hdigits, hunpaired⟩
  · exact h
  match before with
  | [] =>
    -- the first code has the second behind it
    obtain rfl : more = 'u' :: (high ++ '\\' :: 'u' :: low) := (List.cons.inj hrun).2.symm
    have hsame : high ++ ('\\' :: 'u' :: low ++ t) = digits ++ after := by simpa using ht
    obtain ⟨rfl, rfl⟩ := List.append_inj hsame (hhigh.length_eq.trans hdigits.length_eq.symm)
    obtain rfl := hhigh.code_eq hdigits
    rcases hunpaired with ⟨-, hnot⟩ | ⟨hlow', -⟩
    · exact absurd ⟨low, second, t, rfl, hlow, hsecond⟩ hnot
    · rw [isLowSurrogate_of_high hfirst] at hlow'
      cases hlow'
  | [_] => simp at hrun
  | _ :: _ :: before =>
    -- the second code has the first before it
    simp only [List.cons_append, List.cons.injEq] at hrun
    obtain ⟨rfl, rfl, hrun⟩ := hrun
    obtain ⟨rfl, rfl⟩ := hhigh.append_eq hlow hrun
    have hsame : low ++ t = digits ++ after := by simpa using ht
    obtain ⟨rfl, rfl⟩ := List.append_inj hsame (hlow.length_eq.trans hdigits.length_eq.symm)
    obtain rfl := hlow.code_eq hdigits
    rcases hunpaired with ⟨hhigh', -⟩ | ⟨-, hnot⟩
    · rw [isLowSurrogate_of_high hhigh'] at hsecond
      cases hsecond
    · exact absurd ⟨[], before, first, rfl, rfl, hhigh, hfirst⟩ hnot

theorem takePhrase_eq_true {c d : Cursor} (h : takePhrase "\\u" c = .ok (true, d)) :
    c.after = '\\' :: 'u' :: d.after := by
  obtain ⟨b, t⟩ := c
  rw [takePhrase, pass?_eq] at h
  split at h
  · next c' hc' =>
    split at hc'
    · next hpassed =>
      obtain ⟨t, rfl⟩ := List.isPrefixOf_iff_prefix.1 hpassed
      cases hc'
      cases h
      simp
    · cases hc'
  · cases h

/-- A character by its code is passed, unless the code is a lone surrogate: then nothing is read. -/
theorem ahead_codeEscape {b u : List Char} {x : Char} {d : Cursor}
    (h : LoneSurrogate .string opened ('\\' :: 'u' :: u)) (hread : codeEscape ⟨b, u⟩ = .ok (x, d)) :
    Ahead .string opened d := by
  rw [codeEscape] at hread
  obtain ⟨first, c, hfirst, hrest⟩ := bind_eq_ok hread
  obtain ⟨digits, hu, hdigits⟩ := hex4_eq_ok hfirst
  simp only at hu
  clear hread
  subst hu
  have hchar : ∀ {c d : Cursor} {n : Nat}, charOfCode n c = .ok (x, d) →
      isHighSurrogate n = false ∧ isLowSurrogate n = false ∧ c = d := by
    intro c d n h
    rw [charOfCode] at h
    split at h
    · cases h
    · next hnot =>
      rw [Bool.not_eq_true, Bool.or_eq_false_iff] at hnot
      cases h
      exact ⟨hnot.1, hnot.2, rfl⟩
  have hescape := LoneSurrogate.escape hdigits h
  cases hhigh : isHighSurrogate first with
  | false =>
    simp only [hhigh, Bool.false_eq_true, if_false] at hrest
    obtain ⟨-, hlow, rfl⟩ := hchar hrest
    rcases hescape with h | ⟨hhigh', -⟩ | ⟨hlow', -⟩
    · exact h
    · rw [hhigh] at hhigh'; cases hhigh'
    · rw [hlow] at hlow'; cases hlow'
  | true =>
    simp only [hhigh, if_true] at hrest
    obtain ⟨paired, e, hphrase, hpair⟩ := bind_eq_ok hrest
    cases paired with
    | false =>
      simp only [Bool.false_eq_true, if_false] at hpair
      rw [(hchar hpair).1] at hhigh
      cases hhigh
    | true =>
      simp only [if_true] at hpair
      obtain ⟨second, f, hsecond, hend⟩ := bind_eq_ok hpair
      obtain ⟨low, hlow, hlowdigits⟩ := hex4_eq_ok hsecond
      have hc : c.after = '\\' :: 'u' :: e.after := takePhrase_eq_true hphrase
      cases hlowcode : isLowSurrogate second with
      | false =>
        simp only [hlowcode, Bool.false_eq_true, if_false] at hend
        rw [(hchar hend).1] at hhigh
        cases hhigh
      | true =>
        simp only [hlowcode, if_true] at hend
        obtain rfl : f = d := congrArg Prod.snd (Except.ok.inj hend)
        rw [hc, hlow] at h
        refine LoneSurrogate.pair hdigits hlowdigits hhigh hlowcode ?_
        simpa using h

/-! ### Strings -/

/-- A lone surrogate is ahead, or it is the escape that the backslash right before starts. -/
def AheadOfEscape (opened : List Opening) (c : Cursor) : Prop :=
  LoneSurrogate .string opened ('\\' :: c.after)

theorem mirrors_escape_ahead :
    Mirrors Always (At (AheadOfEscape opened)) escape escape fun _ => At (Ahead .string opened) := by
  have htake : Mirrors Always (At (AheadOfEscape opened)) take take fun o =>
      At fun c => ∀ x, o = some x → LoneSurrogate .string opened ('\\' :: x :: c.after) := by
    refine mirrors_at ?_
    rintro ⟨b, t⟩ o d hc h x rfl
    cases t with
    | nil => cases h
    | cons y t =>
      cases h
      exact hc
  refine htake.andThen fun next => ?_
  split
  · exact mirrors_at fun _ _ _ hc => ahead_codeEscape (hc 'u' rfl)
  · next x hu =>
    cases hx : shortEscapes.lookup x with
    | none => exact mirrors_expected _ _ _
    | some e =>
      refine mirrors_pure e ?_
      rintro c d ⟨hcd, hc⟩
      have hparen : x ≠ '(' := by rintro rfl; cases hx
      have hbehind : LoneSurrogate .escape opened (x :: c.after) :=
        (hc x rfl).tail (fun v _ => rfl) fun _ _ heq => hu (Option.some.inj heq)
      exact ⟨hcd, hbehind.step (by decide) fun v _ => Region.scan.eq_16 _ x v hparen⟩
  · exact mirrors_expected _ _ _

/-- One given character. -/
theorem mirrors_takeOne {I J : Cursor → Prop} {x : Char}
    (hIJ : ∀ b t, I ⟨b, x :: t⟩ → J ⟨x :: b, t⟩) :
    Mirrors Always (At I) (takeOneOf (String.singleton x)) (takeOneOf (String.singleton x))
      fun o => bif o.isSome then At J else At I := by
  rintro c d ⟨hcd, hc⟩ o e h -
  subst hcd
  refine ⟨e, ?_, h⟩
  obtain ⟨b, t⟩ := c
  cases t with
  | nil =>
    cases h
    exact ⟨rfl, hc⟩
  | cons y t =>
    rw [takeOneOf_cons, String.toList_singleton] at h
    split at h
    · next hy =>
      cases h
      obtain rfl := contains_singleton hy
      exact ⟨rfl, hIJ b t hc⟩
    · cases h
      exact ⟨rfl, hc⟩

section Holes

variable {pipe pipe' : Reader Pipeline}
  (hpipe : ∀ opened, Mirrors (fun _ c => c.after ≠ []) (At (AheadOfToken opened)) pipe pipe'
    fun _ => At (AheadOfToken opened))
include hpipe

/-- Code in a string, after its opening parenthesis. -/
theorem mirrors_hole_ahead :
    Mirrors Always (At (Ahead .code (.hole :: opened))) (do
      skipTrivia
      let p ← pipe
      match ← takeOneOf ")" with
      | some _ => return some (Piece.hole p)
      | none => expected .string "expected ')'") (do
      skipTrivia
      let p ← pipe'
      match ← takeOneOf ")" with
      | some _ => return some (Piece.hole p)
      | none => expected .string "expected ')'")
      fun o => At (Ahead (bif o.isSome then .string else .code) opened) := by
  have hclose : Mirrors Always (At (AheadOfToken (.hole :: opened))) (takeOneOf ")") (takeOneOf ")")
      fun o => bif o.isSome then At (Ahead .string opened) else
        At (AheadOfToken (.hole :: opened)) :=
    mirrors_takeOne (x := ')') fun b t h => h.2.step (by decide) fun v _ => rfl
  refine mirrors_skipTrivia_ahead.andThen fun _ => (hpipe _).bind (fun p => ?_) ?_
  · refine hclose.andThen fun closed => ?_
    cases closed with
    | none => exact mirrors_expected _ _ _
    | some x => exact mirrors_pure _ fun _ _ h => h
  · intro p o c d h _ hnil
    obtain ⟨b, t⟩ := c
    subst hnil
    cases h

/-- A piece of a string; the last one is the closing quote. -/
theorem mirrors_piece_ahead :
    Mirrors Always (At (Ahead .string opened)) (piece pipe) (piece pipe')
      fun o => At (Ahead (bif o.isSome then .string else .code) opened) := by
  have htake : Mirrors Always (At (Ahead .string opened)) take take fun o =>
      At fun c => ∃ x, o = some x ∧ LoneSurrogate .string opened (x :: c.after) := by
    refine mirrors_at ?_
    rintro ⟨b, t⟩ o d hc h
    cases t with
    | nil => exact absurd rfl hc.ne_nil
    | cons x t =>
      cases h
      exact ⟨x, rfl, hc⟩
  have hopen : Mirrors Always (At (AheadOfEscape opened)) (takeOneOf "(") (takeOneOf "(") fun o =>
      bif o.isSome then At (Ahead .code (.hole :: opened)) else At (AheadOfEscape opened) := by
    refine mirrors_takeOne (x := '(') fun b t h => ?_
    have hbehind : LoneSurrogate .escape opened ('(' :: t) :=
      LoneSurrogate.tail h (fun v _ => rfl) fun _ _ => by simp
    exact hbehind.step (by decide) fun v _ => rfl
  refine htake.andThen fun next => ?_
  split
  · exact mirrors_expected _ _ _
  · refine mirrors_pure none ?_
    rintro c d ⟨hcd, _, ⟨⟩, h⟩
    exact ⟨hcd, h.tail (fun v _ => rfl) fun _ heq => absurd heq (by decide)⟩
  · refine (hopen.andThen fun o => ?_).of ?_
    · cases o with
      | some x => exact mirrors_hole_ahead hpipe
      | none =>
        exact mirrors_escape_ahead.andThen fun x => mirrors_pure _ fun _ _ h => h
    · rintro c d ⟨hcd, _, ⟨⟩, h⟩
      exact ⟨hcd, h⟩
  · next x hquote hslash =>
    refine mirrors_pure _ ?_
    rintro c d ⟨hcd, _, ⟨⟩, h⟩
    exact ⟨hcd, h.tail (fun v _ => Region.scan.eq_14 _ x v hquote hslash) fun _ heq =>
      absurd heq hslash⟩

/-- A string, at its opening quote. -/
theorem mirrors_string_ahead (hforward : Forward pipe) (hforward' : Forward pipe') :
    Mirrors Always (fun c d => At (AheadOfToken opened) c d ∧ c.after.head? = some '"')
      (string pipe) (string pipe') fun _ => At (AheadOfToken opened) := by
  have hquote : Mirrors Always
      (fun c d => At (AheadOfToken opened) c d ∧ c.after.head? = some '"') take take
      fun _ => At (Ahead .string opened) := by
    rintro ⟨b, t⟩ d ⟨⟨hcd, hc⟩, hhead⟩ o e h -
    subst hcd
    obtain ⟨t, rfl⟩ := List.head?_eq_some_iff.1 hhead
    cases h
    exact ⟨_, ⟨rfl, hc.2.step (by decide) fun v _ => rfl⟩, rfl⟩
  have hpiece : Mirrors Always (At (Ahead .string opened)) (piece pipe) (piece pipe')
      fun o => bif o.isSome then At (Ahead .string opened) else At (Ahead .code opened) :=
    (mirrors_piece_ahead hpipe).imp fun o _ _ h => by cases o <;> exact h
  have hpieces : Mirrors (fun _ _ => True) (At (Ahead .string opened)) (many (piece pipe))
      (many (piece pipe')) fun _ => At (Ahead .code opened) :=
    hpiece.many (fun _ _ _ h _ => (piece_forward hforward).2 h trivial)
      (fun _ _ _ h _ => (piece_forward hforward').2 h trivial) (fun _ _ => trivial)
      fun _ _ _ _ _ _ => trivial
  exact hquote.andThen fun _ => hpieces.andThen fun _ => mirrors_skipTrivia_ahead.andThen fun _ =>
    mirrors_pure _ fun _ _ h => h

end Holes

/-! ### Programs -/

/-- A reading that leaves a lone surrogate ahead of it is linked with itself. -/
def Linking.lone : Linking where
  Near opened := At (Ahead .code opened)
  Settled opened := At (AheadOfToken opened)
  Within _ _ := True
  within_of_ne_nil _ := trivial
  within_back _ _ := trivial
  within_paren _ := trivial
  head h := .inl (h.1 ▸ rfl)
  mirrors_skipTrivia _ := mirrors_skipTrivia_ahead
  carries_symbolNotBefore h _ _ := by
    rw [symbolNotBefore_eq]
    exact mirrors_at fun _ _ _ => ahead_plain h
  carries_keyword h _ := by
    rw [keyword_eq]
    exact mirrors_at fun _ _ _ => ahead_plain h
  mirrors_single _ hscan := by
    rw [symbolNotBefore_eq, String.toList_singleton]
    refine mirrors_at fun _ _ _ => ahead_word fun t _ hlone => ?_
    exact hlone.step (by decide) fun v _ => hscan v
  carries_name _ := by
    rw [name_eq]
    exact mirrors_at fun _ _ _ => ahead_nameIf
  carries_variableName _ := by
    rw [variableName_eq]
    exact mirrors_at fun _ _ _ => ahead_nameIf
  carries_number _ := mirrors_number_ahead
  mirrors_string hforward hforward' hpipe _ := mirrors_string_ahead hpipe hforward hforward'

/-- A program text with a lone surrogate in a string is a syntax error. -/
theorem parse_lone_surrogate {s : String} (h : LoneSurrogate .code [] s.toList) :
    ∃ e, Pipeline.parse s = .error e := by
  cases hparse : Pipeline.parse s with
  | error e => exact ⟨e, rfl⟩
  | ok p =>
    obtain ⟨b, hpassage⟩ := parse_eq_ok.1 hparse
    obtain ⟨d, ⟨-, -, hahead⟩, -⟩ := mirrors_passage Linking.lone (Nat.le_refl _)
      (c := .start s.toList) ⟨rfl, h⟩ hpassage trivial
    exact absurd rfl (LoneSurrogate.ne_nil hahead)

/-! ### Strings in all writings -/

/-- A text between quotes, each character written in some way. -/
def quoted (writing : List (List Char)) : String := String.ofList ('"' :: writing.flatten ++ ['"'])

theorem parse_quoted_writing {writing : List (List Char)} {s : String}
    (h : List.Forall₂ WritesChar writing s.toList) :
    Pipeline.parse (quoted writing) = .ok [.string s] := by
  have hstring : ∀ depth, Reads (string (pipe (route depth))) ('"' :: (writing.flatten ++ ['"']))
      (.string s) (stripped []) := fun depth => written_reads h _ rfl
  have hdone : Reads (symbolNotBefore "|" "=") [] false [] := symbol_miss rfl
  refine parse_of_reads (program_of_pipe rfl ?_)
  exact ((quoted_readsBack .nothing (hstring _)).separated_one hdone).bind (takes_pure _)

end Source

open Source

/-- A text between quotes is read as the string that it writes, in whichever way each character is
    written. A program text is a syntax error if there is a surrogate in one of its strings that is
    escaped without the other half of its pair. -/
theorem Pipeline.parse_string_literal :
    (∀ (s : String) (writing : List (List Char)), List.Forall₂ WritesChar writing s.toList →
      Pipeline.parse (quoted writing) = .ok [.string s]) ∧
    ∀ source : String, LoneSurrogate .code [] source.toList →
      ∃ e, Pipeline.parse source = .error e :=
  ⟨fun _ _ => parse_quoted_writing, fun _ => parse_lone_surrogate⟩

/-- All four ways to write a character, a high surrogate in front of a line break and behind a hole,
    and a low surrogate at the start of a string. -/
theorem Pipeline.parse_string_literal_mixed :
    Pipeline.parse (quoted [['a'], ['\\', 'n'], "\\u00E9".toList, "\\uD83d\\uDe00".toList]) =
      .ok [.string "a\né😀"] ∧
    (∃ e, Pipeline.parse "\"\\(1)\\uD83D\\n\"" = .error e) ∧
    ∃ e, Pipeline.parse "\"\\uDE00\"" = .error e := by
  obtain ⟨hwritten, hlone⟩ := Pipeline.parse_string_literal
  refine ⟨hwritten _ _ ?_, hlone _ ?_, hlone _ ?_⟩
  · refine .cons (.raw (by decide) (by decide)) (.cons (.short (by decide)) ?_)
    refine .cons (.code ⟨by decide, by decide⟩) (.cons ?_ .nil)
    exact @WritesChar.pair "D83d".toList "De00".toList '😀' (by decide) ⟨by decide, by decide⟩
      ⟨by decide, by decide⟩
  · refine ⟨"\"\\(1)".toList, "D83D".toList, 0xd83d, "\\n\"".toList, rfl, rfl,
      ⟨by decide, by decide⟩, .inl ⟨rfl, ?_⟩⟩
    rintro ⟨digits, code, rest, h, -⟩
    cases h
  · refine ⟨['"'], "DE00".toList, 0xde00, ['"'], rfl, rfl, ⟨by decide, by decide⟩,
      .inr ⟨rfl, ?_⟩⟩
    rintro ⟨start, digits, code, h, -⟩
    cases start <;> simp at h

end JsonPipe
