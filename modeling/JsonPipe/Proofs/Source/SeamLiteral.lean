import JsonPipe.Proofs.Source.GrammarProgress
import JsonPipe.Proofs.Source.Seam

/-! Names, numbers and strings at a seam.

    The characters of a name or a number are no edges, so the seam lies before the token or behind
    it. A string is different: its characters are what they are, and the seam is inside only if the
    first text ends there, where no string can. -/

namespace JsonPipe.Source

open Reader

variable (σ : Seam) {opened : List Opening}

/-! ### Runs of characters -/

/-- A class of characters that a seam cannot cut. -/
structure IsRun (p : Char → Bool) : Prop where
  edge : ∀ x, isEdge x = true → p x = false
  inert : ∀ x, p x = true → Region.isInert x = true

theorem IsRun.ne_slash {p : Char → Bool} (hp : IsRun p) {x : Char} (hx : p x = true) : x ≠ '/' := by
  rintro rfl
  rw [hp.edge '/' (by decide)] at hx
  cases hx

theorem isRun_isNameChar : IsRun isNameChar where
  edge _ := isNameChar_of_isEdge
  inert x hx := by
    rw [← Bool.not_eq_false]
    intro h
    simp only [Region.isInert, Bool.not_eq_false', List.contains_eq_mem, List.mem_cons,
      List.not_mem_nil, or_false, decide_eq_true_eq] at h
    rcases h with rfl | rfl | rfl | rfl <;> revert hx <;> decide

theorem isRun_isDigit : IsRun Char.isDigit where
  edge x hx := by
    rw [← Bool.not_eq_true]
    intro hdigit
    have hname := isNameChar_of_isEdge hx
    rw [isNameChar_of_isDigit x hdigit] at hname
    cases hname
  inert _ hx := isRun_isNameChar.inert _ (isNameChar_of_isDigit _ hx)

theorem takeWhile_edged {p : Char → Bool} (hp : IsRun p) {t : List Char} (ht : Edged t)
    (v : List Char) : (v ++ t).takeWhile p = v.takeWhile p ∧
      (v ++ t).dropWhile p = v.dropWhile p ++ t := by
  induction v with
  | nil =>
    cases t with
    | nil => exact ⟨rfl, rfl⟩
    | cons x t => simp [hp.edge x (ht x rfl)]
  | cons x v ih =>
    obtain ⟨htake, hdrop⟩ := ih
    cases hx : p x <;> simp [hx, htake, hdrop]

theorem takeWhile_nil {p : Char → Bool} {c c' : Cursor} (h : takeWhile p c = .ok ([], c')) :
    c' = c := by
  obtain ⟨b, t⟩ := c
  have htake : t.takeWhile p = [] := congrArg Prod.fst (Except.ok.inj h)
  have hdrop := List.takeWhile_append_dropWhile (p := p) (l := t)
  rw [htake, List.nil_append] at hdrop
  rw [takeWhile, Cursor.span, htake, hdrop] at h
  cases h
  rfl

theorem span_near {p : Char → Bool} (hp : IsRun p) {c d : Cursor}
    (hcd : σ.Near .code opened c d) :
    (c.span p).1 = (d.span p).1 ∧ σ.Near .code opened (c.span p).2 (d.span p).2 := by
  cases hcd with
  | @ahead b b' v hb hv =>
    obtain ⟨htake, hdrop⟩ := takeWhile_edged hp σ.short_edged v
    obtain ⟨htake', hdrop'⟩ := takeWhile_edged hp σ.long_edged v
    simp only [Cursor.span, htake, hdrop, htake', hdrop']
    refine ⟨trivial, .ahead (hb.append _) ?_⟩
    have hrun : ∀ x ∈ v.takeWhile p, Region.isInert x = true ∧ x ≠ '/' := fun x hx =>
      have hpx := List.all_eq_true.1 List.all_takeWhile x hx
      ⟨hp.inert x hpx, hp.ne_slash hpx⟩
    rw [← List.takeWhile_append_dropWhile (p := p) (l := v), Region.scan_inert_append hrun] at hv
    exact hv
  | past hpast =>
    cases hrest : σ.rest with
    | none =>
      rw [hrest] at hpast
      simp only [Cursor.span, ← hpast.1]
      exact ⟨trivial, .past (hrest ▸ ⟨rfl, hpast.2.append _⟩)⟩
    | some r =>
      rw [hrest] at hpast
      obtain ⟨htake, hdrop⟩ := takeWhile_edged hp (edged_of_isClosing (σ.rest_closing r hrest)) []
      simp only [List.nil_append, List.takeWhile_nil, List.dropWhile_nil] at htake hdrop
      simp only [Cursor.span, hpast.1, hpast.2, htake, hdrop, List.takeWhile_nil,
        List.dropWhile_nil]
      exact ⟨trivial, .past (hrest ▸ ⟨rfl, rfl⟩)⟩

theorem mirrors_takeWhile {p : Char → Bool} (hp : IsRun p) :
    Mirrors Always (σ.Near .code opened) (takeWhile p) (takeWhile p)
      fun _ => σ.Near .code opened := by
  rintro c d hcd run c' h -
  obtain ⟨hrun, hnear⟩ := span_near σ hp hcd
  obtain ⟨rfl, rfl⟩ : (c.span p).1 = run ∧ (c.span p).2 = c' := by
    cases h
    exact ⟨rfl, rfl⟩
  exact ⟨(d.span p).2, hnear, by rw [hrun]; rfl⟩

/-! ### Names -/

/-- The character that a token starts with is the same in both texts, or it closes a pipeline where
    the first text ends. -/
theorem head_settled {c d : Cursor} (hcd : σ.Settled opened c d) :
    c.after.head? = d.after.head? ∨
      ∃ r, σ.rest = some r ∧ c.after = [] ∧ d.after = r := by
  cases hcd with
  | ahead hb hv =>
    obtain ⟨x, v, rfl⟩ := List.exists_cons_of_ne_nil hv.1
    exact .inl rfl
  | past hpast =>
    cases hrest : σ.rest with
    | none => exact .inl (by rw [hrest] at hpast; rw [hpast.1])
    | some r => exact .inr ⟨r, rfl, by rwa [hrest] at hpast⟩

theorem any_head_settled {c d : Cursor} (hcd : σ.Settled opened c d) {p : Char → Bool}
    (hp : ∀ x, isEdge x = true → p x = false) :
    c.after.head?.any p = d.after.head?.any p := by
  rcases head_settled σ hcd with h | ⟨r, hr, hc, hd⟩
  · rw [h]
  · rw [hc, hd, (edged_of_isClosing (σ.rest_closing r hr)).any hp]
    rfl

theorem isNameChar_of_isNameStart {x : Char} (h : isNameStart x = true) : isNameChar x = true := by
  rw [isNameStart, Bool.or_eq_true] at h
  rw [isNameChar, Char.isAlphanum, Bool.or_eq_true, Bool.or_eq_true]
  exact h.imp_left .inl

theorem nextName?_settled {c d : Cursor} (hcd : σ.Settled opened c d) :
    (nextName? c = none ∧ nextName? d = none) ∨
      ∃ s c' d', nextName? c = some (s, c') ∧ nextName? d = some (s, d') ∧
        σ.Near .code opened c' d' := by
  have hstart : ∀ x, isEdge x = true → isNameStart x = false := by
    intro x hx
    rw [← Bool.not_eq_true]
    intro h
    have hname := isNameChar_of_isEdge hx
    rw [isNameChar_of_isNameStart h] at hname
    cases hname
  have hhead := any_head_settled σ hcd hstart
  simp only [nextName?, ← hhead]
  split
  · obtain ⟨hrun, hnear⟩ := span_near σ isRun_isNameChar hcd.near
    exact .inr ⟨_, _, _, rfl, by rw [hrun], hnear⟩
  · exact .inl ⟨rfl, rfl⟩

theorem carries_nameIf (test : String → Bool) : σ.Carries Always (nameIf test) (nameIf test) := by
  rintro opened c d hcd found c' h -
  simp only [nameIf] at h ⊢
  rcases nextName?_settled σ hcd with ⟨hc, hd⟩ | ⟨s, e, e', hc, hd, hnear⟩
  · rw [hc] at h
    cases h
    exact ⟨d, hcd, by rw [hd]⟩
  · rw [hc] at h
    rw [hd]
    cases htest : test s with
    | false =>
      simp only [htest] at h ⊢
      cases h
      exact ⟨d, hcd, rfl⟩
    | true =>
      simp only [htest] at h ⊢
      obtain ⟨⟨⟩, c'', hskip, h⟩ := bind_eq_ok h
      cases h
      obtain ⟨d', hd', hskip'⟩ := σ.mirrors_skipTrivia hnear hskip trivial
      exact ⟨d', hd', bind_ok hskip'⟩

theorem carries_name : σ.Carries Always name name := name_eq ▸ carries_nameIf σ _

theorem carries_variableName : σ.Carries Always variableName variableName :=
  variableName_eq ▸ carries_nameIf σ _

/-! ### Numbers -/

theorem takeOneOf_cons (set : String) (b t : List Char) (x : Char) :
    takeOneOf set ⟨b, x :: t⟩ =
      if set.toList.contains x then .ok (some x, ⟨x :: b, t⟩) else .ok (none, ⟨b, x :: t⟩) := rfl

theorem takeOneOf_none {set : String} {c : Cursor}
    (h : c.after.head?.any set.toList.contains = false) : takeOneOf set c = .ok (none, c) := by
  obtain ⟨b, t⟩ := c
  cases t with
  | nil => rfl
  | cons x t => rw [takeOneOf_cons, if_neg (by simpa using h)]

/-- One of several characters. A miss counts if none of them is an edge. -/
theorem mirrors_takeOneOf {region region' : Region} {opened' : List Opening} {set : String}
    {ok : Option Char → Cursor → Prop}
    (hblank : ∀ x, Text.isBlank x = true → set.toList.contains x = false)
    (hmiss : ∀ c, ok none c → ∀ x, isEdge x = true → set.toList.contains x = false)
    (hscan : ∀ x v, set.toList.contains x = true →
      region.scan opened (x :: v) = region'.scan opened' v) :
    Mirrors ok (σ.Near region opened) (takeOneOf set) (takeOneOf set) fun o =>
      bif o.isSome then σ.Near region' opened' else σ.Near region opened := by
  intro c d hcd o c' h hok
  cases hcd with
  | @ahead b b' v hb hv =>
    cases v with
    | nil =>
      have hshort : σ.short.head?.any set.toList.contains = false := by
        cases hs : σ.short with
        | nil => rfl
        | cons x t => exact hblank x (σ.short_blank x (by rw [hs]; rfl))
      rw [takeOneOf_none hshort] at h
      cases h
      exact ⟨_, .ahead hb hv, takeOneOf_none (σ.long_edged.any (hmiss _ hok))⟩
    | cons x v =>
      rw [List.cons_append, takeOneOf_cons] at h
      rw [List.cons_append, takeOneOf_cons]
      cases hx : set.toList.contains x with
      | true =>
        rw [hx] at h
        cases h
        exact ⟨_, .ahead (hb.append [x]) (hscan x v hx ▸ hv), rfl⟩
      | false =>
        rw [hx] at h
        cases h
        exact ⟨_, .ahead (v := x :: v) hb hv, rfl⟩
  | past hpast =>
    cases hrest : σ.rest with
    | none =>
      rw [hrest] at hpast
      obtain ⟨b, t⟩ := c
      obtain ⟨b', t'⟩ := d
      obtain ⟨rfl, hb⟩ := hpast
      cases t with
      | nil => cases h; exact ⟨_, .past (hrest ▸ ⟨rfl, hb⟩), rfl⟩
      | cons x t =>
        rw [takeOneOf_cons] at h ⊢
        cases hx : set.toList.contains x with
        | true => rw [hx] at h; cases h; exact ⟨_, .past (hrest ▸ ⟨rfl, rfl⟩), rfl⟩
        | false => rw [hx] at h; cases h; exact ⟨_, .past (hrest ▸ ⟨rfl, hb⟩), rfl⟩
    | some r =>
      rw [hrest] at hpast
      rw [takeOneOf_none (by rw [hpast.1]; rfl)] at h
      cases h
      have hr := edged_of_isClosing (σ.rest_closing r hrest)
      refine ⟨d, .past (hrest ▸ hpast), takeOneOf_none ?_⟩
      rw [hpast.2, hr.any (hmiss _ hok)]

/-- One of several characters that a number is written with. -/
theorem mirrors_takeOneOf_code {set : String}
    (hset : set.toList.all (fun x => !isEdge x && Region.isInert x) = true) :
    Mirrors Always (σ.Near .code opened) (takeOneOf set) (takeOneOf set)
      fun _ => σ.Near .code opened := by
  have hmem : ∀ x, set.toList.contains x = true → isEdge x = false ∧ Region.isInert x = true := by
    intro x hx
    simpa using List.all_eq_true.1 hset x (List.contains_iff_mem.1 hx)
  have hedge : ∀ x, isEdge x = true → set.toList.contains x = false := by
    intro x hx
    rw [← Bool.not_eq_true]
    intro hcontains
    rw [(hmem x hcontains).1] at hx
    cases hx
  refine (mirrors_takeOneOf σ ?_ (fun _ _ => hedge) ?_).imp fun o _ _ h => by cases o <;> exact h
  · intro x hx
    exact hedge x (by rw [isEdge, hx, Bool.true_or])
  · intro x v hx
    refine Region.scan_inert (hmem x hx).2 ?_ opened
    rintro u rfl
    exact absurd (hmem '/' hx).1 (by decide)

section Numbers

variable {P P' : Cursor → Cursor → Prop}
  (hone : ∀ {set : String}, set.toList.all (fun x => !isEdge x && Region.isInert x) = true →
    Mirrors Always P (takeOneOf set) (takeOneOf set) fun _ => P)
  (hrun : ∀ {p : Char → Bool}, IsRun p → Mirrors Always P (takeWhile p) (takeWhile p) fun _ => P)

include hone hrun

theorem mirrors_exponent : Mirrors Always P exponent exponent fun _ => P := by
  refine (hone (by decide)).andThen fun letter => ?_
  cases letter with
  | none => exact mirrors_pure 0 fun _ _ h => h
  | some x =>
    refine (hone (by decide)).andThen fun sign => ?_
    refine (hrun isRun_isDigit).andThen fun ds => ?_
    cases hempty : ds.isEmpty with
    | true => exact mirrors_expected _ _ _
    | false =>
      split <;> exact mirrors_pure _ fun _ _ h => h

/-- Places that stay related along single characters and runs stay related along a number. Behind
    its first digits they are related as inside of a token, and behind what follows it as before. -/
theorem mirrors_number
    (hdigits : Mirrors Always P' (takeWhile Char.isDigit) (takeWhile Char.isDigit)
      fun ds => bif ds.isEmpty then P' else P)
    (htrivia : Mirrors Always P skipTrivia skipTrivia fun _ => P') :
    Mirrors Always P' number number fun _ => P' := by
  have hend : ∀ whole fraction : List Char, Mirrors Always P (do
      let power ← exponent
      skipTrivia
      return some (Decimal.toNumber ⟨digitsValue (whole ++ fraction), power - fraction.length⟩)) (do
      let power ← exponent
      skipTrivia
      return some (Decimal.toNumber ⟨digitsValue (whole ++ fraction), power - fraction.length⟩))
      fun _ => P' :=
    fun whole fraction => (mirrors_exponent hone hrun).andThen fun power =>
      htrivia.andThen fun _ => mirrors_pure _ fun _ _ h => h
  refine hdigits.andThen fun whole => ?_
  cases hempty : whole.isEmpty with
  | true => exact mirrors_pure none fun _ _ h => h
  | false =>
    refine (hone (by decide)).andThen fun point => ?_
    cases point with
    | none => exact hend whole []
    | some x => exact (hrun isRun_isDigit).andThen (hend whole)

end Numbers

/-- Digits at the start of a token; if there are none, the token is another one. -/
theorem mirrors_digits :
    Mirrors Always (σ.Settled opened) (takeWhile Char.isDigit) (takeWhile Char.isDigit)
      fun ds => bif ds.isEmpty then σ.Settled opened else σ.Near .code opened := by
  rintro c d hcd ds c' h -
  obtain ⟨d', hd', hrun⟩ := mirrors_takeWhile σ isRun_isDigit hcd.near h trivial
  refine ⟨d', ?_, hrun⟩
  cases ds with
  | nil =>
    rw [takeWhile_nil h, takeWhile_nil hrun]
    exact hcd
  | cons x ds => exact hd'

theorem carries_number : σ.Carries Always number number := fun _ =>
  mirrors_number (mirrors_takeOneOf_code σ) (mirrors_takeWhile σ) (mirrors_digits σ)
    σ.mirrors_skipTrivia

/-! ### Strings -/

/-- A character of the first text is there in the second too, unless it is the seam's. -/
theorem cons_linked {S : List Char → Prop} (hS : S [] → σ.short = []) {b t : List Char} {x : Char}
    {d : Cursor} (hcd : σ.Linked S ⟨b, x :: t⟩ d) :
    ∃ b' t', d = ⟨b', x :: t'⟩ ∧ ∀ {S' : List Char → Prop}, (∀ v, S (x :: v) → S' v) →
      σ.Linked S' ⟨x :: b, t⟩ ⟨x :: b', t'⟩ := by
  generalize hc : (⟨b, x :: t⟩ : Cursor) = c at hcd
  cases hcd with
  | @ahead b₁ b' v hb hv =>
    cases v with
    | nil =>
      rw [hS hv] at hc
      cases hc
    | cons y v =>
      cases hc
      exact ⟨b', v ++ σ.long, rfl, fun hS' => .ahead (hb.append [x]) (hS' v hv)⟩
  | past hpast =>
    subst hc
    cases hrest : σ.rest with
    | none =>
      rw [hrest] at hpast
      obtain ⟨b', t'⟩ := d
      obtain ⟨rfl, hb⟩ := hpast
      exact ⟨b', t, rfl, fun _ => .past (hrest ▸ ⟨rfl, rfl⟩)⟩
    | some r =>
      rw [hrest] at hpast
      cases hpast.1

/-- The text of a string is the same in both texts: if the seam were next, the first text would end
    there. -/
theorem cons_near {region : Region} (hregion : region ≠ .code) {b t : List Char} {x : Char}
    {d : Cursor} (hcd : σ.Near region opened ⟨b, x :: t⟩ d) :
    ∃ b' t', d = ⟨b', x :: t'⟩ ∧ ∀ {region' : Region} {opened' : List Opening},
      (∀ v, region.scan opened (x :: v) = region'.scan opened' v) →
        σ.Near region' opened' ⟨x :: b, t⟩ ⟨x :: b', t'⟩ := by
  have hend : σ.allows (region.scan opened []) → σ.short = [] := by
    rw [Region.scan.eq_17]
    exact fun h => σ.short_eq_nil region h hregion
  obtain ⟨b', t', rfl, hnext⟩ := cons_linked σ hend hcd
  exact ⟨b', t', rfl, fun hscan => hnext fun v hv => hscan v ▸ hv⟩

/-- The character that is taken decides what region comes next. -/
theorem mirrors_take {region : Region} (hregion : region ≠ .code) :
    Mirrors (fun o _ => o ≠ none) (σ.Near region opened) take take fun o c d =>
      ∃ x, o = some x ∧ ∀ {region' : Region} {opened' : List Opening},
        (∀ v, region.scan opened (x :: v) = region'.scan opened' v) →
          σ.Near region' opened' c d := by
  rintro ⟨b, t⟩ d hcd o c' h ho
  cases t with
  | nil => cases h; exact absurd rfl ho
  | cons x t =>
    cases h
    obtain ⟨b', t', rfl, hnext⟩ := cons_near σ hregion hcd
    exact ⟨⟨x :: b', t'⟩, ⟨x, rfl, hnext⟩, rfl⟩

theorem hexDigit_cons (b t : List Char) (x : Char) :
    hexDigit ⟨b, x :: t⟩ = match hexValue? x with
      | some n => .ok (n, ⟨x :: b, t⟩)
      | none => expected .string "expected hex digit" ⟨b, x :: t⟩ := by
  show (match hexValue? x with
    | some n => do let _ ← take; return n
    | none => expected .string "expected hex digit" : Reader Nat) ⟨b, x :: t⟩ = _
  cases hexValue? x <;> rfl

theorem mirrors_hexDigit :
    Mirrors Always (σ.Near .string opened) hexDigit hexDigit fun _ => σ.Near .string opened := by
  rintro ⟨b, t⟩ d hcd n c' h -
  cases t with
  | nil => cases h
  | cons x t =>
    obtain ⟨b', t', rfl, hnext⟩ := cons_near σ (by decide) hcd
    rw [hexDigit_cons] at h ⊢
    cases hx : hexValue? x with
    | none => rw [hx] at h; cases h
    | some m =>
      rw [hx] at h
      cases h
      have hquote : x ≠ '"' := by rintro rfl; cases hx
      have hslash : x ≠ '\\' := by rintro rfl; cases hx
      exact ⟨_, hnext fun v => Region.scan.eq_14 _ x v hquote hslash, rfl⟩

theorem mirrors_hex4 :
    Mirrors Always (σ.Near .string opened) hex4 hex4 fun _ => σ.Near .string opened :=
  (mirrors_hexDigit σ).andThen fun _ => (mirrors_hexDigit σ).andThen fun _ =>
    (mirrors_hexDigit σ).andThen fun _ => (mirrors_hexDigit σ).andThen fun _ =>
      mirrors_pure _ fun _ _ h => h

/-- Where the first text ends, the second ends too or goes on with an edge. -/
theorem edged_near {region : Region} {b : List Char} {d : Cursor}
    (hcd : σ.Near region opened ⟨b, []⟩ d) : Edged d.after := by
  generalize hc : (⟨b, []⟩ : Cursor) = c at hcd
  cases hcd with
  | @ahead b₁ b' v hb hv =>
    have hnil : v = [] := (List.append_eq_nil_iff.1 (congrArg Cursor.after hc).symm).1
    rw [hnil]
    exact σ.long_edged
  | past hpast =>
    subst hc
    cases hrest : σ.rest with
    | none =>
      rw [hrest] at hpast
      intro x hx
      rw [← hpast.1] at hx
      cases hx
    | some r =>
      rw [hrest] at hpast
      rw [hpast.2]
      exact edged_of_isClosing (σ.rest_closing r hrest)

/-- The start of another escape by code is there in both texts or in neither. -/
theorem phrase_near {b b' t t' : List Char} (hcd : σ.Near .string opened ⟨b, t⟩ ⟨b', t'⟩) :
    (['\\', 'u'].isPrefixOf t = false ∧ ['\\', 'u'].isPrefixOf t' = false) ∨
      ∃ u u', t = '\\' :: 'u' :: u ∧ t' = '\\' :: 'u' :: u' ∧
        σ.Near .string opened ⟨'u' :: '\\' :: b, u⟩ ⟨'u' :: '\\' :: b', u'⟩ := by
  have hmiss : ∀ (x : Char) (phrase : List Char) {w : List Char}, Edged w → isEdge x = false →
      (x :: phrase).isPrefixOf w = false := by
    intro x phrase w hw hx
    cases w with
    | nil => rfl
    | cons y w =>
      have hne : x ≠ y := by
        rintro rfl
        rw [hw x rfl] at hx
        cases hx
      simp [List.isPrefixOf, hne]
  cases t with
  | nil => exact .inl ⟨rfl, hmiss '\\' ['u'] (edged_near σ hcd) (by decide)⟩
  | cons x t =>
    obtain ⟨_, u', ⟨⟩, hnext⟩ := cons_near σ (by decide) hcd
    by_cases hx : '\\' = x
    · subst hx
      have hescape : σ.Near .escape opened ⟨'\\' :: b, t⟩ ⟨'\\' :: b', u'⟩ := hnext fun v => rfl
      cases t with
      | nil => exact .inl ⟨rfl, hmiss 'u' [] (edged_near σ hescape) (by decide)⟩
      | cons y t =>
        obtain ⟨_, w', ⟨⟩, hstring⟩ := cons_near σ (by decide) hescape
        by_cases hy : 'u' = y
        · subst hy
          exact .inr ⟨t, w', rfl, rfl, hstring fun v => rfl⟩
        · exact .inl (by simp [List.isPrefixOf, hy])
    · exact .inl (by simp [List.isPrefixOf, hx])

theorem mirrors_takePhrase :
    Mirrors Always (σ.Near .string opened) (takePhrase "\\u") (takePhrase "\\u")
      fun _ => σ.Near .string opened := by
  rintro ⟨b, t⟩ ⟨b', t'⟩ hcd hit c' h -
  have htake : ∀ c : Cursor, takePhrase "\\u" c =
      .ok ((c.pass? ['\\', 'u']).elim (false, c) fun c' => (true, c')) := by
    intro c
    rw [takePhrase]
    cases hpass : c.pass? "\\u".toList with
    | some c' => rw [show c.pass? ['\\', 'u'] = some c' from hpass]; rfl
    | none => rw [show c.pass? ['\\', 'u'] = none from hpass]; rfl
  rw [htake] at h ⊢
  rw [pass?_eq] at h ⊢
  rcases phrase_near σ hcd with ⟨hc, hd⟩ | ⟨u, u', rfl, rfl, hnear⟩
  · rw [hc] at h
    cases h
    exact ⟨_, hcd, by rw [hd]; rfl⟩
  · cases h
    exact ⟨_, hnear, rfl⟩

theorem mirrors_charOfCode (n : Nat) :
    Mirrors Always (σ.Near .string opened) (charOfCode n) (charOfCode n)
      fun _ => σ.Near .string opened := by
  rw [charOfCode]
  split
  · exact mirrors_expected _ _ _
  · exact mirrors_pure _ fun _ _ h => h

theorem mirrors_codeEscape :
    Mirrors Always (σ.Near .string opened) codeEscape codeEscape
      fun _ => σ.Near .string opened := by
  refine (mirrors_hex4 σ).andThen fun first => ?_
  split
  · refine (mirrors_takePhrase σ).andThen fun paired => ?_
    cases paired with
    | false => exact mirrors_charOfCode σ first
    | true =>
      refine (mirrors_hex4 σ).andThen fun second => ?_
      split
      · exact mirrors_pure _ fun _ _ h => h
      · exact mirrors_charOfCode σ first
  · exact mirrors_charOfCode σ first

theorem mirrors_escape :
    Mirrors Always (σ.Near .escape opened) escape escape fun _ => σ.Near .string opened := by
  -- a parenthesis is no escape, so the region after the character is the string again
  refine (mirrors_take σ (by decide)).bind (fun next => ?_) ?_
  · split
    · refine (mirrors_codeEscape σ).of ?_
      rintro c d ⟨_, ⟨⟩, hnext⟩
      exact hnext fun v => rfl
    · next x _ =>
      cases hx : shortEscapes.lookup x with
      | none => exact mirrors_expected _ _ _
      | some e =>
        refine mirrors_pure e ?_
        rintro c d ⟨_, ⟨⟩, hnext⟩
        exact hnext fun v => Region.scan.eq_16 _ x v (by rintro rfl; cases hx)
    · exact mirrors_expected _ _ _
  · rintro next x c d h - rfl
    cases h

theorem contains_singleton {x y : Char} (h : [x].contains y = true) : y = x := by
  simpa using h

/-- Code in a string, after its opening parenthesis. The closing parenthesis is taken, so the
    pipeline before it does not end the first text. -/
theorem mirrors_hole {pipe pipe' : Reader Pipeline}
    (hpipe : σ.Carries (fun _ c => c.after ≠ []) pipe pipe') :
    Mirrors Always (σ.Near .code (.hole :: opened)) (do
      skipTrivia
      let p ← pipe
      match ← takeOneOf ")" with
      | some _ => return some (Piece.hole p)
      | none => expected .string "expected ')'") (do
      skipTrivia
      let p ← pipe'
      match ← takeOneOf ")" with
      | some _ => return some (Piece.hole p)
      | none => expected .string "expected ')'")
      fun o => bif o.isSome then σ.Near .string opened else σ.Near .code opened := by
  have hclose : Mirrors (fun o _ => o ≠ none) (σ.Settled (.hole :: opened)) (takeOneOf ")")
      (takeOneOf ")") fun o =>
        bif o.isSome then σ.Near .string opened else σ.Near .code (.hole :: opened) := by
    refine (mirrors_takeOneOf σ ?_ (fun c h => absurd rfl h) ?_).of fun c d h => h.near
    · intro x hx
      rw [← Bool.not_eq_true]
      intro hcontains
      rw [contains_singleton hcontains] at hx
      revert hx
      decide
    · intro x v hx
      rw [contains_singleton hx]
      rfl
  refine σ.mirrors_skipTrivia.andThen fun _ => (hpipe _).bind (fun p => ?_) ?_
  · refine hclose.bind (fun closed => ?_) ?_
    · cases closed with
      | none => exact mirrors_expected _ _ _
      | some x => exact mirrors_pure _ fun _ _ h => h
    · rintro closed o c d h - rfl
      cases h
  · intro p o c d h _ hnil
    obtain ⟨b, t⟩ := c
    subst hnil
    cases h

/-- A piece of a string; the last one is the closing quote. -/
theorem mirrors_piece {pipe pipe' : Reader Pipeline}
    (hpipe : σ.Carries (fun _ c => c.after ≠ []) pipe pipe') :
    Mirrors Always (σ.Near .string opened) (piece pipe) (piece pipe')
      fun o => bif o.isSome then σ.Near .string opened else σ.Near .code opened := by
  have hopen : Mirrors Always (σ.Near .escape opened) (takeOneOf "(") (takeOneOf "(") fun o =>
      bif o.isSome then σ.Near .code (.hole :: opened) else σ.Near .escape opened := by
    have hedge : ∀ x, isEdge x = true → "(".toList.contains x = false := by
      intro x hx
      rw [← Bool.not_eq_true]
      intro hcontains
      rw [contains_singleton hcontains] at hx
      revert hx
      decide
    refine mirrors_takeOneOf σ (fun x hx => hedge x ?_) (fun _ _ => hedge) ?_
    · rw [isEdge, hx, Bool.true_or]
    · intro x v hx
      rw [contains_singleton hx]
      rfl
  refine (mirrors_take σ (by decide)).bind (fun next => ?_) ?_
  · split
    · exact mirrors_expected _ _ _
    · refine mirrors_pure none ?_
      rintro c d ⟨_, ⟨⟩, hnext⟩
      exact hnext fun v => rfl
    · refine (hopen.andThen fun o => ?_).of ?_
      · cases o with
        | some x => exact mirrors_hole σ hpipe
        | none => exact (mirrors_escape σ).andThen fun x => mirrors_pure _ fun _ _ h => h
      · rintro c d ⟨_, ⟨⟩, hnext⟩
        exact hnext fun v => rfl
    · next x hquote hslash =>
      refine mirrors_pure _ ?_
      rintro c d ⟨_, ⟨⟩, hnext⟩
      exact hnext fun v => Region.scan.eq_14 _ x v hquote hslash
  · rintro next x c d h - rfl
    cases h

/-- A string, at its opening quote. -/
theorem mirrors_string {pipe pipe' : Reader Pipeline} (hforward : Forward pipe)
    (hforward' : Forward pipe') (hpipe : σ.Carries (fun _ c => c.after ≠ []) pipe pipe') :
    Mirrors Always (fun c d => σ.Settled opened c d ∧ c.after.head? = some '"') (string pipe)
      (string pipe') fun _ => σ.Settled opened := by
  have hquote : Mirrors Always (fun c d => σ.Settled opened c d ∧ c.after.head? = some '"') take
      take fun _ => σ.Near .string opened := by
    rintro ⟨b, t⟩ d ⟨hcd, hhead⟩ o c' h -
    obtain ⟨t, rfl⟩ := List.head?_eq_some_iff.1 hhead
    obtain ⟨b', t', rfl, hnext⟩ := cons_linked σ (fun h => absurd rfl h.1) hcd
    cases h
    exact ⟨⟨'"' :: b', t'⟩, hnext fun v hv => hv.2.2, rfl⟩
  have hpieces : Mirrors (fun _ _ => True) (σ.Near .string opened) (many (piece pipe))
      (many (piece pipe')) fun _ => σ.Near .code opened :=
    (mirrors_piece σ hpipe).many (fun _ _ _ h _ => (piece_forward hforward).2 h trivial)
      (fun _ _ _ h _ => (piece_forward hforward').2 h trivial) (fun _ _ => trivial)
      fun _ _ _ _ _ _ => trivial
  exact hquote.andThen fun _ => hpieces.andThen fun _ => σ.mirrors_skipTrivia.andThen fun _ =>
    mirrors_pure _ fun _ _ h => h

end JsonPipe.Source
