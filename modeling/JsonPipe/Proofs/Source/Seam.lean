import JsonPipe.Proofs.Source.Mirrors
import JsonPipe.Proofs.Source.Spelling
import JsonPipe.Source.Region

/-! Two texts that differ at one place.

    Two texts start alike up to a place, the seam. There the first goes on with `short` and the
    second with `long`: white space against other trivia, or the end of the text against a symbol
    that closes what came before. Behind the seam the texts are the same again, or the first one has
    ended. While a reader goes through both texts, its two places are linked (`Seam.Linked`): the
    seam is still ahead, or it lies behind. Every basic reader keeps the places linked, and the
    region that the parser is in at the seam is the one that the text up to there ends in. -/

namespace JsonPipe

/-! ### Regions of a text -/

namespace Region

/-- The character is no parenthesis and starts no string and no comment up to the end of the line. -/
def isInert (x : Char) : Bool := !(['"', '#', '(', ')'].contains x)

theorem scan_inert {x : Char} {t : List Char} (hx : isInert x = true)
    (hcomment : ∀ u, x = '/' → t ≠ '*' :: u) (opened : List Opening) :
    Region.code.scan opened (x :: t) = Region.code.scan opened t := by
  simp only [isInert, List.contains_cons, List.contains_nil, Bool.or_false, Bool.not_eq_true',
    Bool.or_eq_false_iff, beq_eq_false_iff_ne] at hx
  obtain ⟨hquote, hhash, hopen, hclose⟩ := hx
  exact scan.eq_7 opened x t hquote hhash hcomment hopen hclose fun _ _ h => hclose h

theorem scan_inert_append {run : List Char} (hrun : ∀ x ∈ run, isInert x = true ∧ x ≠ '/')
    (opened : List Opening) (t : List Char) :
    Region.code.scan opened (run ++ t) = Region.code.scan opened t := by
  induction run with
  | nil => rfl
  | cons x run ih =>
    obtain ⟨hx, hrun⟩ := List.forall_mem_cons.1 hrun
    rw [List.cons_append, scan_inert hx.1 (fun _ h => absurd h hx.2), ih hrun]

end Region

/-- The region that a place in trivia is in. -/
def Cursor.Trivia.region : Cursor.Trivia → Region
  | .between => .code
  | .line => .line
  | .block _ => .block

namespace Source

open Reader

/-! ### Seams -/

/-- The characters that may come right after a seam: white space, the start of a comment, or a
    symbol that closes a pipeline. -/
def isEdge (x : Char) : Bool := Text.isBlank x || ['/', '#', ')', ']', '|'].contains x

/-- If the text goes on, it does with an edge. -/
def Edged (t : List Char) : Prop := ∀ x, t.head? = some x → isEdge x = true

/-- The text starts with a symbol that closes a pipeline. -/
def isClosing : List Char → Bool
  | ')' :: _ => true
  | ']' :: _ => true
  | '|' :: t => t.head? != some '='
  | _ => false

/-- Both texts go on with a character of a name, or neither does. -/
def Alike (b b' : List Char) : Prop := b.head?.any isNameChar = b'.head?.any isNameChar

/-- The places behind a seam: the rest of the text is the same, or the first text has ended and the
    second goes on with what is given. -/
def Rejoined : Option (List Char) → Cursor → Cursor → Prop
  | none, c, d => c.after = d.after ∧ Alike c.before d.before
  | some r, c, d => c.after = [] ∧ d.after = r

/-- A place where one text goes on with `short` and another with `long`. -/
structure Seam where
  short : List Char
  long : List Char
  /-- What is left of the second text when the first has ended, if it ends at the seam. -/
  rest : Option (List Char)
  /-- The regions that the seam may be in. -/
  allows : Region → Prop
  short_blank : ∀ x, short.head? = some x → Text.isBlank x = true
  long_edged : Edged long
  rest_closing : ∀ r, rest = some r → isClosing r = true
  /-- In a comment or a string the first text ends. -/
  short_eq_nil : ∀ region, allows region → region ≠ .code → short = []
  /-- Trivia that goes on over the seam ends behind it. -/
  crosses : ∀ {mode mode' : Cursor.Trivia} {b b' : List Char} {c : Cursor},
    mode.region = mode'.region → allows mode.region → Alike b b' →
      Cursor.skipTrivia mode b short = .ok c →
        ∃ d, Rejoined rest c d ∧ Cursor.skipTrivia mode' b' long = .ok d

namespace Seam

variable (σ : Seam)

/-- The seam is ahead, after a text of the given kind, or it lies behind. -/
inductive Linked (S : List Char → Prop) : Cursor → Cursor → Prop
  | ahead {b b' v : List Char} (hb : Alike b b') (hv : S v) :
      Linked S ⟨b, v ++ σ.short⟩ ⟨b', v ++ σ.long⟩
  | past {c d : Cursor} (h : Rejoined σ.rest c d) : Linked S c d

/-- Linked places in the given region, with the given parentheses open. -/
def Near (region : Region) (opened : List Opening) : Cursor → Cursor → Prop :=
  σ.Linked fun v => σ.allows (region.scan opened v)

/-- Linked places where a token starts. -/
def Settled (opened : List Opening) : Cursor → Cursor → Prop :=
  σ.Linked fun v => v ≠ [] ∧ isSolid v = true ∧ σ.allows (Region.code.scan opened v)

theorem Settled.near {σ : Seam} {opened : List Opening} {c d : Cursor}
    (h : σ.Settled opened c d) : σ.Near .code opened c d := by
  cases h with
  | ahead hb hv => exact .ahead hb hv.2.2
  | past h => exact .past h

/-- A token starts before the seam, so where the first text has ended the seam lies behind. -/
theorem Settled.at_end {σ : Seam} {opened : List Opening} {c d : Cursor}
    (h : σ.Settled opened c d) (hend : c.after = []) : Rejoined σ.rest c d := by
  cases h with
  | ahead _ hv => exact absurd (List.append_eq_nil_iff.1 hend).1 hv.1
  | past h => exact h

/-- The first text has not ended where the second goes on with the given symbol. -/
def Within (x : Char) (c : Cursor) : Prop :=
  ∀ r, σ.rest = some r → r.head? = some x → c.after ≠ []

theorem within_of_ne_nil {x : Char} {c : Cursor} (h : c.after ≠ []) : σ.Within x c :=
  fun _ _ _ => h

theorem Within.back {σ : Seam} {x : Char} {c d : Cursor} (h : c.Leads d) (hd : σ.Within x d) :
    σ.Within x c :=
  fun r hr hx => h.after_ne_nil (hd r hr hx)

/-! ### Characters -/

theorem short_edged : Edged σ.short := by
  intro x hx
  rw [isEdge, σ.short_blank x hx, Bool.true_or]

end Seam

theorem Alike.append {b b' : List Char} (h : Alike b b') (run : List Char) :
    Alike (run ++ b) (run ++ b') := by
  cases run with
  | nil => exact h
  | cons x run => rfl

theorem Edged.any {t : List Char} (ht : Edged t) {p : Char → Bool}
    (hp : ∀ x, isEdge x = true → p x = false) : t.head?.any p = false := by
  cases t with
  | nil => rfl
  | cons x t => exact hp x (ht x rfl)

theorem edged_of_isClosing {r : List Char} (h : isClosing r = true) : Edged r := by
  unfold isClosing at h
  split at h
  · rintro x ⟨⟩; decide
  · rintro x ⟨⟩; decide
  · rintro x ⟨⟩; decide
  · cases h

theorem isSolid_of_isClosing {r : List Char} (h : isClosing r = true) : isSolid r = true := by
  unfold isClosing at h
  split at h
  · rfl
  · rfl
  · rfl
  · cases h

theorem isBlank_of_isNameChar {x : Char} (h : isNameChar x = true) : Text.isBlank x = false := by
  obtain ⟨hlow, hhigh⟩ := toNat_of_isNameChar h
  simp only [Text.isBlank, Text.blankRanges, List.any_cons, List.any_nil, Bool.or_false,
    Bool.or_eq_false_iff, Bool.and_eq_false_iff, decide_eq_false_iff_not]
  omega

theorem isNameChar_of_isEdge {x : Char} (h : isEdge x = true) : isNameChar x = false := by
  rw [← Bool.not_eq_true]
  intro hname
  rw [isEdge, isBlank_of_isNameChar hname, Bool.false_or] at h
  simp only [List.contains_eq_mem, List.mem_cons, List.not_mem_nil, or_false,
    decide_eq_true_eq] at h
  rcases h with rfl | rfl | rfl | rfl | rfl <;> revert hname <;> decide

/-- White space is code by itself. -/
theorem isInert_of_isBlank {x : Char} (h : Text.isBlank x = true) :
    Region.isInert x = true ∧ x ≠ '/' := by
  refine ⟨?_, by rintro rfl; revert h; decide⟩
  rw [← Bool.not_eq_false]
  intro hx
  simp only [Region.isInert, Bool.not_eq_false', List.contains_eq_mem, List.mem_cons,
    List.not_mem_nil, or_false, decide_eq_true_eq] at hx
  rcases hx with rfl | rfl | rfl | rfl <;> revert h <;> decide

/-! ### Trivia -/

theorem not_comment_append {x : Char} {v t : List Char} (ht : Edged t)
    (h : ∀ u, x = '/' → v ≠ '*' :: u) : ∀ u, x = '/' → v ++ t ≠ '*' :: u := by
  intro u hx hu
  cases v with
  | nil =>
    have hedge := ht '*' (by rw [← List.nil_append t, hu]; rfl)
    revert hedge
    decide
  | cons y v =>
    cases hu
    exact h v hx rfl

theorem isSolid_cons {x : Char} {t : List Char} (hopen : ∀ u, x = '/' → t ≠ '*' :: u)
    (hline : x ≠ '#') (hblank : ¬ Text.isBlank x = true) : isSolid (x :: t) = true := by
  unfold isSolid
  split
  · next u hu =>
    cases hu
    exact absurd rfl (hopen _ rfl)
  · next hu =>
    cases hu
    exact absurd rfl hline
  · next hu =>
    cases hu
    simpa using hblank
  · next hu => cases hu

/-- Trivia in front of the seam. The two texts are the same up to there, and so is what is passed
    over; what is passed over beyond the seam is what `crosses` says. -/
theorem Seam.skip (σ : Seam) {opened : List Opening} {v : List Char} {mode mode' : Cursor.Trivia}
    {b b' : List Char} {c : Cursor} (hmode : mode.region = mode'.region) (hb : Alike b b')
    (hv : σ.allows (mode.region.scan opened v))
    (h : Cursor.skipTrivia mode b (v ++ σ.short) = .ok c) :
    ∃ d, σ.Settled opened c d ∧ Cursor.skipTrivia mode' b' (v ++ σ.long) = .ok d := by
  -- comments start and end with two characters, so the induction is on the length
  induction hn : v.length using Nat.strongRecOn generalizing v mode mode' b b' with
  | ind n ih =>
    have step : ∀ (w : List Char) (m m' : Cursor.Trivia) (run : List Char),
        w.length < v.length → m.region = m'.region → σ.allows (m.region.scan opened w) →
        Cursor.skipTrivia m (run ++ b) (w ++ σ.short) = .ok c →
        ∃ d, σ.Settled opened c d ∧ Cursor.skipTrivia m' (run ++ b') (w ++ σ.long) = .ok d :=
      fun w m m' run hlt hm hw hskip => ih _ (hn ▸ hlt) hm (hb.append run) hw hskip rfl
    cases v with
    | nil =>
      rw [Region.scan.eq_17] at hv
      obtain ⟨d, hd, hskip⟩ := σ.crosses hmode hv hb h
      exact ⟨d, .past hd, hskip⟩
    | cons x v =>
      have hlt : v.length < (x :: v).length := Nat.lt_succ_self _
      cases mode with
      | between =>
        cases mode' <;> cases hmode
        by_cases hline : x = '#'
        · subst hline
          exact step v .line .line ['#'] hlt rfl hv h
        by_cases hcomment : ∃ u, x = '/' ∧ v = '*' :: u
        · obtain ⟨u, rfl, rfl⟩ := hcomment
          exact step u (.block ⟨b, '/' :: '*' :: u ++ σ.short⟩) (.block _) ['*', '/']
            (Nat.lt_succ_of_lt (Nat.lt_succ_self _)) rfl hv h
        have hopen : ∀ u, x = '/' → v ≠ '*' :: u := fun u hx hu => hcomment ⟨u, hx, hu⟩
        rw [List.cons_append,
          Cursor.skipTrivia.eq_3 _ x _ (not_comment_append σ.short_edged hopen) hline] at h
        rw [List.cons_append,
          Cursor.skipTrivia.eq_3 _ x _ (not_comment_append σ.long_edged hopen) hline]
        by_cases hblank : Text.isBlank x = true
        · rw [if_pos hblank] at h ⊢
          have hinert := isInert_of_isBlank hblank
          rw [Cursor.Trivia.region, Region.scan_inert hinert.1 fun _ hx => absurd hx hinert.2] at hv
          exact step v .between .between [x] hlt rfl hv h
        · rw [if_neg hblank] at h ⊢
          cases h
          exact ⟨_, .ahead (v := x :: v) hb
            ⟨List.cons_ne_nil x v, isSolid_cons hopen hline hblank, hv⟩, rfl⟩
      | line =>
        cases mode' <;> cases hmode
        by_cases hend : x = '\n'
        · subst hend
          exact step v .between .between ['\n'] hlt rfl hv h
        rw [List.cons_append, Cursor.skipTrivia.eq_6 _ x _ hend] at h
        rw [List.cons_append, Cursor.skipTrivia.eq_6 _ x _ hend]
        rw [Cursor.Trivia.region, Region.scan.eq_9 _ _ _ hend] at hv
        exact step v .line .line [x] hlt rfl hv h
      | block start =>
        cases mode' <;> cases hmode
        by_cases hend : ∃ u, x = '*' ∧ v = '/' :: u
        · obtain ⟨u, rfl, rfl⟩ := hend
          exact step u .between .between ['/', '*'] (Nat.lt_succ_of_lt (Nat.lt_succ_self _)) rfl hv h
        have hopen : ∀ u, x = '*' → v ≠ '/' :: u := fun u hx hu => hend ⟨u, hx, hu⟩
        rw [Cursor.Trivia.region, Region.scan.eq_11 _ _ _ hopen] at hv
        cases v with
        | nil =>
          -- a comment that is still open at the seam is never closed
          rw [σ.short_eq_nil .block hv (by decide)] at h
          rw [List.cons_append, List.nil_append, Cursor.skipTrivia.eq_9 _ _ _ _ hopen] at h
          cases h
        | cons y v =>
          have hopen' : ∀ t u, x = '*' → y :: (v ++ t) ≠ '/' :: u := by
            rintro t u hx ⟨⟩
            exact hopen v hx rfl
          rw [List.cons_append, List.cons_append, Cursor.skipTrivia.eq_9 _ _ _ _ (hopen' _)] at h
          rw [List.cons_append, List.cons_append, Cursor.skipTrivia.eq_9 _ _ _ _ (hopen' _)]
          exact step (y :: v) (.block start) (.block _) [x] hlt rfl hv h

/-- The seam of a text with itself, at its end. -/
def Seam.same : Seam where
  short := []
  long := []
  rest := none
  allows _ := True
  short_blank _ h := by cases h
  long_edged _ h := by cases h
  rest_closing _ h := by cases h
  short_eq_nil _ _ _ := rfl
  crosses {mode mode' b b' c} hmode _ hb h := by
    cases mode <;> cases mode' <;> cases hmode <;> cases h
    · exact ⟨⟨b', []⟩, ⟨rfl, hb⟩, rfl⟩
    · exact ⟨⟨b', []⟩, ⟨rfl, hb⟩, rfl⟩

theorem Seam.same_linked {S : List Char → Prop} {c d : Cursor} (h : Seam.same.Linked S c d) :
    Rejoined none c d := by
  cases h with
  | ahead hb _ => exact ⟨rfl, hb⟩
  | past h => exact h

/-- Trivia in the same text, with anything behind it. -/
theorem skipTrivia_alike {b b' t : List Char} {c : Cursor} (hb : Alike b b')
    (h : Cursor.skipTrivia .between b t = .ok c) :
    ∃ d, Rejoined none c d ∧ Cursor.skipTrivia .between b' t = .ok d := by
  rw [← List.append_nil t] at h ⊢
  have hskip : ∃ d, Seam.same.Settled [] c d ∧ Cursor.skipTrivia .between b' (t ++ []) = .ok d :=
    Seam.same.skip rfl hb trivial h
  obtain ⟨d, hd, hskip⟩ := hskip
  exact ⟨d, Seam.same_linked hd, hskip⟩

namespace Seam

variable (σ : Seam) {opened : List Opening}

theorem mirrors_skipTrivia :
    Mirrors Always (σ.Near .code opened) skipTrivia skipTrivia fun _ => σ.Settled opened := by
  rintro c d hcd ⟨⟩ c' h -
  rw [skipTrivia_eq] at h
  -- it is enough to follow the cursor
  suffices hskip : ∀ c', Cursor.skipTrivia .between c.before c.after = .ok c' →
      ∃ d', σ.Settled opened c' d' ∧ Cursor.skipTrivia .between d.before d.after = .ok d' by
    cases hc : Cursor.skipTrivia .between c.before c.after with
    | error e => rw [hc] at h; cases h
    | ok e =>
      rw [hc] at h
      cases h
      obtain ⟨d', hd', hd⟩ := hskip _ hc
      exact ⟨d', hd', by rw [skipTrivia_eq, hd]; rfl⟩
  intro c' hc
  cases hcd with
  | ahead hb hv => exact σ.skip rfl hb hv hc
  | past hpast =>
    cases hrest : σ.rest with
    | none =>
      rw [hrest] at hpast
      obtain ⟨d', hd', hskip⟩ := skipTrivia_alike hpast.2 hc
      rw [hpast.1] at hskip
      exact ⟨d', .past (hrest ▸ hd'), hskip⟩
    | some r =>
      rw [hrest] at hpast
      obtain ⟨hend, hr⟩ := hpast
      rw [hend] at hc
      cases hc
      refine ⟨⟨d.before, r⟩, .past (hrest ▸ ⟨rfl, rfl⟩), ?_⟩
      rw [hr, skipTrivia_solid (isSolid_of_isClosing (σ.rest_closing r hrest))]

end Seam

/-! ### Words -/

section Word

variable {phrase : List Char} {refused : Char → Bool}

/-- What the text at a seam is does not matter to a phrase that no edge can be part of. -/
theorem heads_edged {t t' : List Char} (ht : Edged t) (ht' : Edged t')
    (hphrase : ∀ x ∈ phrase, isEdge x = false) (hrefused : ∀ x, isEdge x = true → refused x = false)
    (v : List Char) : heads phrase refused (v ++ t) = heads phrase refused (v ++ t') := by
  induction phrase generalizing v with
  | nil =>
    cases v with
    | nil =>
      show (!t.head?.any refused) = (!t'.head?.any refused)
      rw [ht.any hrefused, ht'.any hrefused]
    | cons y v => rfl
  | cons x phrase ih =>
    obtain ⟨hx, hphrase⟩ := List.forall_mem_cons.1 hphrase
    cases v with
    | nil =>
      have hmiss : ∀ u, Edged u → heads (x :: phrase) refused u = false := by
        intro u hu
        cases u with
        | nil => rfl
        | cons y u =>
          have hne : x ≠ y := by
            rintro rfl
            rw [hu x rfl] at hx
            cases hx
          simp [heads, hne]
      rw [List.nil_append, List.nil_append, hmiss t ht, hmiss t' ht']
    | cons y v =>
      have hcons : ∀ u, heads (x :: phrase) refused (y :: u) = (x == y && heads phrase refused u) :=
        fun u => by simp [heads, List.isPrefixOf, Bool.and_assoc]
      rw [List.cons_append, List.cons_append, hcons, hcons, ih hphrase]

/-- Such a phrase ends before the seam. -/
theorem prefix_of_edged {t : List Char} (ht : Edged t) (hphrase : ∀ x ∈ phrase, isEdge x = false)
    {v : List Char} (h : phrase <+: v ++ t) : phrase <+: v := by
  induction phrase generalizing v with
  | nil => exact List.nil_prefix
  | cons x phrase ih =>
    obtain ⟨hx, hphrase⟩ := List.forall_mem_cons.1 hphrase
    cases v with
    | nil =>
      obtain ⟨u, rfl⟩ := h
      rw [ht x rfl] at hx
      cases hx
    | cons y v =>
      obtain ⟨hxy, htail⟩ := List.cons_prefix_cons.1 h
      exact List.cons_prefix_cons.2 ⟨hxy, ih hphrase htail⟩

/-- A phrase that a seam cannot cut: it is not empty, no edge is a part of it but perhaps the first
    character, and none is refused after it. -/
structure IsToken (phrase : List Char) (refused : Char → Bool) : Prop where
  ne_nil : phrase ≠ []
  tail : ∀ x ∈ phrase.tail, isEdge x = false
  refused : ∀ x, isEdge x = true → refused x = false

namespace IsToken

variable (σ : Seam) {apart : Bool} (h : IsToken phrase refused)
include h

/-- The token starts before the seam, so it stands in both texts or in neither. -/
theorem stands_ahead {b b' v : List Char} (hb : Alike b b') (hv : v ≠ []) :
    stands phrase refused apart ⟨b, v ++ σ.short⟩ =
      stands phrase refused apart ⟨b', v ++ σ.long⟩ := by
  obtain ⟨hne, htail, hrefused⟩ := h
  obtain ⟨x, phrase, rfl⟩ := List.exists_cons_of_ne_nil hne
  obtain ⟨y, v, rfl⟩ := List.exists_cons_of_ne_nil hv
  have hcons : ∀ u, heads (x :: phrase) refused (y :: u) = (x == y && heads phrase refused u) :=
    fun u => by simp [heads, List.isPrefixOf, Bool.and_assoc]
  have hheads : heads phrase refused (v ++ σ.short) = heads phrase refused (v ++ σ.long) :=
    heads_edged σ.short_edged σ.long_edged htail hrefused v
  simp only [stands, List.cons_append, hcons, hheads]
  rw [hb]

/-- It ends before the seam too. -/
theorem prefix_ahead {v : List Char} (hv : v ≠ []) (hphrase : phrase <+: v ++ σ.short) :
    phrase <+: v := by
  obtain ⟨hne, htail, -⟩ := h
  obtain ⟨x, phrase, rfl⟩ := List.exists_cons_of_ne_nil hne
  obtain ⟨y, v, rfl⟩ := List.exists_cons_of_ne_nil hv
  obtain ⟨hxy, hrest⟩ := List.cons_prefix_cons.1 hphrase
  exact List.cons_prefix_cons.2 ⟨hxy, prefix_of_edged σ.short_edged htail hrest⟩

omit h in
theorem skipped_append (b phrase t : List Char) :
    skipped phrase.length ⟨b, phrase ++ t⟩ = ⟨phrase.reverse ++ b, t⟩ := by
  simp [skipped]

theorem hit {opened opened' : List Opening} {c d : Cursor} (hcd : σ.Settled opened c d)
    (hscan : ∀ v, isSolid (phrase ++ v) = true →
      Region.code.scan opened (phrase ++ v) = Region.code.scan opened' v)
    (hstands : stands phrase refused apart c = true) :
    stands phrase refused apart d = true ∧
      σ.Near .code opened' (skipped phrase.length c) (skipped phrase.length d) := by
  have hphrase := prefix_of_stands hstands
  cases hcd with
  | ahead hb hv =>
    obtain ⟨hne, hsolid, hallows⟩ := hv
    refine ⟨h.stands_ahead σ hb hne ▸ hstands, ?_⟩
    obtain ⟨w, rfl⟩ := h.prefix_ahead σ hne hphrase
    rw [List.append_assoc, List.append_assoc, skipped_append, skipped_append]
    exact .ahead (hb.append _) (hscan w hsolid ▸ hallows)
  | past hpast =>
    cases hrest : σ.rest with
    | none =>
      rw [hrest] at hpast
      obtain ⟨hafter, hbefore⟩ := hpast
      have hsame : stands phrase refused apart d = true := by
        rw [stands, ← hbefore, ← hafter]
        exact hstands
      refine ⟨hsame, .past ?_⟩
      rw [hrest, skipped, skipped, ← hafter]
      exact ⟨rfl, hbefore.append _⟩
    | some r =>
      rw [hrest] at hpast
      rw [hpast.1, List.prefix_nil] at hphrase
      exact absurd hphrase h.ne_nil

/-- A token that is not there stays away, unless the first text ends where the second goes on with
    it. -/
theorem miss {opened : List Opening} {c d : Cursor} (hcd : σ.Settled opened c d)
    (hmiss : ∀ r, σ.rest = some r → c.after = [] → heads phrase refused r = false)
    (hstands : stands phrase refused apart c = false) :
    stands phrase refused apart d = false := by
  cases hcd with
  | ahead hb hv => exact h.stands_ahead σ hb hv.1 ▸ hstands
  | past hpast =>
    cases hrest : σ.rest with
    | none =>
      rw [hrest] at hpast
      rw [stands, ← hpast.2, ← hpast.1]
      exact hstands
    | some r =>
      rw [hrest] at hpast
      rw [stands, hpast.2, hmiss r hrest hpast.1, Bool.false_and]

/-- A token with the trivia after it. A miss counts unless the first text ends where the second goes
    on with the token. -/
theorem mirrors {opened opened' : List Opening} {ok : Bool → Cursor → Prop}
    (hscan : ∀ v, isSolid (phrase ++ v) = true →
      Region.code.scan opened (phrase ++ v) = Region.code.scan opened' v)
    (hmiss : ∀ c r, ok false c → σ.rest = some r → c.after = [] → heads phrase refused r = false) :
    Mirrors ok (σ.Settled opened) (word phrase refused apart) (word phrase refused apart)
      fun hit => σ.Settled (bif hit then opened' else opened) := by
  intro c d hcd hit c' hword hok
  simp only [word] at hword ⊢
  cases hstands : stands phrase refused apart c with
  | false =>
    rw [hstands] at hword
    cases hword
    have hd := h.miss σ hcd (fun r => hmiss c r hok) hstands
    exact ⟨d, hcd, by rw [hd]; rfl⟩
  | true =>
    rw [hstands] at hword
    obtain ⟨hd, hnear⟩ := h.hit σ hcd hscan hstands
    obtain ⟨⟨⟩, e, hskip, hword⟩ := bind_eq_ok hword
    cases hword
    obtain ⟨d', hd', hskip'⟩ := σ.mirrors_skipTrivia hnear hskip trivial
    exact ⟨d', hd', by rw [hd, if_pos rfl, bind_ok hskip']; rfl⟩

end IsToken

end Word

/-! ### Symbols and keywords -/

/-- A phrase that is code by itself and closes no pipeline. -/
def isPlain : List Char → Bool
  | [] => false
  | x :: tail =>
    Region.isInert x && x != ']' && (x != '|' || tail.head? == some '=') &&
      tail.all fun y => !isEdge y && Region.isInert y

theorem isPlain_tail {x : Char} {tail : List Char} (h : isPlain (x :: tail) = true) :
    ∀ y ∈ tail, isEdge y = false ∧ Region.isInert y = true := by
  intro y hy
  simp only [isPlain, Bool.and_eq_true, List.all_eq_true, Bool.not_eq_true'] at h
  exact h.2 y hy

theorem IsToken.of_plain {phrase : List Char} {refused : Char → Bool} (h : isPlain phrase = true)
    (hrefused : ∀ x, isEdge x = true → refused x = false) : IsToken phrase refused where
  ne_nil := by rintro rfl; cases h
  tail := by
    cases phrase with
    | nil => cases h
    | cons x tail => exact fun y hy => (isPlain_tail h y hy).1
  refused := hrefused

/-- A plain phrase leaves the region and the parentheses as they are. -/
theorem scan_plain {phrase : List Char} (h : isPlain phrase = true) (opened : List Opening)
    {v : List Char} (hsolid : isSolid (phrase ++ v) = true) :
    Region.code.scan opened (phrase ++ v) = Region.code.scan opened v := by
  cases phrase with
  | nil => cases h
  | cons x tail =>
    have htail : ∀ y ∈ tail, Region.isInert y = true ∧ y ≠ '/' := by
      intro y hy
      obtain ⟨hedge, hinert⟩ := isPlain_tail h y hy
      exact ⟨hinert, by rintro rfl; revert hedge; decide⟩
    have hx : Region.isInert x = true := by
      simp only [isPlain, Bool.and_eq_true] at h
      exact h.1.1.1
    have hopen : ∀ u, x = '/' → tail ++ v ≠ '*' :: u := by
      rintro u rfl hu
      rw [List.cons_append, hu] at hsolid
      cases hsolid
    rw [List.cons_append, Region.scan_inert hx hopen, Region.scan_inert_append htail]

/-- Nor does it stand where a pipeline is closed. -/
theorem heads_plain {phrase r : List Char} {refused : Char → Bool} (h : isPlain phrase = true)
    (hr : isClosing r = true) : heads phrase refused r = false := by
  cases phrase with
  | nil => cases h
  | cons x tail =>
    simp only [isPlain, Bool.and_eq_true, bne_iff_ne, Bool.or_eq_true, beq_iff_eq] at h
    obtain ⟨⟨⟨hinert, hbracket⟩, hbar⟩, -⟩ := h
    unfold isClosing at hr
    split at hr
    · have hne : x ≠ ')' := by rintro rfl; revert hinert; decide
      simp [heads, List.isPrefixOf, hne]
    · simp [heads, List.isPrefixOf, hbracket]
    · next t =>
      rcases hbar with hbar | hbar
      · simp [heads, List.isPrefixOf, hbar]
      · obtain ⟨u, rfl⟩ := List.head?_eq_some_iff.1 hbar
        cases t with
        | nil => simp [heads, List.isPrefixOf]
        | cons y t =>
          have hne : '=' ≠ y := by rintro rfl; cases hr
          simp [heads, List.isPrefixOf, hne]
    · cases hr

/-- The readers keep the places of tokens linked, whatever parentheses are open. -/
def Seam.Carries {α : Type} (σ : Seam) (ok : α → Cursor → Prop) (r s : Reader α) : Prop :=
  ∀ opened, Mirrors ok (σ.Settled opened) r s fun _ => σ.Settled opened

namespace Seam

variable (σ : Seam)

theorem carries_word {phrase : List Char} {refused : Char → Bool} {apart : Bool}
    (h : isPlain phrase = true) (hrefused : ∀ x, isEdge x = true → refused x = false) :
    σ.Carries Always (word phrase refused apart) (word phrase refused apart) := by
  intro opened
  refine ((IsToken.of_plain h hrefused).mirrors σ (fun v => scan_plain h opened) ?_).imp ?_
  · exact fun c r _ hr _ => heads_plain h (σ.rest_closing r hr)
  · intro hit _ _ hd
    cases hit <;> exact hd

theorem refused_of_all {refused : String} (h : refused.toList.all (fun x => !isEdge x) = true) :
    ∀ x, isEdge x = true → refused.toList.contains x = false := by
  intro x hx
  rw [← Bool.not_eq_true, List.contains_iff_mem]
  intro hmem
  have hfalse := List.all_eq_true.1 h x hmem
  rw [hx] at hfalse
  cases hfalse

theorem carries_symbolNotBefore {s refused : String} (h : isPlain s.toList = true)
    (hrefused : refused.toList.all (fun x => !isEdge x) = true) :
    σ.Carries Always (symbolNotBefore s refused) (symbolNotBefore s refused) :=
  symbolNotBefore_eq s refused ▸ σ.carries_word h (refused_of_all hrefused)

theorem carries_symbol {s : String} (h : isPlain s.toList = true) :
    σ.Carries Always (symbol s) (symbol s) :=
  σ.carries_symbolNotBefore h rfl

theorem carries_keyword {w : String} (h : isPlain w.toList = true) :
    σ.Carries Always (keyword w) (keyword w) :=
  keyword_eq w ▸ σ.carries_word h fun _ => isNameChar_of_isEdge

/-- A symbol of a single character that may close a pipeline. A miss counts if the first text has
    not ended where the second goes on with it. -/
theorem mirrors_single {x : Char} {refused : String} {opened opened' : List Opening}
    (hrefused : refused.toList.all (fun x => !isEdge x) = true)
    (hscan : ∀ v, Region.code.scan opened (x :: v) = Region.code.scan opened' v) :
    Mirrors (fun hit c => hit = true ∨ σ.Within x c) (σ.Settled opened)
      (symbolNotBefore (String.singleton x) refused) (symbolNotBefore (String.singleton x) refused)
      fun hit => σ.Settled (bif hit then opened' else opened) := by
  rw [symbolNotBefore_eq, String.toList_singleton]
  have htoken : IsToken [x] refused.toList.contains :=
    ⟨List.cons_ne_nil x [], fun y hy => absurd hy List.not_mem_nil,
      refused_of_all hrefused⟩
  refine htoken.mirrors σ (fun v _ => hscan v) ?_
  rintro c r (h | h) hr hc
  · cases h
  · cases r with
    | nil => rfl
    | cons y r =>
      have hne : x ≠ y := by
        rintro rfl
        exact h _ hr rfl hc
      simp [heads, List.isPrefixOf, hne]

end Seam

end Source

end JsonPipe
