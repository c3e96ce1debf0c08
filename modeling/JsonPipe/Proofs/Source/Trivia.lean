import JsonPipe.Proofs.Source.SeamGrammar

/-! Trivia does not matter.

    A white-space character between two tokens can be replaced by any trivia that is not empty: the
    program stays the same. The character and what replaces it make a seam, and the parser passes
    over both (`Seam.gap`). -/

namespace JsonPipe.Source

open Reader

/-! ### Passing over trivia -/

theorem skipTrivia_blank {x : Char} (hx : Text.isBlank x = true) (b t : List Char) :
    Cursor.skipTrivia .between b (x :: t) = Cursor.skipTrivia .between (x :: b) t := by
  have hline : x ≠ '#' := by rintro rfl; revert hx; decide
  rw [Cursor.skipTrivia.eq_3 b x t (fun _ h => absurd h (isInert_of_isBlank hx).2) hline,
    if_pos hx]

theorem skipTrivia_line {body : List Char} (hbody : '\n' ∉ body) (b t : List Char) :
    Cursor.skipTrivia .line b (body ++ '\n' :: t) =
      Cursor.skipTrivia .between ('\n' :: body.reverse ++ b) t := by
  induction body generalizing b with
  | nil => rfl
  | cons x body ih =>
    rw [List.mem_cons, not_or] at hbody
    rw [List.cons_append, Cursor.skipTrivia.eq_6 b x _ (Ne.symm hbody.1), ih hbody.2]
    simp

theorem skipTrivia_block {body : List Char} (hbody : ¬ ['*', '/'] <:+: body) (start : Cursor)
    (b t : List Char) :
    Cursor.skipTrivia (.block start) b (body ++ '*' :: '/' :: t) =
      Cursor.skipTrivia .between ('/' :: '*' :: body.reverse ++ b) t := by
  induction body generalizing b with
  | nil => rfl
  | cons x body ih =>
    -- the comment does not end here: that would be an end inside the body
    have hopen : ∀ u, x = '*' → body ++ '*' :: '/' :: t ≠ '/' :: u := by
      rintro u rfl hu
      cases body with
      | nil => cases hu
      | cons y body =>
        cases hu
        exact hbody ⟨[], body, rfl⟩
    have hrest : ¬ ['*', '/'] <:+: body := fun h => hbody (h.trans (List.suffix_cons x body).isInfix)
    rw [List.cons_append, Cursor.skipTrivia.eq_9 b start x _ hopen, ih hrest]
    simp

/-- Trivia is passed over, and no name ends where it does, unless there is none. -/
theorem skipTrivia_gap {gap : List Char} (hgap : IsTrivia gap) {b : List Char}
    (hb : gap ≠ [] ∨ BreaksOff b) (t : List Char) :
    ∃ b', BreaksOff b' ∧
      Cursor.skipTrivia .between b (gap ++ t) = Cursor.skipTrivia .between b' t := by
  induction hgap generalizing b with
  | nil => exact ⟨b, hb.resolve_left fun h => h rfl, rfl⟩
  | @blank x rest hx _ ih =>
    have hname : isNameChar x = false := isNameChar_of_isEdge (by rw [isEdge, hx, Bool.true_or])
    obtain ⟨b', hb', hrest⟩ := ih (b := x :: b) (.inr hname)
    exact ⟨b', hb', by rw [List.cons_append, skipTrivia_blank hx, hrest]⟩
  | @line body rest hbody _ ih =>
    obtain ⟨b', hb', hrest⟩ := ih (b := '\n' :: body.reverse ++ '#' :: b) (.inr rfl)
    refine ⟨b', hb', ?_⟩
    rw [← hrest, ← skipTrivia_line hbody, List.append_assoc, List.cons_append, List.cons_append,
      Cursor.skipTrivia.eq_2]
  | @block body rest hbody _ ih =>
    obtain ⟨b', hb', hrest⟩ := ih (b := '/' :: '*' :: body.reverse ++ '*' :: '/' :: b)
      (.inr rfl)
    refine ⟨b', hb', ?_⟩
    rw [← hrest, ← skipTrivia_block hbody ⟨b, '/' :: '*' :: body ++ '*' :: '/' :: rest ++ t⟩]
    simp [Cursor.skipTrivia.eq_1]

theorem edged_gap {gap : List Char} (hgap : IsTrivia gap) (hne : gap ≠ []) (t : List Char) :
    Edged (gap ++ t) := by
  intro x hx
  cases hgap with
  | nil => exact absurd rfl hne
  | blank hblank _ =>
    cases hx
    rw [isEdge, hblank, Bool.true_or]
  | line _ _ => cases hx; decide
  | block _ _ => cases hx; decide

/-- White space in code, against other trivia. -/
def Seam.gap {x : Char} {gap : List Char} (hx : Text.isBlank x = true) (hgap : IsTrivia gap)
    (hne : gap ≠ []) (t : List Char) : Seam where
  short := x :: t
  long := gap ++ t
  rest := none
  allows region := region = .code
  short_blank y hy := by cases hy; exact hx
  long_edged := edged_gap hgap hne t
  rest_closing := Seam.same.rest_closing
  short_eq_nil region hcode hne := absurd hcode hne
  crosses {mode mode' b b' c} hmode hcode _ h := by
    obtain ⟨b'', hb'', hskip⟩ := skipTrivia_gap hgap (b := b') (.inl hne) t
    cases mode <;> cases hcode
    cases mode' <;> cases hmode
    rw [skipTrivia_blank hx] at h
    rw [hskip]
    refine skipTrivia_alike ?_ h
    rw [Alike, hb'']
    exact isNameChar_of_isEdge (by rw [isEdge, hx, Bool.true_or])

end JsonPipe.Source

namespace JsonPipe

open Source

/-- White space in the code of a program can be replaced by any trivia that is not empty. -/
theorem Pipeline.parse_of_trivia {before after gap : String} {x : Char} {p : Pipeline}
    (hx : Text.isBlank x = true) (hcode : Region.atEnd before = .code)
    (hgap : IsTrivia gap.toList) (hne : gap ≠ "")
    (h : Pipeline.parse (before ++ String.singleton x ++ after) = .ok p) :
    Pipeline.parse (before ++ gap ++ after) = .ok p := by
  have hne' : gap.toList ≠ [] := by simpa using hne
  let σ := Seam.gap hx hgap hne' after.toList
  have hshort : (before ++ String.singleton x ++ after).toList = before.toList ++ σ.short := by
    simp [σ, Seam.gap]
  have hlong : (before ++ gap ++ after).toList = before.toList ++ σ.long := by
    simp [σ, Seam.gap]
  -- the text does not get shorter, so there is as much room for nesting
  have hdepth : (before.toList ++ σ.short).length + 1 ≤ (before.toList ++ σ.long).length + 1 := by
    have hpos := List.length_pos_iff.2 hne'
    simp only [σ, Seam.gap, List.length_append, List.length_cons]
    omega
  have hstart : σ.Near .code [] (.start (before.toList ++ σ.short))
      (.start (before.toList ++ σ.long)) := .ahead rfl hcode
  obtain ⟨b, hpassage⟩ := parse_eq_ok.1 h
  rw [hshort] at hpassage
  have hwithin : σ.Within '|' ⟨b, []⟩ := fun r hr => by cases hr
  obtain ⟨⟨b', t⟩, hend, hpassage'⟩ := mirrors_passage σ hdepth hstart hpassage hwithin
  obtain ⟨rfl, -⟩ : [] = t ∧ Alike b b' := hend.at_end rfl
  exact parse_eq_ok.2 ⟨b', by rw [hlong, hpassage']⟩

/-- The space between a name and a keyword in an interpolated string, against comments with brackets
    and a quote in them. -/
theorem Pipeline.parse_of_trivia_hole :
    ∃ p, Pipeline.parse ("\"\\(a" ++ String.singleton ' ' ++ "and b)\"") = .ok p ∧
      p.print = "\"\\((a) and (b))\"" ∧
      Pipeline.parse ("\"\\(a" ++ "# \")\n/* ( */" ++ "and b)\"") = .ok p := by
  have hprint : (Pipeline.parse ("\"\\(a" ++ String.singleton ' ' ++ "and b)\"")).toOption.map
      Pipeline.print = some "\"\\((a) and (b))\"" := by decide +kernel
  have hgap : IsTrivia "# \")\n/* ( */".toList :=
    @IsTrivia.line " \")".toList "/* ( */".toList (by decide)
      (@IsTrivia.block " ( ".toList [] (by decide) .nil)
  cases hp : Pipeline.parse ("\"\\(a" ++ String.singleton ' ' ++ "and b)\"") with
  | error e => rw [hp] at hprint; cases hprint
  | ok p =>
    rw [hp] at hprint
    exact ⟨p, rfl, Option.some.inj hprint,
      Pipeline.parse_of_trivia (by decide) (by decide) hgap (by decide) hp⟩

end JsonPipe
