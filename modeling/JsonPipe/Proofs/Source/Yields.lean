import Mathlib.Data.List.TakeWhile
import JsonPipe.Proofs.Source.Literal

/-! What readers can yield.

    `Yields r P` says that whatever the reader `r` yields satisfies `P`, wherever it stands. Like
    the rules of `Takes` these follow the way readers are put together, but nothing is said of the
    text: they are for what is known of a result because it was read at all. -/

namespace JsonPipe.Source

open Reader

variable {α β : Type}

/-! ### Results of readers -/

/-- Whatever the reader yields satisfies `P`. -/
def Yields (r : Reader α) (P : α → Prop) : Prop := ∀ c a c', r c = .ok (a, c') → P a

theorem yields_any (r : Reader α) : Yields r fun _ => True := fun _ _ _ _ => trivial

theorem yields_pure {P : α → Prop} {a : α} (h : P a) : Yields (pure a) P := by
  intro c x c' heq
  cases heq
  exact h

theorem yields_expected {P : α → Prop} (construct : Construct) (what : String) :
    Yields (expected construct what) P := by
  intro c a c' h
  cases h

theorem Yields.bind {r : Reader α} {f : α → Reader β} {P : α → Prop} {Q : β → Prop}
    (hr : Yields r P) (hf : ∀ a, P a → Yields (f a) Q) : Yields (r >>= f) Q := by
  intro c x c'' h
  have hsplit : (r >>= f) c = (r c >>= fun p => f p.1 p.2) := rfl
  rw [hsplit] at h
  cases hrc : r c with
  | error e => rw [hrc] at h; cases h
  | ok p =>
    rw [hrc] at h
    exact hf p.1 (hr c p.1 p.2 hrc) p.2 x c'' h

theorem Yields.map {r : Reader α} {f : α → β} {P : α → Prop} {Q : β → Prop} (hr : Yields r P)
    (hf : ∀ a, P a → Q (f a)) : Yields (f <$> r) Q := by
  rw [map_eq_pure_bind]
  exact hr.bind fun a ha => yields_pure (hf a ha)

theorem Yields.mono {r : Reader α} {P Q : α → Prop} (hr : Yields r P) (h : ∀ a, P a → Q a) :
    Yields r Q :=
  fun c a c' heq => h a (hr c a c' heq)

/-! ### Repetition -/

theorem yields_repeatAlong {step : Reader (Option α)} {P : α → Prop}
    (hstep : Yields step fun o => ∀ a ∈ o, P a) (bound : List Char) :
    Yields (repeatAlong step bound) fun as => ∀ a ∈ as, P a := by
  induction bound with
  | nil =>
    refine hstep.bind fun o ho => yields_pure fun a ha => ?_
    exact ho a (Option.mem_toList.1 ha)
  | cons x bound ih =>
    intro c as c'' h
    rw [repeatAlong] at h
    cases hc : step c with
    | error e => rw [hc] at h; cases h
    | ok p =>
      obtain ⟨o, c'⟩ := p
      rw [hc] at h
      cases o with
      | none =>
        cases h
        simp
      | some a =>
        have hall : Yields (do return a :: (← repeatAlong step bound)) fun as => ∀ b ∈ as, P b :=
          ih.bind fun as has =>
            yields_pure (List.forall_mem_cons.2 ⟨hstep c (some a) c' hc a rfl, has⟩)
        exact hall c' as c'' h

theorem yields_many {step : Reader (Option α)} {P : α → Prop}
    (hstep : Yields step fun o => ∀ a ∈ o, P a) : Yields (many step) fun as => ∀ a ∈ as, P a :=
  fun c as c' h => yields_repeatAlong hstep c.after c as c' h

theorem yields_separated (separator : Reader Bool) {item : Reader α} {P : α → Prop}
    (hitem : Yields item P) :
    Yields (separated separator item) fun as => as ≠ [] ∧ ∀ a ∈ as, P a := by
  have hstep : Yields (do if ← separator then return some (← item) else return none)
      fun o => ∀ a ∈ o, P a := by
    refine (yields_any separator).bind fun found _ => ?_
    cases found with
    | false => exact yields_pure (by simp)
    | true => exact hitem.bind fun a ha => yields_pure (by simpa using ha)
  refine hitem.bind fun first hfirst => (yields_many hstep).bind fun more hmore => yields_pure ?_
  exact ⟨List.cons_ne_nil _ _, List.forall_mem_cons.2 ⟨hfirst, hmore⟩⟩

theorem yields_listUntil (close : String) (construct : Construct) (what : String)
    {item : Reader α} {P : α → Prop} (hitem : Yields item P) :
    Yields (listUntil close construct what item) fun as => ∀ a ∈ as, P a := by
  refine (yields_any _).bind fun closed _ => ?_
  cases closed with
  | true => exact yields_pure (by simp)
  | false =>
    refine hitem.bind fun first hfirst => ?_
    refine Yields.bind (P := fun more => ∀ a ∈ more, P a) (yields_many ?_) fun more hmore =>
      yields_pure (List.forall_mem_cons.2 ⟨hfirst, hmore⟩)
    refine (yields_any _).bind fun closed _ => ?_
    cases closed with
    | true => exact yields_pure (by simp)
    | false =>
      refine (yields_any _).bind fun comma _ => ?_
      cases comma with
      | false => exact yields_expected construct what
      | true => exact hitem.bind fun a ha => yields_pure (by simpa using ha)

/-! ### Names and literals -/

theorem nextName?_chars {c c' : Cursor} {s : String} (h : nextName? c = some (s, c')) :
    s.toList.head?.any isNameStart = true ∧ ∀ x ∈ s.toList, isNameChar x = true := by
  rw [nextName?] at h
  split at h
  · next hstart =>
    cases h
    rw [String.toList_ofList]
    refine ⟨?_, fun x hx => List.mem_takeWhile_imp hx⟩
    cases hafter : c.after with
    | nil => rw [hafter] at hstart; cases hstart
    | cons x after =>
      rw [hafter, List.head?_cons, Option.any_some] at hstart
      have hchar : isNameChar x = true := by
        simp only [isNameStart, Bool.or_eq_true] at hstart
        rcases hstart with h | h <;> simp [isNameChar, Char.isAlphanum, h]
      rw [List.takeWhile_cons, if_pos hchar, List.head?_cons, Option.any_some]
      exact hstart
  · cases h

theorem yields_variableName : Yields variableName fun o => ∀ name ∈ o, IsVariableName name := by
  intro c o c' h
  rw [variableName] at h
  split at h
  · cases h
    intro name hname
    cases hname
  · next s c'' hnext =>
    split at h
    · cases h
      intro name hname
      cases hname
    · next hfree =>
      obtain ⟨hstart, hchars⟩ := nextName?_chars hnext
      have hname : IsVariableName s := ⟨hstart, hchars, by simpa using hfree⟩
      have hsome : Yields (do skipTrivia; return some s) fun o => ∀ name ∈ o, IsVariableName name :=
        (yields_any _).bind fun _ _ => yields_pure (by simpa using hname)
      exact hsome c'' o c' h

theorem isLiteral_nearest (num den : Nat) : IsLiteral (.nearest false num den) := by
  rw [Number.nearest]
  by_cases h : Magnitude.roundUnits num den < overflowUnits
  · rw [dif_pos h]
    exact .finite _
  · rw [dif_neg h]
    exact .infinite

theorem isLiteral_toNumber (d : Decimal) : IsLiteral d.toNumber := by
  rw [Decimal.toNumber]
  split
  · exact .finite _
  · split
    · exact .infinite
    · split
      · exact .finite _
      · split
        · exact isLiteral_nearest _ _
        · exact isLiteral_nearest _ _

theorem yields_number : Yields number fun o => ∀ n ∈ o, IsLiteral n := by
  have hend : ∀ whole fraction : List Char, Yields
      (do
        let power ← exponent
        skipTrivia
        return some (Decimal.toNumber ⟨digitsValue (whole ++ fraction), power - fraction.length⟩))
      fun o => ∀ n ∈ o, IsLiteral n := by
    intro whole fraction
    refine (yields_any _).bind fun power _ => (yields_any _).bind fun _ _ => yields_pure ?_
    intro n hn
    cases hn
    exact isLiteral_toNumber _
  rw [number]
  refine (yields_any _).bind fun whole _ => ?_
  split
  · exact yields_pure (by simp)
  · refine (yields_any _).bind fun point _ => ?_
    cases point with
    | none => exact (yields_any _).bind fun fraction _ => hend whole fraction
    | some x => exact (yields_any _).bind fun fraction _ => hend whole fraction

end JsonPipe.Source
