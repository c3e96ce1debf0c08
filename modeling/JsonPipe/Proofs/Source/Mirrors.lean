import JsonPipe.Proofs.Source.Progress

/-! One text read beside another.

    `Mirrors ok P r s Q` compares a reader `r` on one text with a reader `s` on another: from places
    that are related by `P`, whatever `r` yields, `s` yields too, and the places where they end are
    related by `Q`. A result may be left out of the comparison: `ok` says which ones count, by the
    result and the place where `r` ends. Like the rules of `Takes` and `Yields` these follow the way
    readers are put together. -/

namespace JsonPipe.Source

open Reader

variable {α β : Type}

/-- What the first reader yields the second yields, from related places to related places. -/
def Mirrors (ok : α → Cursor → Prop) (P : Cursor → Cursor → Prop) (r s : Reader α)
    (Q : α → Cursor → Cursor → Prop) : Prop :=
  ∀ ⦃c d : Cursor⦄, P c d → ∀ ⦃a : α⦄ ⦃c' : Cursor⦄, r c = .ok (a, c') → ok a c' →
    ∃ d', Q a c' d' ∧ s d = .ok (a, d')

/-- Every result counts. -/
def Always (_ : α) (_ : Cursor) : Prop := True

section Composition

variable {ok : α → Cursor → Prop} {ok' : β → Cursor → Prop} {P : Cursor → Cursor → Prop}
  {Q : α → Cursor → Cursor → Prop} {R : β → Cursor → Cursor → Prop} {r s : Reader α}

theorem mirrors_pure (a : α) (h : ∀ c d, P c d → Q a c d) : Mirrors ok P (pure a) (pure a) Q := by
  rintro c d hcd x c' ⟨⟩ -
  exact ⟨d, h c d hcd, rfl⟩

/-- A reader that reports an error yields nothing to compare. -/
theorem mirrors_expected (construct : Construct) (what : String) (s : Reader α) :
    Mirrors ok P (expected construct what) s Q := by
  rintro c d - x c' ⟨⟩

theorem Mirrors.weaken {ok₁ : α → Cursor → Prop} (h : Mirrors ok P r s Q)
    (hok : ∀ a c, ok₁ a c → ok a c) : Mirrors ok₁ P r s Q :=
  fun _ _ hcd _ _ hr ha => h hcd hr (hok _ _ ha)

theorem Mirrors.imp {Q' : α → Cursor → Cursor → Prop} (h : Mirrors ok P r s Q)
    (hQ : ∀ a c d, Q a c d → Q' a c d) : Mirrors ok P r s Q' := by
  intro c d hcd a c' hr ha
  obtain ⟨d', hd', hs⟩ := h hcd hr ha
  exact ⟨d', hQ _ _ _ hd', hs⟩

theorem Mirrors.of {P' : Cursor → Cursor → Prop} (h : Mirrors ok P r s Q)
    (hP : ∀ c d, P' c d → P c d) : Mirrors ok P' r s Q :=
  fun _ _ hcd => h (hP _ _ hcd)

theorem Mirrors.bind {f g : α → Reader β} (hr : Mirrors ok P r s Q)
    (hf : ∀ a, Mirrors ok' (Q a) (f a) (g a) R)
    (hok : ∀ ⦃a b c d⦄, f a c = .ok (b, d) → ok' b d → ok a c) :
    Mirrors ok' P (r >>= f) (s >>= g) R := by
  intro c d hcd b c'' h hb
  obtain ⟨a, c', hrc, hfc⟩ := bind_eq_ok h
  obtain ⟨d', hd', hs⟩ := hr hcd hrc (hok hfc hb)
  obtain ⟨d'', hd'', hg⟩ := hf a hd' hfc hb
  exact ⟨d'', hd'', by rw [bind_ok hs, hg]⟩

/-- If every result of the first part counts, nothing is asked of the second. -/
theorem Mirrors.andThen {f g : α → Reader β} (hr : Mirrors Always P r s Q)
    (hf : ∀ a, Mirrors ok' (Q a) (f a) (g a) R) : Mirrors ok' P (r >>= f) (s >>= g) R :=
  hr.bind hf fun _ _ _ _ _ _ => trivial

/-- Results that count because of the place where they end, which only goes forward. -/
theorem Mirrors.bindWithin {within : Cursor → Prop} {f g : α → Reader β}
    (hr : Mirrors (fun _ c => within c) P r s Q)
    (hf : ∀ a, Mirrors (fun _ c => within c) (Q a) (f a) (g a) R) (hforward : ∀ a, Forward (f a))
    (hback : ∀ ⦃c d⦄, c.Leads d → within d → within c) :
    Mirrors (fun _ c => within c) P (r >>= f) (s >>= g) R :=
  hr.bind hf fun _ _ _ _ h hd => hback ((hforward _).ends h) hd

end Composition

/-! ### Repetition -/

section Repetition

variable {P Q : Cursor → Cursor → Prop} {within : Cursor → Prop}

/-- A step that is repeated. The places before the last step have to count because of the steps
    that come after. -/
theorem Mirrors.many {ok : Option α → Cursor → Prop} {step step' : Reader (Option α)}
    (hstep : Mirrors ok P step step' fun o => bif o.isSome then P else Q)
    (hadvances : Advances step fun o => o.isSome) (hadvances' : Advances step' fun o => o.isSome)
    (hlast : ∀ c, within c → ok none c)
    (hmore : ∀ a c as d, Loops step c as d → within d → ok (some a) c) :
    Mirrors (fun _ c => within c) P (Reader.many step) (Reader.many step') fun _ => Q := by
  have hloops : ∀ ⦃c as c'⦄, Loops step c as c' → within c' → ∀ ⦃d⦄, P c d →
      ∃ d', Q c' d' ∧ Loops step' d as d' := by
    intro c as c' h hwithin
    induction h with
    | done h =>
      intro d hcd
      obtain ⟨d', hd', hstep'⟩ := hstep hcd h (hlast _ hwithin)
      exact ⟨d', hd', .done hstep'⟩
    | more h hrest ih =>
      intro d hcd
      obtain ⟨e, he, hstep'⟩ := hstep hcd h (hmore _ _ _ _ hrest hwithin)
      obtain ⟨d', hd', hrest'⟩ := ih hwithin he
      exact ⟨d', hd', .more hstep' hrest'⟩
  intro c d hcd as c' h hwithin
  obtain ⟨d', hd', hmany⟩ := hloops ((many_eq_ok hadvances).1 h) hwithin hcd
  exact ⟨d', hd', (many_eq_ok hadvances').2 hmany⟩

variable {item item' : Reader α}

theorem mirrors_another {separator : Reader Bool}
    (hsep : Mirrors (fun hit c => hit = true ∨ within c) P separator separator fun _ => P)
    (hitem : Mirrors (fun _ c => within c) P item item' fun _ => P) :
    Mirrors (fun _ c => within c) P (another separator item) (another separator item')
      fun _ => P := by
  refine hsep.bind (fun hit => ?_) ?_
  · cases hit with
    | true =>
      refine hitem.bind (fun a => mirrors_pure _ fun _ _ h => h) ?_
      rintro a b c d ⟨⟩ h
      exact h
    | false => exact mirrors_pure _ fun _ _ h => h
  · intro hit o c d h hd
    cases hit with
    | true => exact .inl rfl
    | false => cases h; exact .inr hd

/-- Items with separators in between. -/
theorem mirrors_separated {separator : Reader Bool} (hforward : Forward separator)
    (hadvances : Advances separator (· = true)) (hf : Forward item) (hf' : Forward item')
    (hback : ∀ ⦃c d⦄, c.Leads d → within d → within c)
    (hsep : Mirrors (fun hit c => hit = true ∨ within c) P separator separator fun _ => P)
    (hitem : Mirrors (fun _ c => within c) P item item' fun _ => P) :
    Mirrors (fun _ c => within c) P (separated separator item) (separated separator item')
      fun _ => P := by
  have hstep := forward_another hforward hf
  have hanother : Mirrors (fun _ c => within c) P (another separator item) (another separator item')
      fun o => bif o.isSome then P else P :=
    (mirrors_another hsep hitem).imp fun o _ _ h => by cases o <;> exact h
  have hmany : Mirrors (fun _ c => within c) P (Reader.many (another separator item))
      (Reader.many (another separator item')) fun _ => P :=
    hanother.many (another_advances hadvances hf) (another_advances hadvances hf') (fun _ h => h)
      fun _ _ _ _ h hd => hback (h.leads hstep) hd
  refine hitem.bindWithin (fun first => ?_)
    (fun first => (forward_many hstep).bind fun _ => forward_pure _) hback
  exact hmany.bindWithin (fun more => mirrors_pure _ fun _ _ h => h) (fun _ => forward_pure _) hback

/-- Every step of a list up to a closing symbol takes something, the last one too. -/
theorem loops_after_ne_nil {step : Reader (Option α)} (hadvances : Advances step fun _ => True)
    {c d : Cursor} {as : List α} (h : Loops step c as d) : c.after ≠ [] := by
  cases h with
  | done h => exact hadvances.after_ne_nil h trivial
  | more h _ => exact hadvances.after_ne_nil h trivial

/-- Items up to a closing symbol. Nothing is asked of the place where the list ends, for the
    closing symbol is taken as well. -/
theorem mirrors_listUntil {close : String} (construct : Construct) (what : String)
    (hne : close.toList ≠ []) (hf : Forward item) (hf' : Forward item')
    (hwithin : ∀ ⦃c⦄, c.after ≠ [] → within c)
    (hclose : Mirrors (fun hit c => hit = true ∨ within c) P (symbol close) (symbol close)
      fun hit => bif hit then Q else P)
    (hcomma : Mirrors Always P (symbol ",") (symbol ",") fun _ => P)
    (hitem : Mirrors (fun _ c => within c) P item item' fun _ => P) :
    Mirrors Always P (listUntil close construct what item) (listUntil close construct what item')
      fun _ => Q := by
  have hadvances := anotherUntil_advances construct what hne hf
  have hadvances' := anotherUntil_advances construct what hne hf'
  -- an item may end where the first text ends, but then the step after it fails
  have hstep : Mirrors (fun o c => o = none ∨ c.after ≠ []) P
      (anotherUntil close construct what item) (anotherUntil close construct what item')
      fun o => bif o.isSome then P else Q := by
    refine hclose.bind (fun closed => ?_) ?_
    · cases closed with
      | true => exact mirrors_pure _ fun _ _ h => h
      | false =>
        refine hcomma.andThen fun comma => ?_
        cases comma with
        | false => exact mirrors_expected _ _ _
        | true =>
          refine hitem.bind (fun a => mirrors_pure _ fun _ _ h => h) ?_
          rintro a b c d ⟨⟩ (h | h)
          · cases h
          · exact hwithin h
    · intro closed o c d h _
      cases closed with
      | true => exact .inl rfl
      | false =>
        obtain ⟨comma, c', hsym, h⟩ := bind_eq_ok h
        cases comma with
        | false => cases h
        | true => exact .inr (hwithin ((symbolNotBefore_advances (by decide)).after_ne_nil hsym rfl))
  have hmany : Mirrors (fun _ _ => True) P (Reader.many (anotherUntil close construct what item))
      (Reader.many (anotherUntil close construct what item')) fun _ => Q :=
    hstep.many (fun _ _ _ h _ => hadvances h trivial)
      (fun _ _ _ h _ => hadvances' h trivial) (fun _ _ => .inl rfl)
      fun _ _ _ _ h _ => .inr (loops_after_ne_nil hadvances h)
  have htext : ∀ ⦃c as d⦄, Reader.many (anotherUntil close construct what item) c = .ok (as, d) →
      c.after ≠ [] := fun c as d h =>
    loops_after_ne_nil hadvances ((many_eq_ok fun _ _ _ h _ => hadvances h trivial).1 h)
  refine hclose.bind (fun closed => ?_) ?_
  · cases closed with
    | true => exact mirrors_pure _ fun _ _ h => h
    | false =>
      refine hitem.bind (fun first => hmany.andThen fun more => mirrors_pure _ fun _ _ h => h) ?_
      intro first as c d h _
      obtain ⟨more, e, hmore, -⟩ := bind_eq_ok h
      exact hwithin (htext hmore)
  · intro closed as c d h _
    cases closed with
    | true => exact .inl rfl
    | false =>
      obtain ⟨first, c', hfirst, h⟩ := bind_eq_ok h
      obtain ⟨more, e, hmore, -⟩ := bind_eq_ok h
      exact .inr (hwithin ((hf.ends hfirst).after_ne_nil (htext hmore)))

end Repetition

end JsonPipe.Source
