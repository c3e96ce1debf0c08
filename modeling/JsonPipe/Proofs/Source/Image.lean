import JsonPipe.Proofs.Source.Readable
import JsonPipe.Proofs.Source.Yields
import JsonPipe.Source.Grammar

/-! Whatever is read is readable.

    The proof goes through the grammar level by level, from a reader `inner` for nested text that
    yields readable pipelines to the level of `try` on top of it, and then along the depth of the
    nesting. -/

namespace JsonPipe

namespace Source

open Reader

variable {α : Type}

/-! ### Strings -/

/-- The hole of a piece, if it has one, holds a readable pipeline. -/
def Piece.Readable : Piece → Prop
  | .char _ => True
  | .hole p => p.Readable

theorem assemble_readable (ps : List Piece) (hps : ∀ x ∈ ps, x.Readable) (text : List Char) :
    ∀ e ∈ (assemble text ps).1, Pipeline.Readable e.2 := by
  induction ps generalizing text with
  | nil =>
    intro e he
    cases he
  | cons x ps ih =>
    have hrest := ih fun y hy => hps y (List.mem_cons_of_mem _ hy)
    cases x with
    | char c => exact hrest (c :: text)
    | hole p => exact List.forall_mem_cons.2 ⟨hps _ List.mem_cons_self, hrest []⟩

theorem ofPieces_readable {ps : List Piece} (hps : ∀ x ∈ ps, x.Readable) :
    (ofPieces ps).Readable := by
  have hparts := assemble_readable ps hps []
  rw [ofPieces]
  split
  · exact .string _
  · next parts after hne heq =>
    rw [heq] at hparts
    exact .interpolated hne hparts

theorem yields_piece {pipe : Reader Pipeline} (hpipe : Yields pipe Pipeline.Readable) :
    Yields (piece pipe) fun o => ∀ x ∈ o, Piece.Readable x := by
  rw [piece]
  refine (yields_any _).bind fun next _ => ?_
  split
  · exact yields_expected _ _
  · exact yields_pure (by simp)
  · refine (yields_any _).bind fun opened _ => ?_
    cases opened with
    | none => exact (yields_any _).bind fun c _ => yields_pure (by simp [Piece.Readable])
    | some x =>
      refine (yields_any _).bind fun _ _ => hpipe.bind fun p hp => (yields_any _).bind ?_
      intro closed _
      cases closed with
      | none => exact yields_expected _ _
      | some x => exact yields_pure (by simpa [Piece.Readable] using hp)
  · exact yields_pure (by simp [Piece.Readable])

theorem yields_string {pipe : Reader Pipeline} (hpipe : Yields pipe Pipeline.Readable) :
    Yields (string pipe) Instruction.Readable := by
  refine (yields_any _).bind fun _ _ => (yields_many (yields_piece hpipe)).bind fun ps hps => ?_
  exact (yields_any _).bind fun _ _ => yields_pure (ofPieces_readable hps)

/-! ### The grammar -/

/-- Operands are joined only if there are two at least. -/
theorem joinWith_readable {build : List Pipeline → Instruction} {ps : List Pipeline}
    (hbuild : 2 ≤ ps.length → (build ps).Readable) (hne : ps ≠ [])
    (hps : ∀ p ∈ ps, p.Readable) : (joinWith build ps).Readable := by
  match ps with
  | [] => exact absurd rfl hne
  | [p] => exact hps p List.mem_cons_self
  | p :: q :: more => exact readable_one (hbuild (by simp))

theorem splice_readable {ps : List Pipeline} (hps : ∀ p ∈ ps, p.Readable) :
    (splice ps).Readable := by
  rw [splice_eq]
  intro i hi
  obtain ⟨p, hp, hi⟩ := List.mem_flatten.1 hi
  exact hps p hp i hi

/-- The operands of a selector are readable, whether it is optional or not. -/
def BuildReadable (build : Bool → Selector Pipeline) : Prop :=
  ∀ optional, SelectorReadable (build optional)

section Grammar

variable {inner : Rule} (hinner : Yields inner Pipeline.Readable)
include hinner

theorem yields_outputs : Yields (outputs inner) Pipeline.Readable := by
  refine (yields_separated _ hinner).bind fun ps hps => yields_pure ?_
  exact joinWith_readable (fun h => .concat h hps.2) hps.1 hps.2

theorem yields_pipe : Yields (pipe inner) Pipeline.Readable := by
  refine (yields_separated _ (yields_outputs hinner)).bind fun ps hps => yields_pure ?_
  exact splice_readable hps.2

theorem yields_argument : Yields (argument inner) Pipeline.Readable := by
  refine (yields_separated _ hinner).bind fun ps hps => yields_pure ?_
  exact splice_readable hps.2

theorem yields_group : Yields (group inner) Pipeline.Readable := by
  refine (yields_any _).bind fun _ _ => (yields_pipe hinner).bind fun p hp => ?_
  refine (yields_any _).bind fun closed _ => ?_
  cases closed with
  | true => exact yields_pure hp
  | false => exact yields_expected _ _

theorem yields_fieldName : Yields (fieldName inner) Pipeline.Readable := by
  refine (yields_any _).bind fun found _ => ?_
  cases found with
  | some name => exact yields_pure (readable_one (.string name))
  | none =>
    refine (yields_any _).bind fun next _ => ?_
    split
    · exact (yields_string (yields_pipe hinner)).bind fun i hi => yields_pure (readable_one hi)
    · exact yields_expected _ _

theorem yields_sliceEnd : Yields (sliceEnd inner) Pipeline.Readable := by
  refine (yields_any _).bind fun closed _ => ?_
  cases closed with
  | true => exact yields_pure (readable_one .null)
  | false =>
    refine (yields_pipe hinner).bind fun stop hstop => (yields_any _).bind fun closed _ => ?_
    cases closed with
    | true => exact yields_pure hstop
    | false => exact yields_expected _ _

theorem yields_bracket : Yields (bracket inner) BuildReadable := by
  have hnull : Pipeline.Readable [.null] := readable_one .null
  have hslice : ∀ start : Pipeline, start.Readable →
      Yields (do return Selector.slice start (← sliceEnd inner)) BuildReadable := by
    intro start hstart
    refine (yields_sliceEnd hinner).bind fun stop hstop => yields_pure fun _ => ?_
    simpa [SelectorReadable, Selector.parts] using ⟨hstart, hstop⟩
  refine (yields_any _).bind fun closed _ => ?_
  cases closed with
  | true => exact yields_pure fun _ => by simp [SelectorReadable, Selector.parts]
  | false =>
    refine (yields_any _).bind fun colon _ => ?_
    cases colon with
    | true => exact hslice _ hnull
    | false =>
      refine (yields_pipe hinner).bind fun key hkey => (yields_any _).bind fun closed _ => ?_
      cases closed with
      | true => exact yields_pure fun _ => by simpa [SelectorReadable, Selector.parts] using hkey
      | false =>
        refine (yields_any _).bind fun colon _ => ?_
        cases colon with
        | true => exact hslice _ hkey
        | false => exact yields_expected _ _

theorem yields_arguments :
    Yields (arguments inner) fun args => ∀ q ∈ args, Pipeline.Readable q :=
  yields_listUntil _ _ _ (yields_argument hinner)

theorem yields_selectorBody (dotted : Bool) :
    Yields (selectorBody inner dotted) fun o => ∀ build ∈ o, BuildReadable build := by
  have hcall : ∀ bound : Bool, Yields (do return some (Selector.call (← arguments inner) bound))
      fun o => ∀ build ∈ o, BuildReadable build := by
    intro bound
    refine (yields_arguments hinner).bind fun args hargs => yields_pure ?_
    simpa [BuildReadable, SelectorReadable, Selector.parts] using hargs
  have hbrackets : Yields
      (do
        if ← symbol "[" then return some (← bracket inner)
        if ← symbol "->" then
          if ← symbol "(" then return some (Selector.call (← arguments inner) true)
          expected .boundCall "expected '('"
        if ← symbol "(" then return some (Selector.call (← arguments inner) false)
        return none)
      fun o => ∀ build ∈ o, BuildReadable build := by
    refine (yields_any _).bind fun opened _ => ?_
    cases opened with
    | true => exact (yields_bracket hinner).bind fun b hb => yields_pure (by simpa using hb)
    | false =>
      refine (yields_any _).bind fun arrow _ => ?_
      cases arrow with
      | true =>
        refine (yields_any _).bind fun opened _ => ?_
        cases opened with
        | true => exact hcall true
        | false => exact yields_expected _ _
      | false =>
        refine (yields_any _).bind fun opened _ => ?_
        cases opened with
        | true => exact hcall false
        | false => exact yields_pure (by simp)
  rw [selectorBody]
  cases dotted with
  | false => exact hbrackets
  | true =>
    refine (yields_any _).bind fun point _ => ?_
    cases point with
    | true =>
      refine (yields_fieldName hinner).bind fun key hkey => yields_pure ?_
      simpa [BuildReadable, SelectorReadable, Selector.parts] using hkey
    | false => exact hbrackets

theorem yields_selector (dotted : Bool) :
    Yields (selector inner dotted) fun o => ∀ s ∈ o, SelectorReadable s := by
  refine (yields_selectorBody hinner dotted).bind fun found hfound => ?_
  cases found with
  | none => exact yields_pure (by simp)
  | some build =>
    refine (yields_any _).bind fun optional _ => yields_pure ?_
    simpa using hfound build rfl optional

theorem yields_path (afterPoint : Bool) :
    Yields (path inner afterPoint) fun steps => ∀ s ∈ steps, SelectorReadable s := by
  refine (yields_selector hinner _).bind fun found hfound => ?_
  cases found with
  | none => exact yields_pure (by simp)
  | some first =>
    refine (yields_many (yields_selector hinner true)).bind fun more hmore => yields_pure ?_
    exact List.forall_mem_cons.2 ⟨hfound first rfl, hmore⟩

theorem yields_assignmentTo (steps : List (Selector Pipeline)) :
    Yields (assignmentTo inner steps) fun o =>
      ∀ a ∈ o, steps.any Selector.isCall = false ∧ Pipeline.Readable a.2 := by
  rw [assignmentTo]
  split
  · exact yields_pure (by simp)
  · next hcall =>
    refine (yields_any _).bind fun found _ => ?_
    cases found with
    | none => exact yields_pure (by simp)
    | some op =>
      refine hinner.bind fun value hvalue => yields_pure ?_
      simpa using ⟨by simpa using hcall, hvalue⟩

theorem yields_arrayConstructor : Yields (arrayConstructor inner) Pipeline.Readable := by
  refine (yields_any _).bind fun _ _ => (yields_any _).bind fun closed _ => ?_
  cases closed with
  | true => exact yields_pure (readable_one .emptyArray)
  | false =>
    refine (yields_pipe hinner).bind fun p hp => (yields_any _).bind fun closed _ => ?_
    cases closed with
    | true => exact yields_pure (readable_one (.array hp))
    | false => exact yields_expected _ _

theorem yields_fieldKey : Yields (fieldKey inner) fun k => Pipeline.Readable k.1 := by
  refine (yields_any _).bind fun found _ => ?_
  cases found with
  | some name => exact yields_pure (readable_one (.string name))
  | none =>
    refine (yields_any _).bind fun next _ => ?_
    split
    · exact (yields_string (yields_pipe hinner)).bind fun i hi => yields_pure (readable_one hi)
    · exact (yields_group hinner).bind fun p hp => yields_pure hp
    · exact yields_expected _ _

theorem yields_field :
    Yields (field inner) fun f => Pipeline.Readable f.key ∧ Pipeline.Readable f.value := by
  refine (yields_fieldKey hinner).bind fun k hk => (yields_any _).bind fun optional _ => ?_
  refine (yields_any _).bind fun colon _ => ?_
  obtain ⟨key, bare⟩ := k
  cases colon with
  | true => exact hinner.bind fun value hvalue => yields_pure ⟨hk, hvalue⟩
  | false =>
    cases bare with
    | none => exact yields_expected _ _
    | some name =>
      refine yields_pure ⟨hk, readable_one (.access readable_nil (List.cons_ne_nil _ _) ?_)⟩
      intro s hs q hq
      rw [List.mem_singleton.1 hs] at hq
      rw [List.mem_singleton.1 hq]
      exact readable_one (.string name)

theorem yields_objectConstructor : Yields (objectConstructor inner) Pipeline.Readable := by
  refine (yields_any _).bind fun _ _ => ?_
  refine (yields_listUntil _ _ _ (yields_field hinner)).bind fun fields hfields => yields_pure ?_
  exact readable_one (.object (fun f hf => (hfields f hf).1) fun f hf => (hfields f hf).2)

theorem yields_primary : Yields (primary inner) Pipeline.Readable := by
  refine (yields_any _).bind fun next _ => ?_
  split
  · exact yields_group hinner
  · exact (yields_string (yields_pipe hinner)).bind fun i hi => yields_pure (readable_one hi)
  · exact yields_arrayConstructor hinner
  · exact yields_objectConstructor hinner
  · exact yields_expected _ _

theorem yields_accessBase :
    Yields (accessBase inner) fun b =>
      Pipeline.Readable b.1 ∧ ∀ s ∈ b.2, SelectorReadable s := by
  have hkeyed : ∀ (key : Pipeline) (optional : Bool), key.Readable →
      Pipeline.Readable [] ∧ ∀ s ∈ [Selector.field key optional], SelectorReadable s := by
    intro key optional hkey
    exact ⟨readable_nil, by simpa [SelectorReadable, Selector.parts] using hkey⟩
  refine (yields_any _).bind fun point _ => ?_
  cases point with
  | false => exact (yields_primary hinner).bind fun p hp => yields_pure ⟨hp, by simp⟩
  | true =>
    refine (yields_any _).bind fun found _ => ?_
    cases found with
    | some name =>
      exact (yields_any _).bind fun optional _ =>
        yields_pure (hkeyed _ optional (readable_one (.string name)))
    | none =>
      refine (yields_any _).bind fun next _ => ?_
      split
      · refine (yields_string (yields_pipe hinner)).bind fun key hkey => ?_
        exact (yields_any _).bind fun optional _ =>
          yields_pure (hkeyed _ optional (readable_one hkey))
      · exact yields_pure ⟨readable_nil, by simp⟩

theorem yields_valueAccess : Yields (valueAccess inner) Pipeline.Readable := by
  refine (yields_accessBase hinner).bind fun b hb => ?_
  obtain ⟨base, steps⟩ := b
  refine (yields_path hinner _).bind fun more hmore => ?_
  have hall : ∀ s ∈ steps ++ more, SelectorReadable s :=
    fun s hs => (List.mem_append.1 hs).elim (hb.2 s) (hmore s)
  split
  · exact yields_pure hb.1
  · next hne =>
    refine (yields_assignmentTo hinner _).bind fun found hfound => ?_
    cases found with
    | none => exact yields_pure (readable_one (.access hb.1 hne hall))
    | some a =>
      obtain ⟨hcall, hvalue⟩ := hfound a rfl
      exact yields_pure (readable_one (.assign hb.1 hne hcall hall hvalue))

theorem yields_variableAccess : Yields (variableAccess inner) Pipeline.Readable := by
  refine yields_variableName.bind fun found hfound => ?_
  cases found with
  | none => exact yields_valueAccess hinner
  | some name =>
    have hname := hfound name rfl
    have hvar : Pipeline.Readable [.variable name] := readable_one (.variable hname)
    refine (yields_path hinner _).bind fun steps hsteps => ?_
    refine (yields_assignmentTo hinner _).bind fun assigned hassigned => ?_
    split
    · exact yields_pure (readable_one (.define hname (hassigned _ rfl).2))
    · next op value hset =>
      obtain ⟨hcall, hvalue⟩ := hassigned _ rfl
      by_cases hempty : steps = []
      · subst hempty
        exact yields_pure (readable_one (.redefine hname (hset rfl) hvalue))
      · refine yields_pure (readable_one (.define hname (readable_one ?_)))
        exact .assign hvar hempty hcall hsteps hvalue
    · exact yields_pure hvar
    · next hne =>
      exact yields_pure (readable_one (.access hvar hne hsteps))

omit hinner in
theorem yields_parameters :
    Yields parameters fun names => ∀ name ∈ names, IsVariableName name := by
  have hparameter : Yields parameter IsVariableName := by
    refine yields_variableName.bind fun found hfound => ?_
    cases found with
    | none => exact yields_expected _ _
    | some name => exact yields_pure (hfound name rfl)
  refine (yields_any _).bind fun opened _ => ?_
  split
  · exact (yields_expected _ _).bind fun _ (h : False) => h.elim
  · refine (yields_listUntil _ _ _ hparameter).bind fun names hnames => ?_
    refine (yields_any _).bind fun colon _ => ?_
    cases colon with
    | true => exact yields_pure hnames
    | false => exact yields_expected _ _

theorem yields_functionDefinition : Yields (functionDefinition inner) Pipeline.Readable := by
  refine (yields_any _).bind fun func _ => ?_
  cases func with
  | false => exact yields_variableAccess hinner
  | true =>
    refine yields_variableName.bind fun found hfound => ?_
    refine yields_parameters.bind fun params hparams => hinner.bind fun body hbody => ?_
    have hfunction := readable_one (.function hparams hbody)
    cases found with
    | none => exact yields_pure hfunction
    | some name => exact yields_pure (readable_one (.define (hfound name rfl) hfunction))

theorem yields_constant : Yields (constant inner) Pipeline.Readable := by
  refine (yields_any _).bind fun isTrue _ => ?_
  cases isTrue with
  | true => exact yields_pure (readable_one (.bool true))
  | false =>
    refine (yields_any _).bind fun isFalse _ => ?_
    cases isFalse with
    | true => exact yields_pure (readable_one (.bool false))
    | false =>
      refine (yields_any _).bind fun isNull _ => ?_
      cases isNull with
      | true => exact yields_pure (readable_one .null)
      | false =>
        refine yields_number.bind fun found hfound => ?_
        cases found with
        | some n => exact yields_pure (readable_one (.number (hfound n rfl)))
        | none => exact yields_functionDefinition hinner

theorem yields_arm :
    Yields (arm inner) fun a => Pipeline.Readable a.1 ∧ Pipeline.Readable a.2 := by
  refine (yields_pipe hinner).bind fun condition hcondition => (yields_any _).bind fun hit _ => ?_
  cases hit with
  | true => exact (yields_pipe hinner).bind fun body hbody => yields_pure ⟨hcondition, hbody⟩
  | false => exact yields_expected _ _

theorem yields_conditional : Yields (conditional inner) Pipeline.Readable := by
  refine (yields_any _).bind fun hit _ => ?_
  cases hit with
  | false => exact yields_constant hinner
  | true =>
    refine (yields_separated _ (yields_arm hinner)).bind fun arms harms => ?_
    have hend : ∀ otherwise : Option Pipeline, (∀ p ∈ otherwise, p.Readable) →
        Yields (do if ← keyword "end" then return [.branch arms otherwise]
                   expected .ifStatement "expected 'end'") Pipeline.Readable := by
      intro otherwise hotherwise
      refine (yields_any _).bind fun hit _ => ?_
      cases hit with
      | false => exact yields_expected _ _
      | true =>
        exact yields_pure (readable_one (.branch harms.1 (fun a ha => (harms.2 a ha).1)
          (fun a ha => (harms.2 a ha).2) hotherwise))
    refine (yields_any _).bind fun hit _ => ?_
    cases hit with
    | false => exact (yields_pure (by simp)).bind hend
    | true =>
      refine Yields.bind (Yields.map (yields_pipe hinner) fun p hp => ?_) hend
      simpa using hp

theorem yields_negation : Yields (negation inner) Pipeline.Readable := by
  refine (yields_any _).bind fun hit _ => ?_
  cases hit with
  | false => exact yields_conditional hinner
  | true =>
    exact (yields_conditional hinner).bind fun p hp =>
      yields_pure (readable_append hp (readable_one .negate))

theorem yields_coalescence : Yields (coalescence inner) Pipeline.Readable := by
  refine (yields_separated _ (yields_negation hinner)).bind fun ps hps => yields_pure ?_
  exact joinWith_readable (fun h => .coalesce h hps.2) hps.1 hps.2

omit hinner in
theorem yields_firstSymbol (operators : List (String × String × α)) :
    Yields (firstSymbol operators) fun o => ∀ a ∈ o, a ∈ operators.map fun s => s.2.2 := by
  induction operators with
  | nil => exact yields_pure (by simp)
  | cons s operators ih =>
    refine (yields_any _).bind fun hit _ => ?_
    cases hit with
    | true => exact yields_pure (by simp)
    | false => exact ih.mono fun o ho a ha => List.mem_cons_of_mem _ (ho a ha)

omit hinner in
/-- The operators of a chain are those of its level. -/
theorem yields_chain {operators : List (String × String × α)} {operand : Rule}
    {build : Pipeline → List (α × Pipeline) → Instruction}
    (hoperand : Yields operand Pipeline.Readable)
    (hbuild : ∀ first steps, first.Readable → steps ≠ [] →
      (∀ s ∈ steps, s.1 ∈ (operators.map fun s => s.2.2) ∧ Pipeline.Readable s.2) →
        (build first steps).Readable) :
    Yields (chain operators operand build) Pipeline.Readable := by
  refine hoperand.bind fun first hfirst => ?_
  refine Yields.bind (P := fun steps => ∀ s ∈ steps,
    s.1 ∈ (operators.map fun s => s.2.2) ∧ Pipeline.Readable s.2) (yields_many ?_) ?_
  · refine (yields_firstSymbol operators).bind fun found hfound => ?_
    cases found with
    | none => exact yields_pure (by simp)
    | some op =>
      refine hoperand.bind fun p hp => yields_pure ?_
      rintro s hs
      cases hs
      exact ⟨hfound op rfl, hp⟩
  · intro steps hsteps
    split
    · exact yields_pure hfirst
    · next hne => exact yields_pure (readable_one (hbuild first steps hfirst hne hsteps))

theorem yields_multiplicative : Yields (multiplicative inner) Pipeline.Readable := by
  refine yields_chain (yields_coalescence hinner) fun first steps hfirst hne hsteps => ?_
  refine .calculate true hfirst hne (fun s hs => ?_) fun s hs => (hsteps s hs).2
  have hop := (hsteps s hs).1
  simp only [List.map_cons, List.map_nil, List.mem_cons, List.not_mem_nil, or_false] at hop
  rcases hop with h | h | h <;> rw [h] <;> rfl

theorem yields_additive : Yields (additive inner) Pipeline.Readable := by
  refine yields_chain (yields_multiplicative hinner) fun first steps hfirst hne hsteps => ?_
  refine .calculate false hfirst hne (fun s hs => ?_) fun s hs => (hsteps s hs).2
  have hop := (hsteps s hs).1
  simp only [List.map_cons, List.map_nil, List.mem_cons, List.not_mem_nil, or_false] at hop
  rcases hop with h | h <;> rw [h] <;> rfl

theorem yields_suppression : Yields (suppression inner) Pipeline.Readable := by
  refine (yields_additive hinner).bind fun p hp => (yields_any _).bind fun hit _ => ?_
  cases hit with
  | true => exact yields_pure (readable_one (.suppress hp))
  | false => exact yields_pure hp

theorem yields_complement : Yields (complement inner) Pipeline.Readable := by
  refine (yields_any _).bind fun hit _ => ?_
  cases hit with
  | false => exact yields_suppression hinner
  | true =>
    exact (yields_suppression hinner).bind fun p hp =>
      yields_pure (readable_append hp (readable_one .not))

theorem yields_relational : Yields (relational inner) Pipeline.Readable := by
  refine yields_chain (yields_complement hinner) fun first steps hfirst hne hsteps => ?_
  refine .compare false hfirst hne (fun s hs => ?_) fun s hs => (hsteps s hs).2
  have hop := (hsteps s hs).1
  simp only [List.map_cons, List.map_nil, List.mem_cons, List.not_mem_nil, or_false] at hop
  rcases hop with h | h | h | h <;> rw [h] <;> rfl

theorem yields_equality : Yields (equality inner) Pipeline.Readable := by
  refine yields_chain (yields_relational hinner) fun first steps hfirst hne hsteps => ?_
  refine .compare true hfirst hne (fun s hs => ?_) fun s hs => (hsteps s hs).2
  have hop := (hsteps s hs).1
  simp only [List.map_cons, List.map_nil, List.mem_cons, List.not_mem_nil, or_false] at hop
  rcases hop with h | h <;> rw [h] <;> rfl

theorem yields_conjunction : Yields (conjunction inner) Pipeline.Readable := by
  refine (yields_separated _ (yields_equality hinner)).bind fun ps hps => yields_pure ?_
  exact joinWith_readable (fun h => .and h hps.2) hps.1 hps.2

theorem yields_disjunction : Yields (disjunction inner) Pipeline.Readable := by
  refine (yields_separated _ (yields_conjunction hinner)).bind fun ps hps => yields_pure ?_
  exact joinWith_readable (fun h => .or h hps.2) hps.1 hps.2

theorem yields_attempt : Yields (attempt inner) Pipeline.Readable := by
  refine (yields_any _).bind fun hit _ => ?_
  cases hit with
  | false => exact yields_disjunction hinner
  | true =>
    refine (yields_disjunction hinner).bind fun body hbody => (yields_any _).bind fun hit _ => ?_
    cases hit with
    | false =>
      have hvoid : Yields (pure [Instruction.void]) (· = [.void]) := yields_pure rfl
      refine hvoid.bind fun handler hhandler => yields_pure ?_
      rw [hhandler]
      exact readable_one (.suppress hbody)
    | true =>
      exact (yields_disjunction hinner).bind fun handler hhandler =>
        yields_pure (readable_one (.attempt hbody hhandler))

end Grammar

/-! ### Programs -/

theorem yields_route (depth : Nat) : Yields (route depth) Pipeline.Readable := by
  induction depth with
  | zero => exact yields_expected _ _
  | succ depth ih => exact yields_attempt ih

theorem yields_program (depth : Nat) : Yields (program depth) Pipeline.Readable := by
  refine (yields_any _).bind fun _ _ => (yields_pipe (yields_route depth)).bind fun p hp => ?_
  intro c q c' h
  simp only at h
  split at h
  · cases h
    exact hp
  · cases h

end Source

/-- Whatever is read from a text is readable. -/
theorem Pipeline.readable_of_parse {source : String} {p : Pipeline}
    (h : Pipeline.parse source = .ok p) : p.Readable := by
  rw [parse] at h
  cases hc : Source.program (source.toList.length + 1) (.start source.toList) with
  | error e =>
    simp only [hc] at h
    cases h
  | ok r =>
    simp only [hc] at h
    cases h
    exact Source.yields_program _ _ _ _ hc

end JsonPipe
