import JsonPipe.Proofs.Source.Progress

/-! The grammar goes forward.

    Every level of the grammar goes forward if the reader of nested text does, and so does the
    reader of a program at any depth (`forward_route`). -/

namespace JsonPipe.Source

open Reader

/-! ### Literals -/

theorem forward_exponent : Forward exponent := by
  refine (forward_takeOneOf _).bind fun letter => ?_
  cases letter with
  | none => exact forward_pure 0
  | some x =>
    refine (forward_takeOneOf _).bind fun sign => (forward_takeWhile _).bind fun ds => ?_
    have hvalue : ∀ n : Int, Forward (do
        if ds.isEmpty then expected .number "expected digit"
        return n) := by
      intro n
      cases ds.isEmpty with
      | true => exact (forward_expected _ _).bind fun _ => forward_pure n
      | false => exact forward_pure n
    split <;> exact hvalue _

theorem forward_number : Forward number := by
  have hend : ∀ whole fraction : List Char, Forward (do
      let power ← exponent
      skipTrivia
      return some (Decimal.toNumber ⟨digitsValue (whole ++ fraction), power - fraction.length⟩)) :=
    fun whole fraction => forward_exponent.bind fun power =>
      forward_skipTrivia.bind fun _ => forward_pure _
  refine (forward_takeWhile _).bind fun whole => ?_
  split
  · exact forward_pure none
  · refine (forward_takeOneOf _).bind fun point => ?_
    cases point with
    | none => exact (forward_pure _).bind (hend whole)
    | some x => exact (forward_takeWhile _).bind (hend whole)

theorem forward_hexDigit : Forward hexDigit := by
  refine forward_peek.bind fun next => ?_
  split
  · exact forward_take.bind fun _ => forward_pure _
  · exact forward_expected _ _

theorem forward_hex4 : Forward hex4 :=
  forward_hexDigit.bind fun _ => forward_hexDigit.bind fun _ => forward_hexDigit.bind fun _ =>
    forward_hexDigit.bind fun _ => forward_pure _

theorem forward_charOfCode (n : Nat) : Forward (charOfCode n) := by
  rw [charOfCode]
  split
  · exact forward_expected _ _
  · exact forward_pure _

theorem forward_codeEscape : Forward codeEscape := by
  refine forward_hex4.bind fun first => ?_
  split
  · refine (forward_takePhrase _).bind fun paired => ?_
    cases paired with
    | false => exact forward_charOfCode first
    | true =>
      refine forward_hex4.bind fun second => ?_
      split
      · exact forward_pure _
      · exact forward_charOfCode first
  · exact forward_charOfCode first

theorem forward_escape : Forward escape := by
  refine forward_take.bind fun next => ?_
  split
  · exact forward_codeEscape
  · split
    · exact forward_pure _
    · exact forward_expected _ _
  · exact forward_expected _ _

/-- Every piece of a string takes at least the character that it starts with. -/
theorem piece_forward {pipe : Reader Pipeline} (hpipe : Forward pipe) :
    Forward (piece pipe) ∧ Advances (piece pipe) fun _ => True := by
  refine forward_take.bind_both (P := fun next => next ≠ none) (fun next => ?_) ?_ ?_
  · split
    · exact forward_expected _ _
    · exact forward_pure none
    · refine (forward_takeOneOf _).bind fun opened => ?_
      cases opened with
      | none => exact forward_escape.bind fun c => forward_pure _
      | some x =>
        refine forward_skipTrivia.bind fun _ => hpipe.bind fun p => ?_
        refine (forward_takeOneOf _).bind fun closed => ?_
        cases closed with
        | none => exact forward_expected _ _
        | some x => exact forward_pure _
    · exact forward_pure _
  · exact take_advances
  · rintro next o c d h - rfl
    cases h

theorem forward_string {pipe : Reader Pipeline} (hpipe : Forward pipe) : Forward (string pipe) :=
  forward_take.bind fun _ => (forward_many (piece_forward hpipe).1).bind fun _ =>
    forward_skipTrivia.bind fun _ => forward_pure _

/-! ### Levels -/

section Grammar

variable {inner : Rule} (hinner : Forward inner)
include hinner

theorem forward_outputs : Forward (outputs inner) :=
  (forward_separated (forward_symbol _) hinner).bind fun _ => forward_pure _

theorem forward_pipe : Forward (pipe inner) :=
  (forward_separated (forward_symbolNotBefore _ _) (forward_outputs hinner)).bind fun _ =>
    forward_pure _

theorem forward_argument : Forward (argument inner) :=
  (forward_separated (forward_symbolNotBefore _ _) hinner).bind fun _ => forward_pure _

theorem forward_group : Forward (group inner) := by
  refine (forward_symbol _).bind fun _ => (forward_pipe hinner).bind fun p => ?_
  refine (forward_symbol _).bind fun closed => ?_
  cases closed with
  | true => exact forward_pure p
  | false => exact forward_expected _ _

theorem forward_fieldName : Forward (fieldName inner) := by
  refine forward_variableName.bind fun found => ?_
  cases found with
  | some name => exact forward_pure _
  | none =>
    refine forward_peek.bind fun next => ?_
    split
    · exact (forward_string (forward_pipe hinner)).bind fun i => forward_pure _
    · exact forward_expected _ _

theorem forward_sliceEnd : Forward (sliceEnd inner) := by
  refine (forward_symbol _).bind fun closed => ?_
  cases closed with
  | true => exact forward_pure _
  | false =>
    refine (forward_pipe hinner).bind fun stop => (forward_symbol _).bind fun closed => ?_
    cases closed with
    | true => exact forward_pure stop
    | false => exact forward_expected _ _

theorem forward_bracket : Forward (bracket inner) := by
  have hslice : ∀ start : Pipeline,
      Forward (do return Selector.slice start (← sliceEnd inner)) :=
    fun start => (forward_sliceEnd hinner).bind fun _ => forward_pure _
  refine (forward_symbol _).bind fun closed => ?_
  cases closed with
  | true => exact forward_pure _
  | false =>
    refine (forward_symbol _).bind fun colon => ?_
    cases colon with
    | true => exact hslice _
    | false =>
      refine (forward_pipe hinner).bind fun key => (forward_symbol _).bind fun closed => ?_
      cases closed with
      | true => exact forward_pure _
      | false =>
        refine (forward_symbol _).bind fun colon => ?_
        cases colon with
        | true => exact hslice key
        | false => exact forward_expected _ _

theorem forward_arguments : Forward (arguments inner) :=
  forward_listUntil _ _ _ (forward_argument hinner)

theorem forward_selectorBody (dotted : Bool) : Forward (selectorBody inner dotted) := by
  have hcall : ∀ bound : Bool,
      Forward (do return some (Selector.call (← arguments inner) bound)) :=
    fun bound => (forward_arguments hinner).bind fun _ => forward_pure _
  have hbrackets : Forward (selectorBody inner false) := by
    refine (forward_symbol _).bind fun opened => ?_
    cases opened with
    | true => exact (forward_bracket hinner).bind fun _ => forward_pure _
    | false =>
      refine (forward_symbol _).bind fun arrow => ?_
      cases arrow with
      | true =>
        refine (forward_symbol _).bind fun opened => ?_
        cases opened with
        | true => exact hcall true
        | false => exact forward_expected _ _
      | false =>
        refine (forward_symbol _).bind fun opened => ?_
        cases opened with
        | true => exact hcall false
        | false => exact forward_pure none
  cases dotted with
  | false => exact hbrackets
  | true =>
    refine (forward_symbol _).bind fun point => ?_
    cases point with
    | true => exact (forward_fieldName hinner).bind fun _ => forward_pure _
    | false => exact hbrackets

theorem forward_selector (dotted : Bool) : Forward (selector inner dotted) := by
  refine (forward_selectorBody hinner dotted).bind fun found => ?_
  cases found with
  | none => exact forward_pure none
  | some build => exact (forward_symbolNotBefore _ _).bind fun _ => forward_pure _

theorem forward_path (afterPoint : Bool) : Forward (path inner afterPoint) := by
  refine (forward_selector hinner _).bind fun found => ?_
  cases found with
  | none => exact forward_pure []
  | some first =>
    exact (forward_many (forward_selector hinner true)).bind fun _ => forward_pure _

theorem forward_assignmentTo (steps : List (Selector Pipeline)) :
    Forward (assignmentTo inner steps) := by
  rw [assignmentTo]
  split
  · exact forward_pure none
  · refine (forward_firstSymbol _).bind fun found => ?_
    cases found with
    | none => exact forward_pure none
    | some op => exact hinner.bind fun _ => forward_pure _

theorem forward_arrayConstructor : Forward (arrayConstructor inner) := by
  refine (forward_symbol _).bind fun _ => (forward_symbol _).bind fun closed => ?_
  cases closed with
  | true => exact forward_pure _
  | false =>
    refine (forward_pipe hinner).bind fun p => (forward_symbol _).bind fun closed => ?_
    cases closed with
    | true => exact forward_pure _
    | false => exact forward_expected _ _

theorem forward_fieldKey : Forward (fieldKey inner) := by
  refine forward_name.bind fun found => ?_
  cases found with
  | some name => exact forward_pure _
  | none =>
    refine forward_peek.bind fun next => ?_
    split
    · exact (forward_string (forward_pipe hinner)).bind fun _ => forward_pure _
    · exact (forward_group hinner).bind fun _ => forward_pure _
    · exact forward_expected _ _

theorem forward_field : Forward (field inner) := by
  refine (forward_fieldKey hinner).bind fun k => (forward_symbolNotBefore _ _).bind fun _ => ?_
  refine (forward_symbol _).bind fun colon => ?_
  obtain ⟨key, bare⟩ := k
  cases colon with
  | true => exact hinner.bind fun _ => forward_pure _
  | false =>
    cases bare with
    | none => exact forward_expected _ _
    | some name => exact forward_pure _

theorem forward_objectConstructor : Forward (objectConstructor inner) :=
  (forward_symbol _).bind fun _ =>
    (forward_listUntil _ _ _ (forward_field hinner)).bind fun _ => forward_pure _

theorem forward_primary : Forward (primary inner) := by
  refine forward_peek.bind fun next => ?_
  split
  · exact forward_group hinner
  · exact (forward_string (forward_pipe hinner)).bind fun _ => forward_pure _
  · exact forward_arrayConstructor hinner
  · exact forward_objectConstructor hinner
  · exact forward_expected _ _

theorem forward_accessBase : Forward (accessBase inner) := by
  refine (forward_symbol _).bind fun point => ?_
  cases point with
  | false => exact (forward_primary hinner).bind fun _ => forward_pure _
  | true =>
    refine forward_variableName.bind fun found => ?_
    cases found with
    | some name => exact (forward_symbolNotBefore _ _).bind fun _ => forward_pure _
    | none =>
      refine forward_peek.bind fun next => ?_
      split
      · exact (forward_string (forward_pipe hinner)).bind fun _ =>
          (forward_symbolNotBefore _ _).bind fun _ => forward_pure _
      · exact forward_pure _

theorem forward_valueAccess : Forward (valueAccess inner) := by
  refine (forward_accessBase hinner).bind fun b => (forward_path hinner _).bind fun more => ?_
  split
  · exact forward_pure _
  · refine (forward_assignmentTo hinner _).bind fun found => ?_
    cases found <;> exact forward_pure _

theorem forward_variableAccess : Forward (variableAccess inner) := by
  refine forward_variableName.bind fun found => ?_
  cases found with
  | none => exact forward_valueAccess hinner
  | some name =>
    refine (forward_path hinner _).bind fun steps => ?_
    refine (forward_assignmentTo hinner _).bind fun assigned => ?_
    split <;> exact forward_pure _

omit hinner in
theorem forward_parameter : Forward parameter := by
  refine forward_variableName.bind fun found => ?_
  cases found with
  | none => exact forward_expected _ _
  | some name => exact forward_pure name

omit hinner in
theorem forward_parameters : Forward parameters := by
  refine (forward_symbol _).bind fun opened => ?_
  have hrest : Forward (do
      let names ← listUntil ")" .functionDefinition "expected ',' or ')'" parameter
      if ← symbol ":" then return names
      expected .functionDefinition "expected ':'") := by
    refine (forward_listUntil _ _ _ forward_parameter).bind fun names => ?_
    refine (forward_symbol _).bind fun colon => ?_
    cases colon with
    | true => exact forward_pure names
    | false => exact forward_expected _ _
  split
  · exact (forward_expected _ _).bind fun _ => hrest
  · exact hrest

theorem forward_functionDefinition : Forward (functionDefinition inner) := by
  refine (forward_keyword _).bind fun func => ?_
  cases func with
  | false => exact forward_variableAccess hinner
  | true =>
    exact forward_variableName.bind fun _ => forward_parameters.bind fun _ =>
      hinner.bind fun _ => forward_pure _

theorem forward_constant : Forward (constant inner) := by
  refine (forward_keyword _).bind fun isTrue => ?_
  cases isTrue with
  | true => exact forward_pure _
  | false =>
    refine (forward_keyword _).bind fun isFalse => ?_
    cases isFalse with
    | true => exact forward_pure _
    | false =>
      refine (forward_keyword _).bind fun isNull => ?_
      cases isNull with
      | true => exact forward_pure _
      | false =>
        refine forward_number.bind fun found => ?_
        cases found with
        | some n => exact forward_pure _
        | none => exact forward_functionDefinition hinner

theorem forward_arm : Forward (arm inner) := by
  refine (forward_pipe hinner).bind fun condition => (forward_keyword _).bind fun hit => ?_
  cases hit with
  | true => exact (forward_pipe hinner).bind fun _ => forward_pure _
  | false => exact forward_expected _ _

theorem forward_conditional : Forward (conditional inner) := by
  refine (forward_keyword _).bind fun hit => ?_
  cases hit with
  | false => exact forward_constant hinner
  | true =>
    refine (forward_separated (forward_keyword _) (forward_arm hinner)).bind fun arms => ?_
    have hend : ∀ otherwise : Option Pipeline,
        Forward (do if ← keyword "end" then return [Instruction.branch arms otherwise]
                    expected .ifStatement "expected 'end'") := by
      intro otherwise
      refine (forward_keyword _).bind fun hit => ?_
      cases hit with
      | false => exact forward_expected _ _
      | true => exact forward_pure _
    refine (forward_keyword _).bind fun hit => ?_
    cases hit with
    | false => exact (forward_pure none).bind hend
    | true => exact ((forward_pipe hinner).map some).bind hend

theorem forward_negation : Forward (negation inner) := by
  refine (forward_symbolNotBefore _ _).bind fun hit => ?_
  cases hit with
  | false => exact forward_conditional hinner
  | true => exact (forward_conditional hinner).bind fun _ => forward_pure _

theorem forward_coalescence : Forward (coalescence inner) :=
  (forward_separated (forward_symbol _) (forward_negation hinner)).bind fun _ => forward_pure _

/-- One more operator with its operand. -/
def operation {ω : Type} (operators : List (String × String × ω)) (operand : Rule) :
    Reader (Option (ω × Pipeline)) := do
  match ← firstSymbol operators with
  | some op => return some (op, ← operand)
  | none => return none

omit hinner in
theorem forward_operation {ω : Type} (operators : List (String × String × ω)) {operand : Rule}
    (hoperand : Forward operand) : Forward (operation operators operand) := by
  refine (forward_firstSymbol operators).bind fun found => ?_
  cases found with
  | none => exact forward_pure none
  | some op => exact hoperand.bind fun _ => forward_pure _

omit hinner in
theorem operation_advances {ω : Type} {operators : List (String × String × ω)} {operand : Rule}
    (hoperators : ∀ s ∈ operators, s.1.toList ≠ []) (hoperand : Forward operand) :
    Advances (operation operators operand) fun o => o.isSome := by
  refine (firstSymbol_advances hoperators).bind (fun found => ?_) ?_
  · cases found with
    | none => exact forward_pure none
    | some op => exact hoperand.bind fun _ => forward_pure _
  · intro found o c d h ho
    cases found with
    | none => cases h; exact ho
    | some op => rfl

omit hinner in
theorem forward_chain {ω : Type} (operators : List (String × String × ω)) {operand : Rule}
    (build : Pipeline → List (ω × Pipeline) → Instruction) (hoperand : Forward operand) :
    Forward (chain operators operand build) := by
  refine hoperand.bind fun first => ?_
  refine Forward.bind (forward_many (forward_operation operators hoperand)) fun steps => ?_
  split <;> exact forward_pure _

theorem forward_multiplicative : Forward (multiplicative inner) :=
  forward_chain _ _ (forward_coalescence hinner)

theorem forward_additive : Forward (additive inner) :=
  forward_chain _ _ (forward_multiplicative hinner)

theorem forward_suppression : Forward (suppression inner) := by
  refine (forward_additive hinner).bind fun p => (forward_symbolNotBefore _ _).bind fun hit => ?_
  cases hit <;> exact forward_pure _

theorem forward_complement : Forward (complement inner) := by
  refine (forward_keyword _).bind fun hit => ?_
  cases hit with
  | false => exact forward_suppression hinner
  | true => exact (forward_suppression hinner).bind fun _ => forward_pure _

theorem forward_relational : Forward (relational inner) :=
  forward_chain _ _ (forward_complement hinner)

theorem forward_equality : Forward (equality inner) :=
  forward_chain _ _ (forward_relational hinner)

theorem forward_conjunction : Forward (conjunction inner) :=
  (forward_separated (forward_keyword _) (forward_equality hinner)).bind fun _ => forward_pure _

theorem forward_disjunction : Forward (disjunction inner) :=
  (forward_separated (forward_keyword _) (forward_conjunction hinner)).bind fun _ => forward_pure _

theorem forward_attempt : Forward (attempt inner) := by
  refine (forward_keyword _).bind fun hit => ?_
  cases hit with
  | false => exact forward_disjunction hinner
  | true =>
    refine (forward_disjunction hinner).bind fun body => (forward_keyword _).bind fun hit => ?_
    cases hit with
    | false => exact (forward_pure _).bind fun _ => forward_pure _
    | true => exact (forward_disjunction hinner).bind fun _ => forward_pure _

end Grammar

theorem forward_route (depth : Nat) : Forward (route depth) := by
  induction depth with
  | zero => exact forward_expected _ _
  | succ depth ih => exact forward_attempt ih

end JsonPipe.Source
