import JsonPipe.Proofs.Source.SeamGrammar

/-! The grammar without bounds.

    The reader of a program counts how deep it is nested and how often it repeats a step, and gives
    up when the count is used up. Neither count is ever used up. Nested text is read only after a
    character has been taken: what the grammar makes of a text depends on the reader of nested text
    for shorter texts alone (`agrees_attempt`). So there is exactly one reader that is its own
    reader of nested text (`nested`), and it is the one that every bound of sufficient size gives.
    Likewise every step that is repeated takes a character, so a repetition is a loop
    (`many_unroll`). -/

namespace JsonPipe.Source

open Reader

variable {α β ω : Type}

/-! ### Readers that agree on short texts -/

/-- The readers do the same wherever fewer than `n` characters are left. -/
def Agrees (n : Nat) (r s : Reader α) : Prop := ∀ ⦃c : Cursor⦄, c.after.length < n → r c = s c

/-- The readers do the same in front of the given character, or at the end if there is none. -/
def AgreesBefore (next : Option Char) (n : Nat) (r s : Reader α) : Prop :=
  ∀ ⦃c : Cursor⦄, c.after.head? = next → c.after.length < n → r c = s c

/-- One reader after another, from a place where both sides do the same. -/
theorem bind_congr {r s : Reader α} {f g : α → Reader β} {c : Cursor} (h : r c = s c)
    (hf : ∀ a d, s c = .ok (a, d) → f a d = g a d) : (r >>= f) c = (s >>= g) c := by
  show (r c >>= fun p => f p.1 p.2) = (s c >>= fun p => g p.1 p.2)
  rw [h]
  cases hs : s c with
  | error e => rfl
  | ok p => exact hf p.1 p.2 hs

namespace Agrees

variable {n : Nat} {r s : Reader α} {f g : α → Reader β}

theorem refl (r : Reader α) : Agrees n r r := fun _ _ => rfl

theorem pure (a : α) : Agrees n (pure a : Reader α) (pure a) := refl _

theorem expected (construct : Construct) (what : String) :
    Agrees n (expected construct what : Reader α) (expected construct what) := refl _

theorem bind (h : Agrees n r s) (hs : Forward s) (hf : ∀ a, Agrees n (f a) (g a)) :
    Agrees n (r >>= f) (s >>= g) := by
  intro c hc
  exact bind_congr (h hc) fun a d hd => hf a (Nat.lt_of_le_of_lt (hs.ends hd).length_le hc)

theorem map (h : Agrees n r s) (f : α → β) (hs : Forward s) : Agrees n (f <$> r) (f <$> s) := by
  rw [map_eq_pure_bind, map_eq_pure_bind]
  exact h.bind hs fun _ => refl _

/-- After the same reader. -/
theorem after (hs : Forward s) (hf : ∀ a, Agrees n (f a) (g a)) :
    Agrees n (s >>= f) (s >>= g) :=
  (refl s).bind hs hf

/-- After something has been taken, one character less is left. -/
theorem after_advance {P : α → Prop} (hs : Forward s) (hadvances : Advances s P)
    (hpos : ∀ a, P a → Agrees n (f a) (g a)) (hneg : ∀ a, ¬P a → Agrees (n + 1) (f a) (g a)) :
    Agrees (n + 1) (s >>= f) (s >>= g) := by
  intro c hc
  refine bind_congr rfl fun a d hd => ?_
  by_cases ha : P a
  · have hlt := hadvances hd ha
    exact hpos a ha (by omega)
  · exact hneg a ha (Nat.lt_of_le_of_lt (hs.ends hd).length_le hc)

/-- The choice that a token makes. -/
theorem token {t : Reader Bool} {f g : Bool → Reader β} (ht : Forward t)
    (hadvances : Advances t (· = true)) (htrue : Agrees n (f true) (g true))
    (hfalse : Agrees (n + 1) (f false) (g false)) : Agrees (n + 1) (t >>= f) (t >>= g) := by
  refine after_advance ht hadvances (fun hit h => ?_) fun hit h => ?_
  · cases h
    exact htrue
  · cases hit with
    | true => exact absurd rfl h
    | false => exact hfalse

theorem before (h : Agrees n r s) (next : Option Char) : AgreesBefore next n r s :=
  fun _ _ hc => h hc

theorem repeatAlong {step step' : Reader (Option α)} (h : Agrees n step step')
    (hstep : Forward step') (bound : List Char) :
    Agrees n (repeatAlong step bound) (repeatAlong step' bound) := by
  induction bound with
  | nil => exact h.bind hstep fun o => pure o.toList
  | cons x bound ih =>
    rw [repeatAlong_cons, repeatAlong_cons]
    refine h.bind hstep fun o => ?_
    cases o with
    | none => exact refl _
    | some a => exact ih.bind (forward_repeatAlong hstep bound) fun as => refl _

theorem many {step step' : Reader (Option α)} (h : Agrees n step step') (hstep : Forward step') :
    Agrees n (many step) (many step') :=
  fun c hc => h.repeatAlong hstep c.after hc

theorem separated {separator : Reader Bool} {item item' : Reader α} (hsep : Forward separator)
    (h : Agrees n item item') (hitem : Forward item') :
    Agrees n (separated separator item) (separated separator item') := by
  have hstep : Agrees n (another separator item) (another separator item') := by
    refine after hsep fun hit => ?_
    cases hit with
    | true => exact h.bind hitem fun _ => refl _
    | false => exact refl _
  refine h.bind hitem fun first => ?_
  have hanother := forward_another hsep hitem
  exact (hstep.many hanother).bind (forward_many hanother) fun _ => refl _

theorem listUntil (close : String) (construct : Construct) (what : String)
    {item item' : Reader α} (h : Agrees n item item') (hitem : Forward item') :
    Agrees n (listUntil close construct what item) (listUntil close construct what item') := by
  have hstep : Agrees n (anotherUntil close construct what item)
      (anotherUntil close construct what item') := by
    refine after (forward_symbol close) fun closed => ?_
    cases closed with
    | true => exact refl _
    | false =>
      refine after (forward_symbol ",") fun comma => ?_
      cases comma with
      | true => exact h.bind hitem fun _ => refl _
      | false => exact refl _
  refine after (forward_symbol close) fun closed => ?_
  cases closed with
  | true => exact refl _
  | false =>
    refine h.bind hitem fun first => ?_
    have hanother := forward_anotherUntil close construct what hitem
    exact (hstep.many hanother).bind (forward_many hanother) fun _ => refl _

theorem chain (operators : List (String × String × ω)) {operand operand' : Rule}
    (build : Pipeline → List (ω × Pipeline) → Instruction) (h : Agrees n operand operand')
    (hoperand : Forward operand') :
    Agrees n (chain operators operand build) (chain operators operand' build) := by
  have hstep : Agrees n (operation operators operand) (operation operators operand') := by
    refine after (forward_firstSymbol operators) fun found => ?_
    cases found with
    | none => exact refl _
    | some op => exact h.bind hoperand fun _ => refl _
  refine h.bind hoperand fun first => ?_
  have hoperation := forward_operation operators hoperand
  exact (hstep.many hoperation).bind (forward_many hoperation) fun _ => refl _

/-- After a look at the next character. -/
theorem peek {f g : Option Char → Reader β} (hf : ∀ next, AgreesBefore next n (f next) (g next)) :
    Agrees n (peek >>= f) (peek >>= g) := by
  intro c hc
  refine bind_congr rfl fun next d hd => ?_
  cases hd
  exact hf _ rfl hc

end Agrees

theorem AgreesBefore.bind {n : Nat} {next : Option Char} {r s : Reader α} {f g : α → Reader β}
    (h : AgreesBefore next n r s) (hs : Forward s) (hf : ∀ a, Agrees n (f a) (g a)) :
    AgreesBefore next n (r >>= f) (s >>= g) := by
  intro c hnext hc
  exact bind_congr (h hnext hc) fun a d hd => hf a (Nat.lt_of_le_of_lt (hs.ends hd).length_le hc)

/-! ### Levels of the grammar -/

section Grammar

variable {inner inner' : Rule} {n : Nat} (h : Agrees n inner inner') (hf : Forward inner')
include h hf

theorem agrees_outputs : Agrees n (outputs inner) (outputs inner') :=
  (Agrees.separated (forward_symbol _) h hf).bind (forward_separated (forward_symbol _) hf)
    fun _ => .refl _

theorem agrees_pipe : Agrees n (pipe inner) (pipe inner') :=
  (Agrees.separated (forward_symbolNotBefore _ _) (agrees_outputs h hf) (forward_outputs hf)).bind
    (forward_separated (forward_symbolNotBefore _ _) (forward_outputs hf)) fun _ => .refl _

theorem agrees_argument : Agrees n (argument inner) (argument inner') :=
  (Agrees.separated (forward_symbolNotBefore _ _) h hf).bind
    (forward_separated (forward_symbolNotBefore _ _) hf) fun _ => .refl _

omit h hf in
/-- A symbol that is there is taken. -/
theorem symbol_of_head {s : String} {x : Char} (hs : s.toList = [x]) {c d : Cursor} {hit : Bool}
    (hx : c.after.head? = some x) (hsym : symbol s c = .ok (hit, d)) : hit = true := by
  have hstands : stands [x] ("".toList.contains) false c = true := by
    obtain ⟨b, t⟩ := c
    cases t with
    | nil => cases hx
    | cons y t =>
      cases hx
      cases t <;> simp [stands, heads]
  rw [symbol, symbolNotBefore_eq, hs, word, if_pos hstands] at hsym
  obtain ⟨_, _, _, hsym⟩ := bind_eq_ok hsym
  cases hsym
  rfl

/-- The parenthesis is taken before the text in it is read. -/
theorem agrees_group : AgreesBefore (some '(') (n + 1) (group inner) (group inner') := by
  intro c hx hc
  refine bind_congr rfl fun hit d hd => ?_
  obtain rfl := symbol_of_head (by decide) hx hd
  have hlt := symbolNotBefore_advances (by decide) hd rfl
  refine ((agrees_pipe h hf).bind (forward_pipe hf) fun p => .refl _) ?_
  omega

/-- A piece of a string takes a character before it reads text in a hole. -/
theorem agrees_piece : Agrees (n + 1) (piece (pipe inner)) (piece (pipe inner')) := by
  refine .after_advance forward_take take_advances (fun next hnext => ?_) fun next hnext => ?_
  · split
    · exact .expected _ _
    · exact .pure _
    · refine .after (forward_takeOneOf _) fun opened => ?_
      cases opened with
      | none => exact .refl _
      | some x =>
        exact .after forward_skipTrivia fun _ => (agrees_pipe h hf).bind (forward_pipe hf)
          fun _ => .refl _
    · exact .pure _
  · cases next with
    | none => exact .expected _ _
    | some x => exact absurd nofun hnext

theorem agrees_string : Agrees (n + 1) (string (pipe inner)) (string (pipe inner')) :=
  .after forward_take fun _ =>
    ((agrees_piece h hf).many (piece_forward (forward_pipe hf)).1).bind
      (forward_many (piece_forward (forward_pipe hf)).1) fun _ => .refl _

theorem agrees_fieldName : Agrees (n + 1) (fieldName inner) (fieldName inner') := by
  refine .after forward_variableName fun found => ?_
  cases found with
  | some name => exact .pure _
  | none =>
    refine .after forward_peek fun next => ?_
    split
    · exact (agrees_string h hf).bind (forward_string (forward_pipe hf)) fun _ => .refl _
    · exact .expected _ _

theorem agrees_sliceEnd : Agrees n (sliceEnd inner) (sliceEnd inner') := by
  refine .after (forward_symbol _) fun closed => ?_
  cases closed with
  | true => exact .pure _
  | false => exact (agrees_pipe h hf).bind (forward_pipe hf) fun _ => .refl _

theorem agrees_bracket : Agrees n (bracket inner) (bracket inner') := by
  have hslice : ∀ start : Pipeline,
      Agrees n (do return Selector.slice start (← sliceEnd inner))
        (do return Selector.slice start (← sliceEnd inner')) :=
    fun start => (agrees_sliceEnd h hf).bind (forward_sliceEnd hf) fun _ => .refl _
  refine .after (forward_symbol _) fun closed => ?_
  cases closed with
  | true => exact .pure _
  | false =>
    refine .after (forward_symbol _) fun colon => ?_
    cases colon with
    | true => exact hslice _
    | false =>
      refine (agrees_pipe h hf).bind (forward_pipe hf) fun key => ?_
      refine .after (forward_symbol _) fun closed => ?_
      cases closed with
      | true => exact .pure _
      | false =>
        refine .after (forward_symbol _) fun colon => ?_
        cases colon with
        | true => exact hslice key
        | false => exact .expected _ _

theorem agrees_arguments : Agrees n (arguments inner) (arguments inner') :=
  .listUntil _ _ _ (agrees_argument h hf) (forward_argument hf)

theorem agrees_selectorBody (dotted : Bool) :
    Agrees (n + 1) (selectorBody inner dotted) (selectorBody inner' dotted) := by
  have hcall : ∀ bound : Bool,
      Agrees n (do return some (Selector.call (← arguments inner) bound))
        (do return some (Selector.call (← arguments inner') bound)) :=
    fun bound => (agrees_arguments h hf).bind (forward_arguments hf) fun _ => .refl _
  have hbrackets : Agrees (n + 1) (selectorBody inner false) (selectorBody inner' false) := by
    refine .token (forward_symbol _) (symbolNotBefore_advances (by decide)) ?_ ?_
    · exact (agrees_bracket h hf).bind (forward_bracket hf) fun _ => .refl _
    · refine .token (forward_symbol _) (symbolNotBefore_advances (by decide)) ?_ ?_
      · refine .after (forward_symbol _) fun opened => ?_
        cases opened with
        | true => exact hcall true
        | false => exact .expected _ _
      · exact .token (forward_symbol _) (symbolNotBefore_advances (by decide)) (hcall false)
          (.pure _)
  cases dotted with
  | false => exact hbrackets
  | true =>
    refine .after (forward_symbol _) fun point => ?_
    cases point with
    | true => exact (agrees_fieldName h hf).bind (forward_fieldName hf) fun _ => .refl _
    | false => exact hbrackets

theorem agrees_selector (dotted : Bool) :
    Agrees (n + 1) (selector inner dotted) (selector inner' dotted) :=
  (agrees_selectorBody h hf dotted).bind (forward_selectorBody hf dotted) fun _ => .refl _

theorem agrees_path (afterPoint : Bool) :
    Agrees (n + 1) (path inner afterPoint) (path inner' afterPoint) := by
  refine (agrees_selector h hf _).bind (forward_selector hf _) fun found => ?_
  cases found with
  | none => exact .pure _
  | some first =>
    exact ((agrees_selector h hf true).many (forward_selector hf true)).bind
      (forward_many (forward_selector hf true)) fun _ => .refl _

theorem agrees_assignmentTo (steps : List (Selector Pipeline)) :
    Agrees (n + 1) (assignmentTo inner steps) (assignmentTo inner' steps) := by
  rw [assignmentTo, assignmentTo]
  split
  · exact .pure _
  · refine .after_advance (forward_firstSymbol _) (firstSymbol_advances (by decide))
      (fun found hfound => ?_) fun found hfound => ?_
    · cases found with
      | none => exact .pure _
      | some op => exact h.bind hf fun _ => .refl _
    · cases found with
      | none => exact .pure _
      | some op => exact absurd rfl hfound

theorem agrees_arrayConstructor :
    AgreesBefore (some '[') (n + 1) (arrayConstructor inner) (arrayConstructor inner') := by
  intro c hx hc
  refine bind_congr rfl fun hit d hd => ?_
  obtain rfl := symbol_of_head (by decide) hx hd
  have hlt := symbolNotBefore_advances (by decide) hd rfl
  refine Agrees.after (forward_symbol _) (fun closed => ?_) (by omega : d.after.length < n)
  cases closed with
  | true => exact .pure _
  | false => exact (agrees_pipe h hf).bind (forward_pipe hf) fun _ => .refl _

theorem agrees_fieldKey : Agrees (n + 1) (fieldKey inner) (fieldKey inner') := by
  refine .after forward_name fun found => ?_
  cases found with
  | some name => exact .pure _
  | none =>
    refine .peek fun next => ?_
    split
    · exact ((agrees_string h hf).before _).bind (forward_string (forward_pipe hf)) fun _ => .refl _
    · exact (agrees_group h hf).bind (forward_group hf) fun _ => .refl _
    · exact Agrees.before (.expected _ _) _

theorem agrees_field : Agrees (n + 1) (field inner) (field inner') := by
  refine (agrees_fieldKey h hf).bind (forward_fieldKey hf) fun k => ?_
  obtain ⟨key, bare⟩ := k
  refine .after (forward_symbolNotBefore _ _) fun optional => ?_
  refine .token (forward_symbol _) (symbolNotBefore_advances (by decide)) ?_ ?_
  · exact h.bind hf fun _ => .refl _
  · cases bare with
    | none => exact .expected _ _
    | some name => exact .pure _

theorem agrees_objectConstructor :
    Agrees (n + 1) (objectConstructor inner) (objectConstructor inner') :=
  .after (forward_symbol _) fun _ =>
    (Agrees.listUntil _ _ _ (agrees_field h hf) (forward_field hf)).bind
      (forward_listUntil _ _ _ (forward_field hf)) fun _ => .refl _

theorem agrees_primary : Agrees (n + 1) (primary inner) (primary inner') := by
  refine .peek fun next => ?_
  split
  · exact agrees_group h hf
  · exact ((agrees_string h hf).before _).bind (forward_string (forward_pipe hf)) fun _ => .refl _
  · exact agrees_arrayConstructor h hf
  · exact (agrees_objectConstructor h hf).before _
  · exact Agrees.before (.expected _ _) _

theorem agrees_accessBase : Agrees (n + 1) (accessBase inner) (accessBase inner') := by
  refine .after (forward_symbol _) fun point => ?_
  cases point with
  | false => exact (agrees_primary h hf).bind (forward_primary hf) fun _ => .refl _
  | true =>
    refine .after forward_variableName fun found => ?_
    cases found with
    | some name => exact .after (forward_symbolNotBefore _ _) fun _ => .pure _
    | none =>
      refine .after forward_peek fun next => ?_
      split
      · exact (agrees_string h hf).bind (forward_string (forward_pipe hf)) fun _ => .refl _
      · exact .pure _

theorem agrees_valueAccess : Agrees (n + 1) (valueAccess inner) (valueAccess inner') := by
  refine (agrees_accessBase h hf).bind (forward_accessBase hf) fun b => ?_
  refine (agrees_path h hf _).bind (forward_path hf _) fun more => ?_
  split
  · exact .pure _
  · exact (agrees_assignmentTo h hf _).bind (forward_assignmentTo hf _) fun _ => .refl _

theorem agrees_variableAccess : Agrees (n + 1) (variableAccess inner) (variableAccess inner') := by
  refine .after forward_variableName fun found => ?_
  cases found with
  | none => exact agrees_valueAccess h hf
  | some name =>
    refine (agrees_path h hf _).bind (forward_path hf _) fun steps => ?_
    exact (agrees_assignmentTo h hf _).bind (forward_assignmentTo hf _) fun _ => .refl _

theorem agrees_functionDefinition :
    Agrees (n + 1) (functionDefinition inner) (functionDefinition inner') := by
  refine .token (forward_keyword _) (keyword_advances (by decide)) ?_ ?_
  · exact .after forward_variableName fun _ => .after forward_parameters fun _ =>
      h.bind hf fun _ => .refl _
  · exact agrees_variableAccess h hf

theorem agrees_constant : Agrees (n + 1) (constant inner) (constant inner') := by
  refine .after (forward_keyword _) fun isTrue => ?_
  cases isTrue with
  | true => exact .pure _
  | false =>
    refine .after (forward_keyword _) fun isFalse => ?_
    cases isFalse with
    | true => exact .pure _
    | false =>
      refine .after (forward_keyword _) fun isNull => ?_
      cases isNull with
      | true => exact .pure _
      | false =>
        refine .after forward_number fun found => ?_
        cases found with
        | some n => exact .pure _
        | none => exact agrees_functionDefinition h hf

theorem agrees_arm : Agrees n (arm inner) (arm inner') := by
  refine (agrees_pipe h hf).bind (forward_pipe hf) fun condition => ?_
  refine .after (forward_keyword _) fun hit => ?_
  cases hit with
  | true => exact (agrees_pipe h hf).bind (forward_pipe hf) fun _ => .refl _
  | false => exact .expected _ _

theorem agrees_conditional : Agrees (n + 1) (conditional inner) (conditional inner') := by
  refine .token (forward_keyword _) (keyword_advances (by decide)) ?_ (agrees_constant h hf)
  have harms := Agrees.separated (forward_keyword "elif") (agrees_arm h hf) (forward_arm hf)
  refine harms.bind (forward_separated (forward_keyword _) (forward_arm hf)) fun arms => ?_
  -- after an error nothing is read, so the end of the conditional has no nested text
  have hend : ∀ otherwise : Option Pipeline,
      Agrees n (do if ← keyword "end" then return [Instruction.branch arms otherwise]
                   expected .ifStatement "expected 'end'")
        (do if ← keyword "end" then return [Instruction.branch arms otherwise]
            expected .ifStatement "expected 'end'") := fun _ => .refl _
  refine .after (forward_keyword _) fun hit => ?_
  cases hit with
  | false => exact (Agrees.pure none).bind (forward_pure none) hend
  | true =>
    exact ((agrees_pipe h hf).map some (forward_pipe hf)).bind ((forward_pipe hf).map some) hend

theorem agrees_negation : Agrees (n + 1) (negation inner) (negation inner') := by
  refine .after (forward_symbolNotBefore _ _) fun hit => ?_
  cases hit with
  | false => exact agrees_conditional h hf
  | true => exact (agrees_conditional h hf).bind (forward_conditional hf) fun _ => .refl _

theorem agrees_coalescence : Agrees (n + 1) (coalescence inner) (coalescence inner') :=
  (Agrees.separated (forward_symbol _) (agrees_negation h hf) (forward_negation hf)).bind
    (forward_separated (forward_symbol _) (forward_negation hf)) fun _ => .refl _

theorem agrees_multiplicative : Agrees (n + 1) (multiplicative inner) (multiplicative inner') :=
  .chain _ _ (agrees_coalescence h hf) (forward_coalescence hf)

theorem agrees_additive : Agrees (n + 1) (additive inner) (additive inner') :=
  .chain _ _ (agrees_multiplicative h hf) (forward_multiplicative hf)

theorem agrees_suppression : Agrees (n + 1) (suppression inner) (suppression inner') :=
  (agrees_additive h hf).bind (forward_additive hf) fun _ => .refl _

theorem agrees_complement : Agrees (n + 1) (complement inner) (complement inner') := by
  refine .after (forward_keyword _) fun hit => ?_
  cases hit with
  | false => exact agrees_suppression h hf
  | true => exact (agrees_suppression h hf).bind (forward_suppression hf) fun _ => .refl _

theorem agrees_relational : Agrees (n + 1) (relational inner) (relational inner') :=
  .chain _ _ (agrees_complement h hf) (forward_complement hf)

theorem agrees_equality : Agrees (n + 1) (equality inner) (equality inner') :=
  .chain _ _ (agrees_relational h hf) (forward_relational hf)

theorem agrees_conjunction : Agrees (n + 1) (conjunction inner) (conjunction inner') :=
  (Agrees.separated (forward_keyword _) (agrees_equality h hf) (forward_equality hf)).bind
    (forward_separated (forward_keyword _) (forward_equality hf)) fun _ => .refl _

theorem agrees_disjunction : Agrees (n + 1) (disjunction inner) (disjunction inner') :=
  (Agrees.separated (forward_keyword _) (agrees_conjunction h hf) (forward_conjunction hf)).bind
    (forward_separated (forward_keyword _) (forward_conjunction hf)) fun _ => .refl _

/-- What the level of `try` makes of a text depends on the reader of nested text for shorter texts
    alone. -/
theorem agrees_attempt : Agrees (n + 1) (attempt inner) (attempt inner') := by
  refine .after (forward_keyword _) fun hit => ?_
  cases hit with
  | false => exact agrees_disjunction h hf
  | true =>
    refine (agrees_disjunction h hf).bind (forward_disjunction hf) fun body => ?_
    refine .after (forward_keyword _) fun hit => ?_
    cases hit with
    | false => exact (Agrees.pure _).bind (forward_pure _) fun _ => .refl _
    | true => exact (agrees_disjunction h hf).bind (forward_disjunction hf) fun _ => .refl _

end Grammar

/-! ### Nesting without a bound -/

/-- Readers with different bounds agree on texts that are shorter than both. -/
theorem agrees_route {n depth depth' : Nat} (h : n ≤ depth) (h' : n ≤ depth') :
    Agrees n (route depth) (route depth') := by
  induction n generalizing depth depth' with
  | zero => exact fun c hc => absurd hc (Nat.not_lt_zero _)
  | succ n ih =>
    cases depth with
    | zero => omega
    | succ depth =>
      cases depth' with
      | zero => omega
      | succ depth' =>
        have hinner : Agrees n (route depth) (route depth') := ih (by omega) (by omega)
        exact agrees_attempt hinner (forward_route depth')

/-- The level of `try` with as much nested in it as there is. -/
def nested : Rule := fun c => route (c.after.length + 1) c

theorem agrees_nested {n depth : Nat} (h : n ≤ depth) : Agrees n (route depth) nested := by
  intro c hc
  have hshort : c.after.length + 1 ≤ depth := by omega
  exact agrees_route hshort (Nat.le_refl _) (Nat.lt_succ_self _)

theorem forward_nested : Forward nested where
  ends h := (forward_route _).ends h
  fails h := (forward_route _).fails h

/-- Nested text is read by the same reader. -/
theorem nested_eq : nested = attempt nested := by
  funext c
  exact agrees_attempt (agrees_nested (Nat.le_refl _)) forward_nested (Nat.lt_succ_self _)

/-- No other reader is its own reader of nested text. -/
theorem eq_nested {r : Rule} (h : r = attempt r) : r = nested := by
  have hall : ∀ n, Agrees n r nested := by
    intro n
    induction n with
    | zero => exact fun c hc => absurd hc (Nat.not_lt_zero _)
    | succ n ih =>
      rw [h, nested_eq]
      exact agrees_attempt ih forward_nested
  funext c
  exact hall _ (Nat.lt_succ_self c.after.length)

/-- A whole program, given a reader of nested text. -/
def programOver (inner : Rule) : Rule := do
  skipTrivia
  let p ← pipe inner
  fun c => if c.after.isEmpty then .ok (p, c) else expected .program "expected EOT" c

theorem agrees_program {n depth : Nat} (h : n ≤ depth) :
    Agrees n (program depth) (programOver nested) :=
  .after forward_skipTrivia fun _ =>
    (agrees_pipe (agrees_nested h) forward_nested).bind (forward_pipe forward_nested)
      fun _ => .refl _

theorem parse_eq (source : String) :
    Pipeline.parse source = (programOver nested (.start source.toList)).map Prod.fst := by
  have hprogram : program (source.toList.length + 1) (.start source.toList) =
      programOver nested (.start source.toList) :=
    agrees_program (Nat.le_refl _) (Nat.lt_succ_self _)
  rw [Pipeline.parse, hprogram]
  cases programOver nested (.start source.toList) <;> rfl

/-! ### Repetition without a bound -/

theorem repeatAlong_nil (step : Reader (Option α)) :
    repeatAlong step [] = step >>= fun o => pure o.toList := rfl

/-- At the end of the text the step yields nothing, whatever the bound. -/
theorem repeatAlong_at_end {step : Reader (Option α)} (hstep : Advances step fun o => o.isSome)
    {c : Cursor} (hc : c.after.length ≤ 0) (bound : List Char) :
    repeatAlong step bound c = repeatAlong step [] c := by
  have hnil : c.after = [] := List.length_eq_zero_iff.1 (Nat.le_zero.1 hc)
  cases bound with
  | nil => rfl
  | cons x bound =>
    rw [repeatAlong_cons, repeatAlong_nil]
    refine bind_congr rfl fun o d hd => ?_
    cases o with
    | none => rfl
    | some a => exact absurd hnil (hstep.after_ne_nil hd rfl)

/-- A bound that is long enough does not matter. -/
theorem repeatAlong_eq {step : Reader (Option α)} (hstep : Advances step fun o => o.isSome)
    {bound bound' : List Char} {c : Cursor} (h : c.after.length ≤ bound.length)
    (h' : c.after.length ≤ bound'.length) :
    repeatAlong step bound c = repeatAlong step bound' c := by
  induction bound generalizing bound' c with
  | nil => exact (repeatAlong_at_end hstep h bound').symm
  | cons x bound ih =>
    cases bound' with
    | nil => exact repeatAlong_at_end hstep h' (x :: bound)
    | cons y bound' =>
      rw [repeatAlong_cons, repeatAlong_cons]
      refine bind_congr rfl fun o d hd => ?_
      cases o with
      | none => rfl
      | some a =>
        have hlt := hstep hd rfl
        simp only [List.length_cons] at h h'
        exact bind_congr (ih (by omega) (by omega)) fun _ _ _ => rfl

/-- A step that takes something whenever it yields something is repeated until it does not. -/
theorem many_unroll {step : Reader (Option α)} (hstep : Advances step fun o => o.isSome) :
    many step = do
      match ← step with
      | none => return []
      | some a => return a :: (← many step) := by
  funext c
  have hbound : many step c = repeatAlong step (' ' :: c.after) c :=
    repeatAlong_eq hstep (Nat.le_refl _) (Nat.le_succ _)
  rw [hbound, repeatAlong_cons]
  refine bind_congr rfl fun o d hd => ?_
  cases o with
  | none => rfl
  | some a =>
    have hrest : repeatAlong step c.after d = many step d :=
      repeatAlong_eq hstep (Nat.le_of_lt (hstep hd rfl)) (Nat.le_refl _)
    exact bind_congr hrest fun _ _ _ => rfl

/-- The steps that the grammar repeats. -/
inductive Repeated (inner : Rule) : (α : Type) → Reader (Option α) → Prop
  | output : Repeated inner _ (another (symbol ",") inner)
  | bar : Repeated inner _ (another (symbolNotBefore "|" "=") (outputs inner))
  | argumentBar : Repeated inner _ (another (symbolNotBefore "|" "=") inner)
  | argument : Repeated inner _
      (anotherUntil ")" .functionCall "expected ',' or ')'" (argument inner))
  | parameter : Repeated inner _
      (anotherUntil ")" .functionDefinition "expected ',' or ')'" parameter)
  | field : Repeated inner _
      (anotherUntil "\x7d" .objectConstructor "expected ',' or '\x7d'" (field inner))
  | piece : Repeated inner _ (piece (pipe inner))
  | selector : Repeated inner _ (selector inner true)
  | arm : Repeated inner _ (another (keyword "elif") (arm inner))
  | alternative : Repeated inner _ (another (symbol "??") (negation inner))
  | factor : Repeated inner (ArithmeticOp × Pipeline)
      (operation [("*", "=", .multiplication), ("/", "=", .division), ("%", "=", .remainder)]
        (coalescence inner))
  | summand : Repeated inner (ArithmeticOp × Pipeline)
      (operation [("+", "=", .addition), ("-", "=>", .subtraction)] (multiplicative inner))
  | bound : Repeated inner (ComparisonOp × Pipeline)
      (operation [("<=", "", .lessEqual), ("<", "", .less), (">=", "", .greaterEqual),
        (">", "", .greater)] (complement inner))
  | equal : Repeated inner (ComparisonOp × Pipeline)
      (operation [("==", "", .equal), ("!=", "", .unequal)] (relational inner))
  | conjunct : Repeated inner _ (another (keyword "and") (equality inner))
  | disjunct : Repeated inner _ (another (keyword "or") (conjunction inner))

/-- Every step that is repeated takes something. -/
theorem Repeated.advances {inner : Rule} (hf : Forward inner) {step : Reader (Option α)}
    (h : Repeated inner α step) : Advances step fun o => o.isSome := by
  cases h with
  | output => exact another_advances (symbolNotBefore_advances (by decide)) hf
  | bar => exact another_advances (symbolNotBefore_advances (by decide)) (forward_outputs hf)
  | argumentBar => exact another_advances (symbolNotBefore_advances (by decide)) hf
  | argument =>
    exact fun c d o hd _ =>
      anotherUntil_advances _ _ (by decide) (forward_argument hf) hd trivial
  | parameter =>
    exact fun c d o hd _ => anotherUntil_advances _ _ (by decide) forward_parameter hd trivial
  | field =>
    exact fun c d o hd _ => anotherUntil_advances _ _ (by decide) (forward_field hf) hd trivial
  | piece => exact fun c d o hd _ => (piece_forward (forward_pipe hf)).2 hd trivial
  | selector => exact selector_advances hf true
  | arm => exact another_advances (keyword_advances (by decide)) (forward_arm hf)
  | alternative =>
    exact another_advances (symbolNotBefore_advances (by decide)) (forward_negation hf)
  | factor => exact operation_advances (by decide) (forward_coalescence hf)
  | summand => exact operation_advances (by decide) (forward_multiplicative hf)
  | bound => exact operation_advances (by decide) (forward_complement hf)
  | equal => exact operation_advances (by decide) (forward_relational hf)
  | conjunct => exact another_advances (keyword_advances (by decide)) (forward_equality hf)
  | disjunct => exact another_advances (keyword_advances (by decide)) (forward_conjunction hf)

end JsonPipe.Source
