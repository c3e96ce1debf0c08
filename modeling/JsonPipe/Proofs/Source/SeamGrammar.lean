import JsonPipe.Proofs.Source.Linking

/-! The grammar at a seam.

    Every level of the grammar keeps the places of tokens linked if the reader of nested text does,
    and so does the reader of a program at any depth (`carries_route`). Only what may end with a
    pipeline asks for more: the pipeline must not end the first text where the second goes on with a
    bar. Whatever is closed by a symbol or a keyword has that for free, for the pipeline in it ends
    in front of that. -/

namespace JsonPipe.Source

open Reader

variable {α : Type} (σ : Linking)

/-! ### Tokens that close something -/

/-- A choice by a token that takes something either way. -/
theorem advances_choice {s : Reader Bool} {f : Bool → Reader α} {P : α → Prop} (hs : Forward s)
    (hadvances : Advances s (· = true)) (htrue : Forward (f true)) (hfalse : Advances (f false) P) :
    Advances (s >>= f) P := by
  intro c d a h ha
  obtain ⟨hit, e, hse, h⟩ := bind_eq_ok h
  cases hit with
  | true => exact Nat.lt_of_le_of_lt (htrue.ends h).length_le (hadvances hse rfl)
  | false => exact Nat.lt_of_lt_of_le (hfalse h ha) (hs.ends hse).length_le

theorem advances_expected (construct : Construct) (what : String) (P : α → Prop) :
    Advances (expected construct what : Reader α) P := by
  rintro c d a ⟨⟩

/-- The token that has to follow, or an error. -/
def closing (token : Reader Bool) (a : α) (construct : Construct) (what : String) : Reader α := do
  if ← token then return a
  expected construct what

section Closing

variable {token : Reader Bool} (a : α) (construct : Construct) (what : String)

theorem closing_advances (htoken : Forward token) (hadvances : Advances token (· = true)) :
    Advances (closing token a construct what) fun _ => True :=
  advances_choice htoken hadvances (forward_pure a) (advances_expected _ _ _)

theorem mirrors_closing {ok : Bool → Cursor → Prop} {P : Cursor → Cursor → Prop}
    {Q : Bool → Cursor → Cursor → Prop} (h : Mirrors ok P token token Q) (hok : ∀ c, ok true c) :
    Mirrors Always P (closing token a construct what) (closing token a construct what)
      fun _ => Q true := by
  refine h.bind (fun hit => ?_) ?_
  · cases hit with
    | true => exact mirrors_pure a fun _ _ h => h
    | false => exact mirrors_expected _ _ _
  · intro hit x c d h _
    cases hit with
    | true => exact hok c
    | false => cases h

end Closing

section Symbols

variable {opened : List Opening}

theorem mirrors_bar :
    Mirrors (fun hit c => hit = true ∨ σ.Within '|' c) (σ.Settled opened)
      (symbolNotBefore "|" "=") (symbolNotBefore "|" "=") fun _ => σ.Settled opened :=
  (σ.mirrors_single (x := '|') (by decide) fun v => rfl).imp fun hit _ _ h => by
    cases hit <;> exact h

theorem mirrors_closeBracket :
    Mirrors (fun hit c => hit = true ∨ σ.Within ']' c) (σ.Settled opened) (symbol "]")
      (symbol "]") fun _ => σ.Settled opened :=
  (σ.mirrors_single (x := ']') (by decide) fun v => rfl).imp fun hit _ _ h => by
    cases hit <;> exact h

theorem mirrors_closeParen :
    Mirrors (fun hit c => hit = true ∨ σ.Within ')' c) (σ.Settled (.group :: opened)) (symbol ")")
      (symbol ")") fun hit => σ.Settled (bif hit then opened else .group :: opened) :=
  σ.mirrors_single (x := ')') (by decide) fun v => rfl

theorem mirrors_openParen :
    Mirrors Always (σ.Settled opened) (symbol "(") (symbol "(")
      fun hit => σ.Settled (bif hit then .group :: opened else opened) :=
  (σ.mirrors_single (x := '(') (by decide) fun v => rfl).weaken fun _ c _ =>
    .inr (σ.within_paren c)

end Symbols

/-- The parenthesis that a group starts with. -/
theorem mirrors_groupStart {opened : List Opening} :
    Mirrors Always (fun c d => σ.Settled opened c d ∧ c.after.head? = some '(') (symbol "(")
      (symbol "(") fun _ => σ.Settled (.group :: opened) := by
  rintro ⟨b, t⟩ d ⟨hcd, hhead⟩ hit c' h -
  obtain ⟨d', hd', hsymbol⟩ := mirrors_openParen σ hcd h trivial
  obtain ⟨t, rfl⟩ := List.head?_eq_some_iff.1 hhead
  have hstands : stands ['('] "".toList.contains false ⟨b, '(' :: t⟩ = true := by
    cases t <;> rfl
  have hhit : hit = true := by
    have hword : word ['('] "".toList.contains false ⟨b, '(' :: t⟩ = .ok (hit, c') :=
      symbolNotBefore_eq "(" "" ▸ h
    rw [word, if_pos hstands] at hword
    obtain ⟨_, e, -, hpure⟩ := bind_eq_ok hword
    cases hpure
    rfl
  subst hhit
  exact ⟨d', hd', hsymbol⟩

/-- A look at the next character. Where the first text ends, the second shows a symbol that closes a
    pipeline, and the reader must treat that as the end. -/
theorem mirrors_peek {ok : α → Cursor → Prop} {opened : List Opening}
    {R : α → Cursor → Cursor → Prop} {f g : Option Char → Reader α}
    (hf : ∀ o, Mirrors ok (fun c d => σ.Settled opened c d ∧ c.after.head? = o) (f o) (g o) R)
    (hparen : g (some ')') = g none) (hbracket : g (some ']') = g none)
    (hbar : g (some '|') = g none) :
    Mirrors ok (σ.Settled opened) (peek >>= f) (peek >>= g) R := by
  intro c d hcd a c' h hok
  have hgoal := hf c.after.head? ⟨hcd, rfl⟩ h hok
  have hpeek : (peek >>= g) d = g d.after.head? d := rfl
  rw [hpeek]
  rcases σ.head hcd with heq | ⟨hc, hclosing⟩
  · rw [← heq]
    exact hgoal
  · rw [hc] at hgoal
    generalize d.after = r at hclosing ⊢
    unfold isClosing at hclosing
    split at hclosing
    · exact hparen ▸ hgoal
    · exact hbracket ▸ hgoal
    · exact hbar ▸ hgoal
    · cases hclosing

theorem carries_firstSymbol {operators : List (String × String × α)}
    (hoperators : ∀ s ∈ operators, isPlain s.1.toList = true ∧
      s.2.1.toList.all (fun x => !isEdge x) = true) :
    σ.Carries Always (firstSymbol operators) (firstSymbol operators) := by
  intro opened
  induction operators with
  | nil => exact mirrors_pure none fun _ _ h => h
  | cons s operators ih =>
    obtain ⟨hs, hrest⟩ := List.forall_mem_cons.1 hoperators
    refine (σ.carries_symbolNotBefore hs.1 hs.2 opened).andThen fun hit => ?_
    cases hit with
    | true => exact mirrors_pure _ fun _ _ h => h
    | false => exact ih hrest

/-- A closing bracket, or else something that takes at least one character. -/
theorem mirrors_bracketOr {opened : List Opening} {f g : Bool → Reader α}
    (htrue : Mirrors Always (σ.Settled opened) (f true) (g true) fun _ => σ.Settled opened)
    (hfalse : Mirrors Always (σ.Settled opened) (f false) (g false) fun _ => σ.Settled opened)
    (hadvances : Advances (f false) fun _ => True) :
    Mirrors Always (σ.Settled opened) (symbol "]" >>= f) (symbol "]" >>= g)
      fun _ => σ.Settled opened := by
  refine (mirrors_closeBracket σ).bind (fun closed => ?_) ?_
  · cases closed with
    | true => exact htrue
    | false => exact hfalse
  · intro closed p c d h _
    cases closed with
    | true => exact .inl rfl
    | false => exact .inr (σ.within_of_ne_nil (hadvances.after_ne_nil h trivial))

/-! ### Levels -/

/-- Items up to the parenthesis that closes the innermost one. -/
theorem mirrors_untilParen {item item' : Reader α} (construct : Construct) (what : String)
    (hf : Forward item) (hf' : Forward item')
    (hitem : σ.Carries (fun _ c => c.after ≠ []) item item') {opened : List Opening} :
    Mirrors Always (σ.Settled (.group :: opened)) (listUntil ")" construct what item)
      (listUntil ")" construct what item') fun _ => σ.Settled opened := by
  refine mirrors_listUntil _ _ (by decide) hf hf' (fun _ h => h) ?_
    (σ.carries_symbol (by decide) _) (hitem _)
  refine ((mirrors_closeParen σ).weaken fun hit c h => ?_).imp fun hit _ _ h => ?_
  · exact h.imp_right fun h => σ.within_of_ne_nil h
  · cases hit <;> exact h

/-- Pipelines with bars in between. -/
theorem carries_piped {item item' : Rule} (hf : Forward item) (hf' : Forward item')
    (hitem : σ.Carries Always item item') :
    σ.Carries (fun _ c => σ.Within '|' c)
      (do return splice (← separated (symbolNotBefore "|" "=") item))
      (do return splice (← separated (symbolNotBefore "|" "=") item')) := by
  intro opened
  refine (mirrors_separated (forward_symbolNotBefore _ _) (symbolNotBefore_advances (by decide))
    hf hf' (fun _ _ h hd => hd.back h) (mirrors_bar σ)
      ((hitem opened).weaken fun _ _ _ => trivial)).bindWithin ?_ ?_ ?_
  · exact fun items => mirrors_pure _ fun _ _ h => h
  · exact fun items => forward_pure _
  · exact fun _ _ h hd => hd.back h

/-- Operands with a plain token in between. -/
theorem carries_joined {token : Reader Bool} {operand operand' : Rule}
    (build : List Pipeline → Instruction) (htoken : σ.Carries Always token token)
    (hforward : Forward token) (hadvances : Advances token (· = true)) (hf : Forward operand)
    (hf' : Forward operand') (hoperand : σ.Carries Always operand operand') :
    σ.Carries Always (do return joinWith build (← separated token operand))
      (do return joinWith build (← separated token operand')) := by
  intro opened
  have htoken' : Mirrors (fun hit _ => hit = true ∨ True) (σ.Settled opened) token token
      fun _ => σ.Settled opened := (htoken opened).weaken fun _ _ _ => trivial
  have hitems := mirrors_separated hforward hadvances hf hf' (fun _ _ _ _ => trivial) htoken'
    (hoperand opened)
  exact hitems.andThen fun items => mirrors_pure _ fun _ _ h => h

/-- An operand and plain operators with further operands. -/
theorem carries_chain {ω : Type} {operators : List (String × String × ω)}
    (hoperators : ∀ s ∈ operators, isPlain s.1.toList = true ∧
      s.2.1.toList.all (fun x => !isEdge x) = true) {operand operand' : Rule}
    (build : Pipeline → List (ω × Pipeline) → Instruction) (hf : Forward operand)
    (hf' : Forward operand') (hoperand : σ.Carries Always operand operand') :
    σ.Carries Always (chain operators operand build) (chain operators operand' build) := by
  intro opened
  have hne : ∀ s ∈ operators, s.1.toList ≠ [] := by
    intro s hs hnil
    have hplain := (hoperators s hs).1
    rw [hnil] at hplain
    cases hplain
  have hstep : Mirrors Always (σ.Settled opened) (operation operators operand)
      (operation operators operand')
      fun o => bif o.isSome then σ.Settled opened else σ.Settled opened := by
    refine (carries_firstSymbol σ hoperators opened).andThen fun found => ?_
    cases found with
    | none => exact mirrors_pure none fun _ _ h => h
    | some op => exact (hoperand opened).andThen fun _ => mirrors_pure _ fun _ _ h => h
  have hsteps : Mirrors Always (σ.Settled opened) (many (operation operators operand))
      (many (operation operators operand')) fun _ => σ.Settled opened :=
    hstep.many (operation_advances hne hf) (operation_advances hne hf') (fun _ _ => trivial)
      fun _ _ _ _ _ _ => trivial
  refine (hoperand opened).andThen fun first => hsteps.andThen fun steps => ?_
  split <;> exact mirrors_pure _ fun _ _ h => h

section Grammar

variable {inner inner' : Rule} (hf : Forward inner) (hf' : Forward inner')
  (hinner : σ.Carries Always inner inner')
include hf hf' hinner

theorem carries_outputs : σ.Carries Always (outputs inner) (outputs inner') :=
  carries_joined σ _ (σ.carries_symbol (by decide)) (forward_symbol _)
    (symbolNotBefore_advances (by decide)) hf hf' hinner

theorem carries_pipe : σ.Carries (fun _ c => σ.Within '|' c) (pipe inner) (pipe inner') :=
  carries_piped σ (forward_outputs hf) (forward_outputs hf') (carries_outputs σ hf hf' hinner)

theorem carries_argument :
    σ.Carries (fun _ c => σ.Within '|' c) (argument inner) (argument inner') :=
  carries_piped σ hf hf' hinner

/-- A pipeline that something has to follow. -/
theorem mirrors_pipeThen {opened opened' : List Opening} {f g : Pipeline → Reader α}
    (hadvances : ∀ p, Advances (f p) fun _ => True)
    (hmirrors : ∀ p, Mirrors Always (σ.Settled opened) (f p) (g p) fun _ => σ.Settled opened') :
    Mirrors Always (σ.Settled opened) (pipe inner >>= f) (pipe inner' >>= g)
      fun _ => σ.Settled opened' :=
  (carries_pipe σ hf hf' hinner opened).bind hmirrors fun _ _ _ _ h _ =>
    σ.within_of_ne_nil ((hadvances _).after_ne_nil h trivial)

theorem mirrors_group {opened : List Opening} :
    Mirrors Always (fun c d => σ.Settled opened c d ∧ c.after.head? = some '(') (group inner)
      (group inner') fun _ => σ.Settled opened := by
  refine (mirrors_groupStart σ).andThen fun _ => mirrors_pipeThen σ hf hf' hinner (fun p => ?_)
    fun p => ?_
  · exact closing_advances p _ _ (forward_symbol _) (symbolNotBefore_advances (by decide))
  · exact mirrors_closing p _ _ (mirrors_closeParen σ) fun _ => .inl rfl

theorem carries_string : ∀ opened, Mirrors Always
    (fun c d => σ.Settled opened c d ∧ c.after.head? = some '"') (string (pipe inner))
    (string (pipe inner')) fun _ => σ.Settled opened :=
  fun opened => σ.mirrors_string (forward_pipe hf) (forward_pipe hf') (fun opened =>
    (carries_pipe σ hf hf' hinner opened).weaken fun _ _ h => σ.within_of_ne_nil h) opened

theorem carries_fieldName : σ.Carries Always (fieldName inner) (fieldName inner') := by
  intro opened
  refine (σ.carries_variableName opened).andThen fun found => ?_
  cases found with
  | some name => exact mirrors_pure _ fun _ _ h => h
  | none =>
    refine mirrors_peek σ (fun o => ?_) rfl rfl rfl
    split
    · next h =>
      subst h
      exact (carries_string σ hf hf' hinner opened).andThen fun i => mirrors_pure _ fun _ _ h => h
    · exact mirrors_expected _ _ _

/-! ### Paths -/

omit hf hf' hinner in
theorem bracket_advances (a : α) (construct : Construct) (what : String) :
    Advances (closing (symbol "]") a construct what) fun _ => True :=
  closing_advances a _ _ (forward_symbol "]") (symbolNotBefore_advances (by decide))

omit hf hf' hinner in
theorem mirrors_bracketEnd {opened : List Opening} (a : α) (construct : Construct)
    (what : String) :
    Mirrors Always (σ.Settled opened) (closing (symbol "]") a construct what)
      (closing (symbol "]") a construct what) fun _ => σ.Settled opened :=
  mirrors_closing a _ _ (mirrors_closeBracket σ) fun _ => .inl rfl

theorem carries_sliceEnd : σ.Carries Always (sliceEnd inner) (sliceEnd inner') := by
  intro opened
  refine mirrors_bracketOr σ (mirrors_pure _ fun _ _ h => h) ?_ ?_
  · exact mirrors_pipeThen σ hf hf' hinner (fun _ => bracket_advances _ _ _)
      fun _ => mirrors_bracketEnd σ _ _ _
  · exact (forward_pipe hf).bind_advances fun _ => bracket_advances _ _ _

/-- A slice that starts at the given bound, after its colon. -/
def sliceFrom (inner : Rule) (start : Pipeline) : Reader (Bool → Selector Pipeline) := do
  return .slice start (← sliceEnd inner)

/-- What follows the key after an opening bracket. -/
def bracketRest (inner : Rule) (key : Pipeline) : Reader (Bool → Selector Pipeline) := do
  if ← symbol "]" then return .field key
  if ← symbol ":" then sliceFrom inner key else expected .variableAccess "expected ':' or ']'"

omit hf' hinner in
theorem forward_sliceFrom (start : Pipeline) : Forward (sliceFrom inner start) :=
  (forward_sliceEnd hf).bind fun _ => forward_pure _

theorem carries_sliceFrom (start : Pipeline) :
    σ.Carries Always (sliceFrom inner start) (sliceFrom inner' start) :=
  fun opened => (carries_sliceEnd σ hf hf' hinner opened).andThen fun _ =>
    mirrors_pure _ fun _ _ h => h

omit hf' hinner in
theorem bracketRest_advances (key : Pipeline) :
    Advances (bracketRest inner key) fun _ => True := by
  refine advances_choice (forward_symbol "]") (symbolNotBefore_advances (by decide))
    (forward_pure _) ?_
  exact advances_choice (forward_symbol ":") (symbolNotBefore_advances (by decide))
    (forward_sliceFrom hf key) (advances_expected _ _ _)

theorem carries_bracketRest (key : Pipeline) :
    σ.Carries Always (bracketRest inner key) (bracketRest inner' key) := by
  intro opened
  refine mirrors_bracketOr σ (mirrors_pure _ fun _ _ h => h) ?_ ?_
  · refine (σ.carries_symbol (by decide) opened).andThen fun colon => ?_
    cases colon with
    | true => exact carries_sliceFrom σ hf hf' hinner key opened
    | false => exact mirrors_expected _ _ _
  · exact advances_choice (forward_symbol ":") (symbolNotBefore_advances (by decide))
      (forward_sliceFrom hf key) (advances_expected _ _ _)

theorem carries_bracket : σ.Carries Always (bracket inner) (bracket inner') := by
  intro opened
  refine mirrors_bracketOr σ (mirrors_pure _ fun _ _ h => h) ?_ ?_
  · refine (σ.carries_symbol (by decide) opened).andThen fun colon => ?_
    cases colon with
    | true => exact carries_sliceFrom σ hf hf' hinner _ opened
    | false =>
      exact mirrors_pipeThen σ hf hf' hinner (bracketRest_advances hf)
        fun key => carries_bracketRest σ hf hf' hinner key opened
  · exact advances_choice (forward_symbol ":") (symbolNotBefore_advances (by decide))
      (forward_sliceFrom hf _) ((forward_pipe hf).bind_advances (bracketRest_advances hf))

/-- The arguments of a call close its parenthesis. -/
theorem mirrors_arguments {opened : List Opening} :
    Mirrors Always (σ.Settled (.group :: opened)) (arguments inner) (arguments inner')
      fun _ => σ.Settled opened :=
  mirrors_untilParen σ _ _ (forward_argument hf) (forward_argument hf') fun opened =>
    (carries_argument σ hf hf' hinner opened).weaken fun _ _ h => σ.within_of_ne_nil h

theorem carries_selectorBody (dotted : Bool) :
    σ.Carries Always (selectorBody inner dotted) (selectorBody inner' dotted) := by
  intro opened
  have hcall : ∀ bound : Bool, Mirrors Always (σ.Settled (.group :: opened))
      (do return some (Selector.call (← arguments inner) bound))
      (do return some (Selector.call (← arguments inner') bound)) fun _ => σ.Settled opened :=
    fun bound => (mirrors_arguments σ hf hf' hinner).andThen fun _ => mirrors_pure _ fun _ _ h => h
  have hbrackets : Mirrors Always (σ.Settled opened) (selectorBody inner false)
      (selectorBody inner' false) fun _ => σ.Settled opened := by
    refine (σ.carries_symbol (by decide) opened).andThen fun bracket => ?_
    cases bracket with
    | true =>
      exact (carries_bracket σ hf hf' hinner opened).andThen fun _ => mirrors_pure _ fun _ _ h => h
    | false =>
      refine (σ.carries_symbol (by decide) opened).andThen fun arrow => ?_
      cases arrow with
      | true =>
        refine (mirrors_openParen σ).andThen fun paren => ?_
        cases paren with
        | true => exact hcall true
        | false => exact mirrors_expected _ _ _
      | false =>
        refine (mirrors_openParen σ).andThen fun paren => ?_
        cases paren with
        | true => exact hcall false
        | false => exact mirrors_pure none fun _ _ h => h
  cases dotted with
  | false => exact hbrackets
  | true =>
    refine (σ.carries_symbol (by decide) opened).andThen fun point => ?_
    cases point with
    | true =>
      exact (carries_fieldName σ hf hf' hinner opened).andThen fun _ =>
        mirrors_pure _ fun _ _ h => h
    | false => exact hbrackets

theorem carries_selector (dotted : Bool) :
    σ.Carries Always (selector inner dotted) (selector inner' dotted) := by
  intro opened
  refine (carries_selectorBody σ hf hf' hinner dotted opened).andThen fun found => ?_
  cases found with
  | none => exact mirrors_pure none fun _ _ h => h
  | some build =>
    exact (σ.carries_symbolNotBefore (by decide) (by decide) opened).andThen fun _ =>
      mirrors_pure _ fun _ _ h => h

omit hf' hinner in
theorem selector_advances (dotted : Bool) :
    Advances (selector inner dotted) fun o => o.isSome := by
  have hchoice : ∀ {s : String} {f : Bool → Reader (Option (Bool → Selector Pipeline))},
      s.toList ≠ [] → Forward (f true) → Advances (f false) (fun o => o.isSome) →
      Advances (symbol s >>= f) fun o => o.isSome :=
    fun hs htrue hfalse =>
      advances_choice (forward_symbol _) (symbolNotBefore_advances hs) htrue hfalse
  have hcall : ∀ bound : Bool, Forward (do
      return some (Selector.call (← arguments inner) bound)) :=
    fun bound => (forward_arguments hf).bind fun _ => forward_pure _
  have hbrackets : Advances (selectorBody inner false) fun o => o.isSome := by
    refine hchoice (by decide) ((forward_bracket hf).bind fun _ => forward_pure _) ?_
    refine hchoice (by decide) ?_ ?_
    · refine (forward_symbol "(").bind fun paren => ?_
      cases paren with
      | true => exact hcall true
      | false => exact forward_expected _ _
    · refine hchoice (by decide) (hcall false) ?_
      rintro c d o ⟨⟩ ⟨⟩
  have hbody : Advances (selectorBody inner dotted) fun o => o.isSome := by
    cases dotted with
    | false => exact hbrackets
    | true => exact hchoice (by decide) ((forward_fieldName hf).bind fun _ => forward_pure _) hbrackets
  refine hbody.bind (fun found => ?_) ?_
  · cases found with
    | none => exact forward_pure none
    | some build => exact (forward_symbolNotBefore _ _).bind fun _ => forward_pure _
  · rintro found o c d h ho
    cases found with
    | none => cases h; exact ho
    | some build => rfl

theorem carries_path (afterPoint : Bool) :
    σ.Carries Always (path inner afterPoint) (path inner' afterPoint) := by
  intro opened
  refine (carries_selector σ hf hf' hinner _ opened).andThen fun found => ?_
  cases found with
  | none => exact mirrors_pure [] fun _ _ h => h
  | some first =>
    have hmany : Mirrors (fun _ _ => True) (σ.Settled opened) (many (selector inner true))
        (many (selector inner' true)) fun _ => σ.Settled opened :=
      Mirrors.many ((carries_selector σ hf hf' hinner true opened).imp fun o _ _ h => by
          cases o <;> exact h) (selector_advances hf true) (selector_advances hf' true)
        (fun _ _ => trivial) fun _ _ _ _ _ _ => trivial
    exact hmany.andThen fun _ => mirrors_pure _ fun _ _ h => h

omit hf hf' in
theorem carries_assignmentTo (steps : List (Selector Pipeline)) :
    σ.Carries Always (assignmentTo inner steps) (assignmentTo inner' steps) := by
  intro opened
  rw [assignmentTo, assignmentTo]
  split
  · exact mirrors_pure none fun _ _ h => h
  · refine (carries_firstSymbol σ (by decide) opened).andThen fun found => ?_
    cases found with
    | none => exact mirrors_pure none fun _ _ h => h
    | some op => exact (hinner opened).andThen fun _ => mirrors_pure _ fun _ _ h => h

/-! ### Primary expressions -/

theorem carries_arrayConstructor :
    σ.Carries Always (arrayConstructor inner) (arrayConstructor inner') := by
  intro opened
  refine (σ.carries_symbol (by decide) opened).andThen fun _ => ?_
  refine mirrors_bracketOr σ (mirrors_pure _ fun _ _ h => h) ?_ ?_
  · exact mirrors_pipeThen σ hf hf' hinner (fun _ => bracket_advances _ _ _)
      fun _ => mirrors_bracketEnd σ _ _ _
  · exact (forward_pipe hf).bind_advances fun _ => bracket_advances _ _ _

theorem carries_fieldKey : σ.Carries Always (fieldKey inner) (fieldKey inner') := by
  intro opened
  refine (σ.carries_name opened).andThen fun found => ?_
  cases found with
  | some name => exact mirrors_pure _ fun _ _ h => h
  | none =>
    refine mirrors_peek σ (fun o => ?_) rfl rfl rfl
    split
    · exact (carries_string σ hf hf' hinner opened).andThen fun _ => mirrors_pure _ fun _ _ h => h
    · exact (mirrors_group σ hf hf' hinner).andThen fun _ => mirrors_pure _ fun _ _ h => h
    · exact mirrors_expected _ _ _

theorem carries_field : σ.Carries Always (field inner) (field inner') := by
  intro opened
  refine (carries_fieldKey σ hf hf' hinner opened).andThen fun k => ?_
  refine (σ.carries_symbolNotBefore (by decide) (by decide) opened).andThen fun optional => ?_
  refine (σ.carries_symbol (by decide) opened).andThen fun colon => ?_
  obtain ⟨key, bare⟩ := k
  cases colon with
  | true => exact (hinner opened).andThen fun _ => mirrors_pure _ fun _ _ h => h
  | false =>
    cases bare with
    | none => exact mirrors_expected _ _ _
    | some name => exact mirrors_pure _ fun _ _ h => h

theorem carries_objectConstructor :
    σ.Carries Always (objectConstructor inner) (objectConstructor inner') := by
  intro opened
  refine (σ.carries_symbol (by decide) opened).andThen fun _ => ?_
  have hfields : Mirrors Always (σ.Settled opened)
      (listUntil "\x7d" .objectConstructor "expected ',' or '\x7d'" (field inner))
      (listUntil "\x7d" .objectConstructor "expected ',' or '\x7d'" (field inner'))
      fun _ => σ.Settled opened := by
    refine mirrors_listUntil _ _ (by decide) (forward_field hf) (forward_field hf')
      (fun _ h => h) ?_ (σ.carries_symbol (by decide) opened)
      ((carries_field σ hf hf' hinner opened).weaken fun _ _ _ => trivial)
    refine ((σ.carries_symbol (by decide) opened).weaken fun _ _ _ => trivial).imp ?_
    intro hit _ _ h
    cases hit <;> exact h
  exact hfields.andThen fun _ => mirrors_pure _ fun _ _ h => h

theorem carries_primary : σ.Carries Always (primary inner) (primary inner') := by
  intro opened
  refine mirrors_peek σ (fun o => ?_) rfl rfl rfl
  split
  · exact mirrors_group σ hf hf' hinner
  · exact (carries_string σ hf hf' hinner opened).andThen fun _ => mirrors_pure _ fun _ _ h => h
  · exact (carries_arrayConstructor σ hf hf' hinner opened).of fun _ _ h => h.1
  · exact (carries_objectConstructor σ hf hf' hinner opened).of fun _ _ h => h.1
  · exact mirrors_expected _ _ _

theorem carries_accessBase : σ.Carries Always (accessBase inner) (accessBase inner') := by
  intro opened
  refine (σ.carries_symbol (by decide) opened).andThen fun point => ?_
  cases point with
  | false =>
    exact (carries_primary σ hf hf' hinner opened).andThen fun _ => mirrors_pure _ fun _ _ h => h
  | true =>
    refine (σ.carries_variableName opened).andThen fun found => ?_
    cases found with
    | some name =>
      exact (σ.carries_symbolNotBefore (by decide) (by decide) opened).andThen fun _ =>
        mirrors_pure _ fun _ _ h => h
    | none =>
      refine mirrors_peek σ (fun o => ?_) rfl rfl rfl
      split
      · next h =>
        subst h
        exact (carries_string σ hf hf' hinner opened).andThen fun _ =>
          (σ.carries_symbolNotBefore (by decide) (by decide) opened).andThen fun _ =>
            mirrors_pure _ fun _ _ h => h
      · exact mirrors_pure _ fun _ _ h => h.1

theorem carries_valueAccess : σ.Carries Always (valueAccess inner) (valueAccess inner') := by
  intro opened
  refine (carries_accessBase σ hf hf' hinner opened).andThen fun b => ?_
  refine (carries_path σ hf hf' hinner _ opened).andThen fun more => ?_
  split
  · exact mirrors_pure _ fun _ _ h => h
  · refine (carries_assignmentTo σ hinner _ opened).andThen fun found => ?_
    cases found <;> exact mirrors_pure _ fun _ _ h => h

theorem carries_variableAccess :
    σ.Carries Always (variableAccess inner) (variableAccess inner') := by
  intro opened
  refine (σ.carries_variableName opened).andThen fun found => ?_
  cases found with
  | none => exact carries_valueAccess σ hf hf' hinner opened
  | some name =>
    refine (carries_path σ hf hf' hinner _ opened).andThen fun steps => ?_
    refine (carries_assignmentTo σ hinner _ opened).andThen fun assigned => ?_
    split <;> exact mirrors_pure _ fun _ _ h => h

omit hf hf' hinner in
theorem carries_parameter : σ.Carries Always parameter parameter := by
  intro opened
  refine (σ.carries_variableName opened).andThen fun found => ?_
  cases found with
  | none => exact mirrors_expected _ _ _
  | some name => exact mirrors_pure _ fun _ _ h => h

omit hf hf' hinner in
theorem carries_parameters : σ.Carries Always parameters parameters := by
  intro opened
  refine (mirrors_openParen σ).andThen fun paren => ?_
  cases paren with
  | false => exact mirrors_expected _ _ _
  | true =>
    refine (mirrors_untilParen σ _ _ forward_parameter forward_parameter fun opened =>
      (carries_parameter σ opened).weaken fun _ _ _ => trivial).andThen fun names => ?_
    refine (σ.carries_symbol (by decide) opened).andThen fun colon => ?_
    cases colon with
    | true => exact mirrors_pure _ fun _ _ h => h
    | false => exact mirrors_expected _ _ _

theorem carries_functionDefinition :
    σ.Carries Always (functionDefinition inner) (functionDefinition inner') := by
  intro opened
  refine (σ.carries_keyword (by decide) opened).andThen fun func => ?_
  cases func with
  | false => exact carries_variableAccess σ hf hf' hinner opened
  | true =>
    exact (σ.carries_variableName opened).andThen fun _ =>
      (carries_parameters σ opened).andThen fun _ => (hinner opened).andThen fun _ =>
        mirrors_pure _ fun _ _ h => h

theorem carries_constant : σ.Carries Always (constant inner) (constant inner') := by
  intro opened
  refine (σ.carries_keyword (by decide) opened).andThen fun isTrue => ?_
  cases isTrue with
  | true => exact mirrors_pure _ fun _ _ h => h
  | false =>
    refine (σ.carries_keyword (by decide) opened).andThen fun isFalse => ?_
    cases isFalse with
    | true => exact mirrors_pure _ fun _ _ h => h
    | false =>
      refine (σ.carries_keyword (by decide) opened).andThen fun isNull => ?_
      cases isNull with
      | true => exact mirrors_pure _ fun _ _ h => h
      | false =>
        refine (σ.carries_number opened).andThen fun found => ?_
        cases found with
        | some n => exact mirrors_pure _ fun _ _ h => h
        | none => exact carries_functionDefinition σ hf hf' hinner opened

theorem carries_arm : σ.Carries (fun _ c => σ.Within '|' c) (arm inner) (arm inner') := by
  intro opened
  refine (carries_pipe σ hf hf' hinner opened).bind (fun condition => ?_) ?_
  · refine (σ.carries_keyword (by decide) opened).andThen fun hit => ?_
    cases hit with
    | false => exact mirrors_expected _ _ _
    | true =>
      exact (carries_pipe σ hf hf' hinner opened).bindWithin (fun _ => mirrors_pure _ fun _ _ h => h)
        (fun _ => forward_pure _) fun _ _ h hd => hd.back h
  · intro condition a c d h _
    obtain ⟨hit, e, hkeyword, h⟩ := bind_eq_ok h
    cases hit with
    | false => cases h
    | true =>
      exact σ.within_of_ne_nil ((keyword_advances (by decide)).after_ne_nil hkeyword rfl)

/-- The last part of a conditional. -/
def branchEnd (inner : Rule) (arms : List (Pipeline × Pipeline)) : Rule := do
  let otherwise ← if ← keyword "else" then some <$> pipe inner else pure none
  closing (keyword "end") [.branch arms otherwise] .ifStatement "expected 'end'"

omit hf' hinner in
theorem branchEnd_advances (arms : List (Pipeline × Pipeline)) :
    Advances (branchEnd inner arms) fun _ => True := by
  have hend : ∀ otherwise : Option Pipeline, Advances
      (closing (keyword "end") [Instruction.branch arms otherwise] .ifStatement "expected 'end'")
      fun _ => True :=
    fun otherwise => closing_advances _ _ _ (forward_keyword _) (keyword_advances (by decide))
  refine (forward_keyword "else").bind_advances fun hit => ?_
  cases hit with
  | false => exact hend none
  | true => exact ((forward_pipe hf).map some).bind_advances hend

theorem carries_branchEnd (arms : List (Pipeline × Pipeline)) :
    σ.Carries Always (branchEnd inner arms) (branchEnd inner' arms) := by
  intro opened
  have hend : ∀ otherwise : Option Pipeline, Mirrors Always (σ.Settled opened)
      (closing (keyword "end") [Instruction.branch arms otherwise] .ifStatement "expected 'end'")
      (closing (keyword "end") [Instruction.branch arms otherwise] .ifStatement "expected 'end'")
      fun _ => σ.Settled opened :=
    fun otherwise => mirrors_closing _ _ _ (σ.carries_keyword (by decide) opened) fun _ => trivial
  refine (σ.carries_keyword (by decide) opened).andThen fun hit => ?_
  cases hit with
  | false => exact hend none
  | true =>
    show Mirrors Always _ ((some <$> pipe inner) >>= _) ((some <$> pipe inner') >>= _) _
    rw [bind_map_left, bind_map_left]
    refine mirrors_pipeThen σ hf hf' hinner (fun p => ?_) fun p => hend (some p)
    exact closing_advances _ _ _ (forward_keyword _) (keyword_advances (by decide))

theorem carries_conditional : σ.Carries Always (conditional inner) (conditional inner') := by
  intro opened
  refine (σ.carries_keyword (by decide) opened).andThen fun hit => ?_
  cases hit with
  | false => exact carries_constant σ hf hf' hinner opened
  | true =>
    have hsep : Mirrors (fun hit c => hit = true ∨ σ.Within '|' c) (σ.Settled opened)
        (keyword "elif") (keyword "elif") fun _ => σ.Settled opened :=
      (σ.carries_keyword (by decide) opened).weaken fun _ _ _ => trivial
    have harms := mirrors_separated (forward_keyword "elif") (keyword_advances (by decide))
      (forward_arm hf) (forward_arm hf') (fun _ _ h hd => hd.back h) hsep
      (carries_arm σ hf hf' hinner opened)
    refine harms.bind (fun arms => carries_branchEnd σ hf hf' hinner arms opened) ?_
    intro arms p c d h _
    exact σ.within_of_ne_nil ((branchEnd_advances hf arms).after_ne_nil h trivial)

/-! ### Operators -/

theorem carries_negation : σ.Carries Always (negation inner) (negation inner') := by
  intro opened
  refine (σ.carries_symbolNotBefore (by decide) (by decide) opened).andThen fun hit => ?_
  cases hit with
  | false => exact carries_conditional σ hf hf' hinner opened
  | true =>
    exact (carries_conditional σ hf hf' hinner opened).andThen fun _ => mirrors_pure _ fun _ _ h => h

theorem carries_coalescence : σ.Carries Always (coalescence inner) (coalescence inner') :=
  carries_joined σ _ (σ.carries_symbol (by decide)) (forward_symbol _)
    (symbolNotBefore_advances (by decide)) (forward_negation hf) (forward_negation hf')
    (carries_negation σ hf hf' hinner)

theorem carries_multiplicative : σ.Carries Always (multiplicative inner) (multiplicative inner') :=
  carries_chain σ (by decide) _ (forward_coalescence hf) (forward_coalescence hf')
    (carries_coalescence σ hf hf' hinner)

theorem carries_additive : σ.Carries Always (additive inner) (additive inner') :=
  carries_chain σ (by decide) _ (forward_multiplicative hf) (forward_multiplicative hf')
    (carries_multiplicative σ hf hf' hinner)

theorem carries_suppression : σ.Carries Always (suppression inner) (suppression inner') := by
  intro opened
  refine (carries_additive σ hf hf' hinner opened).andThen fun p => ?_
  refine (σ.carries_symbolNotBefore (by decide) (by decide) opened).andThen fun hit => ?_
  cases hit <;> exact mirrors_pure _ fun _ _ h => h

theorem carries_complement : σ.Carries Always (complement inner) (complement inner') := by
  intro opened
  refine (σ.carries_keyword (by decide) opened).andThen fun hit => ?_
  cases hit with
  | false => exact carries_suppression σ hf hf' hinner opened
  | true =>
    exact (carries_suppression σ hf hf' hinner opened).andThen fun _ => mirrors_pure _ fun _ _ h => h

theorem carries_relational : σ.Carries Always (relational inner) (relational inner') :=
  carries_chain σ (by decide) _ (forward_complement hf) (forward_complement hf')
    (carries_complement σ hf hf' hinner)

theorem carries_equality : σ.Carries Always (equality inner) (equality inner') :=
  carries_chain σ (by decide) _ (forward_relational hf) (forward_relational hf')
    (carries_relational σ hf hf' hinner)

theorem carries_conjunction : σ.Carries Always (conjunction inner) (conjunction inner') :=
  carries_joined σ _ (σ.carries_keyword (by decide)) (forward_keyword _)
    (keyword_advances (by decide)) (forward_equality hf) (forward_equality hf')
    (carries_equality σ hf hf' hinner)

theorem carries_disjunction : σ.Carries Always (disjunction inner) (disjunction inner') :=
  carries_joined σ _ (σ.carries_keyword (by decide)) (forward_keyword _)
    (keyword_advances (by decide)) (forward_conjunction hf) (forward_conjunction hf')
    (carries_conjunction σ hf hf' hinner)

theorem carries_attempt : σ.Carries Always (attempt inner) (attempt inner') := by
  intro opened
  have hdisjunction := carries_disjunction σ hf hf' hinner opened
  refine (σ.carries_keyword (by decide) opened).andThen fun hit => ?_
  cases hit with
  | false => exact hdisjunction
  | true =>
    refine hdisjunction.andThen fun body => ?_
    refine (σ.carries_keyword (by decide) opened).andThen fun hit => ?_
    cases hit with
    | false => exact mirrors_pure _ fun _ _ h => h
    | true => exact hdisjunction.andThen fun _ => mirrors_pure _ fun _ _ h => h

end Grammar

/-- More room for nesting does not change what is read. -/
theorem carries_route {depth depth' : Nat} (h : depth ≤ depth') :
    σ.Carries Always (route depth) (route depth') := by
  induction depth generalizing depth' with
  | zero => rintro opened c d - p c' ⟨⟩
  | succ depth ih =>
    cases depth' with
    | zero => cases h
    | succ depth' =>
      exact carries_attempt σ (forward_route depth) (forward_route depth')
        (ih (Nat.le_of_succ_le_succ h))

/-! ### Programs -/

/-- A pipeline with the trivia in front of it. -/
def passage (depth : Nat) : Rule := do
  skipTrivia
  pipe (route depth)

theorem mirrors_passage {depth depth' : Nat} (h : depth ≤ depth') {opened : List Opening} :
    Mirrors (fun _ c => σ.Within '|' c) (σ.Near opened) (passage depth) (passage depth')
      fun _ => σ.Settled opened :=
  (σ.mirrors_skipTrivia opened).andThen fun _ => carries_pipe σ (forward_route depth) (forward_route depth')
    (carries_route σ h) opened

/-- A program is a pipeline up to the end of the text. -/
theorem parse_eq_ok {s : String} {p : Pipeline} :
    Pipeline.parse s = .ok p ↔
      ∃ b, passage (s.toList.length + 1) (.start s.toList) = .ok (p, ⟨b, []⟩) := by
  have hprogram : program (s.toList.length + 1) = (passage (s.toList.length + 1) >>= fun p c =>
      if c.after.isEmpty then .ok (p, c) else expected .program "expected EOT" c) := by
    rw [program, passage, bind_assoc]
  constructor
  · intro h
    rw [Pipeline.parse] at h
    cases hrun : program (s.toList.length + 1) (.start s.toList) with
    | error e => simp only [hrun] at h; cases h
    | ok r =>
      obtain ⟨q, c⟩ := r
      simp only [hrun] at h
      cases h
      rw [hprogram] at hrun
      obtain ⟨q, ⟨b, t⟩, hpassage, hend⟩ := bind_eq_ok hrun
      cases t with
      | nil => cases hend; exact ⟨b, hpassage⟩
      | cons x t => cases hend
  · rintro ⟨b, hpassage⟩
    simp only [Pipeline.parse, hprogram, bind_ok hpassage]
    rfl

end JsonPipe.Source
