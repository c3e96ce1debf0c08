import JsonPipe.Proofs.Source.Operators

/-! Reading everything else back: constants, strings, names, paths, constructors and conditionals.

    All of these are read at the lowest level, below the operators. Which of its readers takes the
    text is decided by the first characters: a word, a digit, a name or one of the characters of
    `Bare`. -/

namespace JsonPipe.Source

open Reader

/-! ### Constants -/

theorem begins_miss {s refused : String} {c : Char} {t : List Char} (hne : s.toList ≠ [])
    (hc : s.toList.head? ≠ some c) : begins s refused (c :: t) = false := by
  cases htext : s.toList with
  | nil => exact absurd htext hne
  | cons x xs =>
    have hx : x ≠ c := by
      rintro rfl
      rw [htext] at hc
      exact hc rfl
    rw [begins, htext, List.isPrefixOf_cons_cons, beq_false_of_ne hx, Bool.false_and,
      Bool.false_and]

/-- A symbol is not found where a name or a number starts. -/
theorem begins_miss_name {s refused : String} {c : Char} {t : List Char}
    (hc : isNameChar c = true) (hs : BreaksOff s.toList) (hne : s.toList ≠ []) :
    begins s refused (c :: t) = false := by
  refine begins_miss hne ?_
  intro heq
  rw [BreaksOff, heq, Option.any_some, hc] at hs
  cases hs

theorem isNameStart_of_isDigit {c : Char} (h : c.isDigit = true) : isNameStart c = false := by
  have hdigit : c.toNat ≤ 57 := (Char.isDigit_iff_toNat.1 h).2
  rw [isNameStart, Bool.or_eq_false_iff]
  constructor
  · refine Bool.eq_false_iff.2 fun halpha => ?_
    have := (toNat_of_isAlpha halpha).1
    omega
  · refine beq_eq_false_iff_ne.2 ?_
    rintro rfl
    exact absurd hdigit (by decide)

section Constants

variable {inner : Rule} {size : Nat}

section Reading

variable {rest : List Char} (hbreak : BreaksOff rest) (htidy : isTidy rest = true)
include hbreak htidy

theorem null_reads :
    Reads (rung inner 0) (instructionText .null rest) [.null] (stripped rest) := by
  have hnull := keyword_hit "null" rfl hbreak htidy
  refine (symbol_miss rfl).bind ((keyword_miss rfl).bind ((keyword_miss rfl).bind ?_))
  exact (keyword_miss rfl).bind (hnull.bind (takes_pure _))

theorem bool_reads (b : Bool) :
    Reads (rung inner 0) (instructionText (.bool b) rest) [.bool b] (stripped rest) := by
  cases b with
  | true =>
    have htrue := keyword_hit "true" rfl hbreak htidy
    exact (symbol_miss rfl).bind ((keyword_miss rfl).bind (htrue.bind (takes_pure _)))
  | false =>
    have hfalse := keyword_hit "false" rfl hbreak htidy
    refine (symbol_miss rfl).bind ((keyword_miss rfl).bind ((keyword_miss rfl).bind ?_))
    exact hfalse.bind (takes_pure _)

end Reading

section Digits

variable {c : Char} {t u : List Char} (hdigit : c.isDigit = true)
include hdigit

theorem keyword_miss_of_digit (w : String) (hw : w.toList.head?.any isNameStart = true) :
    Reads (keyword w) (c :: t) false (c :: t) := by
  have hname : (c :: t).head?.any isNameStart = false := isNameStart_of_isDigit hdigit
  exact keyword_miss_of_head hname hw

/-- What starts with a digit is read where a number is read. -/
theorem conditional_of_number {n : Number} (h : Reads number (c :: t) (some n) u) :
    Reads (conditional inner) (c :: t) [.number n] u := by
  have hword := keyword_miss_of_digit (t := t) hdigit
  refine (hword "if" rfl).bind ((hword "true" rfl).bind ((hword "false" rfl).bind ?_))
  exact (hword "null" rfl).bind (h.bind (takes_pure _))

theorem number_reads {n : Number} (h : Reads number (c :: t) (some n) u) :
    Reads (rung inner 0) (c :: t) [.number n] u := by
  have hminus : begins "-" "=>" (c :: t) = false :=
    begins_miss_name (isNameChar_of_isDigit c hdigit) rfl (by decide)
  exact (symbol_miss hminus).bind (conditional_of_number hdigit h)

end Digits

theorem null_readsBack : ReadsBack inner size .null [.null] :=
  fun _ hrest _ => outputs_of_rung hrest (Nat.zero_le 9) (null_reads hrest.breaksOff hrest.isTidy)
    (fun _ => keyword_miss rfl) (keyword_miss rfl)

theorem bool_readsBack (b : Bool) : ReadsBack inner size (.bool b) [.bool b] := by
  intro rest hrest _
  refine outputs_of_rung hrest (Nat.zero_le 9) (bool_reads hrest.breaksOff hrest.isTidy b) ?_ ?_
  · cases b <;> exact fun _ => keyword_miss rfl
  · cases b <;> exact keyword_miss rfl

theorem literal_readsBack {n : Number} (hn : IsLiteral n) :
    ReadsBack inner size (.number n) [.number n] := by
  intro rest hrest _
  have hnumber := numberText_reads hn hrest.breaksOff hrest.no_point hrest.isTidy
  obtain ⟨c, cs, htext, hdigit⟩ := numberText_cons hn
  show Reads _ (numberText n ++ rest) _ _
  rw [htext, List.cons_append] at hnumber ⊢
  have hword := keyword_miss_of_digit (t := cs ++ rest) hdigit
  exact outputs_of_rung hrest (Nat.zero_le 9) (number_reads hdigit hnumber)
    (fun _ => hword "not" rfl) (hword "try" rfl)

/-- Infinity minus infinity, up to a closing parenthesis. -/
theorem notNumber_reads (rest : List Char) :
    Reads (pipe (attempt inner)) ("1e999 - 1e999".toList ++ ')' :: rest) Number.nan.tree
      (')' :: rest) := by
  have hdigit : '1'.isDigit = true := rfl
  have hword := fun t w hw => keyword_miss_of_digit (t := t) hdigit w hw
  have hoperand : ∀ t, BreaksOff t → t.head? ≠ some '.' → isTidy t = true →
      Source.ends 2 (stripped t) = true →
        Reads (rung inner 2) ("1e999".toList ++ t) [.number (.infinite false)] (stripped t) := by
    intro t hbreak hpoint htidy hend
    have hnumber := numberText_reads .infinite hbreak hpoint htidy
    exact climb (Nat.zero_le 2) (by decide) (number_reads hdigit hnumber) hend
      fun _ => hword _ "not" rfl
  have hfirst := hoperand (" - 1e999".toList ++ ')' :: rest) rfl (by simp) rfl rfl
  have hsecond := hoperand (')' :: rest) rfl (by simp) rfl rfl
  have hadditive : Reads (rung inner 3) ("1e999 - 1e999".toList ++ ')' :: rest) Number.nan.tree
      (')' :: rest) := by
    have hminus : Reads (firstSymbol [("+", "=", ArithmeticOp.addition), ("-", "=>", .subtraction)])
        (stripped (" - 1e999".toList ++ ')' :: rest)) (some .subtraction)
        ("1e999".toList ++ ')' :: rest) := by
      have hhit := symbol_hit Apart "-" "=>" (t := " 1e999".toList ++ ')' :: rest) rfl (by decide)
        rfl rfl
      exact (symbol_miss rfl).bind (hhit.bind (takes_pure _))
    have hdone : Reads (firstSymbol [("+", "=", ArithmeticOp.addition), ("-", "=>", .subtraction)])
        (')' :: rest) none (')' :: rest) := firstSymbol_miss (by simp [begins])
    refine hfirst.bind (Takes.bind (Repeats.many (.more (hminus.bind
      (hsecond.bind (takes_pure _))) ?_ (.done (hdone.bind (takes_pure _))))) (takes_pure _))
    simp [stripped]
  have hread := climb (by decide : 3 ≤ 9) (Nat.le_refl 9) hadditive rfl fun _ => hword _ "not" rfl
  exact pipe_one (attempt_one hread (hword _ "try" rfl)) rfl rfl

variable (hf : Fluent inner size)
include hf

/-- A number in parentheses with a minus in front is read as its negation. -/
theorem negated_reads {n : Number} (hn : IsLiteral n) {rest : List Char} (hrest : Follows rest)
    (hsize : (groupText [.number n] rest).length ≤ size + 1) :
    Reads (outputs (attempt inner)) ('-' :: groupText [.number n] rest) [.number n, .negate]
      (stripped rest) := by
  have hgroup := hf.group [.number n] [.number n] rest
    (.cons (.regular (.number hn) (.number n)) .nil) hrest.isTidy rfl hsize
  have hvalue := valueAccess_grouped hgroup (ends_mono (Nat.zero_le 9) hrest.ends)
  have hread : Reads (rung inner 0) ('-' :: groupText [.number n] rest) [.number n, .negate]
      (stripped rest) := by
    have hminus := symbol_hit Apart "-" "=>" (t := groupText [.number n] rest) rfl (by decide) rfl
      rfl
    exact hminus.bind (((Bare.paren _).conditional hvalue).bind (takes_pure _))
  exact outputs_of_rung hrest (Nat.zero_le 9) hread (fun _ => keyword_miss rfl) (keyword_miss rfl)

/-- A number is read as itself or as an expression with its value. -/
theorem number_readsBack (n : Number) : ReadsBack inner (size + 1) (.number n) n.tree := by
  match n with
  | .infinite false => exact literal_readsBack .infinite
  | .finite false m => exact literal_readsBack (.finite m)
  | .infinite true =>
    intro rest hrest hsize
    exact negated_reads hf .infinite hrest (Nat.le_of_succ_le hsize)
  | .finite true m =>
    intro rest hrest hsize
    have htext : instructionText (.number (.finite true m)) rest =
        '-' :: groupText [.number (.finite false m)] rest := by
      show "-(".toList ++ (Number.displayDigits m).plain ++ ")".toList ++ rest = _
      rw [List.append_assoc, List.append_assoc]
      rfl
    rw [htext] at hsize ⊢
    exact negated_reads hf (.finite m) hrest (Nat.le_of_succ_le hsize)
  | .nan =>
    intro rest hrest hsize
    have hne : size ≠ 0 := by
      rintro rfl
      have hsize : (")".toList ++ rest).length + 14 ≤ 1 := hsize
      omega
    have hgroup := grouped_reads rfl (hf.notNumber hne rest) hrest.isTidy
    have hbare := Bare.paren ("1e999 - 1e999".toList ++ ')' :: rest)
    exact hbare.outputs hrest (Nat.zero_le 9) (hbare.negation
      (valueAccess_grouped hgroup (ends_mono (Nat.zero_le 9) hrest.ends)))

end Constants

/-! ### Strings -/

section Strings

variable {inner : Rule} {size : Nat}

/-- What is read as a string is read where an instruction is looked for. -/
theorem quoted_readsBack {i : Instruction} {t rest : List Char} (hrest : Follows rest)
    (h : Reads (string (pipe inner)) ('"' :: t) i (stripped rest)) :
    Reads (outputs (attempt inner)) ('"' :: t) [i] (stripped rest) := by
  have hprimary : Reads (primary inner) ('"' :: t) [i] (stripped rest) :=
    Takes.bind (fun b hb => ⟨b, hb, rfl⟩) (h.bind (takes_pure _))
  have hvalue := valueAccess_primary rfl hprimary (ends_mono (Nat.zero_le 9) hrest.ends)
  exact (Bare.quote t).outputs hrest (Nat.zero_le 9) ((Bare.quote t).negation hvalue)

theorem string_readsBack (s : String) : ReadsBack inner size (.string s) [.string s] :=
  fun _ hrest _ => quoted_readsBack hrest (stringText_reads (pipe inner) s hrest.isTidy)

/-- The pieces of an interpolated string. -/
def partPieces (parts : List (String × Pipeline)) (after : String) : List Piece :=
  parts.foldr (fun e more => pieces e.1 ++ .hole e.2 :: more) (pieces after)

theorem assemble_partPieces (parts : List (String × Pipeline)) (after : String) :
    assemble [] (partPieces parts after) = (parts, after) := by
  induction parts with
  | nil => exact assemble_pieces after
  | cons e parts ih =>
    show assemble [] (pieces e.1 ++ .hole e.2 :: partPieces parts after) = _
    rw [assemble_hole, ih]

variable (hf : Fluent inner size)
include hf

theorem partsText_repeats {parts parts' : List (String × Pipeline)} (after : String)
    (hparts : List.Forall₂ (Prod.RProd Eq Pipeline.ReadAs) parts parts') {rest : List Char}
    (hsize : (partsText parts (stringText after ++ '"' :: rest)).length ≤ size) :
    Repeats Anywhere Apart (piece (pipe inner)) (partsText parts (stringText after ++ '"' :: rest))
      (partPieces parts' after) rest := by
  induction hparts with
  | nil =>
    have hafter := stringText_repeats after (.done (quote_takes (pipe inner) rest))
    rwa [List.append_nil] at hafter
  | @cons e e' parts parts' he hmore ih =>
    obtain ⟨⟨⟩, hp⟩ := he
    next before p q =>
    have hlength := (pipelineText_fronts p).length_le
      (')' :: partsText parts (stringText after ++ '"' :: rest))
    simp only [partsText, List.length_append, List.length_cons] at hsize hlength
    refine stringText_repeats before (.more (hole_takes ?_ ?_) ?_
      (ih ?_))
    · exact isSolid_of_opens (opens_pipelineText hp _)
    · exact hf.pipeline p q _ hp rfl (by omega)
    · simp only [List.length_cons]
      omega
    · omega

theorem interpolated_readsBack {parts parts' : List (String × Pipeline)} {after : String}
    (hne : parts ≠ []) (hparts : List.Forall₂ (Prod.RProd Eq Pipeline.ReadAs) parts parts') :
    ReadsBack inner (size + 1) (.interpolated parts after) [.interpolated parts' after] := by
  intro rest hrest hsize
  have hpieces := partsText_repeats hf after hparts (Nat.le_of_succ_le_succ hsize)
  have hreads := string_reads hpieces hrest.isTidy
  rw [ofPieces, assemble_partPieces] at hreads
  cases hparts with
  | nil => exact absurd rfl hne
  | cons _ _ => exact quoted_readsBack hrest hreads

end Strings

/-! ### Names -/

theorem IsVariableName.cons {name : String} (h : IsVariableName name) :
    ∃ c cs, name.toList = c :: cs ∧ isNameStart c = true := by
  have hstart := h.starts
  cases hname : name.toList with
  | nil => rw [hname] at hstart; cases hstart
  | cons c cs => exact ⟨c, cs, rfl, by simpa [hname] using hstart⟩

/-- A symbol is not found where a variable is. -/
theorem IsVariableName.no_symbol {name : String} (h : IsVariableName name) (s refused : String)
    (hs : BreaksOff s.toList) (hne : s.toList ≠ []) (t : List Char) :
    begins s refused (name.toList ++ t) = false := by
  obtain ⟨c, cs, htext, _⟩ := h.cons
  have hc := h.chars c (by rw [htext]; exact List.mem_cons_self)
  rw [htext, List.cons_append]
  exact begins_miss_name hc hs hne

section Names

variable {inner : Rule} {name : String} (hname : IsVariableName name) {t : List Char}
  (hbreak : BreaksOff t)
include hname hbreak

/-- A variable is no keyword. -/
theorem IsVariableName.no_word (w : String) (hw : keywords.contains w = true) :
    Reads (keyword w) (name.toList ++ t) false (name.toList ++ t) := by
  have hall : (keywords.all fun w => w.toList.all isNameChar) = true := by decide
  have hchars : ∀ x ∈ w.toList, isNameChar x = true :=
    List.all_eq_true.1 (List.all_eq_true.1 hall w (List.contains_iff_mem.1 hw))
  refine keyword_miss_name hchars hname.chars hbreak ?_
  intro heq
  have hfree := hname.free
  rw [String.toList_inj.1 heq, hw] at hfree
  cases hfree

/-- What is read as a variable is read where an instruction is looked for. -/
theorem variable_reads {p : Pipeline} {rest : List Char} (hrest : Follows rest)
    (h : Reads (variableAccess inner) (name.toList ++ t) p (stripped rest)) :
    Reads (outputs (attempt inner)) (name.toList ++ t) p (stripped rest) := by
  have hword := hname.no_word hbreak
  have hdigit : (name.toList ++ t).head?.any Char.isDigit = false := by
    obtain ⟨c, cs, htext, hstart⟩ := hname.cons
    rw [htext, List.cons_append, List.head?_cons, Option.any_some]
    cases hc : c.isDigit with
    | false => rfl
    | true => rw [isNameStart_of_isDigit hc] at hstart; cases hstart
  have hread : Reads (rung inner 0) (name.toList ++ t) p (stripped rest) := by
    refine (symbol_miss (hname.no_symbol "-" "=>" rfl (by decide) t)).bind ?_
    refine (hword "if" rfl).bind ((hword "true" rfl).bind ((hword "false" rfl).bind ?_))
    exact (hword "null" rfl).bind ((number_miss hdigit).bind ((hword "func" rfl).bind h))
  exact outputs_of_rung hrest (Nat.zero_le 9) hread (fun _ => hword "not" rfl) (hword "try" rfl)

end Names

/-- What a variable is bound to by an assignment. -/
def assigned (name : String) :
    List (Selector Pipeline) → AssignmentOp → Pipeline → Pipeline
  | [], .set, value => value
  | path, op, value => [.assign [.variable name] path op value]

section Definitions

variable {inner : Rule} {size : Nat} {name : String} (hname : IsVariableName name)
include hname

theorem variable_readsBack : ReadsBack inner size (.variable name) [.variable name] := by
  intro rest hrest _
  refine variable_reads hname hrest.breaksOff hrest ?_
  refine (variableName_hit hname hrest.breaksOff hrest.isTidy).bind ?_
  refine (path_miss hrest.afterPath.noSelector false).bind ?_
  exact (assignmentTo_miss inner [] hrest).bind (takes_pure _)

variable (hf : Fluent inner size) {rest : List Char} (hrest : Follows rest)
include hf hrest

/-- A variable that is assigned to is defined anew. -/
theorem assigned_reads {path path' : List (Selector Pipeline)} {op : AssignmentOp}
    {value value' : Pipeline} (hpath : List.Forall₂ (Selector.Alike Pipeline.ReadAs) path path')
    (hcall : path.any Selector.isCall = false) (hvalue : value.ReadAs value')
    (hsize : (name.toList ++
      pathText path (operatorText op.symbol (groupText value rest))).length ≤ size + 1) :
    Reads (outputs (attempt inner))
      (name.toList ++ pathText path (operatorText op.symbol (groupText value rest)))
      [.define name (assigned name path' op value')] (stripped rest) := by
  have hafter := afterPath_operatorText op value rest
  have hstart := hafter.toAfterSelector.pathText path
  have hlength := (pathText_fronts path).length_le (operatorText op.symbol (groupText value rest))
  rw [List.length_append] at hsize
  have hselectors := path_reads hf hpath hafter.toAfterSelector hafter.noSelector false (by omega)
  have hcall : path'.any Selector.isCall = false := (any_isCall_alike hpath).trans hcall
  have hassign := assignmentTo_reads hf hcall op hvalue hrest (by omega)
  refine variable_reads hname hstart.breaksOff hrest ?_
  refine (variableName_hit hname hstart.breaksOff hstart.isTidy).bind ?_
  refine hselectors.bind (hassign.bind ?_)
  cases path' <;> cases op <;> exact takes_pure _

end Definitions

/-! ### Functions -/

theorem paramsText_cons (name : String) (more : List String) (rest : List Char) :
    paramsText (name :: more) rest =
      name.toList ++ more.foldr (fun x t => ", ".toList ++ (x.toList ++ t)) rest := by
  induction more generalizing name with
  | nil => rfl
  | cons x more ih =>
    show name.toList ++ ", ".toList ++ paramsText (x :: more) rest = _
    rw [ih, List.append_assoc, List.foldr_cons]

/-- The name of a function, if it has one, is read back. -/
theorem functionName_reads {name : Option String} (hname : ∀ s ∈ name, IsVariableName s)
    (t : List Char) :
    isSolid ((name.getD "").toList ++ '(' :: t) = true ∧
      Reads variableName ((name.getD "").toList ++ '(' :: t) name ('(' :: t) := by
  cases name with
  | none => exact ⟨rfl, variableName_miss rfl⟩
  | some s =>
    have hs := hname s rfl
    exact ⟨isSolid_of_opens (opens_name hs _), variableName_hit hs (t := '(' :: t) rfl rfl⟩

section Functions

variable {params : List String} (hparams : ∀ name ∈ params, IsVariableName name)
include hparams

theorem parameters_reads (t : List Char) :
    Reads parameters ('(' :: paramsText params ("): ".toList ++ '(' :: t)) params ('(' :: t) := by
  have hcolon : Reads (symbol ":") (": ".toList ++ '(' :: t) true ('(' :: t) :=
    symbol_takes Apart ":" (t := ' ' :: '(' :: t) rfl (by decide) rfl
  have hclose : Reads (symbol ")") ("): ".toList ++ '(' :: t) true (": ".toList ++ '(' :: t) :=
    symbol_takes Apart ")" (t := ": ".toList ++ '(' :: t) rfl (by decide) rfl
  cases params with
  | nil =>
    have hopen := symbol_takes Apart "(" (t := "): ".toList ++ '(' :: t) rfl (by decide) rfl
    exact hopen.bind (Takes.bind (hclose.bind (takes_pure _)) (hcolon.bind (takes_pure _)))
  | cons name more =>
    have hopens := opens_name (hparams name List.mem_cons_self)
      (more.foldr (fun x t => ", ".toList ++ (x.toList ++ t)) ("): ".toList ++ '(' :: t))
    have hopen := symbol_takes Apart "(" rfl (by decide) (isTidy_of_opens hopens)
    rw [stripped_of_opens hopens] at hopen
    rw [paramsText_cons]
    refine hopen.bind (Takes.bind ?_ (hcolon.bind (takes_pure _)))
    have hend : isTidy ("): ".toList ++ '(' :: t) = true ∧ BreaksOff ("): ".toList ++ '(' :: t) :=
      ⟨rfl, rfl⟩
    refine listUntil_reads _ _ (fun (name : String) t => name.toList ++ t)
      (fun t => isTidy t = true ∧ BreaksOff t) (List.forall₂_same.2 ?_) ?_ ?_ (fun _ => rfl)
      (fun _ => ⟨rfl, rfl⟩) ?_ hend hclose (Nat.le_refl _)
    · intro x hx t ht _
      exact (variableName_hit (hparams x hx) ht.2 ht.1).bind (takes_pure _)
    · intro x hx t
      exact isSolid_of_opens (opens_name (hparams x (List.mem_cons_of_mem _ hx)) t)
    · exact (hparams name List.mem_cons_self).no_symbol ")" "" rfl (by decide)
    · intro x _ t
      rw [List.length_append]
      exact Nat.le_add_left _ _

/-- A function is read back, with a name or without. -/
theorem headText_reads {inner : Rule} {size : Nat} (hf : Fluent inner size) {body body' : Pipeline}
    (hbody : body.ReadAs body') (name : Option String) (hname : ∀ s ∈ name, IsVariableName s)
    {rest : List Char} (hrest : Follows rest)
    (hsize : (headText (name.getD "") params (groupText body rest)).length ≤ size + 1) :
    Reads (outputs (attempt inner)) (headText (name.getD "") params (groupText body rest))
      (match name with
        | some name => [.define name [.function params body']]
        | none => [.function params body']) (stripped rest) := by
  have hlength := (paramsText_fronts params).length_le ("): ".toList ++ groupText body rest)
  have htext : headText (name.getD "") params (groupText body rest) = "func ".toList ++
      ((name.getD "").toList ++ '(' :: paramsText params ("): ".toList ++ groupText body rest)) :=
    List.append_assoc _ _ _
  rw [htext] at hsize ⊢
  simp only [List.length_append, List.length_cons] at hsize hlength
  obtain ⟨hsolid, hname⟩ := functionName_reads hname
    (paramsText params ("): ".toList ++ groupText body rest))
  have hbody := hf.operand body body' rest hbody hrest.isTidy hrest.ends (by
    simp only [List.length_cons]
    omega)
  generalize (name.getD "").toList ++
    '(' :: paramsText params ("): ".toList ++ groupText body rest) = t at *
  have hfunc : Reads (keyword "func") ("func ".toList ++ t) true t :=
    keyword_hit "func" (t := ' ' :: t) rfl rfl hsolid
  refine outputs_of_rung hrest (Nat.zero_le 9) ?_ (fun _ => keyword_miss rfl) (keyword_miss rfl)
  refine (symbol_miss rfl).bind ((keyword_miss rfl).bind ((keyword_miss rfl).bind ?_))
  refine (keyword_miss rfl).bind ((keyword_miss rfl).bind ((number_miss rfl).bind ?_))
  refine hfunc.bind (hname.bind ((parameters_reads hparams _).bind (hbody.bind ?_)))
  cases name <;> exact takes_pure _

end Functions

section Bindings

variable {inner : Rule} {size : Nat} (hf : Fluent inner size)
include hf

theorem function_readsBack {params : List String} {body body' : Pipeline}
    (hparams : ∀ name ∈ params, IsVariableName name) (hbody : body.ReadAs body') :
    ReadsBack inner (size + 1) (.function params body) [.function params body'] :=
  fun _ hrest hsize => headText_reads hparams hf hbody none (by simp) hrest hsize

/-- A definition is read back in each of the ways it is written. -/
theorem define_readsBack {name : String} (hname : IsVariableName name) {body body' : Pipeline}
    (hbody : body.ReadAs body') : ReadsBack inner (size + 1) (.define name body)
      [.define name body'] := by
  intro rest hrest hsize
  rcases instructionText_define name body with
    ⟨params, b, rfl, htext⟩ | ⟨path, op, value, rfl, hset, htext⟩ | htext
  · rw [htext] at hsize ⊢
    obtain ⟨hparams, b', hb, rfl⟩ := hbody.one.function
    exact headText_reads hparams hf hb (some name) (by simpa using hname) hrest hsize
  · rw [htext] at hsize ⊢
    obtain ⟨hne, hcall, path', value', hpath, hvalue, rfl⟩ := hbody.one.assign
    have hreads := assigned_reads hname hf hrest hpath hcall hvalue hsize
    cases hpath with
    | nil => exact absurd rfl hne
    | cons _ _ => exact hreads
  · have htext : instructionText (.define name body) rest =
        name.toList ++ operatorText AssignmentOp.set.symbol (groupText body rest) :=
      (congrFun htext rest).trans (List.append_assoc _ _ _)
    rw [htext] at hsize ⊢
    exact assigned_reads hname hf hrest .nil rfl hbody hsize

theorem redefine_readsBack {name : String} (hname : IsVariableName name) {op : AssignmentOp}
    (hop : op ≠ .set) {value value' : Pipeline} (hvalue : value.ReadAs value') :
    ReadsBack inner (size + 1) (.define name [.assign [.variable name] [] op value])
      [.define name [.assign [.variable name] [] op value']] := by
  intro rest hrest hsize
  have htext : instructionText (.define name [.assign [.variable name] [] op value]) rest =
      name.toList ++ operatorText op.symbol (groupText value rest) :=
    if_pos ⟨rfl, fun h => hop h.2⟩
  rw [htext] at hsize ⊢
  have hreads := assigned_reads hname hf hrest .nil rfl hvalue hsize
  cases op with
  | set => exact absurd rfl hop
  | _ => exact hreads

end Bindings

/-! ### Paths -/

section Accesses

variable {inner : Rule} {size : Nat} (hf : Fluent inner size) {base base' : Pipeline}
  (hbase : base.ReadAs base') {path path' : List (Selector Pipeline)} (hne : path ≠ [])
  (hpath : List.Forall₂ (Selector.Alike Pipeline.ReadAs) path path')
include hf hbase hne hpath

theorem access_readsBack :
    ReadsBack inner (size + 1) (.access base path) [.access base' path'] := by
  intro rest hrest hsize
  have htext : instructionText (.access base path) rest = baseText base (pathText path rest) := by
    cases base <;> rfl
  rw [htext] at hsize ⊢
  have hbare := bare_baseText base (pathText path rest)
  have hread := valueAccess_reads hf hbase hne hpath hrest.afterPath
    (assignmentTo_miss inner path' hrest) hsize
  exact hbare.outputs hrest (Nat.zero_le 9) (hbare.negation hread)

theorem assign_readsBack (hcall : path.any Selector.isCall = false) (op : AssignmentOp)
    {value value' : Pipeline} (hvalue : value.ReadAs value') :
    ReadsBack inner (size + 1) (.assign base path op value) [.assign base' path' op value'] := by
  intro rest hrest hsize
  have htext : instructionText (.assign base path op value) rest =
      baseText base (pathText path (operatorText op.symbol (groupText value rest))) := by
    cases base <;> rfl
  rw [htext] at hsize ⊢
  have hbare := bare_baseText base (pathText path (operatorText op.symbol (groupText value rest)))
  have hlength := length_baseText base
    (pathText path (operatorText op.symbol (groupText value rest)))
  have hshort := (pathText_fronts path).length_le (operatorText op.symbol (groupText value rest))
  have hcall : path'.any Selector.isCall = false := (any_isCall_alike hpath).trans hcall
  have hassign := assignmentTo_reads hf hcall op hvalue hrest (by omega)
  have hread := valueAccess_reads hf hbase hne hpath (afterPath_operatorText op value rest) hassign
    hsize
  exact hbare.outputs hrest (Nat.zero_le 9) (hbare.negation hread)

end Accesses

/-! ### Constructors -/

/-- The text of a field of an object. -/
def fieldText (f : Field Pipeline) (t : List Char) : List Char :=
  groupText f.key (markText f.optional (": ".toList ++ groupText f.value t))

theorem length_fieldText (f : Field Pipeline) (t : List Char) :
    t.length ≤ (fieldText f t).length := by
  have hvalue := length_groupText f.value t
  have hmark := (markText_fronts f.optional).length_le (": ".toList ++ groupText f.value t)
  have hkey := length_groupText f.key (markText f.optional (": ".toList ++ groupText f.value t))
  rw [List.length_append] at hmark
  rw [fieldText]
  omega

theorem fieldsText_cons (f : Field Pipeline) (more : List (Field Pipeline)) (rest : List Char) :
    fieldsText (f :: more) rest =
      fieldText f (more.foldr (fun x t => ", ".toList ++ fieldText x t) rest) := by
  induction more generalizing f with
  | nil => rfl
  | cons g more ih =>
    rw [List.foldr_cons, ← ih]
    rfl

section Constructors

variable {inner : Rule} {size : Nat}

/-- What is read as an array is read where an instruction is looked for. -/
theorem bracketed_readsBack {i : Instruction} {t rest : List Char} (hrest : Follows rest)
    (h : Reads (arrayConstructor inner) ('[' :: t) [i] (stripped rest)) :
    Reads (outputs (attempt inner)) ('[' :: t) [i] (stripped rest) := by
  have hprimary : Reads (primary inner) ('[' :: t) [i] (stripped rest) :=
    Takes.bind (fun b hb => ⟨b, hb, rfl⟩) h
  have hvalue := valueAccess_primary rfl hprimary hrest.afterPath.noSelector
  exact (Bare.bracket t).outputs hrest (Nat.zero_le 9) ((Bare.bracket t).negation hvalue)

theorem emptyBrackets_reads {t : List Char} (ht : isTidy t = true) :
    Reads (arrayConstructor inner) ("[]".toList ++ t) [.array [.void]] (stripped t) := by
  have hopen := symbol_takes Apart "[" (t := ']' :: t) rfl (by decide) rfl
  exact hopen.bind ((symbol_takes Apart "]" rfl (by decide) ht).bind (takes_pure _))

theorem emptyArray_readsBack : ReadsBack inner size (.array [.void]) [.array [.void]] :=
  fun _ hrest _ => bracketed_readsBack hrest (emptyBrackets_reads hrest.isTidy)

variable (hf : Fluent inner size)
include hf

/-- The elements of an empty array. -/
theorem void_readsBack :
    ReadsBack inner (size + 1) .void [.access [.array [.void]] [.iterate false]] := by
  intro rest hrest hsize
  have hprimary : Reads (primary inner) ("[]".toList ++ ("[]".toList ++ rest)) [.array [.void]]
      ("[]".toList ++ rest) :=
    Takes.bind (fun b hb => ⟨b, hb, rfl⟩) (emptyBrackets_reads rfl)
  have hsize : (pathText [.iterate false] rest).length + 2 ≤ size + 1 := hsize
  have hpath := path_reads hf (.cons (.iterate false) .nil) hrest.afterPath.toAfterSelector
    hrest.afterPath.noSelector false (Nat.le_of_add_right_le hsize)
  have hread : Reads (valueAccess inner) ("[][]".toList ++ rest)
      [.access [.array [.void]] [.iterate false]] (stripped rest) := by
    refine Takes.bind ((symbol_miss rfl).bind (hprimary.bind
      (takes_pure ([Instruction.array [.void]], [])))) ?_
    exact hpath.bind ((assignmentTo_miss inner _ hrest).bind (takes_pure _))
  exact (Bare.bracket _).outputs hrest (Nat.zero_le 9) ((Bare.bracket _).negation hread)

theorem array_readsBack {body body' : Pipeline} (hvoid : body ≠ [.void])
    (hbody : body.ReadAs body') : ReadsBack inner (size + 1) (.array body) [.array body'] := by
  intro rest hrest hsize
  have htext : instructionText (.array body) rest = '[' :: pipelineText body (']' :: rest) := by
    rcases instructionText_array body with ⟨rfl, _⟩ | ⟨_, htext⟩
    · exact absurd rfl hvoid
    · exact congrFun htext rest
  rw [htext] at hsize ⊢
  have hopens := opens_pipelineText hbody (']' :: rest)
  have hopen := symbol_takes Apart "[" rfl (by decide) (isTidy_of_opens hopens)
  rw [stripped_of_opens hopens] at hopen
  -- a body that started with the closing bracket would be read as the empty array
  have hmiss : begins "]" "" (pipelineText body (']' :: rest)) = false := by
    obtain ⟨c, t, heq, _, _, _, _, hc⟩ := opens_cons hopens
    rw [heq]
    exact begins_miss (by decide) fun h => hc (Option.some.inj h).symm
  have hpipe := hf.pipeline body body' (']' :: rest) hbody rfl (Nat.le_of_succ_le_succ hsize)
  have hclose := symbol_takes Apart "]" rfl (by decide) hrest.isTidy
  refine bracketed_readsBack hrest (hopen.bind ((symbol_miss hmiss).bind (hpipe.bind ?_)))
  exact hclose.bind (takes_pure _)

/-- A field is read back. -/
theorem field_reads {f f' : Field Pipeline} (hf' : f.Alike Pipeline.ReadAs f') {t : List Char}
    (ht : AfterOperand (ends 9) t) (hsize : (fieldText f t).length ≤ size + 1) :
    Reads (field inner) (fieldText f t) f' (stripped t) := by
  obtain @⟨key, key', value, value', optional, hkey, hvalue⟩ := hf'
  have htidy := isTidy_markText optional (t := ": ".toList ++ groupText value t) rfl
  have hlength := length_groupText key (markText optional (": ".toList ++ groupText value t))
  have hmarked := (markText_fronts optional).length_le (": ".toList ++ groupText value t)
  have hsize : (groupText key (markText optional (": ".toList ++ groupText value t))).length ≤
      size + 1 := hsize
  rw [List.length_append] at hmarked
  have hgroup := hf.group key key' _ hkey htidy rfl hsize
  have hkey : Reads (fieldKey inner) (fieldText ⟨key, value, optional⟩ t) (key', none)
      (stripped (markText optional (": ".toList ++ groupText value t))) :=
    (name_miss rfl).bind (Takes.bind (fun b hb => ⟨b, hb, rfl⟩) (hgroup.bind (takes_pure _)))
  have hmark : Reads (symbolNotBefore "?" "?")
      (stripped (markText optional (": ".toList ++ groupText value t))) optional
      (": ".toList ++ groupText value t) := by
    cases optional with
    | false => exact symbol_miss rfl
    | true =>
      exact symbol_hit Apart "?" "?" (t := ": ".toList ++ groupText value t) rfl (by decide) rfl rfl
  have hcolon : Reads (symbol ":") (": ".toList ++ groupText value t) true (groupText value t) :=
    symbol_takes Apart ":" (t := ' ' :: groupText value t) rfl (by decide) rfl
  have hvalue := hf.operand value value' t hvalue ht.1 ht.2 (by omega)
  exact hkey.bind (hmark.bind (hcolon.bind (hvalue.bind (takes_pure _))))

theorem object_readsBack {fields fields' : List (Field Pipeline)}
    (h : List.Forall₂ (Field.Alike Pipeline.ReadAs) fields fields') :
    ReadsBack inner (size + 1) (.object fields) [.object fields'] := by
  intro rest hrest hsize
  have hclose := symbol_takes Apart "\x7d" rfl (by decide) hrest.isTidy
  have hfields : Reads (objectConstructor inner) ('\x7b' :: fieldsText fields ('\x7d' :: rest))
      [.object fields'] (stripped rest) := by
    cases h with
    | nil =>
      have hopen := symbol_takes Apart "\x7b" (t := '\x7d' :: rest) rfl (by decide) rfl
      exact hopen.bind (Takes.bind (hclose.bind (takes_pure _)) (takes_pure _))
    | @cons f f' more more' hfirst hmore =>
      have hsize : (fieldsText (f :: more) ('\x7d' :: rest)).length ≤ size :=
        Nat.le_of_succ_le_succ hsize
      rw [fieldsText_cons] at hsize ⊢
      have hend : AfterOperand (ends 9) ('\x7d' :: rest) := ⟨rfl, rfl⟩
      refine (symbol_takes Apart "\x7b" rfl (by decide) rfl).bind (Takes.bind ?_ (takes_pure _))
      refine listUntil_reads _ _ fieldText (AfterOperand (ends 9))
        ((List.Forall₂.cons hfirst hmore).imp ?_) (fun _ _ _ => rfl) (fun _ => rfl) (fun _ => rfl)
        (fun _ => ⟨rfl, rfl⟩) (fun x _ => length_fieldText x) hend hclose hsize
      intro x x' hx t ht hlength
      exact field_reads hf hx ht (Nat.le_succ_of_le hlength)
  have hprimary : Reads (primary inner) ('\x7b' :: fieldsText fields ('\x7d' :: rest))
      [.object fields'] (stripped rest) := Takes.bind (fun b hb => ⟨b, hb, rfl⟩) hfields
  have hbare := Bare.brace (fieldsText fields ('\x7d' :: rest))
  exact hbare.outputs hrest (Nat.zero_le 9)
    (hbare.negation (valueAccess_primary rfl hprimary hrest.afterPath.noSelector))

end Constructors

/-! ### Conditionals -/

/-- The text of a condition and what to do if it holds. -/
def armText (a : Pipeline × Pipeline) (t : List Char) : List Char :=
  groupText a.1 (" then ".toList ++ groupText a.2 t)

theorem length_armText (a : Pipeline × Pipeline) (t : List Char) :
    t.length ≤ (armText a t).length := by
  have hbody := length_groupText a.2 t
  have hcondition := length_groupText a.1 (" then ".toList ++ groupText a.2 t)
  rw [List.length_append] at hcondition
  rw [armText]
  omega

theorem armsText_cons (lead : String) (a : Pipeline × Pipeline) (more : List (Pipeline × Pipeline))
    (rest : List Char) :
    armsText lead (a :: more) rest =
      lead.toList ++ armText a (more.foldr (fun x t => " elif ".toList ++ armText x t) rest) := by
  induction more generalizing lead a with
  | nil => rfl
  | cons x more ih =>
    rw [List.foldr_cons, ← ih]
    rfl

/-- The text after the arms of a conditional. -/
def otherwiseText : Option Pipeline → List Char → List Char
  | none, rest => " end".toList ++ rest
  | some p, rest => " else ".toList ++ groupText p (" end".toList ++ rest)

section Conditionals

variable {inner : Rule} {size : Nat} (hf : Fluent inner size)
include hf

/-- A condition and what to do if it holds are read back. -/
theorem arm_reads {a a' : Pipeline × Pipeline} (ha : a.RProd Pipeline.ReadAs Pipeline.ReadAs a')
    {t : List Char} (ht : AfterOperand endsPipe t) (hsize : (armText a t).length ≤ size) :
    Reads (arm inner) (armText a t) a' (stripped t) := by
  obtain @⟨condition, body, condition', body', hcondition, hbody⟩ := ha
  have hlength := length_groupText condition (" then ".toList ++ groupText body t)
  rw [List.length_append] at hlength
  have hcondition := hf.pipe condition condition' (" then ".toList ++ groupText body t) hcondition
    rfl rfl hsize
  have hthen : Reads (keyword "then") ("then ".toList ++ groupText body t) true
      (groupText body t) := keyword_hit "then" (t := ' ' :: groupText body t) rfl rfl rfl
  have hsize : (groupText condition (" then ".toList ++ groupText body t)).length ≤ size := hsize
  have hbody := hf.pipe body body' t hbody ht.1 ht.2 (by omega)
  exact hcondition.bind (hthen.bind (hbody.bind (takes_pure _)))

/-- The arms of a conditional are read back, in front of the word that ends them. -/
theorem arms_reads {a a' : Pipeline × Pipeline} {more more' : List (Pipeline × Pipeline)}
    (harms : List.Forall₂ (Prod.RProd Pipeline.ReadAs Pipeline.ReadAs) (a :: more) (a' :: more'))
    {t : List Char} (ht : AfterOperand endsPipe t)
    (hdone : Reads (keyword "elif") (stripped t) false (stripped t))
    (hsize : (armText a (more.foldr (fun x t => " elif ".toList ++ armText x t) t)).length ≤ size) :
    Reads (separated (keyword "elif") (arm inner))
      (armText a (more.foldr (fun x t => " elif ".toList ++ armText x t) t)) (a' :: more')
      (stripped t) := by
  refine separated_reads armText (AfterOperand endsPipe) (harms.imp ?_) (fun _ _ _ => ⟨rfl, rfl⟩)
    ?_ (fun x _ => length_armText x) (by decide) ht hdone hsize
  · intro x x' hx t ht hsize
    exact arm_reads hf hx ht hsize
  · intro x _ t
    exact keyword_hit "elif" (t := ' ' :: armText x t) rfl rfl rfl

theorem branch_readsBack {arms arms' : List (Pipeline × Pipeline)}
    {otherwise otherwise' : Option Pipeline} (hne : arms ≠ [])
    (harms : List.Forall₂ (Prod.RProd Pipeline.ReadAs Pipeline.ReadAs) arms arms')
    (hotherwise : Option.Rel Pipeline.ReadAs otherwise otherwise') :
    ReadsBack inner (size + 1) (.branch arms otherwise) [.branch arms' otherwise'] := by
  intro rest hrest hsize
  have htext : instructionText (.branch arms otherwise) rest =
      armsText "if " arms (otherwiseText otherwise rest) := by
    cases otherwise <;> rfl
  have hlength := (armsText_fronts "if " arms).length_le (otherwiseText otherwise rest)
  rw [htext] at hsize ⊢
  have hshort := Nat.le_trans hlength hsize
  cases harms with
  | nil => exact absurd rfl hne
  | @cons a a' more more' ha hmore =>
    have hafter : AfterOperand endsPipe (otherwiseText otherwise rest) := by
      cases otherwise <;> exact ⟨rfl, rfl⟩
    have hdone : Reads (keyword "elif") (stripped (otherwiseText otherwise rest)) false
        (stripped (otherwiseText otherwise rest)) := by
      cases otherwise <;> exact keyword_miss rfl
    have hword : "if ".toList.length = 3 := rfl
    rw [armsText_cons, List.length_append] at hsize
    have harms := arms_reads hf (.cons ha hmore) hafter hdone (by omega)
    rw [armsText_cons]
    have hif : ∀ t, Reads (keyword "if") ("if ".toList ++ '(' :: t) true ('(' :: t) :=
      fun t => keyword_hit "if" (t := ' ' :: '(' :: t) rfl rfl rfl
    have hend := keyword_hit "end" rfl hrest.breaksOff hrest.isTidy
    refine outputs_of_rung hrest (Nat.zero_le 9) ?_ (fun _ => keyword_miss rfl) (keyword_miss rfl)
    refine (symbol_miss rfl).bind ((hif _).bind (harms.bind ?_))
    cases hotherwise with
    | none => exact (keyword_miss rfl).bind ((takes_pure none).bind (hend.bind (takes_pure _)))
    | @some p p' hp =>
      have helse := keyword_hit "else" (t := ' ' :: groupText p (" end".toList ++ rest)) rfl rfl rfl
      have hlength : (otherwiseText (some p) rest).length =
          (groupText p (" end".toList ++ rest)).length + 6 := rfl
      have hp := hf.pipe p p' (" end".toList ++ rest) hp rfl rfl (by omega)
      exact helse.bind ((hp.map some).bind (hend.bind (takes_pure _)))

end Conditionals

end JsonPipe.Source
