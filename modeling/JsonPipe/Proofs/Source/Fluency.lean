import JsonPipe.Proofs.Source.Ladder

/-! Reading operands back.

    A reader is fluent up to a size if it reads every text of a pipeline that is no longer than that
    as what this text is read as (`Fluent`): as a pipeline in front of a closing bracket, and as an
    operand in parentheses. From a fluent `inner` every level of the grammar reads operands in
    parentheses, and what is left to say is what may come after an instruction (`Follows`). -/

namespace JsonPipe.Source

open Reader

/-! ### What comes after -/

/-- The text ends or goes on with a closing bracket. -/
def closes : List Char → Bool
  | [] => true
  | ')' :: _ => true
  | ']' :: _ => true
  | _ => false

/-- The text that may come after an instruction: the end of its pipeline or a pipe. -/
inductive Follows : List Char → Prop
  | nothing : Follows []
  | paren (t : List Char) : Follows (')' :: t)
  | bracket (t : List Char) : Follows (']' :: t)
  | pipe (t : List Char) : Follows (" | ".toList ++ t)

theorem follows_of_closes {t : List Char} (h : closes t = true) : Follows t := by
  unfold closes at h
  split at h
  · exact .nothing
  · exact .paren _
  · exact .bracket _
  · cases h

theorem stripped_of_closes {t : List Char} (h : closes t = true) : stripped t = t := by
  unfold closes at h
  split at h
  · rfl
  · rfl
  · rfl
  · cases h

theorem no_pipe_of_closes {t : List Char} (h : closes t = true) : begins "|" "=" t = false := by
  unfold closes at h
  split at h
  · rfl
  · rfl
  · rfl
  · cases h

/-! ### Words and numbers that are not there -/

theorem number_miss {I : Cursor → Prop} {t : List Char} (h : t.head?.any Char.isDigit = false) :
    Takes I I number t none t := by
  have hnone : Takes I I (takeWhile Char.isDigit) t [] t := by
    intro b hb
    refine ⟨b, hb, ?_⟩
    have hspan := span_append [] b (by simp) h
    exact congrArg Except.ok hspan
  exact hnone.bind (takes_pure none)

/-- A word is not found where no word starts. -/
theorem keyword_miss_of_head {I : Cursor → Prop} {t : List Char}
    (h : t.head?.any isNameStart = false) {w : String}
    (hw : w.toList.head?.any isNameStart = true) : Takes I I (keyword w) t false t := by
  refine keyword_miss ?_
  cases hword : w.toList with
  | nil => rw [hword] at hw; cases hw
  | cons x word =>
    cases t with
    | nil => rfl
    | cons c t =>
      rw [List.isPrefixOf_cons_cons, Bool.and_eq_false_iff, beq_eq_false_iff_ne]
      refine .inl ?_
      rintro rfl
      rw [hword] at hw
      rw [List.head?_cons] at h hw
      rw [h] at hw
      cases hw

/-! ### What comes after an instruction -/

namespace Follows

variable {t : List Char} (h : Follows t)
include h

theorem breaksOff : BreaksOff t := by cases h <;> rfl

theorem isTidy : isTidy t = true := by cases h <;> rfl

theorem no_point : t.head? ≠ some '.' := by cases h <;> simp

theorem ends : ends 9 (stripped t) = true := by cases h <;> rfl

/-- Nothing follows that any of the levels looks for. -/
theorem no_joint (level : Nat) (hlevel : level ≤ 9) :
    ∀ s ∈ joints level, begins s.1 s.2 (stripped t) = false :=
  not_begins_of_ends (ends_mono hlevel h.ends)

theorem no_comma : begins "," "" (stripped t) = false := by cases h <;> rfl

theorem no_name : (stripped t).head?.any isNameStart = false := by cases h <;> rfl

theorem no_word (w : String) (hw : w.toList.head?.any isNameStart = true) :
    Reads (keyword w) (stripped t) false (stripped t) :=
  keyword_miss_of_head h.no_name hw

theorem no_assignment : ∀ s ∈ assignmentSymbols, begins s.1 s.2.1 (stripped t) = false := by
  have hall : (assignmentSymbols.all fun s => !begins s.1 s.2.1 (stripped t)) = true := by
    cases h <;> rfl
  intro s hs
  simpa using List.all_eq_true.1 hall s hs

end Follows

/-! ### Text that starts with a bracket, a quote or a point -/

/-- The text starts with something that no word and no operator starts with. -/
inductive Bare : List Char → Prop
  | point (t : List Char) : Bare ('.' :: t)
  | quote (t : List Char) : Bare ('"' :: t)
  | paren (t : List Char) : Bare ('(' :: t)
  | bracket (t : List Char) : Bare ('[' :: t)
  | brace (t : List Char) : Bare ('\x7b' :: t)

namespace Bare

variable {inner : Rule} {t u : List Char} {p : Pipeline} (hbare : Bare t)
include hbare

theorem no_name : t.head?.any isNameStart = false := by cases hbare <;> rfl

theorem no_word (w : String) (hw : w.toList.head?.any isNameStart = true) :
    Reads (keyword w) t false t :=
  keyword_miss_of_head hbare.no_name hw

theorem conditional (h : Reads (valueAccess inner) t p u) : Reads (conditional inner) t p u := by
  have hdigit : t.head?.any Char.isDigit = false := by cases hbare <;> rfl
  refine (hbare.no_word "if" rfl).bind ((hbare.no_word "true" rfl).bind ?_)
  refine (hbare.no_word "false" rfl).bind ((hbare.no_word "null" rfl).bind ?_)
  refine (number_miss hdigit).bind ((hbare.no_word "func" rfl).bind ?_)
  exact (variableName_miss hbare.no_name).bind h

/-- What is read as a value with a path is read as an operand. -/
theorem negation (h : Reads (valueAccess inner) t p u) : Reads (rung inner 0) t p u := by
  have hminus : begins "-" "=>" t = false := by cases hbare <;> rfl
  exact (symbol_miss hminus).bind (hbare.conditional h)

end Bare

/-! ### Lists of texts -/

theorem length_stripped (t : List Char) :
    (stripped t).length ≤ t.length ∧ t.length ≤ (stripped t).length + 1 := by
  unfold stripped
  split
  · exact ⟨Nat.le_succ _, Nat.le_refl _⟩
  · exact ⟨Nat.le_refl _, Nat.le_succ _⟩

/-- Texts one in front of the other are read one after the other, each as the value for its item.
    Each must be followed by text that is `ok`, which all of them are, and be followed by
    something. -/
theorem repeats_related {ι α : Type} {step : Reader (Option α)} {write : ι → List Char → List Char}
    {size : Nat} {u rest : List Char} {items : List ι} {values : List α} (ok : List Char → Prop)
    (hstep : List.Forall₂ (fun a v => ∀ t, ok t → (write a t).length ≤ size →
      Reads step (stripped (write a t)) (some v) (stripped t)) items values)
    (hok : ∀ a ∈ items, ∀ t, ok (write a t)) (hrest : ok rest)
    (hlength : ∀ a ∈ items, ∀ t, t.length + 2 ≤ (write a t).length)
    (hsize : (items.foldr write rest).length ≤ size)
    (hdone : Reads step (stripped rest) none u) :
    Repeats Apart Apart step (stripped (items.foldr write rest)) values u := by
  induction hstep with
  | nil => exact .done hdone
  | @cons a v items values ha _ ih =>
    have hmem := fun x (hx : x ∈ items) => List.mem_cons_of_mem a hx
    have hlong := hlength a List.mem_cons_self (items.foldr write rest)
    have htail : ok (items.foldr write rest) := by
      cases items with
      | nil => exact hrest
      | cons x items => exact hok x (hmem x List.mem_cons_self) _
    rw [List.foldr_cons] at hsize ⊢
    refine .more (ha _ htail hsize) ?_ (ih (fun x hx => hok x (hmem x hx))
      (fun x hx => hlength x (hmem x hx)) (by omega))
    -- either text may lose a space at its start, so it takes two characters to be shorter
    have h₁ := length_stripped (items.foldr write rest)
    have h₂ := length_stripped (write a (items.foldr write rest))
    omega

/-- The same, where the value is made from the item. -/
theorem repeats_values {ι α : Type} {step : Reader (Option α)} {write : ι → List Char → List Char}
    {value : ι → α} {size : Nat} {u rest : List Char} {items : List ι} (ok : List Char → Prop)
    (hstep : ∀ a ∈ items, ∀ t, ok t → (write a t).length ≤ size →
      Reads step (stripped (write a t)) (some (value a)) (stripped t))
    (hok : ∀ a ∈ items, ∀ t, ok (write a t)) (hrest : ok rest)
    (hlength : ∀ a ∈ items, ∀ t, t.length + 2 ≤ (write a t).length)
    (hsize : (items.foldr write rest).length ≤ size)
    (hdone : Reads step (stripped rest) none u) :
    Repeats Apart Apart step (stripped (items.foldr write rest)) (items.map value) u :=
  repeats_related ok (List.forall₂_map_right_iff.2 (List.forall₂_same.2 hstep)) hok hrest hlength
    hsize hdone

/-- Items with commas in between, up to a closing symbol. -/
theorem listUntil_reads {ι α : Type} {item : Reader α} {size : Nat} {close : String}
    {rest u : List Char} {a : ι} {v : α} {more : List ι} {values : List α} (construct : Construct)
    (what : String) (write : ι → List Char → List Char) (ok : List Char → Prop)
    (hitem : List.Forall₂ (fun x w => ∀ t, ok t → (write x t).length ≤ size →
      Reads item (write x t) w (stripped t)) (a :: more) (v :: values))
    (hsolid : ∀ x ∈ more, ∀ t, isSolid (write x t) = true)
    (hfirst : ∀ t, begins close "" (write a t) = false)
    (hcomma : ∀ t, begins close "" (',' :: t) = false) (hok : ∀ t, ok (", ".toList ++ t))
    (hlength : ∀ x ∈ a :: more, ∀ t, t.length ≤ (write x t).length) (hrest : ok rest)
    (hclose : Reads (symbol close) (stripped rest) true u)
    (hsize : (write a (more.foldr (fun x t => ", ".toList ++ write x t) rest)).length ≤ size) :
    Reads (listUntil close construct what item)
      (write a (more.foldr (fun x t => ", ".toList ++ write x t) rest)) (v :: values) u := by
  obtain ⟨hfirstItem, hmore⟩ := List.forall₂_cons.1 hitem
  have htail : ok (more.foldr (fun x t => ", ".toList ++ write x t) rest) := by
    cases more with
    | nil => exact hrest
    | cons x more => exact hok _
  have hshort := Nat.le_trans (hlength a List.mem_cons_self _) hsize
  refine (symbol_miss (hfirst _)).bind ((hfirstItem _ htail hsize).bind ?_)
  refine (Repeats.many (repeats_related ok (forall₂_imp_of_mem hmore ?_) (fun x _ t => hok _) hrest
    ?_ hshort ?_)).bind (takes_pure _)
  · intro x hx w hread t ht hsize
    have hsep := symbol_takes Apart "," (t := ' ' :: write x t) rfl (by decide) (hsolid x hx t)
    have hx := hread t ht (by
      simp only [List.length_append] at hsize
      omega)
    exact (symbol_miss (hcomma _)).bind (hsep.bind (hx.bind (takes_pure _)))
  · intro x hx t
    have := hlength x (List.mem_cons_of_mem _ hx) t
    simp only [List.length_append]
    have hcomma : ", ".toList.length = 2 := rfl
    omega
  · exact hclose.bind (takes_pure _)

/-! ### Fluent readers -/

/-- An operand in parentheses. -/
abbrev groupText (p : Pipeline) (rest : List Char) : List Char :=
  '(' :: pipelineText p (')' :: rest)

/-- The reader reads operands in parentheses up to a size, in front of a text that `after` allows
    for. -/
def ReadsGroups (item : Rule) (after : List Char → Bool) (size : Nat) : Prop :=
  ∀ (p q : Pipeline) (rest : List Char), p.ReadAs q → isTidy rest = true →
    after (stripped rest) = true → (groupText p rest).length ≤ size →
      Reads item (groupText p rest) q (stripped rest)

/-- The reader reads every pipeline with a text up to the given size. -/
structure Fluent (inner : Rule) (size : Nat) : Prop where
  pipeline : ∀ (p q : Pipeline) (rest : List Char), p.ReadAs q → closes rest = true →
    (pipelineText p rest).length ≤ size → Reads (pipe inner) (pipelineText p rest) q rest
  operand : ReadsGroups inner (ends 9) size
  /-- The expression for the number without a literal is no text of a pipeline. -/
  notNumber : size ≠ 0 → ∀ rest : List Char, Reads (pipe inner)
    ("1e999 - 1e999".toList ++ ')' :: rest) Number.nan.tree (')' :: rest)

/-- Neither a comma nor a pipe follows, nor anything else that joins operands. -/
def endsPipe (t : List Char) : Bool := ends 9 t && !begins "," "" t && !begins "|" "=" t

/-- No pipe follows, nor anything that joins operands but perhaps a comma. -/
def endsArgument (t : List Char) : Bool := ends 9 t && !begins "|" "=" t

section Operands

variable {inner : Rule} {t u : List Char} {p : Pipeline}

theorem outputs_one (h : Reads inner t p u) (hcomma : begins "," "" u = false) :
    Reads (outputs inner) t p u :=
  (h.separated_one (symbol_miss hcomma)).bind (takes_pure _)

theorem pipe_one (h : Reads inner t p u) (hcomma : begins "," "" u = false)
    (hpipe : begins "|" "=" u = false) : Reads (pipe inner) t p u :=
  ((outputs_one h hcomma).separated_one (symbol_miss hpipe)).bind (takes_pure _)

theorem argument_one (h : Reads inner t p u) (hpipe : begins "|" "=" u = false) :
    Reads (argument inner) t p u :=
  (h.separated_one (symbol_miss hpipe)).bind (takes_pure _)

theorem attempt_one (h : Reads (disjunction inner) t p u)
    (htry : Reads (keyword "try") t false t) : Reads (attempt inner) t p u :=
  htry.bind h

/-- No selector is found where none follows. -/
theorem selector_miss {I : Cursor → Prop} (h : lacks 0 u = true) (dotted : Bool) :
    Takes I I (selector inner dotted) u none u := by
  have hmiss := not_begins h
  have hbrackets : Takes I I (selectorBody inner false) u none u :=
    (symbol_miss (hmiss ("[", "") (by decide))).bind
      ((symbol_miss (hmiss ("->", "") (by decide))).bind
        ((symbol_miss (hmiss ("(", "") (by decide))).bind (takes_pure _)))
  have hbody : Takes I I (selectorBody inner dotted) u none u := by
    cases dotted with
    | false => exact hbrackets
    | true => exact (symbol_miss (hmiss (".", "") (by decide))).bind hbrackets
  exact hbody.bind (takes_pure none)

/-- There is no path where no selector follows. -/
theorem path_miss {I : Cursor → Prop} (h : lacks 0 u = true) (afterPoint : Bool) :
    Takes I I (path inner afterPoint) u [] u :=
  (selector_miss h _).bind (takes_pure [])

/-- A primary expression without a path is read as it is. -/
theorem valueAccess_primary (hpoint : begins "." "" t = false) (h : Reads (primary inner) t p u)
    (hend : lacks 0 u = true) : Reads (valueAccess inner) t p u := by
  refine Takes.bind ((symbol_miss hpoint).bind (h.bind (takes_pure (p, [])))) ?_
  exact (path_miss hend _).bind (takes_pure _)

/-- A pipeline in parentheses is read as what is in them. -/
theorem grouped_reads {rest : List Char} (hopens : opens t = true)
    (h : Reads (pipe inner) t p (')' :: rest)) (htidy : isTidy rest = true) :
    Reads (group inner) ('(' :: t) p (stripped rest) := by
  have hopen := symbol_takes Apart "(" rfl (by decide) (isTidy_of_opens hopens)
  rw [stripped_of_opens hopens] at hopen
  exact hopen.bind (h.bind ((symbol_takes Apart ")" rfl (by decide) htidy).bind (takes_pure _)))

/-- What is read as a group is read where a value with a path is looked for. -/
theorem valueAccess_grouped (h : Reads (group inner) ('(' :: t) p u) (hend : lacks 0 u = true) :
    Reads (valueAccess inner) ('(' :: t) p u := by
  have hprimary : Reads (primary inner) ('(' :: t) p u := Takes.bind (fun b hb => ⟨b, hb, rfl⟩) h
  exact valueAccess_primary rfl hprimary hend

variable {size : Nat} (hf : Fluent inner size)
include hf

theorem Fluent.group : ReadsGroups (group inner) (fun _ => true) (size + 1) := by
  intro p q rest hp htidy _ hsize
  refine grouped_reads (opens_pipelineText hp _) (hf.pipeline p q (')' :: rest) hp rfl ?_) htidy
  simpa using hsize

/-- Every level reads operands in parentheses. -/
theorem Fluent.rung {level : Nat} (hlevel : level ≤ 9) :
    ReadsGroups (rung inner level) (ends level) (size + 1) := by
  intro p q rest hp htidy hend hsize
  have hbare := Bare.paren (pipelineText p (')' :: rest))
  have hgroup := hf.group p q rest hp htidy rfl hsize
  have hbottom := hbare.negation (valueAccess_grouped hgroup (ends_mono (Nat.zero_le level) hend))
  exact climb (Nat.zero_le level) hlevel hbottom hend fun _ => hbare.no_word "not" rfl

/-- The level of `try` reads operands in parentheses. -/
theorem Fluent.attempt : ReadsGroups (attempt inner) (ends 9) (size + 1) := by
  intro p q rest hp htidy hend hsize
  refine attempt_one (hf.rung (Nat.le_refl 9) p q rest hp htidy hend hsize) ?_
  exact (Bare.paren _).no_word "try" rfl

theorem Fluent.pipe : ReadsGroups (pipe inner) endsPipe size := by
  intro p q rest hp htidy hend hsize
  simp only [endsPipe, Bool.and_eq_true, Bool.not_eq_true'] at hend
  exact pipe_one (hf.operand p q rest hp htidy hend.1.1 hsize) hend.1.2 hend.2

theorem Fluent.argument : ReadsGroups (argument inner) endsArgument size := by
  intro p q rest hp htidy hend hsize
  simp only [endsArgument, Bool.and_eq_true, Bool.not_eq_true'] at hend
  exact argument_one (hf.operand p q rest hp htidy hend.1 hsize) hend.2

end Operands

end JsonPipe.Source
