import JsonPipe.Proofs.Source.Paths

/-! Reading operators back.

    The operands of an operator are written in parentheses, so a level of the grammar that joins
    operands reads them one by one, each with the symbol or the word in front of it
    (`separated_reads`, `chain_reads`). What such a level reads is then carried up to the level of
    pipes (`outputs_of_rung`). -/

namespace JsonPipe.Source

open Reader

/-! ### Items with separators in between -/

/-- Items with a separator in between are read back. Each must be followed by text that is `ok`,
    which the separators are. -/
theorem separated_reads {ι α : Type} {separator : Reader Bool} {item : Reader α}
    {between rest : List Char} {size : Nat} {a : ι} {v : α} {more : List ι} {values : List α}
    (write : ι → List Char → List Char) (ok : List Char → Prop)
    (hitem : List.Forall₂ (fun x w => ∀ t, ok t → (write x t).length ≤ size →
      Reads item (write x t) w (stripped t)) (a :: more) (v :: values))
    (hok : ∀ x ∈ more, ∀ t, ok (between ++ write x t))
    (hseparator : ∀ x ∈ more, ∀ t,
      Reads separator (stripped (between ++ write x t)) true (write x t))
    (hlength : ∀ x ∈ a :: more, ∀ t, t.length ≤ (write x t).length) (hbetween : 2 ≤ between.length)
    (hrest : ok rest) (hdone : Reads separator (stripped rest) false (stripped rest))
    (hsize : (write a (more.foldr (fun x t => between ++ write x t) rest)).length ≤ size) :
    Reads (separated separator item) (write a (more.foldr (fun x t => between ++ write x t) rest))
      (v :: values) (stripped rest) := by
  obtain ⟨hfirst, hmore⟩ := List.forall₂_cons.1 hitem
  have htail : ok (more.foldr (fun x t => between ++ write x t) rest) := by
    cases more with
    | nil => exact hrest
    | cons x more => exact hok x List.mem_cons_self _
  have hshort := Nat.le_trans (hlength a List.mem_cons_self _) hsize
  refine (hfirst _ htail hsize).bind ?_
  refine (Repeats.many (repeats_related ok (forall₂_imp_of_mem hmore ?_) hok hrest ?_ hshort
    ?_)).bind (takes_pure _)
  · intro x hx w hread t ht hsize
    have hx' := hread t ht (by
      simp only [List.length_append] at hsize
      omega)
    exact (hseparator x hx t).bind (hx'.bind (takes_pure _))
  · intro x hx t
    have := hlength x (List.mem_cons_of_mem _ hx) t
    simp only [List.length_append]
    omega
  · exact hdone.bind (takes_pure _)

/-- The text may come after an operand: nothing follows that the reader of operands looks for. -/
def AfterOperand (after : List Char → Bool) (t : List Char) : Prop :=
  isTidy t = true ∧ after (stripped t) = true

theorem Follows.afterOperand {rest : List Char} (h : Follows rest) {level : Nat}
    (hlevel : level ≤ 9) : AfterOperand (Source.ends level) rest :=
  ⟨h.isTidy, ends_mono hlevel h.ends⟩

theorem bare_operandsText {between : String} {operands : List Pipeline}
    (hlength : 2 ≤ operands.length) (rest : List Char) :
    Bare (operandsText between operands rest) := by
  match operands with
  | p :: q :: more => exact .paren _

section Joined

variable {item : Rule} {after : List Char → Bool} {size : Nat} (hitem : ReadsGroups item after size)
  {rest : List Char} (hrest : AfterOperand after rest)
include hitem hrest

/-- Operands with a separator in between are read back. -/
theorem joined_reads {separator : Reader Bool} {build : List Pipeline → Instruction}
    {between : String} {operands operands' : List Pipeline} (hlength : 2 ≤ operands.length)
    (hoperands : List.Forall₂ Pipeline.ReadAs operands operands')
    (hok : ∀ t, AfterOperand after (between.toList ++ '(' :: t))
    (hseparator : ∀ t, Reads separator (stripped (between.toList ++ '(' :: t)) true ('(' :: t))
    (hbetween : 2 ≤ between.toList.length)
    (hdone : Reads separator (stripped rest) false (stripped rest))
    (hsize : (operandsText between operands rest).length ≤ size) :
    Reads (return joinWith build (← separated separator item)) (operandsText between operands rest)
      [build operands'] (stripped rest) := by
  match hoperands with
  | .cons hp (.cons hq hmore) =>
    rw [operandsText_cons] at hsize ⊢
    have hall := separated_reads groupText (AfterOperand after)
      ((List.Forall₂.cons hp (.cons hq hmore)).imp fun x y hxy t ht => hitem x y t hxy ht.1 ht.2)
      (fun x _ t => hok _) (fun x _ t => hseparator _)
      (fun x _ t => Nat.le_of_add_right_le (length_groupText x t)) hbetween hrest hdone hsize
    exact hall.bind (takes_pure _)

/-- An operand, and operators with an operand each, are read back. -/
theorem chain_reads {ω : Type} {operators : List (String × String × ω)} {symbolOf : ω → String}
    {build : Pipeline → List (ω × Pipeline) → Instruction} {base base' : Pipeline}
    {steps steps' : List (ω × Pipeline)} (belongs : ω → Prop) (hbase : base.ReadAs base')
    (hsteps : List.Forall₂ (Prod.RProd Eq Pipeline.ReadAs) steps steps') (hne : steps ≠ [])
    (hbelongs : ∀ s ∈ steps, belongs s.1)
    (hsymbol : ∀ op, belongs op → ∀ t, AfterOperand after (operatorText (symbolOf op) ('(' :: t)) ∧
      Reads (firstSymbol operators) (stripped (operatorText (symbolOf op) ('(' :: t))) (some op)
        ('(' :: t))
    (hdone : ∀ s ∈ operators, begins s.1 s.2.1 (stripped rest) = false)
    (hsize : (groupText base (steps.foldr
      (fun s t => operatorText (symbolOf s.1) (groupText s.2 t)) rest)).length ≤ size) :
    Reads (chain operators item build)
      (groupText base (steps.foldr (fun s t => operatorText (symbolOf s.1) (groupText s.2 t)) rest))
      [build base' steps'] (stripped rest) := by
  have hok : ∀ s ∈ steps, ∀ t, AfterOperand after (operatorText (symbolOf s.1) (groupText s.2 t)) :=
    fun s hs t => (hsymbol s.1 (hbelongs s hs) _).1
  have htail : AfterOperand after
      (steps.foldr (fun s t => operatorText (symbolOf s.1) (groupText s.2 t)) rest) := by
    cases steps with
    | nil => exact hrest
    | cons s steps => exact hok s List.mem_cons_self _
  have hshort := length_groupText base
    (steps.foldr (fun s t => operatorText (symbolOf s.1) (groupText s.2 t)) rest)
  refine (hitem base base' _ hbase htail.1 htail.2 hsize).bind ?_
  refine Takes.bind (u := stripped rest) (Repeats.many (repeats_related (AfterOperand after)
    (forall₂_imp_of_mem hsteps ?_) hok hrest ?_ (Nat.le_trans (Nat.le_of_add_right_le hshort) hsize)
    ?_)) ?_
  · rintro _ hs _ ⟨⟨⟩, hp⟩ t ht hlength
    refine (hsymbol _ (hbelongs _ hs) _).2.bind
      ((hitem _ _ t hp ht.1 ht.2 ?_).bind (takes_pure _))
    simp only [operatorText, List.length_append, List.length_cons] at hlength ⊢
    omega
  · intro s _ t
    have := length_groupText s.2 t
    simp only [operatorText, List.length_append, List.length_cons] at this ⊢
    omega
  · exact (firstSymbol_miss hdone).bind (takes_pure none)
  · cases hsteps with
    | nil => exact absurd rfl hne
    | cons _ _ => exact takes_pure _

end Joined

/-! ### Up to the level of pipes -/

/-- The instruction is read as the given pipeline where one of a pipeline is looked for. -/
def ReadsBack (inner : Rule) (size : Nat) (i : Instruction) (w : Pipeline) : Prop :=
  ∀ rest, Follows rest → (instructionText i rest).length ≤ size →
    Reads (outputs (attempt inner)) (instructionText i rest) w (stripped rest)

section Levels

variable {inner : Rule} {rest : List Char} (hrest : Follows rest)
include hrest

/-- What one of the levels reads is read where an instruction is looked for, unless it starts with
    a word of a looser level. -/
theorem outputs_of_rung {level : Nat} (hlevel : level ≤ 9) {t : List Char} {p : Pipeline}
    (h : Reads (rung inner level) t p (stripped rest))
    (hnot : level ≤ 4 → Reads (keyword "not") t false t) (htry : Reads (keyword "try") t false t) :
    Reads (outputs (attempt inner)) t p (stripped rest) :=
  outputs_one (attempt_one (climb hlevel (Nat.le_refl 9) h hrest.ends hnot) htry) hrest.no_comma

theorem Bare.outputs {level : Nat} (hlevel : level ≤ 9) {t : List Char} {p : Pipeline}
    (hbare : Bare t) (h : Reads (rung inner level) t p (stripped rest)) :
    Reads (outputs (attempt inner)) t p (stripped rest) :=
  outputs_of_rung hrest hlevel h (fun _ => hbare.no_word "not" rfl) (hbare.no_word "try" rfl)

end Levels

/-! ### Operators one by one -/

theorem arithmeticText_eq (steps : List (ArithmeticOp × Pipeline)) (rest : List Char) :
    arithmeticText steps rest =
      steps.foldr (fun s t => operatorText s.1.symbol (groupText s.2 t)) rest := by
  induction steps with
  | nil => rfl
  | cons s steps ih =>
    rw [List.foldr_cons, ← ih]
    rfl

theorem comparisonText_eq (steps : List (ComparisonOp × Pipeline)) (rest : List Char) :
    comparisonText steps rest =
      steps.foldr (fun s t => operatorText s.1.symbol (groupText s.2 t)) rest := by
  induction steps with
  | nil => rfl
  | cons s steps ih =>
    rw [List.foldr_cons, ← ih]
    rfl

section Operators

variable {inner : Rule} {size : Nat}

theorem negate_readsBack : ReadsBack inner size .negate [.negate] := by
  intro rest hrest _
  have hread : Reads (rung inner 0) ("-.".toList ++ rest) [.negate] (stripped rest) := by
    refine (symbol_hit Apart "-" "=>" (t := '.' :: rest) rfl (by decide) rfl rfl).bind ?_
    exact ((Bare.point rest).conditional (point_reads hrest)).bind (takes_pure _)
  exact outputs_of_rung hrest (Nat.zero_le 9) hread (fun _ => keyword_miss rfl) (keyword_miss rfl)

theorem not_readsBack : ReadsBack inner size .not [.not] := by
  intro rest hrest _
  have hpoint : Reads (rung inner 4) ('.' :: rest) [] (stripped rest) :=
    climb (Nat.zero_le 4) (by decide) ((Bare.point rest).negation (point_reads hrest))
      (ends_mono (by decide) hrest.ends) fun _ => (Bare.point rest).no_word "not" rfl
  have hread : Reads (rung inner 5) ("not .".toList ++ rest) [.not] (stripped rest) := by
    refine (keyword_hit "not" (t := ' ' :: '.' :: rest) rfl rfl rfl).bind ?_
    exact hpoint.bind (takes_pure _)
  exact outputs_of_rung hrest (by decide) hread (fun h => absurd h (by decide)) (keyword_miss rfl)

theorem try_reads (t : List Char) :
    Reads (keyword "try") ("try ".toList ++ '(' :: t) true ('(' :: t) :=
  keyword_hit "try" (t := ' ' :: '(' :: t) rfl rfl rfl

variable (hf : Fluent inner size)
include hf

theorem concat_readsBack {operands operands' : List Pipeline} (hlength : 2 ≤ operands.length)
    (hoperands : List.Forall₂ Pipeline.ReadAs operands operands') :
    ReadsBack inner (size + 1) (.concat operands) [.concat operands'] := by
  intro rest hrest hsize
  refine joined_reads hf.attempt (hrest.afterOperand (Nat.le_refl 9)) hlength hoperands
    (fun t => ⟨rfl, rfl⟩) ?_ (by decide) (symbol_miss hrest.no_comma) hsize
  intro t
  exact symbol_takes Apart "," (t := ' ' :: '(' :: t) rfl (by decide) rfl

theorem coalesce_readsBack {operands operands' : List Pipeline} (hlength : 2 ≤ operands.length)
    (hoperands : List.Forall₂ Pipeline.ReadAs operands operands') :
    ReadsBack inner (size + 1) (.coalesce operands) [.coalesce operands'] := by
  intro rest hrest hsize
  have hdone := hrest.no_joint 1 (by decide)
  have hread : Reads (rung inner 1) (operandsText " ?? " operands rest) [.coalesce operands']
      (stripped rest) := by
    refine joined_reads (hf.rung (Nat.zero_le 9)) (hrest.afterOperand (Nat.zero_le 9)) hlength
      hoperands (fun t => ⟨rfl, rfl⟩) ?_ (by decide) (symbol_miss (hdone _ List.mem_cons_self))
      hsize
    intro t
    exact symbol_takes Apart "??" (t := ' ' :: '(' :: t) rfl (by decide) rfl
  exact (bare_operandsText hlength rest).outputs hrest (by decide) hread

theorem and_readsBack {operands operands' : List Pipeline} (hlength : 2 ≤ operands.length)
    (hoperands : List.Forall₂ Pipeline.ReadAs operands operands') :
    ReadsBack inner (size + 1) (.and operands) [.and operands'] := by
  intro rest hrest hsize
  have hdone := hrest.no_word "and" rfl
  have hread : Reads (rung inner 8) (operandsText " and " operands rest) [.and operands']
      (stripped rest) := by
    refine joined_reads (hf.rung (by decide : 7 ≤ 9)) (hrest.afterOperand (by decide)) hlength
      hoperands (fun t => ⟨rfl, rfl⟩) ?_ (by decide) hdone hsize
    intro t
    exact keyword_hit "and" (t := ' ' :: '(' :: t) rfl rfl rfl
  exact (bare_operandsText hlength rest).outputs hrest (by decide) hread

theorem or_readsBack {operands operands' : List Pipeline} (hlength : 2 ≤ operands.length)
    (hoperands : List.Forall₂ Pipeline.ReadAs operands operands') :
    ReadsBack inner (size + 1) (.or operands) [.or operands'] := by
  intro rest hrest hsize
  have hdone := hrest.no_word "or" rfl
  have hread : Reads (rung inner 9) (operandsText " or " operands rest) [.or operands']
      (stripped rest) := by
    refine joined_reads (hf.rung (by decide : 8 ≤ 9)) (hrest.afterOperand (by decide)) hlength
      hoperands (fun t => ⟨rfl, rfl⟩) ?_ (by decide) hdone hsize
    intro t
    exact keyword_hit "or" (t := ' ' :: '(' :: t) rfl rfl rfl
  exact (bare_operandsText hlength rest).outputs hrest (by decide) hread

theorem calculate_readsBack {base base' : Pipeline} {steps steps' : List (ArithmeticOp × Pipeline)}
    (level : Bool) (hbase : base.ReadAs base') (hne : steps ≠ [])
    (hlevel : ∀ s ∈ steps, s.1.isMultiplicative = level)
    (hsteps : List.Forall₂ (Prod.RProd Eq Pipeline.ReadAs) steps steps') :
    ReadsBack inner (size + 1) (.calculate base steps) [.calculate base' steps'] := by
  intro rest hrest hsize
  have hbare : Bare (groupText base (arithmeticText steps rest)) := .paren _
  have hsize : (groupText base (arithmeticText steps rest)).length ≤ size + 1 := hsize
  show Reads _ (groupText base (arithmeticText steps rest)) _ _
  rw [arithmeticText_eq] at hsize hbare ⊢
  cases level with
  | true =>
    refine hbare.outputs hrest (by decide : 2 ≤ 9) (chain_reads (hf.rung (by decide : 1 ≤ 9))
      (hrest.afterOperand (by decide)) (·.isMultiplicative = true) hbase hsteps hne hlevel ?_ ?_
      hsize)
    · intro op hop t
      cases op with
      | addition | subtraction => cases hop
      | _ => exact ⟨⟨rfl, rfl⟩, fun b _ => ⟨_, .inr rfl, rfl⟩⟩
    · exact not_begins_operators rfl (hrest.no_joint 2 (by decide))
  | false =>
    refine hbare.outputs hrest (by decide : 3 ≤ 9) (chain_reads (hf.rung (by decide : 2 ≤ 9))
      (hrest.afterOperand (by decide)) (·.isMultiplicative = false) hbase hsteps hne hlevel ?_ ?_
      hsize)
    · intro op hop t
      cases op with
      | addition | subtraction => exact ⟨⟨rfl, rfl⟩, fun b _ => ⟨_, .inr rfl, rfl⟩⟩
      | _ => cases hop
    · exact not_begins_operators rfl (hrest.no_joint 3 (by decide))

theorem compare_readsBack {base base' : Pipeline} {steps steps' : List (ComparisonOp × Pipeline)}
    (level : Bool) (hbase : base.ReadAs base') (hne : steps ≠ [])
    (hlevel : ∀ s ∈ steps, s.1.isEquality = level)
    (hsteps : List.Forall₂ (Prod.RProd Eq Pipeline.ReadAs) steps steps') :
    ReadsBack inner (size + 1) (.compare base steps) [.compare base' steps'] := by
  intro rest hrest hsize
  have hbare : Bare (groupText base (comparisonText steps rest)) := .paren _
  have hsize : (groupText base (comparisonText steps rest)).length ≤ size + 1 := hsize
  show Reads _ (groupText base (comparisonText steps rest)) _ _
  rw [comparisonText_eq] at hsize hbare ⊢
  cases level with
  | true =>
    refine hbare.outputs hrest (by decide : 7 ≤ 9) (chain_reads (hf.rung (by decide : 6 ≤ 9))
      (hrest.afterOperand (by decide)) (·.isEquality = true) hbase hsteps hne hlevel ?_ ?_ hsize)
    · intro op hop t
      cases op with
      | equal | unequal => exact ⟨⟨rfl, rfl⟩, fun b _ => ⟨_, .inr rfl, rfl⟩⟩
      | _ => cases hop
    · exact not_begins_operators rfl (hrest.no_joint 7 (by decide))
  | false =>
    refine hbare.outputs hrest (by decide : 6 ≤ 9) (chain_reads (hf.rung (by decide : 5 ≤ 9))
      (hrest.afterOperand (by decide)) (·.isEquality = false) hbase hsteps hne hlevel ?_ ?_ hsize)
    · intro op hop t
      cases op with
      | equal | unequal => cases hop
      | _ => exact ⟨⟨rfl, rfl⟩, fun b _ => ⟨_, .inr rfl, rfl⟩⟩
    · exact not_begins_operators rfl (hrest.no_joint 6 (by decide))

/-- `try` without a handler. -/
theorem suppress_readsBack {body body' : Pipeline} (hbody : body.ReadAs body') :
    ReadsBack inner (size + 1) (.attempt body [.void]) [.attempt body' [.void]] := by
  intro rest hrest hsize
  have hsize : ("try ".toList ++ groupText body rest).length ≤ size + 1 := hsize
  rw [List.length_append] at hsize
  have hbody := hf.rung (Nat.le_refl 9) body body' rest hbody hrest.isTidy hrest.ends
    (Nat.le_of_add_left_le hsize)
  have hmiss := hrest.no_word "catch" rfl
  exact outputs_one ((try_reads _).bind (hbody.bind (hmiss.bind (takes_pure _)))) hrest.no_comma

/-- `try` with a handler. -/
theorem attempt_readsBack {body body' handler handler' : Pipeline} (hvoid : handler ≠ [.void])
    (hbody : body.ReadAs body') (hhandler : handler.ReadAs handler') :
    ReadsBack inner (size + 1) (.attempt body handler) [.attempt body' handler'] := by
  intro rest hrest hsize
  have hgroup := hf.rung (Nat.le_refl 9)
  have htext : instructionText (.attempt body handler) rest =
      "try ".toList ++ groupText body (" catch ".toList ++ groupText handler rest) := by
    rcases instructionText_attempt body handler with ⟨rfl, _⟩ | ⟨_, htext⟩
    · exact absurd rfl hvoid
    · exact congrFun htext rest
  rw [htext] at hsize ⊢
  have hshort := length_groupText body (" catch ".toList ++ groupText handler rest)
  rw [List.length_append] at hsize hshort
  have hbody := hgroup body body' (" catch ".toList ++ groupText handler rest) hbody rfl rfl
    (by omega)
  have hhandler := hgroup handler handler' rest hhandler hrest.isTidy hrest.ends (by omega)
  have hcatch : Reads (keyword "catch") ("catch ".toList ++ groupText handler rest) true
      (groupText handler rest) :=
    keyword_hit "catch" (t := ' ' :: groupText handler rest) rfl rfl rfl
  exact outputs_one ((try_reads _).bind (hbody.bind (hcatch.bind (hhandler.bind (takes_pure _)))))
    hrest.no_comma

end Operators

end JsonPipe.Source
