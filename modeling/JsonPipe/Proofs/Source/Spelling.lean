import JsonPipe.Proofs.Source.Rereading

/-! What the text of a program looks like.

    The text of a part is written in front of the text that comes after it (`Fronts`), so it is
    never shorter than that, and it starts with a character that opens an expression, so nothing at
    its start is taken for trivia or for a closing bracket. -/

namespace JsonPipe.Source

open Reader

/-! ### Writing in front -/

/-- Some text is written in front of what comes after it, the same whatever that is. -/
def Fronts (f : List Char → List Char) : Prop := ∀ rest, f rest = f [] ++ rest

theorem fronts_id : Fronts fun rest => rest := fun _ => rfl

theorem fronts_append (s : List Char) : Fronts (s ++ ·) := fun rest => by simp

theorem fronts_cons (c : Char) : Fronts (c :: ·) := fun _ => rfl

theorem Fronts.comp {f g : List Char → List Char} (hf : Fronts f) (hg : Fronts g) :
    Fronts fun rest => f (g rest) := by
  intro rest
  show f (g rest) = f (g []) ++ rest
  rw [hf (g rest), hf (g []), hg rest, List.append_assoc]

theorem Fronts.length_le {f : List Char → List Char} (hf : Fronts f) (rest : List Char) :
    rest.length ≤ (f rest).length := by
  rw [hf rest, List.length_append]
  exact Nat.le_add_left _ _

/-- What is in front of a text that is written in front. -/
theorem Fronts.of_append {f : List Char → List Char} {s : List Char}
    (h : Fronts fun rest => s ++ f rest) : Fronts f := by
  intro rest
  have hrest := h rest
  simpa using hrest

theorem markText_fronts (optional : Bool) : Fronts (markText optional) := by
  cases optional with
  | false => exact fronts_id
  | true => exact fronts_cons '?'

theorem operatorText_fronts (symbol : String) : Fronts (operatorText symbol) := by
  intro rest
  simp [operatorText]

theorem paramsText_fronts (names : List String) : Fronts (paramsText names) := by
  induction names with
  | nil => exact fronts_id
  | cons name more ih =>
    cases more with
    | nil => exact fronts_append name.toList
    | cons next more => exact (fronts_append (name.toList ++ ", ".toList)).comp ih

theorem headText_fronts (name : String) (params : List String) : Fronts (headText name params) :=
  (fronts_append ("func ".toList ++ name.toList)).comp ((fronts_cons '(').comp
    ((paramsText_fronts params).comp (fronts_append "): ".toList)))

/-- Text in parentheses. -/
theorem Fronts.group {f : List Char → List Char} (hf : Fronts f) :
    Fronts fun rest => '(' :: f (')' :: rest) :=
  (fronts_cons '(').comp (hf.comp (fronts_cons ')'))

/-! ### Texts that depend on what is in them -/

/-- A definition is written as a function, as an assignment to its own variable or with its body in
    parentheses. -/
theorem instructionText_define (name : String) (body : Pipeline) :
    (∃ params b, body = [.function params b] ∧ instructionText (.define name body) =
      fun rest => headText name params ('(' :: pipelineText b (')' :: rest))) ∨
    (∃ path op value, body = [.assign [.variable name] path op value] ∧
      ¬ (path = [] ∧ op = .set) ∧ instructionText (.define name body) = fun rest =>
        name.toList ++
          pathText path (operatorText op.symbol ('(' :: pipelineText value (')' :: rest)))) ∨
    instructionText (.define name body) =
      fun rest => name.toList ++ " = (".toList ++ pipelineText body (')' :: rest) := by
  cases body with
  | nil => exact .inr (.inr rfl)
  | cons i more =>
    cases i with
    | function params b =>
      cases more with
      | nil => exact .inl ⟨params, b, rfl, rfl⟩
      | cons j more => exact .inr (.inr rfl)
    | assign base path op value =>
      cases base with
      | nil => exact .inr (.inr rfl)
      | cons b base =>
        cases b with
        | «variable» v =>
          cases base with
          | cons c base => exact .inr (.inr rfl)
          | nil =>
            cases more with
            | cons j more => exact .inr (.inr rfl)
            | nil =>
              by_cases h : v = name ∧ ¬ (path.isEmpty ∧ op = .set)
              · refine .inr (.inl ⟨path, op, value, by rw [h.1], ?_, ?_⟩)
                · simpa using h.2
                · funext rest
                  exact if_pos h
              · refine .inr (.inr ?_)
                funext rest
                refine (if_neg h).trans ?_
                show _ = name.toList ++ " = (".toList ++ ('(' :: (v.toList ++ ')' :: pathText path
                  (operatorText op.symbol ('(' :: pipelineText value (')' :: ')' :: rest)))))
                simp
        | _ => exact .inr (.inr rfl)
    | _ => exact .inr (.inr rfl)

theorem instructionText_attempt (body handler : Pipeline) :
    (handler = [.void] ∧ instructionText (.attempt body handler) =
      fun rest => "try (".toList ++ pipelineText body (')' :: rest)) ∨
    handler ≠ [.void] ∧ instructionText (.attempt body handler) = fun rest =>
      "try (".toList ++
        pipelineText body (") catch (".toList ++ pipelineText handler (')' :: rest)) := by
  cases handler with
  | nil => exact .inr ⟨by simp, rfl⟩
  | cons i more =>
    cases i with
    | void =>
      cases more with
      | nil => exact .inl ⟨rfl, rfl⟩
      | cons j more => exact .inr ⟨by simp, rfl⟩
    | _ => exact .inr ⟨by simp, rfl⟩

theorem instructionText_array (body : Pipeline) :
    (body = [.void] ∧ instructionText (.array body) = fun rest => "[]".toList ++ rest) ∨
    body ≠ [.void] ∧
      instructionText (.array body) = fun rest => '[' :: pipelineText body (']' :: rest) := by
  cases body with
  | nil => exact .inr ⟨by simp, rfl⟩
  | cons i more =>
    cases i with
    | void =>
      cases more with
      | nil => exact .inl ⟨rfl, rfl⟩
      | cons j more => exact .inr ⟨by simp, rfl⟩
    | _ => exact .inr ⟨by simp, rfl⟩

/-! ### All texts are written in front -/

mutual

theorem pipelineText_fronts (p : List Instruction) : Fronts (pipelineText p) := by
  match p with
  | [] => exact fronts_cons '.'
  | [i] => exact instructionText_fronts i
  | i :: j :: more =>
    exact (instructionText_fronts i).comp
      ((fronts_append " | ".toList).comp (pipelineText_fronts (j :: more)))
termination_by structural p

theorem instructionText_fronts (i : Instruction) : Fronts (instructionText i) := by
  match i with
  | .null => exact fronts_append "null".toList
  | .bool true => exact fronts_append "true".toList
  | .bool false => exact fronts_append "false".toList
  | .number n => exact fronts_append (numberText n)
  | .string s =>
    exact (fronts_cons '"').comp ((fronts_append (stringText s)).comp (fronts_cons '"'))
  | .interpolated parts after =>
    exact (fronts_cons '"').comp ((partsText_fronts parts).comp
      ((fronts_append (stringText after)).comp (fronts_cons '"')))
  | .variable name => exact fronts_append name.toList
  | .define name body =>
    have hbody := pipelineText_fronts body
    rcases instructionText_define name body with
      ⟨params, b, rfl, h⟩ | ⟨path, op, value, rfl, _, h⟩ | h
    · rw [h]
      have hafter : Fronts fun rest =>
          '(' :: paramsText params ("): ".toList ++ '(' :: pipelineText b (')' :: rest)) :=
        Fronts.of_append (s := "func ".toList) hbody
      exact (fronts_append ("func ".toList ++ name.toList)).comp hafter
    · rw [h]
      have hafter : Fronts fun rest =>
          pathText path (operatorText op.symbol ('(' :: pipelineText value (')' :: rest))) := by
        have happend : Fronts fun rest => '(' :: (name.toList ++ ')' ::
            pathText path (operatorText op.symbol ('(' :: pipelineText value (')' :: rest)))) :=
          hbody
        refine Fronts.of_append (s := '(' :: name.toList ++ [')']) ?_
        simpa using happend
      exact (fronts_append name.toList).comp hafter
    · rw [h]
      exact (fronts_append (name.toList ++ " = (".toList)).comp (hbody.comp (fronts_cons ')'))
  | .function params body =>
    exact (headText_fronts "" params).comp (pipelineText_fronts body).group
  | .access [] path => exact (fronts_cons '.').comp (pathText_fronts path)
  | .access (b :: base) path =>
    exact (pipelineText_fronts (b :: base)).group.comp (pathText_fronts path)
  | .assign [] path op value =>
    exact (fronts_cons '.').comp ((pathText_fronts path).comp
      ((operatorText_fronts op.symbol).comp (pipelineText_fronts value).group))
  | .assign (b :: base) path op value =>
    exact (pipelineText_fronts (b :: base)).group.comp ((pathText_fronts path).comp
      ((operatorText_fronts op.symbol).comp (pipelineText_fronts value).group))
  | .calculate base steps =>
    exact (pipelineText_fronts base).group.comp (arithmeticText_fronts steps)
  | .compare base steps => exact (pipelineText_fronts base).group.comp (comparisonText_fronts steps)
  | .branch arms none => exact (armsText_fronts "if " arms).comp (fronts_append " end".toList)
  | .branch arms (some p) =>
    exact (armsText_fronts "if " arms).comp ((fronts_append " else (".toList).comp
      ((pipelineText_fronts p).comp (fronts_append ") end".toList)))
  | .and operands => exact operandsText_fronts " and " operands
  | .or operands => exact operandsText_fronts " or " operands
  | .coalesce operands => exact operandsText_fronts " ?? " operands
  | .concat operands => exact operandsText_fronts ", " operands
  | .negate => exact fronts_append "-.".toList
  | .not => exact fronts_append "not .".toList
  | .attempt body handler =>
    have hbody := pipelineText_fronts body
    have hhandler := pipelineText_fronts handler
    rcases instructionText_attempt body handler with ⟨_, h⟩ | ⟨_, h⟩
    · rw [h]
      exact (fronts_append "try (".toList).comp (hbody.comp (fronts_cons ')'))
    · rw [h]
      exact (fronts_append "try (".toList).comp (hbody.comp
        ((fronts_append ") catch (".toList).comp (hhandler.comp (fronts_cons ')'))))
  | .array body =>
    have hbody := pipelineText_fronts body
    rcases instructionText_array body with ⟨_, h⟩ | ⟨_, h⟩
    · rw [h]
      exact fronts_append "[]".toList
    · rw [h]
      exact (fronts_cons '[').comp (hbody.comp (fronts_cons ']'))
  | .object fields =>
    exact (fronts_cons '\x7b').comp ((fieldsText_fronts fields).comp (fronts_cons '\x7d'))
  | .void => exact fronts_append "[][]".toList
termination_by structural i

theorem operandsText_fronts (separator : String) (operands : List (List Instruction)) :
    Fronts (operandsText separator operands) := by
  match operands with
  | [] => exact fronts_id
  | [p] => exact (pipelineText_fronts p).group
  | p :: q :: more =>
    exact (pipelineText_fronts p).group.comp
      ((fronts_append separator.toList).comp (operandsText_fronts separator (q :: more)))
termination_by structural operands

theorem partsText_fronts (parts : List (String × List Instruction)) : Fronts (partsText parts) := by
  match parts with
  | [] => exact fronts_id
  | (before, p) :: more =>
    exact (fronts_append (stringText before)).comp ((fronts_cons '\\').comp
      ((pipelineText_fronts p).group.comp (partsText_fronts more)))
termination_by structural parts

theorem pathText_fronts (path : List (Selector (List Instruction))) : Fronts (pathText path) := by
  match path with
  | [] => exact fronts_id
  | .field key optional :: more =>
    exact (fronts_append "[(".toList).comp ((pipelineText_fronts key).comp
      ((fronts_append ")]".toList).comp ((markText_fronts optional).comp (pathText_fronts more))))
  | .iterate optional :: more =>
    exact (fronts_append "[]".toList).comp ((markText_fronts optional).comp (pathText_fronts more))
  | .slice start stop optional :: more =>
    exact (fronts_append "[(".toList).comp ((pipelineText_fronts start).comp
      ((fronts_append "):(".toList).comp ((pipelineText_fronts stop).comp
        ((fronts_append ")]".toList).comp
          ((markText_fronts optional).comp (pathText_fronts more))))))
  | .call args bound optional :: more =>
    exact (fronts_append (if bound then "->(".toList else "(".toList)).comp
      ((operandsText_fronts ", " args).comp ((fronts_cons ')').comp
        ((markText_fronts optional).comp (pathText_fronts more))))
termination_by structural path

theorem arithmeticText_fronts (steps : List (ArithmeticOp × List Instruction)) :
    Fronts (arithmeticText steps) := by
  match steps with
  | [] => exact fronts_id
  | (op, p) :: more =>
    exact (operatorText_fronts op.symbol).comp
      ((pipelineText_fronts p).group.comp (arithmeticText_fronts more))
termination_by structural steps

theorem comparisonText_fronts (steps : List (ComparisonOp × List Instruction)) :
    Fronts (comparisonText steps) := by
  match steps with
  | [] => exact fronts_id
  | (op, p) :: more =>
    exact (operatorText_fronts op.symbol).comp
      ((pipelineText_fronts p).group.comp (comparisonText_fronts more))
termination_by structural steps

theorem armsText_fronts (lead : String) (arms : List (List Instruction × List Instruction)) :
    Fronts (armsText lead arms) := by
  match arms with
  | [] => exact fronts_id
  | (condition, body) :: more =>
    exact (fronts_append lead.toList).comp ((fronts_cons '(').comp
      ((pipelineText_fronts condition).comp ((fronts_append ") then (".toList).comp
        ((pipelineText_fronts body).comp
          ((fronts_cons ')').comp (armsText_fronts " elif " more))))))
termination_by structural arms

theorem fieldsText_fronts (fields : List (Field (List Instruction))) :
    Fronts (fieldsText fields) := by
  match fields with
  | [] => exact fronts_id
  | [⟨key, value, optional⟩] =>
    exact (pipelineText_fronts key).group.comp ((markText_fronts optional).comp
      ((fronts_append ": (".toList).comp ((pipelineText_fronts value).comp (fronts_cons ')'))))
  | ⟨key, value, optional⟩ :: next :: more =>
    exact (pipelineText_fronts key).group.comp ((markText_fronts optional).comp
      ((fronts_append ": (".toList).comp ((pipelineText_fronts value).comp
        ((fronts_append ")".toList).comp
          ((fronts_append ", ".toList).comp (fieldsText_fronts (next :: more)))))))
termination_by structural fields

end

/-! ### First characters -/

/-- The text starts with a character that an expression can start with. -/
def opens : List Char → Bool
  | [] => false
  | c :: _ => isNameChar c || ['.', '"', '(', '-', '[', '\x7b'].contains c

theorem toNat_of_isAlpha {c : Char} (h : c.isAlpha = true) : 65 ≤ c.toNat ∧ c.toNat ≤ 122 := by
  have hletter : (c.isUpper || c.isLower) = true := h
  rw [Bool.or_eq_true] at hletter
  rcases hletter with hupper | hlower
  · obtain ⟨hlow, hhigh⟩ : 'A'.toNat ≤ c.toNat ∧ c.toNat ≤ 'Z'.toNat := of_decide_eq_true hupper
    exact ⟨hlow, Nat.le_trans hhigh (by decide)⟩
  · rw [show c.isLower = (decide (c.val ≥ 'a'.val) && decide (c.val ≤ 'z'.val)) from rfl,
      Bool.and_eq_true, decide_eq_true_iff, decide_eq_true_iff] at hlower
    exact ⟨Nat.le_trans (by decide) hlower.1, hlower.2⟩

theorem toNat_of_isNameChar {c : Char} (h : isNameChar c = true) :
    48 ≤ c.toNat ∧ c.toNat ≤ 122 := by
  rw [isNameChar, Char.isAlphanum, Bool.or_eq_true, Bool.or_eq_true, beq_iff_eq] at h
  rcases h with (halpha | hdigit) | rfl
  · obtain ⟨hlow, hhigh⟩ := toNat_of_isAlpha halpha
    exact ⟨by omega, hhigh⟩
  · obtain ⟨hlow, hhigh⟩ := Char.isDigit_iff_toNat.1 hdigit
    exact ⟨hlow, Nat.le_trans hhigh (by decide)⟩
  · decide

/-- What opens an expression is no trivia and no closing bracket. -/
theorem opens_cons {t : List Char} (h : opens t = true) :
    ∃ c t', t = c :: t' ∧ 34 ≤ c.toNat ∧ c.toNat ≤ 123 ∧ c ≠ '#' ∧ c ≠ '/' ∧ c ≠ ']' := by
  cases t with
  | nil => cases h
  | cons c t =>
    refine ⟨c, t, rfl, ?_⟩
    rw [opens, Bool.or_eq_true] at h
    rcases h with h | h
    · obtain ⟨hlow, hhigh⟩ := toNat_of_isNameChar h
      refine ⟨by omega, by omega, ?_, ?_, ?_⟩ <;> rintro rfl <;> simp at *
      cases h
    · simp only [List.contains_eq_mem, List.mem_cons, List.not_mem_nil, or_false,
        decide_eq_true_eq] at h
      rcases h with rfl | rfl | rfl | rfl | rfl | rfl <;> decide

theorem isSolid_of_opens {t : List Char} (h : opens t = true) : isSolid t = true := by
  obtain ⟨c, t, rfl, hlow, hhigh, hhash, hslash, _⟩ := opens_cons h
  have hblank : Text.isBlank c = false := by
    simp only [Text.isBlank, Text.blankRanges, List.any_cons, List.any_nil, Bool.or_false,
      Bool.or_eq_false_iff, Bool.and_eq_false_iff, decide_eq_false_iff_not]
    omega
  unfold isSolid
  split
  · next heq => exact absurd (List.cons.inj heq).1 hslash
  · next heq => exact absurd (List.cons.inj heq).1 hhash
  · next heq => rw [← (List.cons.inj heq).1, hblank, Bool.not_false]
  · rfl

theorem stripped_of_opens {t : List Char} (h : opens t = true) : stripped t = t := by
  obtain ⟨c, t, rfl, hlow, _⟩ := opens_cons h
  unfold stripped
  split
  · next heq =>
    rw [(List.cons.inj heq).1] at hlow
    exact absurd hlow (by decide)
  · rfl

theorem isTidy_of_opens {t : List Char} (h : opens t = true) : isTidy t = true := by
  rw [isTidy, stripped_of_opens h]
  exact isSolid_of_opens h

theorem opens_name {name : String} (h : IsVariableName name) (rest : List Char) :
    opens (name.toList ++ rest) = true := by
  have hstart := h.starts
  cases hname : name.toList with
  | nil => rw [hname] at hstart; cases hstart
  | cons c cs =>
    have hchar := h.chars c (by rw [hname]; exact List.mem_cons_self)
    rw [List.cons_append, opens, hchar, Bool.true_or]

/-- The text of a number starts with a digit. -/
theorem numberText_cons {n : Number} (h : IsLiteral n) :
    ∃ c cs, numberText n = c :: cs ∧ c.isDigit = true := by
  cases h with
  | infinite => exact ⟨'1', "e999".toList, rfl, rfl⟩
  | finite m => exact (numberText_spells m).cons

theorem opens_numberText (n : Number) (rest : List Char) :
    opens (numberText n ++ rest) = true := by
  match n with
  | .nan | .infinite false | .infinite true | .finite true m => rfl
  | .finite false m =>
    obtain ⟨c, cs, heq, hdigit⟩ := numberText_cons (.finite m)
    rw [heq, List.cons_append, opens, isNameChar_of_isDigit c hdigit, Bool.true_or]

theorem opens_operandsText {separator : String} {operands : List Pipeline} (h : operands ≠ [])
    (rest : List Char) : opens (operandsText separator operands rest) = true := by
  match operands with
  | [] => exact absurd rfl h
  | [p] => rfl
  | p :: q :: more => rfl

theorem opens_instructionText {i : Instruction} {w : Pipeline} (h : i.ReadAs w)
    (rest : List Char) : opens (instructionText i rest) = true := by
  have hdefine : ∀ {name : String}, IsVariableName name → ∀ body : Pipeline,
      opens (instructionText (.define name body) rest) = true := by
    intro name hname body
    rcases instructionText_define name body with ⟨_, _, _, h⟩ | ⟨_, _, _, _, _, h⟩ | h
    · rw [h]
      rfl
    · rw [h]
      exact opens_name hname _
    · rw [h]
      simp only [List.append_assoc]
      exact opens_name hname _
  have hoperands : ∀ {operands : List Pipeline}, 2 ≤ operands.length → operands ≠ [] := by
    rintro operands hlength rfl
    cases hlength
  cases h with
  | number n => exact opens_numberText n rest
  | void | emptyArray | suppress => rfl
  | redefine hname hop hvalue => exact hdefine hname _
  | regular hi _ =>
    cases hi with
    | bool b => cases b <;> rfl
    | number hn => exact opens_numberText _ rest
    | «variable» hname => exact opens_name hname rest
    | define body hname => exact hdefine hname body
    | access base => cases base <;> rfl
    | assign base => cases base <;> rfl
    | @branch arms otherwise hne =>
      match arms with
      | [] => exact absurd rfl hne
      | arm :: more => cases otherwise <;> rfl
    | and hlength => exact opens_operandsText (hoperands hlength) rest
    | or hlength => exact opens_operandsText (hoperands hlength) rest
    | coalesce hlength => exact opens_operandsText (hoperands hlength) rest
    | concat hlength => exact opens_operandsText (hoperands hlength) rest
    | @attempt body handler =>
      rcases instructionText_attempt body handler with ⟨_, h⟩ | ⟨_, h⟩ <;> rw [h] <;> rfl
    | @array body =>
      rcases instructionText_array body with ⟨_, h⟩ | ⟨_, h⟩ <;> rw [h] <;> rfl
    | _ => rfl

theorem opens_pipelineText {p q : Pipeline} (h : p.ReadAs q) (rest : List Char) :
    opens (pipelineText p rest) = true := by
  match h with
  | .nil => rfl
  | .cons hi .nil => exact opens_instructionText hi rest
  | .cons hi (.cons _ _) => exact opens_instructionText hi _

end JsonPipe.Source
