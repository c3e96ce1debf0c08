import JsonPipe.Proofs.Source.Composition
import JsonPipe.Proofs.Source.Operators

/-! The table of binary operators.

    Operands in parentheses with binary operators in between stand for the tree that the table of
    levels fixes: the expression is cut at the operators of the loosest level that occurs, the parts
    become the operands of one instruction, and the parts are cut at tighter levels
    (`Expression.tree`). The parser gets there from the other end, each level of the grammar taking
    as much as it can; both meet level by level (`expression_reads`). -/

namespace JsonPipe

/-- The operators that stand between two operands. -/
inductive BinaryOp where
  | or
  | and
  | comparison (op : ComparisonOp)
  | arithmetic (op : ArithmeticOp)
  | coalesce
  deriving DecidableEq, Repr

namespace BinaryOp

/-- How the operator is written. -/
def symbol : BinaryOp → String
  | .or => "or"
  | .and => "and"
  | .comparison op => op.symbol
  | .arithmetic op => op.symbol
  | .coalesce => "??"

/-- The level of the operator, from one for the tightest to seven for the loosest. -/
def level : BinaryOp → Nat
  | .coalesce => 1
  | .arithmetic op => if op.isMultiplicative then 2 else 3
  | .comparison op => if op.isEquality then 5 else 4
  | .and => 6
  | .or => 7

/-- The comparison that the operator is, if it is one. -/
def comparison? : BinaryOp → Option ComparisonOp
  | .comparison op => some op
  | _ => none

/-- The arithmetic operator that the operator is, if it is one. -/
def arithmetic? : BinaryOp → Option ArithmeticOp
  | .arithmetic op => some op
  | _ => none

/-- There are seven levels. -/
theorem level_bounds (op : BinaryOp) : 1 ≤ op.level ∧ op.level ≤ 7 := by
  cases op with
  | comparison op => cases op <;> decide
  | arithmetic op => cases op <;> decide
  | _ => decide

theorem kind_of_level (op : BinaryOp) :
    match op.level with
    | 1 => op = .coalesce
    | 2 => ∃ a, op = .arithmetic a ∧ a.isMultiplicative = true
    | 3 => ∃ a, op = .arithmetic a ∧ a.isMultiplicative = false
    | 4 => ∃ c, op = .comparison c ∧ c.isEquality = false
    | 5 => ∃ c, op = .comparison c ∧ c.isEquality = true
    | 6 => op = .and
    | _ => op = .or := by
  cases op with
  | arithmetic a => cases a <;> exact ⟨_, rfl, rfl⟩
  | comparison c => cases c <;> exact ⟨_, rfl, rfl⟩
  | _ => rfl

end BinaryOp

/-- Operands with operators in between. -/
structure Expression (α : Type) where
  first : α
  steps : List (BinaryOp × α)

/-- The operands of an instruction for operators, with the operators in between. -/
def Instruction.expression? : Instruction → Option (Expression Pipeline)
  | .or (first :: more) => some ⟨first, more.map fun p => (.or, p)⟩
  | .and (first :: more) => some ⟨first, more.map fun p => (.and, p)⟩
  | .coalesce (first :: more) => some ⟨first, more.map fun p => (.coalesce, p)⟩
  | .compare first steps => some ⟨first, steps.map fun s => (.comparison s.1, s.2)⟩
  | .calculate first steps => some ⟨first, steps.map fun s => (.arithmetic s.1, s.2)⟩
  | _ => none

namespace Expression

variable {α β : Type}

/-- The operands, from left to right. -/
def operands (e : Expression α) : List α := e.first :: e.steps.map (·.2)

def map (f : α → β) (e : Expression α) : Expression β :=
  ⟨f e.first, e.steps.map fun s => (s.1, f s.2)⟩

/-- An operand with what follows, cut at the operators of a level. -/
def cutFrom (level : Nat) : α → List (BinaryOp × α) → Expression (Expression α)
  | first, [] => ⟨⟨first, []⟩, []⟩
  | first, (op, x) :: steps =>
    let rest := cutFrom level x steps
    if op.level = level then ⟨⟨first, []⟩, (op, rest.first) :: rest.steps⟩
    else ⟨⟨first, (op, rest.first.first) :: rest.first.steps⟩, rest.steps⟩

/-- The parts between the operators of a level, with these operators in between. -/
def cut (level : Nat) (e : Expression α) : Expression (Expression α) := cutFrom level e.first e.steps

/-- The parts and the operators between them, one after the other. -/
def glue (k : Expression (Expression α)) : Expression α :=
  ⟨k.first.first, k.first.steps ++ k.steps.flatMap fun s => (s.1, s.2.first) :: s.2.steps⟩

/-- Operands with operators of one level in between as one instruction; an operand alone stays as it
    is. -/
def combine : Expression Pipeline → Pipeline
  | ⟨first, []⟩ => first
  | ⟨first, (op, second) :: more⟩ =>
    let steps := (op, second) :: more
    let operands := first :: steps.map (·.2)
    match op with
    | .or => [.or operands]
    | .and => [.and operands]
    | .coalesce => [.coalesce operands]
    | .comparison _ =>
      [.compare first (steps.filterMap fun s => s.1.comparison?.map (·, s.2))]
    | .arithmetic _ =>
      [.calculate first (steps.filterMap fun s => s.1.arithmetic?.map (·, s.2))]

/-- The tree of an expression with operators up to a level, which is cut at the loosest of them
    first. Where none of a level occurs there is nothing to cut. -/
def treeUpTo : Nat → Expression Pipeline → Pipeline
  | 0, e => e.first
  | level + 1, e => combine ((e.cut (level + 1)).map (treeUpTo level))

/-- The tree that the table of operators fixes. -/
def tree (e : Expression Pipeline) : Pipeline := e.treeUpTo 7

/-- The loosest level that occurs, or zero. -/
def loosest (e : Expression α) : Nat := e.steps.foldr (fun s n => max s.1.level n) 0

/-- The parts of an expression between the operators of the loosest level that occurs, all of
    them. -/
structure Splits (e : Expression α) (parts : Expression (Expression α)) : Prop where
  glue_eq : parts.glue = e
  steps_ne_nil : parts.steps ≠ []
  level_eq : ∀ s ∈ parts.steps, s.1.level = e.loosest
  level_lt : ∀ part ∈ parts.operands, ∀ s ∈ part.steps, s.1.level < e.loosest

/-! ### Cutting -/

/-- Nothing is lost, doubled or moved by a cut. -/
theorem glue_cut (level : Nat) (e : Expression α) : (e.cut level).glue = e := by
  obtain ⟨first, steps⟩ := e
  rw [cut]
  induction steps generalizing first with
  | nil => rfl
  | cons s steps ih =>
    obtain ⟨hfirst, hsteps⟩ := mk.inj (ih s.2)
    simp only [cutFrom]
    split
    · simp only [glue, List.flatMap_cons, List.nil_append, List.cons_append, hfirst, hsteps]
    · simp only [glue, List.cons_append, hfirst, hsteps]

/-- The operators between the parts are those of the level. -/
theorem level_of_mem_cut {level : Nat} {e : Expression α} {s : BinaryOp × Expression α}
    (hs : s ∈ (e.cut level).steps) : s.1.level = level := by
  obtain ⟨first, steps⟩ := e
  rw [cut] at hs
  induction steps generalizing first with
  | nil => cases hs
  | cons t steps ih =>
    simp only [cutFrom] at hs
    split at hs
    · next hlevel =>
      rcases List.mem_cons.1 hs with rfl | hs
      · exact hlevel
      · exact ih t.2 hs
    · exact ih t.2 hs

/-- The operators in a part are those of the other levels that the expression has. -/
theorem mem_of_mem_part {level : Nat} {e part : Expression α} {s : BinaryOp × α}
    (hpart : part ∈ (e.cut level).operands) (hs : s ∈ part.steps) :
    s ∈ e.steps ∧ s.1.level ≠ level := by
  obtain ⟨first, steps⟩ := e
  rw [cut] at hpart
  induction steps generalizing first part with
  | nil =>
    rw [List.mem_singleton.1 hpart] at hs
    cases hs
  | cons t steps ih =>
    have hfirst : (cutFrom level t.2 steps).first.first = t.2 :=
      (mk.inj (glue_cut level ⟨t.2, steps⟩)).1
    simp only [cutFrom, hfirst] at hpart
    split at hpart
    · rcases List.mem_cons.1 hpart with rfl | hpart
      · cases hs
      · exact (ih hs t.2 hpart).imp_left (List.mem_cons_of_mem t)
    · next hlevel =>
      rcases List.mem_cons.1 hpart with rfl | hpart
      · rcases List.mem_cons.1 hs with rfl | hs
        · exact ⟨List.mem_cons_self, hlevel⟩
        · exact (ih hs t.2 List.mem_cons_self).imp_left (List.mem_cons_of_mem t)
      · exact (ih hs t.2 (List.mem_cons_of_mem _ hpart)).imp_left (List.mem_cons_of_mem t)

theorem operands_glue (k : Expression (Expression α)) :
    k.glue.operands = k.operands.flatMap operands := by
  simp [glue, operands, List.map_flatMap, List.flatMap_map]

theorem mem_operands_of_part {level : Nat} {e part : Expression α} {x : α}
    (hpart : part ∈ (e.cut level).operands) (hx : x ∈ part.operands) : x ∈ e.operands := by
  rw [← glue_cut level e, operands_glue]
  exact List.mem_flatMap.2 ⟨part, hpart, hx⟩

theorem map_map {γ : Type} (f : α → β) (g : β → γ) (e : Expression α) :
    (e.map f).map g = e.map fun x => g (f x) := by
  simp [map, Function.comp_def]

theorem cut_map (f : α → β) (level : Nat) (e : Expression α) :
    (e.map f).cut level = (e.cut level).map (map f) := by
  obtain ⟨first, steps⟩ := e
  rw [cut, cut]
  induction steps generalizing first with
  | nil => rfl
  | cons s steps ih =>
    have hrest := ih s.2
    simp only [map, List.map_cons, cutFrom] at hrest ⊢
    rw [hrest]
    split <;> rfl

theorem map_congr {f g : α → β} {e : Expression α} (h : ∀ x ∈ e.operands, f x = g x) :
    e.map f = e.map g := by
  obtain ⟨hfirst, hsteps⟩ := List.forall_mem_cons.1 h
  have heq : e.steps.map (fun s => (s.1, f s.2)) = e.steps.map fun s => (s.1, g s.2) :=
    List.map_congr_left fun s hs => by rw [hsteps s.2 (List.mem_map_of_mem hs)]
  rw [map, map, hfirst, heq]

/-! ### The loosest level -/

theorem level_le_loosest {e : Expression α} {s : BinaryOp × α} (hs : s ∈ e.steps) :
    s.1.level ≤ e.loosest := by
  obtain ⟨first, steps⟩ := e
  induction steps with
  | nil => cases hs
  | cons t steps ih =>
    rcases List.mem_cons.1 hs with rfl | hs
    · exact Nat.le_max_left _ _
    · exact Nat.le_trans (ih hs) (Nat.le_max_right _ _)

theorem loosest_le {e : Expression α} {level : Nat} (h : ∀ s ∈ e.steps, s.1.level ≤ level) :
    e.loosest ≤ level := by
  obtain ⟨first, steps⟩ := e
  induction steps with
  | nil => exact Nat.zero_le _
  | cons t steps ih =>
    obtain ⟨ht, hsteps⟩ := List.forall_mem_cons.1 h
    exact Nat.max_le.2 ⟨ht, ih hsteps⟩

/-- Where no operator of a level occurs there is nothing to cut. -/
theorem cut_of_forall_ne {level : Nat} {e : Expression α} (h : ∀ s ∈ e.steps, s.1.level ≠ level) :
    e.cut level = ⟨e, []⟩ := by
  obtain ⟨first, steps⟩ := e
  rw [cut]
  induction steps generalizing first with
  | nil => rfl
  | cons s steps ih =>
    obtain ⟨hs, hsteps⟩ := List.forall_mem_cons.1 h
    have hrest := ih s.2 hsteps
    simp only [cutFrom] at hrest ⊢
    rw [if_neg hs, hrest]

/-- Levels that are looser than all that occur do not matter. -/
theorem treeUpTo_eq_tree {e : Expression Pipeline} {level : Nat} (hlevel : level ≤ 7)
    (h : ∀ s ∈ e.steps, s.1.level ≤ level) : e.treeUpTo level = e.tree := by
  have hskip : ∀ n, level ≤ n → e.treeUpTo n = e.treeUpTo level := by
    intro n hn
    induction n with
    | zero => rw [Nat.le_zero.1 hn]
    | succ n ih =>
      rcases Nat.lt_or_eq_of_le hn with hlt | rfl
      · have hcut : e.cut (n + 1) = ⟨e, []⟩ :=
          cut_of_forall_ne fun s hs heq => by
            have hle := h s hs
            omega
        rw [treeUpTo, hcut]
        exact ih (Nat.le_of_lt_succ hlt)
      · rfl
  exact (hskip 7 hlevel).symm

/-- The tree is what the expression is cut into at the loosest level that occurs, the parts made
    into trees the same way. -/
theorem tree_eq (e : Expression Pipeline) : e.tree = combine ((e.cut e.loosest).map tree) := by
  have hle : ∀ s ∈ e.steps, s.1.level ≤ e.loosest := fun s hs => level_le_loosest hs
  have hseven : e.loosest ≤ 7 := loosest_le fun s _ => s.1.level_bounds.2
  cases hloosest : e.loosest with
  | zero =>
    have hcut : e.cut 0 = ⟨e, []⟩ :=
      cut_of_forall_ne fun s _ => Nat.ne_of_gt s.1.level_bounds.1
    rw [hcut, map, List.map_nil, combine]
  | succ n =>
    rw [hloosest] at hle hseven
    rw [← treeUpTo_eq_tree hseven hle, treeUpTo]
    refine congrArg combine (map_congr fun part hpart => ?_)
    refine treeUpTo_eq_tree (Nat.le_of_succ_le hseven) fun s hs => ?_
    obtain ⟨hmem, hne⟩ := mem_of_mem_part hpart hs
    exact Nat.le_of_lt_succ (Nat.lt_of_le_of_ne (hle s hmem) hne)

/-! ### Instructions for the operators of a level -/

/-- Operators of one level are all of one kind. -/
inductive OneKind : Nat → List (BinaryOp × α) → Prop
  | coalesce (l : List α) : OneKind 1 (l.map fun x => (.coalesce, x))
  | multiplicative (l : List (ArithmeticOp × α)) (h : ∀ s ∈ l, s.1.isMultiplicative = true) :
    OneKind 2 (l.map fun s => (.arithmetic s.1, s.2))
  | additive (l : List (ArithmeticOp × α)) (h : ∀ s ∈ l, s.1.isMultiplicative = false) :
    OneKind 3 (l.map fun s => (.arithmetic s.1, s.2))
  | relational (l : List (ComparisonOp × α)) (h : ∀ s ∈ l, s.1.isEquality = false) :
    OneKind 4 (l.map fun s => (.comparison s.1, s.2))
  | equality (l : List (ComparisonOp × α)) (h : ∀ s ∈ l, s.1.isEquality = true) :
    OneKind 5 (l.map fun s => (.comparison s.1, s.2))
  | and (l : List α) : OneKind 6 (l.map fun x => (.and, x))
  | or (l : List α) : OneKind 7 (l.map fun x => (.or, x))

theorem oneKind {level : Nat} {steps : List (BinaryOp × α)} (hone : 1 ≤ level) (hseven : level ≤ 7)
    (h : ∀ s ∈ steps, s.1.level = level) : OneKind level steps := by
  induction steps with
  | nil =>
    match level with
    | 1 => exact .coalesce []
    | 2 => exact .multiplicative [] (List.forall_mem_nil _)
    | 3 => exact .additive [] (List.forall_mem_nil _)
    | 4 => exact .relational [] (List.forall_mem_nil _)
    | 5 => exact .equality [] (List.forall_mem_nil _)
    | 6 => exact .and []
    | 7 => exact .or []
  | cons s steps ih =>
    obtain ⟨op, x⟩ := s
    obtain ⟨hop, hsteps⟩ := List.forall_mem_cons.1 h
    have hkind := op.kind_of_level
    rw [hop] at hkind
    cases ih hsteps with
    | coalesce l => exact hkind ▸ .coalesce (x :: l)
    | and l => exact hkind ▸ .and (x :: l)
    | or l => exact hkind ▸ .or (x :: l)
    | multiplicative l hl =>
      obtain ⟨a, rfl, ha⟩ := hkind
      exact .multiplicative ((a, x) :: l) (List.forall_mem_cons.2 ⟨ha, hl⟩)
    | additive l hl =>
      obtain ⟨a, rfl, ha⟩ := hkind
      exact .additive ((a, x) :: l) (List.forall_mem_cons.2 ⟨ha, hl⟩)
    | relational l hl =>
      obtain ⟨c, rfl, hc⟩ := hkind
      exact .relational ((c, x) :: l) (List.forall_mem_cons.2 ⟨hc, hl⟩)
    | equality l hl =>
      obtain ⟨c, rfl, hc⟩ := hkind
      exact .equality ((c, x) :: l) (List.forall_mem_cons.2 ⟨hc, hl⟩)

theorem combine_compare (p : Pipeline) (s : ComparisonOp × Pipeline)
    (l : List (ComparisonOp × Pipeline)) :
    combine ⟨p, (s :: l).map fun a => (.comparison a.1, a.2)⟩ = [.compare p (s :: l)] := by
  simp [combine, BinaryOp.comparison?, List.filterMap_map]

theorem combine_calculate (p : Pipeline) (s : ArithmeticOp × Pipeline)
    (l : List (ArithmeticOp × Pipeline)) :
    combine ⟨p, (s :: l).map fun a => (.arithmetic a.1, a.2)⟩ = [.calculate p (s :: l)] := by
  simp [combine, BinaryOp.arithmetic?, List.filterMap_map]

/-- The instruction for operators of one level has the operands and the operators as they are. -/
theorem expression?_combine {e : Expression Pipeline} {level : Nat}
    (hlevel : ∀ s ∈ e.steps, s.1.level = level) (hne : e.steps ≠ []) :
    ∃ i, e.combine = [i] ∧ i.expression? = some e := by
  obtain ⟨first, steps⟩ := e
  obtain ⟨s, hs⟩ := List.exists_mem_of_ne_nil steps hne
  have hbounds := s.1.level_bounds
  rw [hlevel s hs] at hbounds
  cases oneKind hbounds.1 hbounds.2 hlevel with
  | coalesce l | and l | or l =>
    obtain ⟨x, l, rfl⟩ := List.exists_cons_of_ne_nil fun h : l = [] => hne (h ▸ rfl)
    exact ⟨_, rfl, by simp [Instruction.expression?]⟩
  | multiplicative l | additive l =>
    obtain ⟨x, l, rfl⟩ := List.exists_cons_of_ne_nil fun h : l = [] => hne (h ▸ rfl)
    exact ⟨_, combine_calculate first x l, rfl⟩
  | relational l | equality l =>
    obtain ⟨x, l, rfl⟩ := List.exists_cons_of_ne_nil fun h : l = [] => hne (h ▸ rfl)
    exact ⟨_, combine_compare first x l, rfl⟩

/-- An expression with operators is split at those of the loosest level. -/
theorem splits_cut {e : Expression α} (hne : e.steps ≠ []) : e.Splits (e.cut e.loosest) := by
  have hlt : ∀ part ∈ (e.cut e.loosest).operands, ∀ s ∈ part.steps, s.1.level < e.loosest := by
    intro part hpart s hs
    obtain ⟨hmem, hneq⟩ := mem_of_mem_part hpart hs
    exact Nat.lt_of_le_of_ne (level_le_loosest hmem) hneq
  refine ⟨glue_cut e.loosest e, fun hnil => ?_, fun s hs => level_of_mem_cut hs, hlt⟩
  -- else the expression is its only part, and all of its levels are below the loosest
  have hall : ∀ s ∈ e.steps, s.1.level < e.loosest := by
    intro s hs
    refine hlt _ List.mem_cons_self s ?_
    rw [← glue_cut e.loosest e, glue, hnil] at hs
    simpa using hs
  obtain ⟨s, hs⟩ := List.exists_mem_of_ne_nil _ hne
  have hpred : e.loosest ≤ e.loosest - 1 := loosest_le fun s hs => Nat.le_sub_one_of_lt (hall s hs)
  have hpos := hall s hs
  omega

/-- The tree of an expression with operators is an instruction for what it splits into. -/
theorem tree_splits {t : Expression Pipeline} (hne : t.steps ≠ []) :
    ∃ parts i, t.Splits parts ∧ t.tree = [i] ∧ i.expression? = some (parts.map tree) := by
  have hsplits := splits_cut hne
  have hlevel : ∀ s ∈ ((t.cut t.loosest).map tree).steps, s.1.level = t.loosest :=
    List.forall_mem_map.2 hsplits.level_eq
  have hsteps : ((t.cut t.loosest).map tree).steps ≠ [] := by
    simpa [map] using hsplits.steps_ne_nil
  obtain ⟨i, hi, hparts⟩ := expression?_combine hlevel hsteps
  exact ⟨t.cut t.loosest, i, hsplits, t.tree_eq.trans hi, hparts⟩

end Expression

/-- The text of a program, which does not end in a comment up to the end of the line. -/
structure Operand where
  source : String
  pipeline : Pipeline
  parses : Pipeline.parse source = .ok pipeline
  closed : Region.atEnd source ≠ .line

/-- The operands in parentheses, with the operators in between. -/
def Expression.text (e : Expression Operand) : String :=
  "(" ++ e.first.source ++ ")" ++
    String.join (e.steps.map fun s => " " ++ s.1.symbol ++ " (" ++ s.2.source ++ ")")

namespace Source

open Reader

/-! ### Texts -/

def operandText (o : Operand) (rest : List Char) : List Char :=
  '(' :: (o.source.toList ++ ')' :: rest)

/-- An expression in front of another text. -/
def expressionText (e : Expression Operand) (rest : List Char) : List Char :=
  operandText e.first (e.steps.foldr (fun s t => operatorText s.1.symbol (operandText s.2 t)) rest)

/-- A part of an expression with the operator in front of it. -/
def partText (s : BinaryOp × Expression Operand) (rest : List Char) : List Char :=
  operatorText s.1.symbol (expressionText s.2 rest)

theorem text_eq (e : Expression Operand) : e.text = String.ofList (expressionText e []) := by
  obtain ⟨first, steps⟩ := e
  apply String.toList_injective
  have hsteps : (String.join (steps.map fun s =>
      " " ++ s.1.symbol ++ " (" ++ s.2.source ++ ")")).toList =
      steps.foldr (fun s t => operatorText s.1.symbol (operandText s.2 t)) [] := by
    induction steps with
    | nil => rfl
    | cons s steps ih =>
      rw [List.map_cons, String.join_cons, String.toList_append, ih]
      simp [operatorText, operandText]
  simp [Expression.text, expressionText, operandText, hsteps]

/-- The text of an expression is that of its parts. -/
theorem expressionText_glue (k : Expression (Expression Operand)) (rest : List Char) :
    expressionText k.glue rest = expressionText k.first (k.steps.foldr partText rest) := by
  obtain ⟨first, steps⟩ := k
  have hsteps : (steps.flatMap fun s => (s.1, s.2.first) :: s.2.steps).foldr
      (fun s t => operatorText s.1.symbol (operandText s.2 t)) rest = steps.foldr partText rest := by
    induction steps with
    | nil => rfl
    | cons s steps ih =>
      rw [List.flatMap_cons, List.cons_append, List.foldr_cons, List.foldr_append, ih]
      rfl
  rw [expressionText, expressionText, Expression.glue, List.foldr_append, hsteps]

/-- An operand is shorter than the text it stands in. -/
theorem length_source_lt {e : Expression Operand} {o : Operand} (ho : o ∈ e.operands)
    (rest : List Char) :
    o.source.toList.length + rest.length < (expressionText e rest).length := by
  obtain ⟨first, steps⟩ := e
  have hoperand : ∀ (o : Operand) (t : List Char),
      (operandText o t).length = o.source.toList.length + t.length + 2 := by
    intro o t
    simp only [operandText, List.length_cons, List.length_append]
    omega
  have hoperator : ∀ (symbol : String) (t : List Char), t.length ≤ (operatorText symbol t).length := by
    intro symbol t
    simp only [operatorText, List.length_cons, List.length_append]
    omega
  induction steps generalizing first o with
  | nil =>
    obtain rfl : o = first := List.mem_singleton.1 ho
    rw [expressionText, hoperand]
    simp only [List.foldr_nil]
    omega
  | cons s steps ih =>
    have htext : expressionText ⟨first, s :: steps⟩ rest =
        operandText first (operatorText s.1.symbol (expressionText ⟨s.2, steps⟩ rest)) := rfl
    have hlong := hoperator s.1.symbol (expressionText ⟨s.2, steps⟩ rest)
    rw [htext, hoperand]
    rcases List.mem_cons.1 ho with rfl | ho
    · have hrest := ih s.2 List.mem_cons_self
      omega
    · have hrest := ih s.2 ho
      omega

/-! ### Reading parts -/

/-- The level of the grammar that reads the operators of a level of the table. -/
def rungOf : Nat → Nat
  | 0 => 0
  | 1 => 1
  | 2 => 2
  | 3 => 3
  | 4 => 6
  | 5 => 7
  | 6 => 8
  | _ => 9

/-- An operand is read by the lowest level. -/
theorem operand_reads (o : Operand) {depth : Nat} (hdepth : o.source.toList.length < depth)
    {rest : List Char} (hrest : AfterOperand (ends 0) rest) :
    Reads (rung (route depth) 0) (operandText o rest) o.pipeline (stripped rest) := by
  have hgroup : Reads (group (route depth)) (operandText o rest) o.pipeline (stripped rest) :=
    group_reads (Seam.flush (')' :: rest) rfl) rfl o.parses o.closed hdepth hrest.1 rfl
  refine (Bare.paren _).negation (valueAccess_primary rfl ?_ hrest.2)
  exact Takes.bind (fun b hb => ⟨b, hb, rfl⟩) hgroup

section Parts

variable {item : Rule} {after : List Char → Bool} {rest : List Char}

/-- Parts with an operator in front are read one by one, each with its operator. -/
theorem parts_read {ι β : Type} {step : Reader (Option β)} {part : ι → BinaryOp × Expression Operand}
    {read : ι → β} {parts : List ι}
    (hstep : ∀ s ∈ parts, ∀ t, AfterOperand after t →
      Reads step (stripped (partText (part s) t)) (some (read s)) (stripped t))
    (hnext : ∀ s ∈ parts, ∀ t, AfterOperand after (partText (part s) t))
    (hrest : AfterOperand after rest) (hdone : Reads step (stripped rest) none (stripped rest)) :
    AfterOperand after ((parts.map part).foldr partText rest) ∧
      Reads (many step) (stripped ((parts.map part).foldr partText rest)) (parts.map read)
        (stripped rest) := by
  rw [List.foldr_map]
  constructor
  · cases parts with
    | nil => exact hrest
    | cons s parts => exact hnext s List.mem_cons_self _
  · refine (repeats_values (AfterOperand after) (fun s hs t ht _ => hstep s hs t ht) hnext hrest ?_
      (Nat.le_refl _) hdone).many
    intro s _ t
    have hlength := length_source_lt (e := (part s).2) List.mem_cons_self t
    simp only [partText, operatorText, List.length_append, List.length_cons]
    omega

variable {value : Expression Operand → Pipeline} {first : Expression Operand}

/-- Parts with the same word or symbol in between. -/
theorem joined_parts {token : Reader Bool} {build : List Pipeline → Instruction} {op : BinaryOp}
    {parts : List (Expression Operand)}
    (hbuild : ∀ p q more,
      Expression.combine ⟨p, (op, q) :: more⟩ = [build (p :: q :: more.map (·.2))])
    (hitem : ∀ part ∈ Expression.operands ⟨first, parts.map fun x => (op, x)⟩, ∀ t,
      AfterOperand after t → Reads item (expressionText part t) (value part) (stripped t))
    (hnext : ∀ t, AfterOperand after (operatorText op.symbol ('(' :: t)) ∧
      Reads token (stripped (operatorText op.symbol ('(' :: t))) true ('(' :: t))
    (hrest : AfterOperand after rest)
    (hdone : Reads token (stripped rest) false (stripped rest)) :
    Reads (return joinWith build (← separated token item))
      (expressionText first ((parts.map fun x => (op, x)).foldr partText rest))
      (Expression.map value ⟨first, parts.map fun x => (op, x)⟩).combine (stripped rest) := by
  simp only [Expression.operands, List.map_map, Function.comp_def, List.map_id'] at hitem
  obtain ⟨hfirst, hparts⟩ := List.forall_mem_cons.1 hitem
  have hstep : ∀ part ∈ parts, ∀ t, AfterOperand after t →
      Reads (another token item) (stripped (partText (op, part) t)) (some (value part))
        (stripped t) := fun part hpart t ht =>
    Takes.bind (hnext _).2 ((hparts part hpart t ht).bind (takes_pure _))
  obtain ⟨hafter, hmore⟩ := parts_read hstep (fun part _ t => (hnext _).1) hrest
    (hdone.bind (takes_pure none))
  have hcombine : (Expression.map value ⟨first, parts.map fun x => (op, x)⟩).combine =
      joinWith build (value first :: parts.map value) := by
    cases parts with
    | nil => rfl
    | cons part parts => simp [Expression.map, hbuild, joinWith, Function.comp_def]
  rw [hcombine]
  refine Takes.bind ?_ (takes_pure _)
  exact (hfirst _ hafter).bind (Takes.bind hmore (takes_pure (value first :: parts.map value)))

/-- Parts with operators of a table in between. -/
theorem chain_parts {ω : Type} {operators : List (String × String × ω)}
    {build : Pipeline → List (ω × Pipeline) → Instruction} {wrap : ω → BinaryOp}
    {parts : List (ω × Expression Operand)}
    (hbuild : ∀ p s l,
      Expression.combine ⟨p, (s :: l).map fun a => (wrap a.1, a.2)⟩ = [build p (s :: l)])
    (hitem : ∀ part ∈ Expression.operands ⟨first, parts.map fun s => (wrap s.1, s.2)⟩, ∀ t,
      AfterOperand after t → Reads item (expressionText part t) (value part) (stripped t))
    (hnext : ∀ s ∈ parts, ∀ t, AfterOperand after (operatorText (wrap s.1).symbol ('(' :: t)) ∧
      Reads (firstSymbol operators) (stripped (operatorText (wrap s.1).symbol ('(' :: t)))
        (some s.1) ('(' :: t))
    (hrest : AfterOperand after rest)
    (hdone : ∀ s ∈ operators, begins s.1 s.2.1 (stripped rest) = false) :
    Reads (chain operators item build)
      (expressionText first ((parts.map fun s => (wrap s.1, s.2)).foldr partText rest))
      (Expression.map value ⟨first, parts.map fun s => (wrap s.1, s.2)⟩).combine
      (stripped rest) := by
  simp only [Expression.operands, List.map_map, Function.comp_def] at hitem
  obtain ⟨hfirst, hparts⟩ := List.forall_mem_cons.1 hitem
  have hstep : ∀ s ∈ parts, ∀ t, AfterOperand after t →
      Reads (operation operators item) (stripped (partText (wrap s.1, s.2) t))
        (some (s.1, value s.2)) (stripped t) := fun s hs t ht =>
    Takes.bind (hnext s hs _).2
      ((hparts s.2 (List.mem_map_of_mem hs) t ht).bind (takes_pure _))
  obtain ⟨hafter, hmore⟩ := parts_read hstep (fun s hs t => (hnext s hs _).1) hrest
    ((firstSymbol_miss hdone).bind (takes_pure none))
  refine (hfirst _ hafter).bind (Takes.bind hmore ?_)
  cases parts with
  | nil => exact takes_pure _
  | cons s parts =>
    have hcombine : (Expression.map value
        ⟨first, (s :: parts).map fun s => (wrap s.1, s.2)⟩).combine =
          [build (value first) ((s :: parts).map fun s => (s.1, value s.2))] := by
      have hall := hbuild (value first) (s.1, value s.2) (parts.map fun s => (s.1, value s.2))
      simpa [Expression.map, Function.comp_def] using hall
    rw [hcombine]
    exact takes_pure _

end Parts

/-! ### Level by level -/

section Levels

variable {inner : Rule} {value : Expression Operand → Pipeline}

/-- Parts that the level of the grammar below reads, with operators of a level in between. -/
theorem level_reads {level : Nat} (hlevel : level < 7) {k : Expression (Expression Operand)}
    (hop : ∀ s ∈ k.steps, s.1.level = level + 1)
    (hitem : ∀ part ∈ k.operands, ∀ t, AfterOperand (ends (rungOf (level + 1) - 1)) t →
      Reads (rung inner (rungOf (level + 1) - 1)) (expressionText part t) (value part) (stripped t))
    {rest : List Char} (hrest : AfterOperand (ends (rungOf (level + 1))) rest) :
    Reads (rung inner (rungOf (level + 1))) (expressionText k.first (k.steps.foldr partText rest))
      (k.map value).combine (stripped rest) := by
  obtain ⟨first, steps⟩ := k
  have hbelow : AfterOperand (ends (rungOf (level + 1) - 1)) rest :=
    ⟨hrest.1, ends_mono (Nat.sub_le _ _) hrest.2⟩
  have hmiss := not_begins_of_ends hrest.2
  cases Expression.oneKind (Nat.le_add_left 1 level) hlevel hop with
  | coalesce l =>
    refine joined_parts (fun _ _ _ => rfl) hitem ?_ hbelow (symbol_miss (hmiss _ List.mem_cons_self))
    intro t
    exact ⟨⟨rfl, rfl⟩, symbol_takes Apart "??" (t := ' ' :: '(' :: t) rfl (by decide) rfl⟩
  | multiplicative l hl =>
    refine chain_parts Expression.combine_calculate hitem ?_ hbelow (not_begins_operators rfl hmiss)
    rintro ⟨op, part⟩ hs t
    show AfterOperand _ (operatorText op.symbol _) ∧
      Reads _ (stripped (operatorText op.symbol _)) (some op) _
    cases op with
    | addition | subtraction => cases hl _ hs
    | _ => exact ⟨⟨rfl, rfl⟩, fun b _ => ⟨_, .inr rfl, rfl⟩⟩
  | additive l hl =>
    refine chain_parts Expression.combine_calculate hitem ?_ hbelow (not_begins_operators rfl hmiss)
    rintro ⟨op, part⟩ hs t
    show AfterOperand _ (operatorText op.symbol _) ∧
      Reads _ (stripped (operatorText op.symbol _)) (some op) _
    cases op with
    | addition | subtraction => exact ⟨⟨rfl, rfl⟩, fun b _ => ⟨_, .inr rfl, rfl⟩⟩
    | _ => cases hl _ hs
  | relational l hl =>
    refine chain_parts Expression.combine_compare hitem ?_ hbelow (not_begins_operators rfl hmiss)
    rintro ⟨op, part⟩ hs t
    show AfterOperand _ (operatorText op.symbol _) ∧
      Reads _ (stripped (operatorText op.symbol _)) (some op) _
    cases op with
    | equal | unequal => cases hl _ hs
    | _ => exact ⟨⟨rfl, rfl⟩, fun b _ => ⟨_, .inr rfl, rfl⟩⟩
  | equality l hl =>
    refine chain_parts Expression.combine_compare hitem ?_ hbelow (not_begins_operators rfl hmiss)
    rintro ⟨op, part⟩ hs t
    show AfterOperand _ (operatorText op.symbol _) ∧
      Reads _ (stripped (operatorText op.symbol _)) (some op) _
    cases op with
    | equal | unequal => exact ⟨⟨rfl, rfl⟩, fun b _ => ⟨_, .inr rfl, rfl⟩⟩
    | _ => cases hl _ hs
  | and l =>
    refine joined_parts (fun _ _ _ => rfl) hitem ?_ hbelow
      (keyword_miss_of_begins (hmiss _ List.mem_cons_self))
    intro t
    exact ⟨⟨rfl, rfl⟩, keyword_hit "and" (t := ' ' :: '(' :: t) rfl rfl rfl⟩
  | or l =>
    refine joined_parts (fun _ _ _ => rfl) hitem ?_ hbelow
      (keyword_miss_of_begins (hmiss _ List.mem_cons_self))
    intro t
    exact ⟨⟨rfl, rfl⟩, keyword_hit "or" (t := ' ' :: '(' :: t) rfl rfl rfl⟩

end Levels

/-- The levels of the grammar in between look for nothing that stands between operands. -/
theorem rungOf_le {level : Nat} (hlevel : level < 7) : rungOf level ≤ rungOf (level + 1) - 1 := by
  match level with
  | 0 | 1 | 2 | 3 | 4 | 5 | 6 => decide

theorem rungOf_le_nine (level : Nat) : rungOf level ≤ 9 := by
  unfold rungOf
  split <;> decide

/-- An expression with operators up to a level is read by the level of the grammar for it. The
    levels below have read its parts, which are shorter by the loosest operators. -/
theorem expression_reads {depth level : Nat} (hlevel : level ≤ 7) {e : Expression Operand}
    (hop : ∀ s ∈ e.steps, s.1.level ≤ level)
    (hdepth : ∀ o ∈ e.operands, o.source.toList.length < depth) {rest : List Char}
    (hrest : AfterOperand (ends (rungOf level)) rest) :
    Reads (rung (route depth) (rungOf level)) (expressionText e rest)
      ((e.map Operand.pipeline).treeUpTo level) (stripped rest) := by
  induction level generalizing e rest with
  | zero =>
    obtain ⟨first, steps⟩ := e
    obtain rfl : steps = [] := List.eq_nil_iff_forall_not_mem.2 fun s hs =>
      absurd (hop s hs) (Nat.not_le.2 s.1.level_bounds.1)
    exact operand_reads first (hdepth first List.mem_cons_self) hrest
  | succ level ih =>
    have htext := expressionText_glue (e.cut (level + 1)) rest
    rw [Expression.glue_cut] at htext
    rw [htext, Expression.treeUpTo, Expression.cut_map, Expression.map_map]
    refine level_reads hlevel (fun s hs => Expression.level_of_mem_cut hs) (fun part hpart t ht => ?_)
      hrest
    have hbelow : ∀ s ∈ part.steps, s.1.level ≤ level := by
      intro s hs
      obtain ⟨hmem, hne⟩ := Expression.mem_of_mem_part hpart hs
      exact Nat.le_of_lt_succ (Nat.lt_of_le_of_ne (hop s hmem) hne)
    have hshort : ∀ o ∈ part.operands, o.source.toList.length < depth := by
      intro o ho
      exact hdepth o (Expression.mem_operands_of_part hpart ho)
    have hread := ih (Nat.le_of_succ_le hlevel) hbelow hshort
      ⟨ht.1, ends_mono (rungOf_le hlevel) ht.2⟩
    exact climb (rungOf_le hlevel) (Nat.le_trans (Nat.sub_le _ _) (rungOf_le_nine _)) hread ht.2
      fun _ => (Bare.paren _).no_word "not" rfl

theorem parse_text (e : Expression Operand) :
    Pipeline.parse e.text = .ok (e.map Operand.pipeline).tree := by
  rw [text_eq]
  refine parse_of_reads (program_of_pipe rfl ?_)
  have hshort : ∀ o ∈ e.operands, o.source.toList.length < (expressionText e []).length :=
    fun o ho => length_source_lt ho []
  generalize (expressionText e []).length = depth at hshort
  have hread : Reads (disjunction (route depth)) (expressionText e [])
      (e.map Operand.pipeline).tree [] :=
    expression_reads (Nat.le_refl 7) (fun s _ => s.1.level_bounds.2) hshort ⟨rfl, rfl⟩
  have hattempt : Reads (route (depth + 1)) (expressionText e []) (e.map Operand.pipeline).tree [] :=
    attempt_one hread ((Bare.paren _).no_word "try" rfl)
  exact pipe_one hattempt rfl rfl

end Source

/-- The text of an expression is parsed as its tree. An operand alone is its own tree; with operators
    the tree is one instruction, and its operands are the trees of what the expression splits into,
    with the same operators in between. -/
theorem Pipeline.parse_expression (e : Expression Operand) :
    Pipeline.parse e.text = .ok (e.map Operand.pipeline).tree ∧
      (∀ p : Pipeline, Expression.tree ⟨p, []⟩ = p) ∧
      ∀ t : Expression Pipeline, t.steps ≠ [] →
        ∃ parts i, t.Splits parts ∧ t.tree = [i] ∧
          i.expression? = some (parts.map Expression.tree) :=
  ⟨Source.parse_text e, fun _ => rfl, fun _ hne => Expression.tree_splits hne⟩

/-- Operators of four levels, two of one level next to each other, and an operand with a comment in
    its middle. -/
theorem Pipeline.parse_expression_levels :
    ∃ p q, Pipeline.parse "x" = .ok p ∧ Pipeline.parse "y # -\n.k" = .ok q ∧
      Pipeline.parse "(x) < (y # -\n.k) - (x) + (x) ?? (x) or (x)" =
        .ok [.or [[.compare p [(.less, [.calculate q
          [(.subtraction, p), (.addition, [.coalesce [p, p]])]])]], p]] ∧
      ∃ parts i, Expression.Splits ⟨p, [(.coalesce, q), (.and, p)]⟩ parts ∧
        Expression.tree ⟨p, [(.coalesce, q), (.and, p)]⟩ = [i] ∧
          i.expression? = some (parts.map Expression.tree) := by
  have hprint : (Pipeline.parse "x").toOption.map Pipeline.print = some "x" := by
    decide +kernel
  have hprint' : (Pipeline.parse "y # -\n.k").toOption.map Pipeline.print =
      some "(y)[(\"k\")]" := by
    decide +kernel
  cases hp : Pipeline.parse "x" with
  | error e => rw [hp] at hprint; cases hprint
  | ok p =>
    cases hq : Pipeline.parse "y # -\n.k" with
    | error e => rw [hq] at hprint'; cases hprint'
    | ok q =>
      have hall := Pipeline.parse_expression ⟨⟨"x", p, hp, by decide⟩,
        [(.comparison .less, ⟨"y # -\n.k", q, hq, by decide⟩),
          (.arithmetic .subtraction, ⟨"x", p, hp, by decide⟩),
          (.arithmetic .addition, ⟨"x", p, hp, by decide⟩),
          (.coalesce, ⟨"x", p, hp, by decide⟩), (.or, ⟨"x", p, hp, by decide⟩)]⟩
      exact ⟨p, q, rfl, rfl, hall.1, hall.2.2 _ (List.cons_ne_nil _ _)⟩

end JsonPipe
