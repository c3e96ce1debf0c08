import JsonPipe.Proofs.Source.Spelling
import JsonPipe.Source.Grammar

/-! Climbing the grammar.

    The levels of the operators stand one above the other, the tightest at the bottom (`rung`).
    What a level reads is also what the levels above it read, as long as nothing that they look for
    comes after it, and no `not` before it (`climb`). A group in parentheses is read by the lowest
    level and so by all of them. -/

namespace JsonPipe.Source

open Reader

/-! ### Rules for repetition -/

section Repetition

variable {α : Type} {t u v : List Char}

theorem Takes.separated_one {separator : Reader Bool} {item : Reader α} {a : α}
    (hitem : Reads item t a u) (hmiss : Reads separator u false u) :
    Reads (separated separator item) t [a] u := by
  refine hitem.bind ((Repeats.done ?_).many.bind (takes_pure _))
  exact hmiss.bind (takes_pure _)

theorem firstSymbol_miss {I : Cursor → Prop} {operators : List (String × String × α)}
    (h : ∀ s ∈ operators, begins s.1 s.2.1 t = false) :
    Takes I I (firstSymbol operators) t none t := by
  induction operators with
  | nil => exact takes_pure none
  | cons s operators ih =>
    have hrest := ih fun x hx => h x (List.mem_cons_of_mem _ hx)
    exact (symbol_miss (h s List.mem_cons_self)).bind hrest

theorem Takes.chain_one {operators : List (String × String × α)} {operand : Rule}
    {build : Pipeline → List (α × Pipeline) → Instruction} {p : Pipeline}
    (hoperand : Reads operand t p u) (h : ∀ s ∈ operators, begins s.1 s.2.1 u = false) :
    Reads (chain operators operand build) t p u := by
  refine hoperand.bind ((Repeats.done ?_).many.bind (takes_pure _))
  exact (firstSymbol_miss h).bind (takes_pure _)

end Repetition

/-! ### Levels -/

/-- The levels of the operators, the tightest first. -/
def rung (inner : Rule) : Nat → Rule
  | 0 => negation inner
  | 1 => coalescence inner
  | 2 => multiplicative inner
  | 3 => additive inner
  | 4 => suppression inner
  | 5 => complement inner
  | 6 => relational inner
  | 7 => equality inner
  | 8 => conjunction inner
  | _ => disjunction inner

/-- What a level looks for after an operand, with the characters that it is refused in front of;
    the lowest level looks for selectors. -/
def joints : Nat → List (String × String)
  | 0 => [(".", ""), ("[", ""), ("->", ""), ("(", "")]
  | 1 => [("??", "")]
  | 2 => [("*", "="), ("/", "="), ("%", "=")]
  | 3 => [("+", "="), ("-", "=>")]
  | 4 => [("?", "?=")]
  | 5 => []
  | 6 => [("<=", ""), ("<", ""), (">=", ""), (">", "")]
  | 7 => [("==", ""), ("!=", "")]
  | 8 => [("and", "")]
  | _ => [("or", "")]

/-- Nothing follows that a level looks for. -/
def lacks (level : Nat) (t : List Char) : Bool :=
  (joints level).all fun s => !begins s.1 s.2 t

/-- Nothing follows that a level or one below it looks for. -/
def ends : Nat → List Char → Bool
  | 0, t => lacks 0 t
  | level + 1, t => ends level t && lacks (level + 1) t

theorem not_begins {level : Nat} {t : List Char} (h : lacks level t = true) :
    ∀ s ∈ joints level, begins s.1 s.2 t = false := by
  intro s hs
  have hall := List.all_eq_true.1 h s hs
  simpa using hall

/-- The operators of a level are what it looks for. -/
theorem not_begins_operators {α : Type} {level : Nat} {operators : List (String × String × α)}
    {t : List Char} (hlevel : operators.map (fun s => (s.1, s.2.1)) = joints level)
    (h : ∀ s ∈ joints level, begins s.1 s.2 t = false) :
    ∀ s ∈ operators, begins s.1 s.2.1 t = false := by
  intro s hs
  rw [← hlevel] at h
  exact h (s.1, s.2.1) (List.mem_map_of_mem hs)

theorem ends_mono {low high : Nat} (hle : low ≤ high) {t : List Char} (h : ends high t = true) :
    ends low t = true := by
  induction high with
  | zero => rwa [Nat.le_zero.1 hle]
  | succ high ih =>
    rcases Nat.lt_or_eq_of_le hle with hlt | rfl
    · rw [ends, Bool.and_eq_true] at h
      exact ih (Nat.le_of_lt_succ hlt) h.1
    · exact h

/-- Nothing follows that the level itself looks for. -/
theorem not_begins_of_ends {level : Nat} {t : List Char} (h : ends level t = true) :
    ∀ s ∈ joints level, begins s.1 s.2 t = false := by
  cases level with
  | zero => exact not_begins h
  | succ level =>
    rw [ends, Bool.and_eq_true] at h
    exact not_begins h.2

section Climb

variable {inner : Rule} {t u : List Char} {p : Pipeline}

theorem keyword_miss_of_begins {w : String} (h : begins w "" t = false) :
    Reads (keyword w) t false t := by
  rw [begins, any_none_of, Bool.not_false, Bool.and_true] at h
  exact keyword_miss h

/-- What a level reads is what the next one reads. -/
theorem step_up {level : Nat} (hlevel : level < 9) (h : Reads (rung inner level) t p u)
    (hend : lacks (level + 1) u = true)
    (hnot : level = 4 → Reads (keyword "not") t false t) :
    Reads (rung inner (level + 1)) t p u := by
  have hmiss := not_begins hend
  match level with
  | 0 => exact (h.separated_one (symbol_miss (hmiss _ List.mem_cons_self))).bind (takes_pure _)
  | 1 | 2 => exact h.chain_one (not_begins_operators rfl hmiss)
  | 3 => exact h.bind ((symbol_miss (hmiss _ List.mem_cons_self)).bind (takes_pure _))
  | 4 =>
    -- the one level that looks for something in front of its operand
    exact (hnot rfl).bind h
  | 5 | 6 => exact h.chain_one (not_begins_operators rfl hmiss)
  | 7 =>
    have hand : begins "and" "" u = false := hmiss ("and", "") List.mem_cons_self
    exact (h.separated_one (keyword_miss_of_begins hand)).bind (takes_pure _)
  | 8 =>
    have hor : begins "or" "" u = false := hmiss ("or", "") List.mem_cons_self
    exact (h.separated_one (keyword_miss_of_begins hor)).bind (takes_pure _)

/-- What a level reads is what all levels above it read. -/
theorem climb {low high : Nat} (hle : low ≤ high) (hhigh : high ≤ 9)
    (h : Reads (rung inner low) t p u) (hend : ends high u = true)
    (hnot : low ≤ 4 → Reads (keyword "not") t false t) : Reads (rung inner high) t p u := by
  induction high with
  | zero => rwa [Nat.le_zero.1 hle] at h
  | succ high ih =>
    rcases Nat.lt_or_eq_of_le hle with hlt | rfl
    · rw [ends, Bool.and_eq_true] at hend
      have hbelow := ih (Nat.le_of_lt_succ hlt) (by omega) hend.1
      exact step_up (by omega) hbelow hend.2 fun heq => hnot (by omega)
    · exact h

end Climb

/-! ### Programs -/

/-- What is read as a pipeline to the end of the text is read as a program. -/
theorem program_of_pipe {depth : Nat} {t : List Char} {p : Pipeline} (hopens : opens t = true)
    (h : Reads (pipe (route depth)) t p []) : Reads (program depth) t p [] := by
  have htrivia := reads_skipTrivia (isTidy_of_opens hopens)
  rw [stripped_of_opens hopens] at htrivia
  exact htrivia.bind (h.bind fun b hb => ⟨b, hb, rfl⟩)

/-- What is read as a program is what its text is parsed as. -/
theorem parse_of_reads {t : List Char} {p : Pipeline} (h : Reads (program (t.length + 1)) t p []) :
    Pipeline.parse (String.ofList t) = .ok p := by
  obtain ⟨b, _, hprogram⟩ := h [] (.inl rfl)
  rw [Pipeline.parse, String.toList_ofList]
  simp only [Cursor.start, hprogram]
  rfl

end JsonPipe.Source
