import JsonPipe.Syntax.Instruction

/-! Induction over programs.

    An instruction holds operand pipelines in lists of many shapes. `Instruction.parts` lists them
    all, and every part is smaller than the instruction that holds it, so a property of all
    pipelines follows from two steps: instructions inherit it from their parts, and pipelines from
    their instructions and the parts of these. -/

namespace JsonPipe

/-- The operands of a selector. -/
def Selector.parts {π : Type} : Selector π → List π
  | .field key _ => [key]
  | .iterate _ => []
  | .slice start stop _ => [start, stop]
  | .call args _ _ => args

/-- The pipelines that an instruction holds. -/
def Instruction.parts : Instruction → List Pipeline
  | .interpolated parts _ => parts.map (·.2)
  | .define _ body | .function _ body | .array body => [body]
  | .access base path => base :: path.flatMap Selector.parts
  | .assign base path _ value => base :: value :: path.flatMap Selector.parts
  | .calculate base steps => base :: steps.map (·.2)
  | .compare base steps => base :: steps.map (·.2)
  | .branch arms otherwise => arms.map (·.1) ++ arms.map (·.2) ++ otherwise.toList
  | .and operands | .or operands | .coalesce operands | .concat operands => operands
  | .attempt body handler => [body, handler]
  | .object fields => fields.map (·.key) ++ fields.map (·.value)
  | _ => []

theorem sizeOf_lt_of_mem_snd {α : Type} [SizeOf α] {xs : List (α × Pipeline)} {p : Pipeline}
    (h : p ∈ xs.map (·.2)) : sizeOf p < sizeOf xs := by
  obtain ⟨⟨a, q⟩, hmem, rfl⟩ := List.mem_map.1 h
  have := List.sizeOf_lt_of_mem hmem
  simp only [Prod.mk.sizeOf_spec] at this
  simp only
  omega

theorem sizeOf_lt_of_mem_fst {xs : List (Pipeline × Pipeline)} {p : Pipeline}
    (h : p ∈ xs.map (·.1)) : sizeOf p < sizeOf xs := by
  obtain ⟨⟨q, a⟩, hmem, rfl⟩ := List.mem_map.1 h
  have := List.sizeOf_lt_of_mem hmem
  simp only [Prod.mk.sizeOf_spec] at this
  simp only
  omega

theorem sizeOf_lt_of_mem_path {path : List (Selector Pipeline)} {p : Pipeline}
    (h : p ∈ path.flatMap Selector.parts) : sizeOf p < sizeOf path := by
  obtain ⟨s, hmem, hp⟩ := List.mem_flatMap.1 h
  have hs := List.sizeOf_lt_of_mem hmem
  suffices sizeOf p < sizeOf s by omega
  cases s with
  | field key optional =>
    simp only [Selector.parts, List.mem_singleton] at hp
    subst hp
    simp only [Selector.field.sizeOf_spec]
    omega
  | iterate optional => simp [Selector.parts] at hp
  | slice start stop optional =>
    simp only [Selector.parts, List.mem_cons, List.not_mem_nil, or_false] at hp
    simp only [Selector.slice.sizeOf_spec]
    rcases hp with rfl | rfl <;> omega
  | call args bound optional =>
    have : sizeOf p < sizeOf args := List.sizeOf_lt_of_mem hp
    simp only [Selector.call.sizeOf_spec]
    omega

theorem sizeOf_lt_of_mem_fields {fields : List (Field Pipeline)} {p : Pipeline}
    (h : p ∈ fields.map (·.key) ++ fields.map (·.value)) : sizeOf p < sizeOf fields := by
  rcases List.mem_append.1 h with h | h <;>
  · obtain ⟨⟨key, value, optional⟩, hmem, rfl⟩ := List.mem_map.1 h
    have := List.sizeOf_lt_of_mem hmem
    simp only [Field.mk.sizeOf_spec] at this
    simp only
    omega

/-- A part is smaller than the instruction that holds it. -/
theorem Instruction.sizeOf_lt_of_mem_parts {i : Instruction} {p : Pipeline} (h : p ∈ i.parts) :
    sizeOf p < sizeOf i := by
  cases i with
  | interpolated parts after =>
    have := sizeOf_lt_of_mem_snd h
    simp only [Instruction.interpolated.sizeOf_spec]
    omega
  | define name body =>
    simp only [parts, List.mem_singleton] at h
    subst h
    simp only [Instruction.define.sizeOf_spec]
    omega
  | function params body =>
    simp only [parts, List.mem_singleton] at h
    subst h
    simp only [Instruction.function.sizeOf_spec]
    omega
  | array body =>
    simp only [parts, List.mem_singleton] at h
    subst h
    simp only [Instruction.array.sizeOf_spec]
    omega
  | access base path =>
    simp only [Instruction.access.sizeOf_spec]
    rcases List.mem_cons.1 h with rfl | h
    · omega
    · have := sizeOf_lt_of_mem_path h
      omega
  | assign base path op value =>
    simp only [Instruction.assign.sizeOf_spec]
    rcases List.mem_cons.1 h with rfl | h
    · omega
    rcases List.mem_cons.1 h with rfl | h
    · omega
    · have := sizeOf_lt_of_mem_path h
      omega
  | calculate base steps =>
    simp only [Instruction.calculate.sizeOf_spec]
    rcases List.mem_cons.1 h with rfl | h
    · omega
    · have := sizeOf_lt_of_mem_snd h
      omega
  | compare base steps =>
    simp only [Instruction.compare.sizeOf_spec]
    rcases List.mem_cons.1 h with rfl | h
    · omega
    · have := sizeOf_lt_of_mem_snd h
      omega
  | branch arms otherwise =>
    simp only [Instruction.branch.sizeOf_spec]
    rcases List.mem_append.1 h with h | h
    · rcases List.mem_append.1 h with h | h
      · have := sizeOf_lt_of_mem_fst h
        omega
      · have := sizeOf_lt_of_mem_snd h
        omega
    · cases otherwise with
      | none => simp at h
      | some q =>
        simp only [Option.toList_some, List.mem_singleton] at h
        subst h
        simp only [Option.some.sizeOf_spec]
        omega
  | and operands =>
    have : sizeOf p < sizeOf operands := List.sizeOf_lt_of_mem h
    simp only [Instruction.and.sizeOf_spec]
    omega
  | or operands =>
    have : sizeOf p < sizeOf operands := List.sizeOf_lt_of_mem h
    simp only [Instruction.or.sizeOf_spec]
    omega
  | coalesce operands =>
    have : sizeOf p < sizeOf operands := List.sizeOf_lt_of_mem h
    simp only [Instruction.coalesce.sizeOf_spec]
    omega
  | concat operands =>
    have : sizeOf p < sizeOf operands := List.sizeOf_lt_of_mem h
    simp only [Instruction.concat.sizeOf_spec]
    omega
  | attempt body handler =>
    simp only [parts, List.mem_cons, List.not_mem_nil, or_false] at h
    simp only [Instruction.attempt.sizeOf_spec]
    rcases h with rfl | rfl <;> omega
  | object fields =>
    have := sizeOf_lt_of_mem_fields h
    simp only [Instruction.object.sizeOf_spec]
    omega
  | _ => simp [parts] at h

/-- A property of all pipelines, if every pipeline has it as soon as the parts of all its
    instructions do. -/
theorem Pipeline.induction {Q : Pipeline → Prop}
    (step : ∀ p : Pipeline, (∀ i ∈ p, ∀ q ∈ i.parts, Q q) → Q p) (p : Pipeline) : Q p := by
  apply step
  intro i hi q hq
  have hip : sizeOf i < sizeOf p := List.sizeOf_lt_of_mem hi
  have hqi : sizeOf q < sizeOf i := Instruction.sizeOf_lt_of_mem_parts hq
  exact Pipeline.induction step q
termination_by sizeOf p

end JsonPipe
