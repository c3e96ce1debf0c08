import JsonPipe.Proofs.Syntax.Induction

/-! Trees that equal themselves.

    Trees are compared part by part and numbers by value, so a list of parts equals itself as soon
    as each of the parts does; only a NaN keeps a tree from it. -/

namespace JsonPipe

theorem samePipeline_self {p : Pipeline} (h : ∀ i ∈ p, i.same i = true) :
    samePipeline p p = true := by
  induction p with
  | nil => rfl
  | cons i p ih =>
    rw [List.forall_mem_cons] at h
    rw [samePipeline, h.1, ih h.2, Bool.and_self]

theorem samePipelines_self {ps : List Pipeline} (h : ∀ p ∈ ps, samePipeline p p = true) :
    samePipelines ps ps = true := by
  induction ps with
  | nil => rfl
  | cons p ps ih =>
    rw [List.forall_mem_cons] at h
    rw [samePipelines, h.1, ih h.2, Bool.and_self]

theorem sameParts_self {parts : List (String × Pipeline)}
    (h : ∀ e ∈ parts, samePipeline e.2 e.2 = true) : sameParts parts parts = true := by
  induction parts with
  | nil => rfl
  | cons e parts ih =>
    rw [List.forall_mem_cons] at h
    simp only [sameParts, BEq.rfl, h.1, ih h.2, Bool.and_self]

theorem samePath_self {path : List (Selector Pipeline)}
    (h : ∀ s ∈ path, ∀ p ∈ s.parts, samePipeline p p = true) : samePath path path = true := by
  induction path with
  | nil => rfl
  | cons s path ih =>
    rw [List.forall_mem_cons] at h
    have hrest := ih h.2
    have hparts := h.1
    cases s with
    | field key optional =>
      have hkey := hparts key List.mem_cons_self
      simp only [samePath, BEq.rfl, hkey, hrest, Bool.and_self]
    | iterate optional => simp only [samePath, BEq.rfl, hrest, Bool.and_self]
    | slice start stop optional =>
      have hstart := hparts start List.mem_cons_self
      have hstop := hparts stop (List.mem_cons_of_mem _ List.mem_cons_self)
      simp only [samePath, BEq.rfl, hstart, hstop, hrest, Bool.and_self]
    | call args bound optional =>
      have hargs : samePipelines args args = true := samePipelines_self hparts
      simp only [samePath, BEq.rfl, hargs, hrest, Bool.and_self]

theorem sameArithmetic_self {steps : List (ArithmeticOp × Pipeline)}
    (h : ∀ s ∈ steps, samePipeline s.2 s.2 = true) : sameArithmetic steps steps = true := by
  induction steps with
  | nil => rfl
  | cons s steps ih =>
    rw [List.forall_mem_cons] at h
    simp only [sameArithmetic, BEq.rfl, h.1, ih h.2, Bool.and_self]

theorem sameComparisons_self {steps : List (ComparisonOp × Pipeline)}
    (h : ∀ s ∈ steps, samePipeline s.2 s.2 = true) : sameComparisons steps steps = true := by
  induction steps with
  | nil => rfl
  | cons s steps ih =>
    rw [List.forall_mem_cons] at h
    simp only [sameComparisons, BEq.rfl, h.1, ih h.2, Bool.and_self]

theorem sameArms_self {arms : List (Pipeline × Pipeline)}
    (hconditions : ∀ a ∈ arms, samePipeline a.1 a.1 = true)
    (hbodies : ∀ a ∈ arms, samePipeline a.2 a.2 = true) : sameArms arms arms = true := by
  induction arms with
  | nil => rfl
  | cons a arms ih =>
    rw [List.forall_mem_cons] at hconditions hbodies
    simp only [sameArms, hconditions.1, hbodies.1, ih hconditions.2 hbodies.2, Bool.and_self]

theorem sameFields_self {fields : List (Field Pipeline)}
    (hkeys : ∀ f ∈ fields, samePipeline f.key f.key = true)
    (hvalues : ∀ f ∈ fields, samePipeline f.value f.value = true) :
    sameFields fields fields = true := by
  induction fields with
  | nil => rfl
  | cons f fields ih =>
    rw [List.forall_mem_cons] at hkeys hvalues
    simp only [sameFields, BEq.rfl, hkeys.1, hvalues.1, ih hkeys.2 hvalues.2, Bool.and_self]

end JsonPipe
