import JsonPipe.Proofs.Source.Image
import JsonPipe.Proofs.Source.Primaries
import JsonPipe.Proofs.Syntax.Same

/-! Printing and parsing.

    A reader that is fluent up to a size makes the level of `try` on top of it fluent up to a
    greater one (`Fluent.step`), so the reader of a program with nesting up to a depth is fluent up
    to that size (`fluent_route`). The text of a program bounds its nesting, so a text is parsed as
    what it is read as (`Pipeline.ReadAs.parse_print`). What is read from a text can be read back, so
    a program that was parsed is the same after it is printed and parsed again
    (`Pipeline.parse_print`). -/

namespace JsonPipe

namespace Source

open Reader

/-! ### Pipelines instruction by instruction -/

/-- The instructions of a pipeline are written with a pipe in between. -/
theorem pipelineText_cons (i : Instruction) (more : List Instruction) (rest : List Char) :
    pipelineText (i :: more) rest = instructionText i
      (more.foldr (fun j t => " | ".toList ++ instructionText j t) rest) := by
  induction more generalizing i with
  | nil => rfl
  | cons j more ih =>
    rw [List.foldr_cons, ← ih]
    rfl

/-! ### Fluency -/

section Instructions

variable {inner : Rule} {size : Nat} (hf : Fluent inner size)
include hf

/-- Every instruction with a text that can be read is read as it should be. -/
theorem readsBack_of_readAs {i : Instruction} {w : Pipeline} (h : i.ReadAs w) :
    ReadsBack inner (size + 1) i w := by
  cases h with
  | number n => exact number_readsBack hf n
  | void => exact void_readsBack hf
  | emptyArray => exact emptyArray_readsBack
  | suppress hbody => exact suppress_readsBack hf hbody
  | redefine hname hop hvalue => exact redefine_readsBack hf hname hop hvalue
  | regular hi halike =>
    cases halike with
    | null => exact null_readsBack
    | bool b => exact bool_readsBack b
    | string s => exact string_readsBack s
    | negate => exact negate_readsBack
    | not => exact not_readsBack
    | number n =>
      cases hi with
      | number hn => exact literal_readsBack hn
    | interpolated after hparts =>
      cases hi with
      | interpolated hne => exact interpolated_readsBack hf hne hparts
    | «variable» name =>
      cases hi with
      | «variable» hname => exact variable_readsBack hname
    | define name hbody =>
      cases hi with
      | define _ hname => exact define_readsBack hf hname hbody
    | function params hbody =>
      cases hi with
      | function _ hparams => exact function_readsBack hf hparams hbody
    | access hbase hpath =>
      cases hi with
      | access _ hne => exact access_readsBack hf hbase hne hpath
    | assign op hbase hpath hvalue =>
      cases hi with
      | assign _ _ _ hne hcall => exact assign_readsBack hf hbase hne hpath hcall op hvalue
    | calculate hbase hsteps =>
      cases hi with
      | calculate _ level hne hlevel => exact calculate_readsBack hf level hbase hne hlevel hsteps
    | compare hbase hsteps =>
      cases hi with
      | compare _ level hne hlevel => exact compare_readsBack hf level hbase hne hlevel hsteps
    | branch harms hotherwise =>
      cases hi with
      | branch _ hne => exact branch_readsBack hf hne harms hotherwise
    | and hoperands =>
      cases hi with
      | and hlength => exact and_readsBack hf hlength hoperands
    | or hoperands =>
      cases hi with
      | or hlength => exact or_readsBack hf hlength hoperands
    | coalesce hoperands =>
      cases hi with
      | coalesce hlength => exact coalesce_readsBack hf hlength hoperands
    | concat hoperands =>
      cases hi with
      | concat hlength => exact concat_readsBack hf hlength hoperands
    | attempt hbody hhandler =>
      cases hi with
      | attempt _ hvoid => exact attempt_readsBack hf hvoid hbody hhandler
    | array hbody =>
      cases hi with
      | array hvoid => exact array_readsBack hf hvoid hbody
    | object hfields => exact object_readsBack hf hfields
    | void => cases hi

/-- A pipeline is read instruction by instruction. -/
theorem pipeline_reads {p q : Pipeline} (hp : p.ReadAs q) {rest : List Char}
    (hrest : closes rest = true) (hsize : (pipelineText p rest).length ≤ size + 1) :
    Reads (pipe (attempt inner)) (pipelineText p rest) q rest := by
  have hfollows := follows_of_closes hrest
  have hstripped := stripped_of_closes hrest
  have hdone : Reads (symbolNotBefore "|" "=") (stripped rest) false (stripped rest) := by
    rw [hstripped]
    exact symbol_miss (no_pipe_of_closes hrest)
  suffices h : Reads (pipe (attempt inner)) (pipelineText p rest) q (stripped rest) by
    rwa [hstripped] at h
  obtain ⟨rows, hrows, rfl⟩ := hp.rows
  cases hrows with
  | nil =>
    have hbare := Bare.point rest
    have hpoint : Reads (outputs (attempt inner)) ('.' :: rest) [] (stripped rest) :=
      hbare.outputs hfollows (Nat.zero_le 9) (hbare.negation (point_reads hfollows))
    exact (hpoint.separated_one hdone).bind (takes_pure _)
  | @cons i w more rows hi hmore =>
    have hread : ∀ j ∈ more, ∃ w, j.ReadAs w :=
      ((List.forall₂_and_left more rows).1 (hmore.imp fun _ w h => ⟨⟨w, h⟩, h⟩)).1
    rw [pipelineText_cons] at hsize ⊢
    have hseparator : ∀ j ∈ more, ∀ t, Reads (symbolNotBefore "|" "=")
        (stripped (" | ".toList ++ instructionText j t)) true (instructionText j t) := by
      intro j hj t
      obtain ⟨w, hjw⟩ := hread j hj
      have hsolid := isSolid_of_opens (opens_instructionText hjw t)
      exact symbol_hit Apart "|" "=" (t := ' ' :: instructionText j t) rfl (by decide) rfl hsolid
    have hreads := separated_reads instructionText Follows
      ((List.Forall₂.cons hi hmore).imp fun j w hjw t => readsBack_of_readAs hf hjw t)
      (fun _ _ _ => .pipe _) hseparator (fun j _ => (instructionText_fronts j).length_le)
      (by decide) hfollows hdone hsize
    rw [← splice_eq]
    exact hreads.bind (takes_pure _)

/-- Each level of nesting makes a reader fluent with longer texts. -/
theorem Fluent.step : Fluent (Source.attempt inner) (size + 1) where
  pipeline _ _ _ hp hrest hsize := pipeline_reads hf hp hrest hsize
  operand := hf.attempt
  notNumber _ := notNumber_reads

end Instructions

/-- The reader of programs with nesting up to a depth is fluent up to that size. -/
theorem fluent_route (depth : Nat) : Fluent (route depth) depth := by
  induction depth with
  | zero =>
    -- no pipeline is written as the empty text
    refine ⟨fun p q rest hp _ hsize => ?_, fun p q rest _ _ _ hsize => ?_, fun h => absurd rfl h⟩
    · have hopens := opens_pipelineText hp rest
      rw [List.length_eq_zero_iff.1 (Nat.le_zero.1 hsize)] at hopens
      cases hopens
    · have := length_groupText p rest
      omega
  | succ depth ih => exact ih.step

end Source

/-! ### Equality of trees -/

/-- What can come out of a text equals itself, for no literal stands for a NaN. -/
theorem Instruction.Readable.same {i : Instruction} (h : i.Readable) : i.same i = true := by
  induction h with
  | null | negate | not | emptyArray => rfl
  | bool b => exact BEq.rfl
  | number hn => cases hn <;> simp [Instruction.same, Number.sameValue]
  | string s => exact BEq.rfl
  | «variable» hname => exact BEq.rfl
  | interpolated hne hparts ih =>
    have hsame := sameParts_self fun e he => samePipeline_self (ih e he)
    simp only [Instruction.same, hsame, BEq.rfl, Bool.and_self]
  | define hname hbody ih =>
    simp only [Instruction.same, BEq.rfl, samePipeline_self ih, Bool.and_self]
  | redefine hname hop hvalue ih =>
    simp only [Instruction.same, samePipeline, samePath, BEq.rfl, samePipeline_self ih,
      Bool.and_self]
  | function hparams hbody ih =>
    simp only [Instruction.same, BEq.rfl, samePipeline_self ih, Bool.and_self]
  | access hbase hne hpath ihbase ihpath =>
    have hsame := samePath_self fun s hs p hp => samePipeline_self (ihpath s hs p hp)
    simp only [Instruction.same, samePipeline_self ihbase, hsame, Bool.and_self]
  | assign hbase hne hcall hpath hvalue ihbase ihpath ihvalue =>
    have hsame := samePath_self fun s hs p hp => samePipeline_self (ihpath s hs p hp)
    simp only [Instruction.same, BEq.rfl, samePipeline_self ihbase, samePipeline_self ihvalue,
      hsame, Bool.and_self]
  | calculate level hbase hne hlevel hsteps ihbase ihsteps =>
    have hsame := sameArithmetic_self fun s hs => samePipeline_self (ihsteps s hs)
    simp only [Instruction.same, samePipeline_self ihbase, hsame, Bool.and_self]
  | compare level hbase hne hlevel hsteps ihbase ihsteps =>
    have hsame := sameComparisons_self fun s hs => samePipeline_self (ihsteps s hs)
    simp only [Instruction.same, samePipeline_self ihbase, hsame, Bool.and_self]
  | @branch arms otherwise hne hconditions hbodies hotherwise ihconditions ihbodies ihotherwise =>
    have hsame := sameArms_self (fun a ha => samePipeline_self (ihconditions a ha))
      fun a ha => samePipeline_self (ihbodies a ha)
    cases otherwise with
    | none => simp only [Instruction.same, hsame]
    | some p =>
      simp only [Instruction.same, hsame, samePipeline_self (ihotherwise p rfl), Bool.and_self]
  | and _ _ ih | or _ _ ih | coalesce _ _ ih | concat _ _ ih =>
    exact samePipelines_self fun p hp => samePipeline_self (ih p hp)
  | attempt hbody hhandler ihbody ihhandler =>
    simp only [Instruction.same, samePipeline_self ihbody, samePipeline_self ihhandler,
      Bool.and_self]
  | suppress hbody ih =>
    simp only [Instruction.same, samePipeline, samePipeline_self ih, Bool.and_self]
  | array hbody ih => exact samePipeline_self ih
  | object hkeys hvalues ihkeys ihvalues =>
    exact sameFields_self (fun f hf => samePipeline_self (ihkeys f hf))
      fun f hf => samePipeline_self (ihvalues f hf)

/-! ### Programs -/

/-- The text of a program is parsed as what it is read as. -/
theorem Pipeline.ReadAs.parse_print {p q : Pipeline} (h : p.ReadAs q) :
    Pipeline.parse p.print = .ok q := by
  have hfluent := Source.fluent_route ((Source.pipelineText p []).length + 1)
  refine Source.parse_of_reads (Source.program_of_pipe (Source.opens_pipelineText h []) ?_)
  exact hfluent.pipeline p q [] h rfl (Nat.le_succ _)

/-- A program that can come out of a text is what its own text is read as. -/
theorem Pipeline.parse_print {p : Pipeline} (hp : p.Readable) :
    Pipeline.parse p.print = .ok p := hp.readAs.parse_print

/-- A program that was parsed is printed as a text that is parsed as the same program, also by the
    equality of trees that compares numbers by value. -/
theorem Pipeline.parse_print_of_parse {source : String} {p : Pipeline}
    (h : Pipeline.parse source = .ok p) :
    Pipeline.parse p.print = .ok p ∧ samePipeline p p = true := by
  have hp := Pipeline.readable_of_parse h
  exact ⟨Pipeline.parse_print hp, samePipeline_self fun i hi => (hp i hi).same⟩

theorem Pipeline.parse_print_of_parse_forms :
    ∃ p, Pipeline.parse "x.k ?= try f(.) | func g(): []" = .ok p ∧
      p.print = "x[(\"k\")] ?= (try ((f)((.)))) | func g(): ([])" ∧
      Pipeline.parse p.print = .ok p ∧ samePipeline p p = true := by
  have hprint : (Pipeline.parse "x.k ?= try f(.) | func g(): []").toOption.map Pipeline.print =
      some "x[(\"k\")] ?= (try ((f)((.)))) | func g(): ([])" := by decide +kernel
  cases hp : Pipeline.parse "x.k ?= try f(.) | func g(): []" with
  | error e => rw [hp] at hprint; cases hprint
  | ok p =>
    rw [hp] at hprint
    exact ⟨p, rfl, Option.some.inj hprint, Pipeline.parse_print_of_parse hp⟩

end JsonPipe
