import JsonPipe.Proofs.Source.Readable
import JsonPipe.Proofs.Syntax.Alike

/-! What the text of a program is read as.

    The text of an instruction is read as that instruction, with what the texts of its operands are
    read as (`Instruction.ReadAs`). Some numbers have no literal, and the instruction without outputs
    has no text of its own: they are written as expressions and read as these. So the text of any
    program that can come out of a text is read as the same program
    (`Instruction.Readable.readAs`). -/

namespace JsonPipe

/-- What the text of a number is read as. -/
def Number.tree : Number → Pipeline
  | .nan => [.calculate [.number (.infinite false)] [(.subtraction, [.number (.infinite false)])]]
  | .infinite true => [.number (.infinite false), .negate]
  | .finite true m => [.number (.finite false m), .negate]
  | n => [.number n]

/-- The instruction, apart from its operands, is one that a text is read as: its names are names, it
    has as many operands as its syntax asks for, and the void that stands for an operand that was
    left out is not one of them. -/
inductive Instruction.Regular : Instruction → Prop
  | null : Regular .null
  | bool (b : Bool) : Regular (.bool b)
  | number {n : Number} (hn : Source.IsLiteral n) : Regular (.number n)
  | string (s : String) : Regular (.string s)
  | interpolated {parts : List (String × Pipeline)} {after : String} (hne : parts ≠ []) :
    Regular (.interpolated parts after)
  | «variable» {name : String} (hname : Source.IsVariableName name) : Regular (.variable name)
  | define {name : String} (body : Pipeline) (hname : Source.IsVariableName name) :
    Regular (.define name body)
  | function {params : List String} (body : Pipeline)
    (hparams : ∀ name ∈ params, Source.IsVariableName name) : Regular (.function params body)
  | access (base : Pipeline) {path : List (Selector Pipeline)} (hne : path ≠ []) :
    Regular (.access base path)
  | assign (base : Pipeline) {path : List (Selector Pipeline)} (op : AssignmentOp)
    (value : Pipeline) (hne : path ≠ []) (hcall : path.any Selector.isCall = false) :
    Regular (.assign base path op value)
  | calculate (base : Pipeline) {steps : List (ArithmeticOp × Pipeline)} (level : Bool)
    (hne : steps ≠ []) (hlevel : ∀ s ∈ steps, s.1.isMultiplicative = level) :
    Regular (.calculate base steps)
  | compare (base : Pipeline) {steps : List (ComparisonOp × Pipeline)} (level : Bool)
    (hne : steps ≠ []) (hlevel : ∀ s ∈ steps, s.1.isEquality = level) :
    Regular (.compare base steps)
  | branch {arms : List (Pipeline × Pipeline)} (otherwise : Option Pipeline) (hne : arms ≠ []) :
    Regular (.branch arms otherwise)
  | and {operands : List Pipeline} (hlength : 2 ≤ operands.length) : Regular (.and operands)
  | or {operands : List Pipeline} (hlength : 2 ≤ operands.length) : Regular (.or operands)
  | coalesce {operands : List Pipeline} (hlength : 2 ≤ operands.length) :
    Regular (.coalesce operands)
  | concat {operands : List Pipeline} (hlength : 2 ≤ operands.length) : Regular (.concat operands)
  | negate : Regular .negate
  | not : Regular .not
  | attempt (body : Pipeline) {handler : Pipeline} (hhandler : handler ≠ [.void]) :
    Regular (.attempt body handler)
  | array {body : Pipeline} (hbody : body ≠ [.void]) : Regular (.array body)
  | object (fields : List (Field Pipeline)) : Regular (.object fields)

mutual

/-- The text of the instruction is read as the given pipeline. -/
inductive Instruction.ReadAs : Instruction → Pipeline → Prop
  | regular {i j : Instruction} : i.Regular → Instruction.Alike Pipeline.ReadAs i j →
    Instruction.ReadAs i [j]
  | number (n : Number) : Instruction.ReadAs (.number n) n.tree
  /-- `[][]` -/
  | void : Instruction.ReadAs .void [.access [.array [.void]] [.iterate false]]
  /-- `[]` -/
  | emptyArray : Instruction.ReadAs (.array [.void]) [.array [.void]]
  /-- `try body` -/
  | suppress {body body' : Pipeline} : Pipeline.ReadAs body body' →
    Instruction.ReadAs (.attempt body [.void]) [.attempt body' [.void]]
  /-- `name += value` -/
  | redefine {name : String} {op : AssignmentOp} {value value' : Pipeline} :
    Source.IsVariableName name → op ≠ .set → Pipeline.ReadAs value value' →
      Instruction.ReadAs (.define name [.assign [.variable name] [] op value])
        [.define name [.assign [.variable name] [] op value']]

/-- The text of the pipeline is read as another one, instruction by instruction. -/
inductive Pipeline.ReadAs : Pipeline → Pipeline → Prop
  | nil : Pipeline.ReadAs [] []
  | cons {i : Instruction} {w p q : Pipeline} : Instruction.ReadAs i w →
    Pipeline.ReadAs p q → Pipeline.ReadAs (i :: p) (w ++ q)

end

/-- What the instructions are read as makes up what the pipeline is read as. -/
theorem Pipeline.ReadAs.rows {p q : Pipeline} (h : p.ReadAs q) :
    ∃ rows, List.Forall₂ Instruction.ReadAs p rows ∧ rows.flatten = q := by
  induction p generalizing q with
  | nil =>
    cases h
    exact ⟨[], .nil, rfl⟩
  | cons i p ih =>
    cases h with
    | cons hi hp =>
      obtain ⟨rows, hrows, rfl⟩ := ih hp
      exact ⟨_ :: rows, .cons hi hrows, rfl⟩

theorem Pipeline.ReadAs.one {i : Instruction} {q : Pipeline} (h : Pipeline.ReadAs [i] q) :
    i.ReadAs q := by
  cases h with
  | cons hi hp =>
    cases hp
    rwa [List.append_nil]

theorem Instruction.ReadAs.variable {name : String} {w : Pipeline}
    (h : (Instruction.variable name).ReadAs w) : w = [.variable name] := by
  cases h with
  | regular _ halike =>
    cases halike
    rfl

theorem Instruction.ReadAs.function {params : List String} {body w : Pipeline}
    (h : (Instruction.function params body).ReadAs w) :
    (∀ name ∈ params, Source.IsVariableName name) ∧
      ∃ body', body.ReadAs body' ∧ w = [.function params body'] := by
  cases h with
  | regular hi halike =>
    cases hi with
    | function _ hparams =>
      cases halike with
      | function _ hbody => exact ⟨hparams, _, hbody, rfl⟩

/-- The text of an assignment to a variable is read as one. -/
theorem Instruction.ReadAs.assign {name : String} {path : List (Selector Pipeline)}
    {op : AssignmentOp} {value w : Pipeline}
    (h : (Instruction.assign [.variable name] path op value).ReadAs w) :
    path ≠ [] ∧ path.any Selector.isCall = false ∧
      ∃ path' value', List.Forall₂ (Selector.Alike Pipeline.ReadAs) path path' ∧
        value.ReadAs value' ∧ w = [.assign [.variable name] path' op value'] := by
  cases h with
  | regular hi halike =>
    cases hi with
    | assign _ _ _ hne hcall =>
      cases halike with
      | assign _ hbase hpath hvalue =>
        rw [hbase.one.variable]
        exact ⟨hne, hcall, _, _, hpath, hvalue, rfl⟩

/-! ### What can come out of a text -/

/-- No instruction without outputs stands alone in what can come out of a text. -/
theorem Pipeline.Readable.ne_void {p : Pipeline} (h : ∀ i ∈ p, i.Readable) : p ≠ [.void] := by
  rintro rfl
  cases h _ List.mem_cons_self

/-- What holds of regular instructions as soon as it holds of all that their operands hold, and of
    those that leave out an operand or a part of one, holds of all that can come out of a text. -/
theorem Instruction.Readable.byParts {motive : Instruction → Prop}
    (regular : ∀ i : Instruction, i.Regular → (∀ p ∈ i.parts, ∀ j ∈ p, motive j) → motive i)
    (redefine : ∀ name op value, Source.IsVariableName name → op ≠ .set → (∀ j ∈ value, motive j) →
      motive (.define name [.assign [.variable name] [] op value]))
    (suppress : ∀ body, (∀ j ∈ body, motive j) → motive (.attempt body [.void]))
    (emptyArray : motive (.array [.void])) {i : Instruction} (h : i.Readable) : motive i := by
  have hone : ∀ {p : Pipeline}, (∀ j ∈ p, motive j) → ∀ q ∈ [p], ∀ j ∈ q, motive j := by
    intro p hp q hq
    rw [List.mem_singleton.1 hq]
    exact hp
  have hpath : ∀ {path : List (Selector Pipeline)},
      (∀ s ∈ path, ∀ q ∈ s.parts, ∀ j ∈ q, motive j) →
        ∀ q ∈ path.flatMap Selector.parts, ∀ j ∈ q, motive j := by
    intro path h q hq
    obtain ⟨s, hs, hq⟩ := List.mem_flatMap.1 hq
    exact h s hs q hq
  induction h with
  | null => exact regular _ .null nofun
  | bool b => exact regular _ (.bool b) nofun
  | number hn => exact regular _ (.number hn) nofun
  | string s => exact regular _ (.string s) nofun
  | interpolated hne _ ih => exact regular _ (.interpolated hne) (List.forall_mem_map.2 ih)
  | «variable» hname => exact regular _ (.variable hname) nofun
  | define hname _ ih => exact regular _ (.define _ hname) (hone ih)
  | redefine hname hop _ ih => exact redefine _ _ _ hname hop ih
  | function hparams _ ih => exact regular _ (.function _ hparams) (hone ih)
  | access _ hne _ ihbase ihpath =>
    exact regular _ (.access _ hne) (List.forall_mem_cons.2 ⟨ihbase, hpath ihpath⟩)
  | assign _ hne hcall _ _ ihbase ihpath ihvalue =>
    exact regular _ (.assign _ _ _ hne hcall)
      (List.forall_mem_cons.2 ⟨ihbase, List.forall_mem_cons.2 ⟨ihvalue, hpath ihpath⟩⟩)
  | calculate level _ hne hlevel _ ihbase ihsteps =>
    exact regular _ (.calculate _ level hne hlevel)
      (List.forall_mem_cons.2 ⟨ihbase, List.forall_mem_map.2 ihsteps⟩)
  | compare level _ hne hlevel _ ihbase ihsteps =>
    exact regular _ (.compare _ level hne hlevel)
      (List.forall_mem_cons.2 ⟨ihbase, List.forall_mem_map.2 ihsteps⟩)
  | branch hne _ _ _ ihconditions ihbodies ihotherwise =>
    refine regular _ (.branch _ hne) (List.forall_mem_append.2 ⟨List.forall_mem_append.2
      ⟨List.forall_mem_map.2 ihconditions, List.forall_mem_map.2 ihbodies⟩, fun p hp => ?_⟩)
    exact ihotherwise p (Option.mem_toList.1 hp)
  | and hlength _ ih => exact regular _ (.and hlength) ih
  | or hlength _ ih => exact regular _ (.or hlength) ih
  | coalesce hlength _ ih => exact regular _ (.coalesce hlength) ih
  | concat hlength _ ih => exact regular _ (.concat hlength) ih
  | negate => exact regular _ .negate nofun
  | not => exact regular _ .not nofun
  | attempt _ hhandler ihbody ihhandler =>
    exact regular _ (.attempt _ (Pipeline.Readable.ne_void hhandler))
      (List.forall_mem_cons.2 ⟨ihbody, hone ihhandler⟩)
  | suppress _ ih => exact suppress _ ih
  | array hbody ih => exact regular _ (.array (Pipeline.Readable.ne_void hbody)) (hone ih)
  | emptyArray => exact emptyArray
  | object _ _ ihkeys ihvalues =>
    exact regular _ (.object _) (List.forall_mem_append.2
      ⟨List.forall_mem_map.2 ihkeys, List.forall_mem_map.2 ihvalues⟩)

theorem Pipeline.readAs_self {p : Pipeline} (h : ∀ i ∈ p, i.ReadAs [i]) : p.ReadAs p := by
  induction p with
  | nil => exact .nil
  | cons i p ih =>
    obtain ⟨hi, hp⟩ := List.forall_mem_cons.1 h
    exact .cons hi (ih hp)

/-- The text of an instruction that can come out of a text is read as that instruction. -/
theorem Instruction.Readable.readAs {i : Instruction} (h : i.Readable) : i.ReadAs [i] := by
  refine byParts (motive := fun i => i.ReadAs [i]) ?regular ?redefine ?suppress .emptyArray h
  case regular =>
    exact fun i hi ih => .regular hi (i.alike_self fun p hp => Pipeline.readAs_self (ih p hp))
  case redefine =>
    exact fun _ _ _ hname hop ih => .redefine hname hop (Pipeline.readAs_self ih)
  case suppress =>
    exact fun _ ih => .suppress (Pipeline.readAs_self ih)

theorem Pipeline.Readable.readAs {p : Pipeline} (h : p.Readable) : p.ReadAs p :=
  Pipeline.readAs_self fun i hi => (h i hi).readAs

end JsonPipe
