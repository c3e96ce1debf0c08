import JsonPipe.Proofs.Source.Literal
import JsonPipe.Proofs.Syntax.Induction

/-! The programs that a text can stand for.

    Not every tree is the result of reading a text: numbers are never negative, operators of one
    level are never mixed with those of another, nothing has fewer operands than its syntax asks
    for, and the instruction without outputs stands in two places only. `Readable` says so for an
    instruction and all that it holds. -/

namespace JsonPipe

/-- The instruction can come out of a program text, with all that it holds. -/
inductive Instruction.Readable : Instruction → Prop
  | null : Readable .null
  | bool (b : Bool) : Readable (.bool b)
  | number {n : Number} (hn : Source.IsLiteral n) : Readable (.number n)
  | string (s : String) : Readable (.string s)
  | interpolated {parts : List (String × Pipeline)} {after : String} (hne : parts ≠ [])
      (hparts : ∀ e ∈ parts, ∀ i ∈ e.2, Readable i) : Readable (.interpolated parts after)
  | «variable» {name : String} (hname : Source.IsVariableName name) : Readable (.variable name)
  | define {name : String} {body : Pipeline} (hname : Source.IsVariableName name)
      (hbody : ∀ i ∈ body, Readable i) : Readable (.define name body)
  /-- `name += value` -/
  | redefine {name : String} {op : AssignmentOp} {value : Pipeline}
      (hname : Source.IsVariableName name) (hop : op ≠ .set) (hvalue : ∀ i ∈ value, Readable i) :
      Readable (.define name [.assign [.variable name] [] op value])
  | function {params : List String} {body : Pipeline}
      (hparams : ∀ name ∈ params, Source.IsVariableName name) (hbody : ∀ i ∈ body, Readable i) :
      Readable (.function params body)
  | access {base : Pipeline} {path : List (Selector Pipeline)} (hbase : ∀ i ∈ base, Readable i)
      (hne : path ≠ []) (hpath : ∀ s ∈ path, ∀ q ∈ s.parts, ∀ i ∈ q, Readable i) :
      Readable (.access base path)
  | assign {base : Pipeline} {path : List (Selector Pipeline)} {op : AssignmentOp}
      {value : Pipeline} (hbase : ∀ i ∈ base, Readable i) (hne : path ≠ [])
      (hcall : path.any Selector.isCall = false)
      (hpath : ∀ s ∈ path, ∀ q ∈ s.parts, ∀ i ∈ q, Readable i)
      (hvalue : ∀ i ∈ value, Readable i) : Readable (.assign base path op value)
  | calculate {base : Pipeline} {steps : List (ArithmeticOp × Pipeline)} (level : Bool)
      (hbase : ∀ i ∈ base, Readable i) (hne : steps ≠ [])
      (hlevel : ∀ s ∈ steps, s.1.isMultiplicative = level)
      (hsteps : ∀ s ∈ steps, ∀ i ∈ s.2, Readable i) : Readable (.calculate base steps)
  | compare {base : Pipeline} {steps : List (ComparisonOp × Pipeline)} (level : Bool)
      (hbase : ∀ i ∈ base, Readable i) (hne : steps ≠ [])
      (hlevel : ∀ s ∈ steps, s.1.isEquality = level)
      (hsteps : ∀ s ∈ steps, ∀ i ∈ s.2, Readable i) : Readable (.compare base steps)
  | branch {arms : List (Pipeline × Pipeline)} {otherwise : Option Pipeline} (hne : arms ≠ [])
      (hconditions : ∀ a ∈ arms, ∀ i ∈ a.1, Readable i)
      (hbodies : ∀ a ∈ arms, ∀ i ∈ a.2, Readable i)
      (hotherwise : ∀ p, otherwise = some p → ∀ i ∈ p, Readable i) :
      Readable (.branch arms otherwise)
  | and {operands : List Pipeline} (hlength : 2 ≤ operands.length)
      (hoperands : ∀ p ∈ operands, ∀ i ∈ p, Readable i) : Readable (.and operands)
  | or {operands : List Pipeline} (hlength : 2 ≤ operands.length)
      (hoperands : ∀ p ∈ operands, ∀ i ∈ p, Readable i) : Readable (.or operands)
  | coalesce {operands : List Pipeline} (hlength : 2 ≤ operands.length)
      (hoperands : ∀ p ∈ operands, ∀ i ∈ p, Readable i) : Readable (.coalesce operands)
  | concat {operands : List Pipeline} (hlength : 2 ≤ operands.length)
      (hoperands : ∀ p ∈ operands, ∀ i ∈ p, Readable i) : Readable (.concat operands)
  | negate : Readable .negate
  | not : Readable .not
  | attempt {body handler : Pipeline} (hbody : ∀ i ∈ body, Readable i)
      (hhandler : ∀ i ∈ handler, Readable i) : Readable (.attempt body handler)
  /-- `try body` -/
  | suppress {body : Pipeline} (hbody : ∀ i ∈ body, Readable i) :
      Readable (.attempt body [.void])
  | array {body : Pipeline} (hbody : ∀ i ∈ body, Readable i) : Readable (.array body)
  /-- `[]` -/
  | emptyArray : Readable (.array [.void])
  | object {fields : List (Field Pipeline)} (hkeys : ∀ f ∈ fields, ∀ i ∈ f.key, Readable i)
      (hvalues : ∀ f ∈ fields, ∀ i ∈ f.value, Readable i) : Readable (.object fields)

/-- The pipeline can come out of a program text. -/
def Pipeline.Readable (p : Pipeline) : Prop := ∀ i ∈ p, i.Readable

namespace Source

theorem readable_nil : Pipeline.Readable [] := by
  intro i hi
  cases hi

theorem readable_one {i : Instruction} (h : i.Readable) : Pipeline.Readable [i] := by
  intro j hj
  rw [List.mem_singleton.1 hj]
  exact h

theorem readable_append {p q : Pipeline} (hp : p.Readable) (hq : q.Readable) :
    Pipeline.Readable (p ++ q) :=
  fun i hi => (List.mem_append.1 hi).elim (hp i) (hq i)

/-- The operands of a selector are readable. -/
def SelectorReadable (s : Selector Pipeline) : Prop := ∀ q ∈ s.parts, Pipeline.Readable q

end Source

end JsonPipe
