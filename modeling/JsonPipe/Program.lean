import JsonPipe.Json
import JsonPipe.Run.Call
import JsonPipe.Source.Grammar
import JsonPipe.Source.Printer

/-! Programs: a pipeline with what it needs to run.

    A program is read from text once and then run on any number of inputs. Its presets are the
    names in sight at its start. Inputs and outputs are values, or host data that is converted at
    the border. -/

namespace JsonPipe

/-- Runs a pipeline on several inputs and hands each output to `next`. -/
def Pipeline.execute (limit : Nat) (p : Pipeline) (scope : Scope) (inputs : List Value)
    (next : Value → Except Failure (List Value)) : Except Failure (List Value) :=
  return (← inputs.mapM fun v => p.deliver limit scope v next).flatten

/-- A program that is ready to run. -/
structure Program where
  pipeline : Pipeline
  /-- The names in sight at the start. -/
  presets : Entries Value
  /-- How many closure calls may be nested. -/
  callDepth : Nat

namespace Program

/-- Reads a program. -/
def parse (source : String) (presets : Entries Value) (callDepth : Nat) :
    Except SyntaxError Program :=
  return ⟨← Pipeline.parse source, presets, callDepth⟩

/-- The scope at the start. -/
def scope (p : Program) : Scope := Scope.empty.bindAll p.presets

/-- The program as text. -/
def print (p : Program) : String := p.pipeline.print

/-- Runs the program on a value. -/
def run (p : Program) (input : Value) : Except Failure (List Value) :=
  p.pipeline.evaluate p.callDepth p.scope input

/-- Runs the program on one value after the other and joins the outputs. -/
def runEach (p : Program) (inputs : List Value) : Except Failure (List Value) :=
  p.pipeline.execute p.callDepth p.scope inputs fun v => .ok [v]

/-- Runs the program on host data. -/
def runJson (p : Program) (input : Json) : Except Failure (List Json) := do
  (← p.run input.toValue).mapM Value.toJson

/-- Runs the program on each of several inputs, given as an array. -/
def runBatch (p : Program) (inputs : Json) : Except Failure (List Json) := do
  (← p.runEach (← inputs.toInputs "inputs")).mapM Value.toJson

end Program

/-- Reads the body of a function that sees the presets. -/
def Value.parseFunction (params : List String) (source : String) (presets : Entries Value) :
    Except SyntaxError Value :=
  return .function (.closure params (← Pipeline.parse source) (Scope.empty.bindAll presets))

end JsonPipe
