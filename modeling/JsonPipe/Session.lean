import JsonPipe.Program

/-! Sessions: named values that last over several runs.

    A session keeps a table of named values. Every step sees the table as its outermost scope, may
    change it, and answers; a step that fails leaves the table as it was and does not end the
    session. -/

namespace JsonPipe

/-- A table of named values and the limit of its runs. -/
structure Session where
  /-- How many closure calls may be nested. -/
  limit : Nat
  table : Entries Value

namespace Session

/-- A session without named values. -/
def start (limit : Nat) : Session := ⟨limit, []⟩

/-- One step of a session. -/
inductive Step where
  | set (name : String) (value : Value)
  | unset (name : String)
  /-- Reads a function that sees the table as it is now. -/
  | define (name : String) (params : List String) (source : String)
  /-- Runs a program; the last output may be stored. -/
  | run (source : String) (input : Value) (store : Option String)
  /-- Runs a program on several inputs, passing each output on once or twice. -/
  | each (source : String) (inputs : List Value) (twice : Bool) (store : Option String)
  | call (name : String) (input : Value) (args : List Value) (store : Option String)
  | vars

/-- The answer to a step. -/
inductive Reply where
  | stored (name : String)
  | removed (found : Bool)
  | value (v : Value)
  | outputs (vs : List Value)
  | vars (table : Entries Value)
  | misread (source : String) (e : SyntaxError)
  | failed (e : Failure)

/-- Stores a value. -/
def insert (name : String) (value : Value) (s : Session) : Session :=
  { s with table := s.table.insert name value }

/-- The table as a scope. -/
def scope (s : Session) : Scope := Scope.empty.bindAll s.table

/-- Answers with outputs and stores the last of them if asked to. -/
def conclude (s : Session) (store : Option String) :
    Except Failure (List Value) → Session × Reply
  | .ok vs =>
    match store, vs.getLast? with
    | some name, some v => (s.insert name v, .outputs vs)
    | _, _ => (s, .outputs vs)
  | .error e => (s, .failed e)

/-- Performs a step. -/
def perform (s : Session) : Step → Session × Reply
  | .set name value => (s.insert name value, .stored name)
  | .unset name =>
    ({ s with table := s.table.erase name }, .removed (s.table.get? name).isSome)
  | .define name params source =>
    match Value.parseFunction params source s.table with
    | .ok f => (s.insert name f, .value f)
    | .error e => (s, .misread source e)
  | .run source input store =>
    match Pipeline.parse source with
    | .ok p => s.conclude store (p.evaluate s.limit s.scope input)
    | .error e => (s, .misread source e)
  | .each source inputs twice store =>
    match Pipeline.parse source with
    | .ok p =>
      s.conclude store
        (p.execute s.limit s.scope inputs fun v => .ok (if twice then [v, v] else [v]))
    | .error e => (s, .misread source e)
  | .call name input args store =>
    s.conclude store (((s.table.get? name).getD .null).call s.limit input args)
  | .vars => (s, .vars s.table)

end Session

end JsonPipe
