import JsonPipe.Failure
import JsonPipe.Product

/-! Outcomes: outputs in order, then perhaps a failure.

    Running a pipeline on a value gives an outcome. An outcome is produced step by step: after each
    output the rest is only computed when it is asked for, so a failure further on ends a run
    before the outputs that nobody needs are made. Outcomes are chained by feeding every output of
    the first to the next step: the outputs of the steps are joined, and the first failure that is
    reached ends everything after it. That makes outcomes a monad. All that can be seen of an
    outcome are its outputs and its failure (`ext_view`). -/

namespace JsonPipe

/-- What a run produces: an end, a failure, or an output and what comes after it. -/
inductive Outcome (α : Type) where
  | done
  | fail (e : Failure)
  | next (a : α) (rest : Unit → Outcome α)

namespace Outcome

variable {α β γ : Type}

/-- The outputs, in order. -/
def outputs : Outcome α → List α
  | .done => []
  | .fail _ => []
  | .next a rest => a :: outputs (rest ())

/-- The failure at the end, if there is one. -/
def failure : Outcome α → Option Failure
  | .done => none
  | .fail e => some e
  | .next _ rest => failure (rest ())

/-- One output. -/
def one (a : α) : Outcome α := .next a fun _ => .done

/-- Several outputs. -/
def ofList : List α → Outcome α
  | [] => .done
  | a :: as => .next a fun _ => ofList as

/-- The outputs of a result that comes all at once. -/
def ofExcept : Except Failure (List α) → Outcome α
  | .ok as => ofList as
  | .error e => .fail e

/-- All outputs after those in `seen`, which are in reverse, unless the run fails. -/
def collectAfter (seen : List α) : Outcome α → Except Failure (List α)
  | .done => .ok seen.reverse
  | .fail e => .error e
  | .next a rest => collectAfter (a :: seen) (rest ())

/-- All outputs, unless the run fails. -/
def collect (o : Outcome α) : Except Failure (List α) := collectAfter [] o

/-- The first outcome and, if it does not fail, the second. -/
def append (o : Outcome α) (more : Unit → Outcome α) : Outcome α :=
  match o with
  | .done => more ()
  | .fail e => .fail e
  | .next a rest => .next a fun _ => append (rest ()) more

/-- The outcome with every output changed by `f`. -/
def map (f : α → β) : Outcome α → Outcome β
  | .done => .done
  | .fail e => .fail e
  | .next a rest => .next (f a) fun _ => map f (rest ())

/-- Feeds every output to `f`. -/
def bind (o : Outcome α) (f : α → Outcome β) : Outcome β :=
  match o with
  | .done => .done
  | .fail e => .fail e
  | .next a rest =>
    match f a with
    | .done => bind (rest ()) f
    | .fail e => .fail e
    | .next b more => .next b fun _ => append (more ()) fun _ => bind (rest ()) f

/-- The outcome with its failure enclosed once more. -/
def enclosed : Outcome α → Outcome α
  | .done => .done
  | .fail e => .fail e.enclose
  | .next a rest => .next a fun _ => enclosed (rest ())

/-- Goes on with `handler` in place of a failure that may be caught; any other failure passes and
    is disclosed once. -/
def intercept (handler : Failure → Outcome α) : Outcome α → Outcome α
  | .done => .done
  | .fail e => if e.isCatchable then handler e else .fail e.disclose
  | .next a rest => .next a fun _ => intercept handler (rest ())

/-- Hands every output to `f` and joins the results, unless something fails. -/
def each (o : Outcome α) (f : α → Except Failure (List β)) : Except Failure (List β) :=
  (o.bind fun a => ofExcept (f a)).collect

/-- Every way to take one element from each list, as long as none of them is empty. -/
def choicesFrom : List (List α) → Outcome (List α)
  | [] => one []
  | xs :: rest => (ofList xs).bind fun x => (choicesFrom rest).map (x :: ·)

/-- Every choice of one element from each list, the last list varying fastest. -/
def choices (lists : List (List α)) : Outcome (List α) :=
  if lists.any List.isEmpty then .done else choicesFrom lists

instance : Monad Outcome where
  pure := one
  bind := bind

/-! ### What can be seen of an outcome -/

/-- Outcomes with the same outputs and the same failure are the same. -/
theorem ext_view {o p : Outcome α} (ho : o.outputs = p.outputs) (hf : o.failure = p.failure) :
    o = p := by
  induction o generalizing p with
  | done => cases p <;> simp_all [outputs, failure]
  | fail e => cases p <;> simp_all [outputs, failure]
  | next a rest ih =>
    cases p with
    | done => simp [outputs] at ho
    | fail e => simp [outputs] at ho
    | next b more =>
      simp only [outputs, List.cons.injEq] at ho
      simp only [failure] at hf
      rw [ho.1]
      congr 1
      funext u
      exact ih u ho.2 hf

@[simp] theorem outputs_one (a : α) : (one a).outputs = [a] := rfl

@[simp] theorem failure_one (a : α) : (one a).failure = none := rfl

@[simp] theorem outputs_ofList (as : List α) : (ofList as).outputs = as := by
  induction as with
  | nil => rfl
  | cons a as ih => simp [ofList, outputs, ih]

@[simp] theorem failure_ofList (as : List α) : (ofList as).failure = none := by
  induction as with
  | nil => rfl
  | cons a as ih => simp [ofList, failure, ih]

/-- Collecting gives the outputs, or the failure if there is one. -/
theorem collectAfter_eq (seen : List α) (o : Outcome α) :
    collectAfter seen o = match o.failure with
      | none => .ok (seen.reverse ++ o.outputs)
      | some e => .error e := by
  induction o generalizing seen with
  | done => simp [collectAfter, failure, outputs]
  | fail e => simp [collectAfter, failure]
  | next a rest ih =>
    simp only [collectAfter, failure, outputs, ih]
    cases (rest ()).failure <;> simp

theorem collect_eq (o : Outcome α) :
    o.collect = match o.failure with
      | none => .ok o.outputs
      | some e => .error e :=
  collectAfter_eq [] o

/-! ### Laws -/

@[simp] theorem done_append (more : Unit → Outcome α) : append done more = more () := rfl

@[simp] theorem fail_append (e : Failure) (more : Unit → Outcome α) :
    append (fail e) more = fail e := rfl

@[simp] theorem next_append (a : α) (rest more : Unit → Outcome α) :
    append (next a rest) more = next a fun _ => (rest ()).append more := rfl

@[simp] theorem append_done (o : Outcome α) : (o.append fun _ => done) = o := by
  induction o with
  | done => rfl
  | fail e => rfl
  | next a rest ih => simp [ih]

theorem append_assoc (o : Outcome α) (p q : Unit → Outcome α) :
    (o.append p).append q = o.append fun _ => (p ()).append q := by
  induction o with
  | done => rfl
  | fail e => rfl
  | next a rest ih => simp [ih]

@[simp] theorem done_bind (f : α → Outcome β) : bind done f = done := rfl

@[simp] theorem fail_bind (e : Failure) (f : α → Outcome β) : bind (fail e) f = fail e := rfl

/-- The first output is fed first, the others if it did not fail. -/
theorem next_bind (a : α) (rest : Unit → Outcome α) (f : α → Outcome β) :
    bind (next a rest) f = (f a).append fun _ => (rest ()).bind f := by
  simp only [bind]
  cases f a <;> rfl

theorem append_bind (o : Outcome α) (p : Unit → Outcome α) (f : α → Outcome β) :
    (o.append p).bind f = (o.bind f).append fun _ => (p ()).bind f := by
  induction o with
  | done => rfl
  | fail e => rfl
  | next a rest ih => simp only [next_append, next_bind, ih, append_assoc]

@[simp] theorem one_bind (a : α) (f : α → Outcome β) : (one a).bind f = f a := by
  simp [one, next_bind]

@[simp] theorem bind_one (o : Outcome α) : o.bind one = o := by
  induction o with
  | done => rfl
  | fail e => rfl
  | next a rest ih => simp only [next_bind, one, next_append, done_append, ih]

/-- Feeding in two steps is feeding in one. -/
theorem bind_assoc (o : Outcome α) (f : α → Outcome β) (g : β → Outcome γ) :
    (o.bind f).bind g = o.bind fun a => (f a).bind g := by
  induction o with
  | done => rfl
  | fail e => rfl
  | next a rest ih => simp only [next_bind, append_bind, ih]

/-- Changing every output is feeding it to the change. -/
theorem map_eq_bind (f : α → β) (o : Outcome α) : o.map f = o.bind fun a => one (f a) := by
  induction o with
  | done => rfl
  | fail e => rfl
  | next a rest ih => simp only [map, next_bind, one, next_append, done_append, ih]

/-! ### Choices -/

/-- Feeding the elements of a list to steps that do not fail joins the outputs. -/
theorem ofList_bind_ofList (as : List α) (f : α → List β) :
    ((ofList as).bind fun a => ofList (f a)) = ofList (as.flatMap f) := by
  induction as with
  | nil => rfl
  | cons a as ih =>
    simp only [ofList, next_bind, ih, List.flatMap_cons]
    generalize f a = bs
    induction bs with
    | nil => rfl
    | cons b bs ihb => simp [ofList, ihb]

theorem map_ofList (f : α → β) (as : List α) : (ofList as).map f = ofList (as.map f) := by
  induction as with
  | nil => rfl
  | cons a as ih => simp [ofList, map, ih]

theorem choicesFrom_eq (lists : List (List α)) : choicesFrom lists = ofList (product lists) := by
  induction lists with
  | nil => rfl
  | cons xs rest ih => simp only [choicesFrom, ih, map_ofList, ofList_bind_ofList, product]

/-- The choices are those of the product, in the same order. -/
theorem choices_eq (lists : List (List α)) : choices lists = ofList (product lists) := by
  unfold choices
  split
  · rename_i h
    rw [product_eq_nil_of_any h]
    rfl
  · exact choicesFrom_eq lists

end Outcome

end JsonPipe
