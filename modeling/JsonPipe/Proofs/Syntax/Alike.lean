import JsonPipe.Proofs.Syntax.Induction
import Mathlib.Data.List.Forall2

/-! Instructions that differ in their operands only.

    `Instruction.Alike R` relates instructions that are the same but for the pipelines that they
    hold, which are in the relation `R` at corresponding places. -/

namespace JsonPipe

/-- The same step, with related operands. -/
inductive Selector.Alike {π : Type} (R : π → π → Prop) : Selector π → Selector π → Prop
  | field {key key' : π} (optional : Bool) : R key key' →
    Alike R (.field key optional) (.field key' optional)
  | iterate (optional : Bool) : Alike R (.iterate optional) (.iterate optional)
  | slice {start start' stop stop' : π} (optional : Bool) : R start start' → R stop stop' →
    Alike R (.slice start stop optional) (.slice start' stop' optional)
  | call {args args' : List π} (bound optional : Bool) : List.Forall₂ R args args' →
    Alike R (.call args bound optional) (.call args' bound optional)

/-- An entry with a related key and a related value. -/
inductive Field.Alike {π : Type} (R : π → π → Prop) : Field π → Field π → Prop
  | mk {key key' value value' : π} (optional : Bool) : R key key' → R value value' →
    Alike R ⟨key, value, optional⟩ ⟨key', value', optional⟩

/-- The same instruction, with related pipelines in it. -/
inductive Instruction.Alike (R : Pipeline → Pipeline → Prop) : Instruction → Instruction → Prop
  | null : Alike R .null .null
  | bool (b : Bool) : Alike R (.bool b) (.bool b)
  | number (n : Number) : Alike R (.number n) (.number n)
  | string (s : String) : Alike R (.string s) (.string s)
  | interpolated {parts parts' : List (String × Pipeline)} (after : String) :
    List.Forall₂ (Prod.RProd Eq R) parts parts' →
      Alike R (.interpolated parts after) (.interpolated parts' after)
  | «variable» (name : String) : Alike R (.variable name) (.variable name)
  | define {body body' : Pipeline} (name : String) : R body body' →
    Alike R (.define name body) (.define name body')
  | function {body body' : Pipeline} (params : List String) : R body body' →
    Alike R (.function params body) (.function params body')
  | access {base base' : Pipeline} {path path' : List (Selector Pipeline)} : R base base' →
    List.Forall₂ (Selector.Alike R) path path' → Alike R (.access base path) (.access base' path')
  | assign {base base' value value' : Pipeline} {path path' : List (Selector Pipeline)}
    (op : AssignmentOp) : R base base' → List.Forall₂ (Selector.Alike R) path path' →
      R value value' → Alike R (.assign base path op value) (.assign base' path' op value')
  | calculate {base base' : Pipeline} {steps steps' : List (ArithmeticOp × Pipeline)} :
    R base base' → List.Forall₂ (Prod.RProd Eq R) steps steps' →
      Alike R (.calculate base steps) (.calculate base' steps')
  | compare {base base' : Pipeline} {steps steps' : List (ComparisonOp × Pipeline)} :
    R base base' → List.Forall₂ (Prod.RProd Eq R) steps steps' →
      Alike R (.compare base steps) (.compare base' steps')
  | branch {arms arms' : List (Pipeline × Pipeline)} {otherwise otherwise' : Option Pipeline} :
    List.Forall₂ (Prod.RProd R R) arms arms' → Option.Rel R otherwise otherwise' →
      Alike R (.branch arms otherwise) (.branch arms' otherwise')
  | and {operands operands' : List Pipeline} : List.Forall₂ R operands operands' →
    Alike R (.and operands) (.and operands')
  | or {operands operands' : List Pipeline} : List.Forall₂ R operands operands' →
    Alike R (.or operands) (.or operands')
  | coalesce {operands operands' : List Pipeline} : List.Forall₂ R operands operands' →
    Alike R (.coalesce operands) (.coalesce operands')
  | negate : Alike R .negate .negate
  | not : Alike R .not .not
  | attempt {body body' handler handler' : Pipeline} : R body body' → R handler handler' →
    Alike R (.attempt body handler) (.attempt body' handler')
  | array {body body' : Pipeline} : R body body' → Alike R (.array body) (.array body')
  | object {fields fields' : List (Field Pipeline)} : List.Forall₂ (Field.Alike R) fields fields' →
    Alike R (.object fields) (.object fields')
  | concat {operands operands' : List Pipeline} : List.Forall₂ R operands operands' →
    Alike R (.concat operands) (.concat operands')
  | void : Alike R .void .void

variable {R S : Pipeline → Pipeline → Prop}

/-! ### Lists of operands -/

/-- Related lists stay so under a relation that holds where the first one does. -/
theorem forall₂_imp_of_mem {α β : Type} {R S : α → β → Prop} {as : List α} {bs : List β}
    (h : List.Forall₂ R as bs) (hRS : ∀ a ∈ as, ∀ b, R a b → S a b) : List.Forall₂ S as bs :=
  ((List.forall₂_and_left as bs).2 ⟨fun _ ha => ha, h⟩).imp fun a b hab => hRS a hab.1 b hab.2

theorem Selector.Alike.imp {s t : Selector Pipeline} (h : s.Alike R t)
    (hRS : ∀ p ∈ s.parts, ∀ q, R p q → S p q) : s.Alike S t := by
  cases h with
  | field optional hkey => exact .field optional (hRS _ (by simp [parts]) _ hkey)
  | iterate optional => exact .iterate optional
  | slice optional hstart hstop =>
    exact .slice optional (hRS _ (by simp [parts]) _ hstart) (hRS _ (by simp [parts]) _ hstop)
  | call bound optional hargs => exact .call bound optional (forall₂_imp_of_mem hargs hRS)

theorem path_imp {path path' : List (Selector Pipeline)}
    (h : List.Forall₂ (Selector.Alike R) path path')
    (hRS : ∀ p ∈ path.flatMap Selector.parts, ∀ q, R p q → S p q) :
    List.Forall₂ (Selector.Alike S) path path' :=
  forall₂_imp_of_mem h fun s hs _ hst => hst.imp fun p hp =>
    hRS p (List.mem_flatMap.2 ⟨s, hs, hp⟩)

/-- Paths with the same steps call functions at the same places. -/
theorem any_isCall_alike {path path' : List (Selector Pipeline)}
    (h : List.Forall₂ (Selector.Alike R) path path') :
    path'.any Selector.isCall = path.any Selector.isCall := by
  induction h with
  | nil => rfl
  | cons hs _ ih =>
    rw [List.any_cons, List.any_cons, ih]
    cases hs <;> rfl

theorem keyed_imp {κ : Type} {steps steps' : List (κ × Pipeline)}
    (h : List.Forall₂ (Prod.RProd Eq R) steps steps')
    (hRS : ∀ p ∈ steps.map (·.2), ∀ q, R p q → S p q) :
    List.Forall₂ (Prod.RProd Eq S) steps steps' := by
  refine forall₂_imp_of_mem h ?_
  rintro _ hmem _ ⟨hk, hp⟩
  exact ⟨hk, hRS _ (List.mem_map_of_mem hmem) _ hp⟩

theorem keyed_self {κ : Type} {steps : List (κ × Pipeline)}
    (h : ∀ p ∈ steps.map (·.2), R p p) : List.Forall₂ (Prod.RProd Eq R) steps steps :=
  List.forall₂_same.2 fun _ hmem => ⟨rfl, h _ (List.mem_map_of_mem hmem)⟩

theorem Selector.alike_self {s : Selector Pipeline} (h : ∀ p ∈ s.parts, R p p) : s.Alike R s := by
  cases s with
  | field key optional => exact .field optional (h _ (by simp [parts]))
  | iterate optional => exact .iterate optional
  | slice start stop optional =>
    exact .slice optional (h _ (by simp [parts])) (h _ (by simp [parts]))
  | call args bound optional => exact .call bound optional (List.forall₂_same.2 h)

theorem path_self {path : List (Selector Pipeline)}
    (h : ∀ p ∈ path.flatMap Selector.parts, R p p) :
    List.Forall₂ (Selector.Alike R) path path :=
  List.forall₂_same.2 fun s hs => s.alike_self fun p hp => h p (List.mem_flatMap.2 ⟨s, hs, hp⟩)

/-- An instruction is like itself if its operands are. -/
theorem Instruction.alike_self {i : Instruction} (h : ∀ p ∈ i.parts, R p p) : i.Alike R i := by
  cases i with
  | null => exact .null
  | bool b => exact .bool b
  | number n => exact .number n
  | string s => exact .string s
  | interpolated parts after => exact .interpolated after (keyed_self h)
  | «variable» name => exact .variable name
  | define name body => exact .define name (h _ List.mem_cons_self)
  | function params body => exact .function params (h _ List.mem_cons_self)
  | access base path =>
    obtain ⟨hbase, hpath⟩ := List.forall_mem_cons.1 h
    exact .access hbase (path_self hpath)
  | assign base path op value =>
    obtain ⟨hbase, h⟩ := List.forall_mem_cons.1 h
    obtain ⟨hvalue, hpath⟩ := List.forall_mem_cons.1 h
    exact .assign op hbase (path_self hpath) hvalue
  | calculate base steps =>
    obtain ⟨hbase, hsteps⟩ := List.forall_mem_cons.1 h
    exact .calculate hbase (keyed_self hsteps)
  | compare base steps =>
    obtain ⟨hbase, hsteps⟩ := List.forall_mem_cons.1 h
    exact .compare hbase (keyed_self hsteps)
  | branch arms otherwise =>
    obtain ⟨harms, hotherwise⟩ := List.forall_mem_append.1 h
    obtain ⟨hconditions, hbodies⟩ := List.forall_mem_append.1 harms
    refine .branch (List.forall₂_same.2 fun a hmem => ⟨hconditions _ (List.mem_map_of_mem hmem),
      hbodies _ (List.mem_map_of_mem hmem)⟩) ?_
    cases otherwise with
    | none => exact .none
    | some p => exact .some (hotherwise p (by simp))
  | and operands => exact .and (List.forall₂_same.2 h)
  | or operands => exact .or (List.forall₂_same.2 h)
  | coalesce operands => exact .coalesce (List.forall₂_same.2 h)
  | negate => exact .negate
  | not => exact .not
  | attempt body handler => exact .attempt (h _ (by simp [parts])) (h _ (by simp [parts]))
  | array body => exact .array (h _ List.mem_cons_self)
  | object fields =>
    obtain ⟨hkeys, hvalues⟩ := List.forall_mem_append.1 h
    exact .object (List.forall₂_same.2 fun f hmem => .mk f.optional
      (hkeys _ (List.mem_map_of_mem hmem)) (hvalues _ (List.mem_map_of_mem hmem)))
  | concat operands => exact .concat (List.forall₂_same.2 h)
  | void => exact .void

namespace Instruction.Alike

variable {i j : Instruction}

/-- Operands stay related under a relation that holds where the first one does. -/
theorem imp (h : i.Alike R j) (hRS : ∀ p ∈ i.parts, ∀ q, R p q → S p q) : i.Alike S j := by
  cases h with
  | null => exact .null
  | bool b => exact .bool b
  | number n => exact .number n
  | string s => exact .string s
  | interpolated after hparts => exact .interpolated after (keyed_imp hparts hRS)
  | «variable» name => exact .variable name
  | define name hbody => exact .define name (hRS _ List.mem_cons_self _ hbody)
  | function params hbody => exact .function params (hRS _ List.mem_cons_self _ hbody)
  | access hbase hpath =>
    obtain ⟨hRbase, hRpath⟩ := List.forall_mem_cons.1 hRS
    exact .access (hRbase _ hbase) (path_imp hpath hRpath)
  | assign op hbase hpath hvalue =>
    obtain ⟨hRbase, hRS⟩ := List.forall_mem_cons.1 hRS
    obtain ⟨hRvalue, hRpath⟩ := List.forall_mem_cons.1 hRS
    exact .assign op (hRbase _ hbase) (path_imp hpath hRpath) (hRvalue _ hvalue)
  | calculate hbase hsteps =>
    obtain ⟨hRbase, hRsteps⟩ := List.forall_mem_cons.1 hRS
    exact .calculate (hRbase _ hbase) (keyed_imp hsteps hRsteps)
  | compare hbase hsteps =>
    obtain ⟨hRbase, hRsteps⟩ := List.forall_mem_cons.1 hRS
    exact .compare (hRbase _ hbase) (keyed_imp hsteps hRsteps)
  | branch harms hotherwise =>
    obtain ⟨hRarms, hRotherwise⟩ := List.forall_mem_append.1 hRS
    obtain ⟨hRconditions, hRbodies⟩ := List.forall_mem_append.1 hRarms
    refine .branch (forall₂_imp_of_mem harms ?_) ?_
    · rintro _ hmem _ ⟨hcondition, hbody⟩
      exact ⟨hRconditions _ (List.mem_map_of_mem hmem) _ hcondition,
        hRbodies _ (List.mem_map_of_mem hmem) _ hbody⟩
    · cases hotherwise with
      | none => exact .none
      | some hp => exact .some (hRotherwise _ (by simp) _ hp)
  | and hoperands => exact .and (forall₂_imp_of_mem hoperands hRS)
  | or hoperands => exact .or (forall₂_imp_of_mem hoperands hRS)
  | coalesce hoperands => exact .coalesce (forall₂_imp_of_mem hoperands hRS)
  | negate => exact .negate
  | not => exact .not
  | attempt hbody hhandler =>
    exact .attempt (hRS _ (by simp [parts]) _ hbody) (hRS _ (by simp [parts]) _ hhandler)
  | array hbody => exact .array (hRS _ List.mem_cons_self _ hbody)
  | object hfields =>
    obtain ⟨hRkeys, hRvalues⟩ := List.forall_mem_append.1 hRS
    refine .object (forall₂_imp_of_mem hfields ?_)
    rintro _ hmem _ ⟨optional, hkey, hvalue⟩
    exact .mk optional (hRkeys _ (List.mem_map_of_mem hmem) _ hkey)
      (hRvalues _ (List.mem_map_of_mem hmem) _ hvalue)
  | concat hoperands => exact .concat (forall₂_imp_of_mem hoperands hRS)
  | void => exact .void

end Instruction.Alike

end JsonPipe
