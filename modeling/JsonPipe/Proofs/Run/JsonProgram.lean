import JsonPipe.Proofs.Run.Continuation
import JsonPipe.Proofs.Source.Json
import JsonPipe.Proofs.Value.Entries

/-! JSON is part of the language.

    The JSON text of a value without functions and with finite numbers is a program that puts out
    the value, whatever its input and whichever names are in scope: constants put out themselves,
    the elements of an array are collected again, and an object constructor whose fields have one
    value each makes one object. A minus in front of a number gives the negative number; only the
    sign of zero is not written and so not read (`Value.evaluate_json`). -/

namespace JsonPipe

/-! ### JSON data -/

/-- The value is JSON data: there are no functions in it, its numbers are finite, and the keys of
    its objects ascend, as the keys of entries do. -/
inductive Value.IsJson : Value → Prop
  | null : IsJson .null
  | bool (b : Bool) : IsJson (.bool b)
  | number {n : Number} (hn : n.isFinite = true) : IsJson (.number n)
  | string (s : String) : IsJson (.string s)
  | array {items : List Value} (hitems : ∀ v ∈ items, IsJson v) : IsJson (.array items)
  | object {entries : Entries Value} (hsorted : entries.Sorted)
      (hentries : ∀ e ∈ entries, IsJson e.2) : IsJson (.object entries)

/-! ### Running literals -/

theorem product_singletons {α : Type} (xs : List α) : product (xs.map ([·])) = [xs] := by
  induction xs with
  | nil => rfl
  | cons x xs ih => simp [product, ih]

namespace Run

section Literals

variable (call : Call) (scope : Scope) (input : Value)

/-- A number puts out itself, zero without its sign. -/
theorem number_literal {n : Number} (hn : n.isFinite = true) :
    pipeline call n.literal scope input = .one (.number n.unsigned) := by
  cases n with
  | finite negative m =>
    by_cases hzero : m.units = 0
    · cases negative <;> simp [Number.literal, Number.unsigned, hzero, pipeline, instruction]
    · cases negative <;> simp [Number.literal, Number.unsigned, hzero, pipeline, instruction,
        Value.negate, Number.neg]
  | _ => cases hn

/-- Operands with one output each put out these one after the other. -/
theorem concat_one {items : List Value}
    (h : ∀ v ∈ items, pipeline call v.literal scope input = .one v.unsigned) :
    concat call (items.map Value.literal) scope input = .ofList (items.map Value.unsigned) := by
  induction items with
  | nil => rfl
  | cons v items ih =>
    rw [List.map_cons, List.map_cons, concat, h v List.mem_cons_self,
      ih fun w hw => h w (List.mem_cons_of_mem _ hw)]
    rfl

theorem elements_literal {items : List Value}
    (h : ∀ v ∈ items, pipeline call v.literal scope input = .one v.unsigned) :
    pipeline call (elements (items.map Value.literal)) scope input =
      .ofList (items.map Value.unsigned) := by
  match items with
  | [] => rfl
  | [v] => exact h v List.mem_cons_self
  | v :: w :: more => exact concat_one call scope input h

/-- Fields with one key and one value each leave no choice. -/
theorem choices_literal {entries : Entries Value}
    (h : ∀ e ∈ entries, pipeline call e.2.literal scope input = .one e.2.unsigned) :
    choices call (entries.map entryLiteral) scope input =
      .ok ((entries.mapValues Value.unsigned).map fun e => [some e]) := by
  induction entries with
  | nil => rfl
  | cons e entries ih =>
    rw [List.map_cons, entryLiteral, choices, h e List.mem_cons_self,
      ih fun x hx => h x (List.mem_cons_of_mem _ hx)]
    rfl

/-- One object is made of entries that leave no choice and are in order. -/
theorem objects_one {entries : Entries Value} (h : entries.Sorted) :
    objects (entries.map fun e => [some e]) = .one (.object entries) := by
  have hrow : (entries.map fun e => [some e]) = (entries.map some).map ([·]) := by simp
  have hentries : (entries.map some).filterMap id = entries := by simp
  rw [objects, hrow, Outcome.choices_eq, product_singletons, Outcome.map_ofList, List.map_singleton,
    hentries, Entries.ofList_of_sorted h]
  rfl

end Literals

/-- The literal of JSON data puts the data out, up to the signs of zeros. -/
theorem literal_one {v : Value} (h : v.IsJson) (call : Call) (scope : Scope) (input : Value) :
    pipeline call v.literal scope input = .one v.unsigned := by
  induction h with
  | null | bool b | string s => rfl
  | number hn => exact number_literal call scope input hn
  | array hitems ih =>
    have hbody := elements_literal call scope input ih
    rw [← itemLiterals_eq] at hbody
    simp only [Value.literal, pipeline, instruction, hbody, Outcome.collect_eq,
      Outcome.failure_ofList, Outcome.outputs_ofList]
    rw [Value.unsigned, Value.viewed_array]
  | @object entries hsorted hentries ih =>
    have hchoices := choices_literal call scope input ih
    rw [← entryLiterals_eq] at hchoices
    simp only [Value.literal, pipeline, instruction, hchoices,
      objects_one (hsorted.mapValues Value.unsigned)]
    rw [Value.unsigned, Value.viewed_object]

end Run

/-! ### JSON texts as programs -/

/-- The JSON text of JSON data is a program with one output, which is equal to the data: it is the
    data itself but for the signs of zeros. -/
theorem Value.evaluate_json {v : Value} (h : v.IsJson) :
    ∃ p, Pipeline.parse v.json = .ok p ∧
      ∀ (limit : Nat) (scope : Scope) (input : Value),
        p.evaluate limit scope input = .ok [v.unsigned] ∧ v.unsigned.same v = true := by
  refine ⟨v.literal, v.parse_json, fun limit scope input => ⟨?_, v.unsigned_same⟩⟩
  rw [Pipeline.evaluate, Feed.evaluate_eq, Run.literal_one h, Outcome.collect_one]

/-- A document with a negative fraction, an exponent, a negative zero and escapes. -/
def document : Value :=
  .object [("", .array [.number (.nearest true (3 * unitsPerOne) 2),
      .number (Decimal.toNumber ⟨1, 300⟩), .number (.finite true .zero), .string "\"\x01", .null]),
    ("k", .object [("k", .array []), ("z", .bool true)])]

theorem document_isJson : document.IsJson := by
  refine .object (by decide) ?_
  simp only [List.mem_cons, List.not_mem_nil, or_false, forall_eq_or_imp, forall_eq]
  refine ⟨.array ?_, .object (by decide) ?_⟩
  · simp only [List.mem_cons, List.not_mem_nil, or_false, forall_eq_or_imp, forall_eq]
    exact ⟨.number (by decide +kernel), .number (by decide +kernel), .number rfl, .string _, .null⟩
  · simp only [List.mem_cons, List.not_mem_nil, or_false, forall_eq_or_imp, forall_eq]
    exact ⟨.array (by simp), .bool true⟩

theorem Value.evaluate_json_document :
    document.json = "\x7b\"\":[-1.5,1e+300,0,\"\\\"\\u0001\",null]," ++
        "\"k\":\x7b\"k\":[],\"z\":true\x7d\x7d" ∧
      ∃ p, Pipeline.parse document.json = .ok p ∧
        ∀ (limit : Nat) (scope : Scope) (input : Value),
          p.evaluate limit scope input = .ok [document.unsigned] ∧
            document.unsigned.same document = true :=
  ⟨by decide +kernel, Value.evaluate_json document_isJson⟩

end JsonPipe
