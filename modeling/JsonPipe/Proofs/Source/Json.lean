import JsonPipe.Proofs.Source.Primaries
import JsonPipe.Value.Text

/-! JSON texts as programs.

    The JSON text of any value is a program: constants for the scalars, a minus in front of what is
    negative, an array constructor around the elements joined by commas and an object constructor
    with a string for every key (`Value.literal`). The text of a part is no longer than that of the
    whole, so a reader that reads the texts up to a size makes the level of `try` on top of it read
    those that are longer by one (`ReadsValues.step`), and the text of a value is parsed as its
    literal (`Value.parse_json`). -/

namespace JsonPipe

/-! ### Literals -/

/-- The program of a number in JSON: negative numbers are negated, and what JSON lacks is null. -/
def Number.literal : Number → Pipeline
  | .finite negative m =>
    if negative && decide (m.units ≠ 0) then [.number (.finite false m), .negate]
    else [.number (.finite false m)]
  | _ => [.null]

/-- What stands between the brackets of an array: its elements one after the other, or nothing. -/
def elements : List Pipeline → Pipeline
  | [] => [.void]
  | ps => Source.joinWith .concat ps

mutual

/-- The program that the JSON text of a value is. -/
def Value.literal : Value → Pipeline
  | .null => [.null]
  | .bool b => [.bool b]
  | .number n => n.literal
  | .string s => [.string s]
  | .array items => [.array (elements (itemLiterals items))]
  | .object entries => [.object (entryLiterals entries)]
  | .function _ => [.null]
termination_by structural x => x

/-- The programs of the elements of an array. -/
def itemLiterals : List Value → List Pipeline
  | [] => []
  | v :: more => v.literal :: itemLiterals more
termination_by structural x => x

/-- The fields of an object. -/
def entryLiterals : List (String × Value) → List (Field Pipeline)
  | [] => []
  | (k, v) :: more => ⟨[.string k], v.literal, false⟩ :: entryLiterals more
termination_by structural x => x

end

theorem itemLiterals_eq (items : List Value) : itemLiterals items = items.map Value.literal := by
  induction items with
  | nil => rfl
  | cons v more ih => rw [itemLiterals, ih, List.map_cons]

/-- The field of an entry. -/
def entryLiteral (e : String × Value) : Field Pipeline := ⟨[.string e.1], e.2.literal, false⟩

theorem entryLiterals_eq (entries : List (String × Value)) :
    entryLiterals entries = entries.map entryLiteral := by
  induction entries with
  | nil => rfl
  | cons e more ih =>
    rw [List.map_cons, ← ih]
    rfl

namespace Source

open Reader

/-! ### What the texts look like -/

/-- The text of an entry. -/
def entryText (e : String × Value) (t : List Char) : List Char :=
  Text.jsonText e.1 ++ ':' :: e.2.jsonText t

theorem itemsText_cons (v : Value) (more : List Value) (rest : List Char) :
    itemsText (v :: more) rest = v.jsonText (more.foldr (fun w t => ',' :: w.jsonText t) rest) := by
  induction more generalizing v with
  | nil => rfl
  | cons w more ih =>
    rw [List.foldr_cons, ← ih]
    rfl

theorem entriesText_cons (e : String × Value) (more : List (String × Value)) (rest : List Char) :
    entriesText (e :: more) rest =
      entryText e (more.foldr (fun x t => ',' :: entryText x t) rest) := by
  induction more generalizing e with
  | nil => rfl
  | cons x more ih =>
    rw [List.foldr_cons, ← ih]
    rfl

mutual

theorem jsonText_fronts (v : Value) : Fronts v.jsonText := by
  match v with
  | .null | .function _ => exact fronts_append "null".toList
  | .bool true => exact fronts_append "true".toList
  | .bool false => exact fronts_append "false".toList
  | .number n => exact fronts_append n.jsonText
  | .string s => exact fronts_append (Text.jsonText s)
  | .array items =>
    exact (fronts_cons '[').comp ((itemsText_fronts items).comp (fronts_cons ']'))
  | .object entries =>
    exact (fronts_cons '\x7b').comp ((entriesText_fronts entries).comp (fronts_cons '\x7d'))
termination_by structural v

theorem itemsText_fronts (items : List Value) : Fronts (itemsText items) := by
  match items with
  | [] => exact fronts_id
  | [v] => exact jsonText_fronts v
  | v :: w :: more =>
    exact (jsonText_fronts v).comp ((fronts_cons ',').comp (itemsText_fronts (w :: more)))
termination_by structural items

theorem entriesText_fronts (entries : List (String × Value)) : Fronts (entriesText entries) := by
  match entries with
  | [] => exact fronts_id
  | [(k, v)] =>
    exact (fronts_append (Text.jsonText k)).comp ((fronts_cons ':').comp (jsonText_fronts v))
  | (k, v) :: e :: more =>
    exact (fronts_append (Text.jsonText k)).comp ((fronts_cons ':').comp
      ((jsonText_fronts v).comp ((fronts_cons ',').comp (entriesText_fronts (e :: more)))))
termination_by structural entries

end

theorem length_entryText (e : String × Value) (t : List Char) :
    t.length ≤ (entryText e t).length := by
  have hvalue := (jsonText_fronts e.2).length_le t
  rw [entryText, List.length_append, List.length_cons]
  omega

theorem opens_jsonText (v : Value) (rest : List Char) : opens (v.jsonText rest) = true := by
  cases v with
  | bool b => cases b <;> rfl
  | number n =>
    cases n with
    | finite negative m =>
      obtain ⟨c, cs, htext, hdigit⟩ := (Number.magnitudeText_spells m).cons
      show opens ((Number.finite negative m).jsonText ++ rest) = true
      rw [Number.jsonText_finite, htext, Number.signed]
      split
      · rfl
      · rw [List.cons_append, opens, isNameChar_of_isDigit c hdigit, Bool.true_or]
    | _ => rfl
  | _ => rfl

/-! ### What comes after a value -/

/-- The text that may come after a value: the end, a comma or a closing bracket. -/
inductive AfterValue : List Char → Prop
  | nothing : AfterValue []
  | comma (t : List Char) : AfterValue (',' :: t)
  | bracket (t : List Char) : AfterValue (']' :: t)
  | brace (t : List Char) : AfterValue ('\x7d' :: t)

namespace AfterValue

variable {rest : List Char} (h : AfterValue rest)
include h

theorem breaksOff : BreaksOff rest := by cases h <;> rfl

theorem isTidy : isTidy rest = true := by cases h <;> rfl

theorem stripped_eq : stripped rest = rest := by cases h <;> rfl

theorem no_point : rest.head? ≠ some '.' := by cases h <;> simp

theorem ends : ends 9 rest = true := by cases h <;> rfl

variable {inner : Rule} {t : List Char} {p : Pipeline}

/-- What is read as an operand is read as a value, unless it starts with a word of a level
    above. -/
theorem attempt (hread : Reads (rung inner 0) t p rest)
    (hnot : Reads (keyword "not") t false t) (htry : Reads (keyword "try") t false t) :
    Reads (attempt inner) t p rest :=
  attempt_one (climb (Nat.zero_le 9) (Nat.le_refl 9) hread h.ends fun _ => hnot) htry

/-- Strings and constructors are read as values. -/
theorem primary (hbare : Bare t) (hpoint : begins "." "" t = false)
    (hread : Reads (primary inner) t p rest) : Reads (Source.attempt inner) t p rest :=
  h.attempt
    (hbare.negation (valueAccess_primary hpoint hread (ends_mono (Nat.zero_le 9) h.ends)))
    (hbare.no_word "not" rfl) (hbare.no_word "try" rfl)

end AfterValue

/-- Texts with a comma in front of each are read one after the other. -/
theorem repeats_commas {α β : Type} {step : Reader (Option β)}
    {write : α → List Char → List Char} {result : α → β} {size : Nat} {rest u : List Char}
    (hlength : ∀ a t, t.length ≤ (write a t).length)
    (hstep : ∀ a t, AfterValue t → (write a t).length ≤ size →
      Reads step (',' :: write a t) (some (result a)) t)
    (hrest : AfterValue rest) (hdone : Reads step rest none u) (items : List α)
    (hsize : (items.foldr (fun a t => ',' :: write a t) rest).length ≤ size) :
    AfterValue (items.foldr (fun a t => ',' :: write a t) rest) ∧
      Repeats Apart Apart step (items.foldr (fun a t => ',' :: write a t) rest)
        (items.map result) u := by
  induction items with
  | nil => exact ⟨hrest, .done hdone⟩
  | cons a items ih =>
    rw [List.foldr_cons, List.length_cons] at hsize
    have hlong := hlength a (items.foldr (fun a t => ',' :: write a t) rest)
    obtain ⟨hafter, hrepeats⟩ := ih (by omega)
    refine ⟨.comma _, .more (hstep a _ hafter (by omega)) ?_ hrepeats⟩
    rw [List.foldr_cons, List.length_cons]
    omega

/-! ### Reading values -/

/-- The reader reads every value with a text up to the given size as its literal. -/
def ReadsValues (inner : Rule) (size : Nat) : Prop :=
  ∀ (v : Value) (rest : List Char), AfterValue rest → (v.jsonText rest).length ≤ size →
    Reads inner (v.jsonText rest) v.literal rest

section Values

variable {inner : Rule} {rest : List Char} (hrest : AfterValue rest)
include hrest

theorem null_reads_json : Reads (attempt inner) ("null".toList ++ rest) [.null] rest := by
  have hread : Reads (rung inner 0) ("null".toList ++ rest) [.null] (stripped rest) :=
    null_reads hrest.breaksOff hrest.isTidy
  rw [hrest.stripped_eq] at hread
  exact hrest.attempt hread (keyword_miss rfl) (keyword_miss rfl)

theorem bool_reads_json (b : Bool) :
    Reads (attempt inner) ((Value.bool b).jsonText rest) [.bool b] rest := by
  have hread : Reads (rung inner 0) (instructionText (.bool b) rest) [.bool b] (stripped rest) :=
    bool_reads hrest.breaksOff hrest.isTidy b
  rw [hrest.stripped_eq] at hread
  cases b <;> exact hrest.attempt hread (keyword_miss rfl) (keyword_miss rfl)

theorem number_reads_json (n : Number) :
    Reads (attempt inner) (n.jsonText ++ rest) n.literal rest := by
  cases n with
  | finite negative m =>
    have hspells := Number.magnitudeText_spells m
    have hnumber := hspells.reads hrest.breaksOff hrest.no_point hrest.isTidy
    obtain ⟨c, cs, htext, hdigit⟩ := hspells.cons
    rw [hrest.stripped_eq, htext, List.cons_append] at hnumber
    rw [Number.jsonText_finite, Number.literal, htext, Number.signed]
    split
    · have hopens : opens (c :: (cs ++ rest)) = true := by
        rw [opens, isNameChar_of_isDigit c hdigit, Bool.true_or]
      have harrow : (c :: (cs ++ rest)).head?.any "=>".toList.contains = false := by
        have hne : c ≠ '=' ∧ c ≠ '>' := by constructor <;> rintro rfl <;> cases hdigit
        simp [hne]
      have hminus := symbol_hit Apart "-" "=>" rfl (by decide) harrow (isTidy_of_opens hopens)
      rw [stripped_of_opens hopens] at hminus
      refine hrest.attempt ?_ (keyword_miss rfl) (keyword_miss rfl)
      exact hminus.bind ((conditional_of_number hdigit hnumber).bind (takes_pure _))
    · have hword := keyword_miss_of_digit (t := cs ++ rest) hdigit
      exact hrest.attempt (number_reads hdigit hnumber) (hword "not" rfl) (hword "try" rfl)
  | _ => exact null_reads_json hrest

theorem string_reads_json (s : String) :
    Reads (attempt inner) (Text.jsonText s ++ rest) [.string s] rest := by
  have hstring := jsonText_reads (pipe inner) s hrest.isTidy
  rw [hrest.stripped_eq] at hstring
  have hprimary : Reads (primary inner) (Text.jsonText s ++ rest) [.string s] rest :=
    Takes.bind (fun b hb => ⟨b, hb, rfl⟩) (hstring.bind (takes_pure _))
  exact hrest.primary (.quote _) rfl hprimary

end Values

section Nested

variable {inner : Rule} {size : Nat} (hf : ReadsValues inner size) {rest : List Char}
include hf

/-- The elements of an array are read one after the other. -/
theorem items_reads_json (v : Value) (more : List Value)
    (hsize : (itemsText (v :: more) (']' :: rest)).length ≤ size) :
    Reads (pipe inner) (itemsText (v :: more) (']' :: rest)) (elements (itemLiterals (v :: more)))
      (']' :: rest) := by
  rw [itemsText_cons] at hsize ⊢
  rw [itemLiterals_eq]
  have hlong := (jsonText_fronts v).length_le
    (more.foldr (fun w t => ',' :: w.jsonText t) (']' :: rest))
  have hstep : ∀ (w : Value) t, AfterValue t → (w.jsonText t).length ≤ size →
      Reads (do if ← symbol "," then return some (← inner) else return none)
        (',' :: w.jsonText t) (some w.literal) t := by
    intro w t ht hlength
    have hopens := opens_jsonText w t
    have hcomma := symbol_takes Apart "," rfl (by decide) (isTidy_of_opens hopens)
    rw [stripped_of_opens hopens] at hcomma
    exact hcomma.bind ((hf w t ht hlength).bind (takes_pure _))
  obtain ⟨hafter, hrepeats⟩ := repeats_commas (fun w => (jsonText_fronts w).length_le) hstep
    (.bracket rest) ((symbol_miss rfl).bind (takes_pure none)) more (by omega)
  have houtputs : Reads (outputs inner) _ (elements (v.literal :: more.map Value.literal))
      (']' :: rest) :=
    Takes.bind ((hf v _ hafter hsize).bind (hrepeats.many.bind (takes_pure _))) (takes_pure _)
  exact (houtputs.separated_one (symbol_miss rfl)).bind (takes_pure _)

/-- An entry of an object is read as a field. -/
theorem entry_reads_json (hrest : AfterValue rest) (e : String × Value)
    (hsize : (entryText e rest).length ≤ size) :
    Reads (field inner) (entryText e rest) (entryLiteral e) rest := by
  have hopens := opens_jsonText e.2 rest
  have hlength : (e.2.jsonText rest).length ≤ size := by
    rw [entryText, List.length_append, List.length_cons] at hsize
    omega
  have hstring : Reads (string (pipe inner)) (entryText e rest) (.string e.1)
      (':' :: e.2.jsonText rest) := jsonText_reads (pipe inner) e.1 rfl
  have hkey : Reads (fieldKey inner) (entryText e rest) ([.string e.1], none)
      (':' :: e.2.jsonText rest) :=
    (name_miss rfl).bind (Takes.bind (fun b hb => ⟨b, hb, rfl⟩) (hstring.bind (takes_pure _)))
  have hcolon := symbol_takes Apart ":" rfl (by decide) (isTidy_of_opens hopens)
  rw [stripped_of_opens hopens] at hcolon
  refine hkey.bind ((symbol_miss rfl).bind (hcolon.bind ?_))
  exact (hf e.2 rest hrest hlength).bind (takes_pure _)

/-- The entries of an object are read one after the other, with the bracket that ends them. -/
theorem entries_reads_json (hrest : AfterValue rest) (e : String × Value)
    (more : List (String × Value))
    (hsize : (entriesText (e :: more) ('\x7d' :: rest)).length ≤ size) (construct : Construct)
    (what : String) :
    Reads (listUntil "\x7d" construct what (field inner)) (entriesText (e :: more) ('\x7d' :: rest))
      (entryLiterals (e :: more)) rest := by
  rw [entriesText_cons] at hsize ⊢
  rw [entryLiterals_eq]
  have hclose := symbol_takes Apart "\x7d" rfl (by decide) hrest.isTidy
  rw [hrest.stripped_eq] at hclose
  have hlong := length_entryText e (more.foldr (fun x t => ',' :: entryText x t) ('\x7d' :: rest))
  have hstep : ∀ (x : String × Value) t, AfterValue t → (entryText x t).length ≤ size →
      Reads (do
          if ← symbol "\x7d" then return none
          if ← symbol "," then return some (← field inner)
          expected construct what)
        (',' :: entryText x t) (some (entryLiteral x)) t := by
    intro x t ht hlength
    have hcomma := symbol_takes Apart "," (t := entryText x t) rfl (by decide) rfl
    refine (symbol_miss rfl).bind (hcomma.bind ?_)
    exact (entry_reads_json hf ht x hlength).bind (takes_pure _)
  obtain ⟨hafter, hrepeats⟩ := repeats_commas length_entryText hstep (.brace rest)
    (hclose.bind (takes_pure none)) more (by omega)
  refine (symbol_miss rfl).bind ((entry_reads_json hf hafter e hsize).bind ?_)
  exact hrepeats.many.bind (takes_pure _)

variable (hrest : AfterValue rest)
include hrest

theorem array_reads_json (items : List Value)
    (hsize : ((Value.array items).jsonText rest).length ≤ size + 1) :
    Reads (attempt inner) ((Value.array items).jsonText rest) (Value.array items).literal rest := by
  have hclose := symbol_takes Apart "]" rfl (by decide) hrest.isTidy
  rw [hrest.stripped_eq] at hclose
  suffices h : Reads (arrayConstructor inner) ('[' :: itemsText items (']' :: rest))
      (Value.array items).literal rest from
    hrest.primary (.bracket _) rfl (Takes.bind (fun b hb => ⟨b, hb, rfl⟩) h)
  cases items with
  | nil =>
    have hopen := symbol_takes Apart "[" (t := ']' :: rest) rfl (by decide) rfl
    exact hopen.bind (hclose.bind (takes_pure _))
  | cons v more =>
    have hopens : opens (itemsText (v :: more) (']' :: rest)) = true := by
      rw [itemsText_cons]
      exact opens_jsonText v _
    have hopen := symbol_takes Apart "[" rfl (by decide) (isTidy_of_opens hopens)
    rw [stripped_of_opens hopens] at hopen
    have hmiss : begins "]" "" (itemsText (v :: more) (']' :: rest)) = false := by
      obtain ⟨c, t, heq, _, _, _, _, hc⟩ := opens_cons hopens
      rw [heq]
      exact begins_miss (by decide) fun h => hc (Option.some.inj h).symm
    have hitems := items_reads_json hf v more (Nat.le_of_succ_le_succ hsize)
    exact hopen.bind ((symbol_miss hmiss).bind (hitems.bind (hclose.bind (takes_pure _))))

theorem object_reads_json (entries : List (String × Value))
    (hsize : ((Value.object entries).jsonText rest).length ≤ size + 1) :
    Reads (attempt inner) ((Value.object entries).jsonText rest) (Value.object entries).literal
      rest := by
  suffices h : Reads (objectConstructor inner) ('\x7b' :: entriesText entries ('\x7d' :: rest))
      (Value.object entries).literal rest from
    hrest.primary (.brace _) rfl (Takes.bind (fun b hb => ⟨b, hb, rfl⟩) h)
  cases entries with
  | nil =>
    have hclose := symbol_takes Apart "\x7d" rfl (by decide) hrest.isTidy
    rw [hrest.stripped_eq] at hclose
    have hopen := symbol_takes Apart "\x7b" (t := '\x7d' :: rest) rfl (by decide) rfl
    exact hopen.bind (Takes.bind (hclose.bind (takes_pure _)) (takes_pure _))
  | cons e more =>
    have hopen : Reads (symbol "\x7b") ('\x7b' :: entriesText (e :: more) ('\x7d' :: rest)) true
        (entriesText (e :: more) ('\x7d' :: rest)) := by
      rw [entriesText_cons]
      exact symbol_takes Apart "\x7b" (t := entryText e _) rfl (by decide) rfl
    have hentries := entries_reads_json hf hrest e more (Nat.le_of_succ_le_succ hsize)
    exact hopen.bind ((hentries _ _).bind (takes_pure _))

end Nested

/-- Each level of nesting makes a reader read longer texts. -/
theorem ReadsValues.step {inner : Rule} {size : Nat} (hf : ReadsValues inner size) :
    ReadsValues (attempt inner) (size + 1) := by
  intro v rest hrest hsize
  cases v with
  | null | function f => exact null_reads_json hrest
  | bool b => exact bool_reads_json hrest b
  | number n => exact number_reads_json hrest n
  | string s => exact string_reads_json hrest s
  | array items => exact array_reads_json hf hrest items hsize
  | object entries => exact object_reads_json hf hrest entries hsize

theorem readsValues_route (depth : Nat) : ReadsValues (route depth) depth := by
  induction depth with
  | zero =>
    -- no value is written as the empty text
    intro v rest _ hsize
    have hopens := opens_jsonText v rest
    rw [List.length_eq_zero_iff.1 (Nat.le_zero.1 hsize)] at hopens
    cases hopens
  | succ depth ih => exact ih.step

end Source

/-- The JSON text of a value is parsed as its literal. -/
theorem Value.parse_json (v : Value) : Pipeline.parse v.json = .ok v.literal := by
  have hreads := Source.readsValues_route ((v.jsonText []).length + 1)
  refine Source.parse_of_reads (Source.program_of_pipe (Source.opens_jsonText v []) ?_)
  exact Source.pipe_one (hreads v [] .nothing (Nat.le_succ _)) rfl rfl

end JsonPipe
