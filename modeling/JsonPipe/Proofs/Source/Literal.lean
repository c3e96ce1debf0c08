import JsonPipe.Proofs.Source.Escapes
import JsonPipe.Source.Printer

/-! Numbers and strings read back as they were written.

    A number is written with all its digits in place, and that is a numeral for it. A string is
    written character by character, each in one of the ways in which the reader of strings takes
    it. -/

namespace JsonPipe.Source

open Reader

/-! ### Numbers -/

/-- The numbers that a literal stands for. -/
inductive IsLiteral : Number → Prop
  | infinite : IsLiteral (.infinite false)
  | finite (m : Magnitude) : IsLiteral (.finite false m)

/-- A number that is not negative is written as a numeral. -/
theorem numberText_spells (m : Magnitude) :
    Spells (numberText (.finite false m)) (.finite false m) := by
  have hdigits : (Number.displayDigits m).toNumber = .finite false m := by
    rw [Number.displayDigits, Decimal.toNumber_trim]
    exact Decimal.shortest_reads_back _ _
  have hspells := (Number.displayDigits m).plain_spells
  rwa [hdigits] at hspells

/-- A number is read back from its text. -/
theorem numberText_reads {n : Number} (hn : IsLiteral n) {rest : List Char}
    (hbreak : BreaksOff rest) (hpoint : rest.head? ≠ some '.') (htidy : isTidy rest = true) :
    Reads number (numberText n ++ rest) (some n) (stripped rest) := by
  cases hn with
  | infinite =>
    have hdigit := hbreak.not_any isNameChar_of_isDigit
    have hone : ∀ x ∈ ['1'], x.isDigit = true := List.all_eq_true.1 rfl
    have hnines : ∀ x ∈ ['9', '9', '9'], x.isDigit = true := List.all_eq_true.1 rfl
    refine (takeWhile_takes _ ['1'] hone rfl).anywhere.bind ?_
    refine (takeOneOf_miss rfl).bind ((takes_pure _).bind ?_)
    refine Takes.bind (a := 999) ?_ ((skipTrivia_takes hbreak htidy).bind (takes_pure _))
    refine (takeOneOf_hit (by decide) _).bind ((takeOneOf_miss rfl).bind ?_)
    exact (takeWhile_takes _ ['9', '9', '9'] hnines hdigit).bind (takes_pure _)
  | finite m =>
    exact (numberText_spells m).reads hbreak hpoint htidy

/-! ### Strings -/

theorem mem_shortEscapes {c letter : Char} (h : Text.shortEscape? c = some letter) :
    (letter, c) ∈ shortEscapes := by
  unfold Text.shortEscape? at h
  split_ifs at h with hc hc hc hc hc hc hc <;> cases h <;> rw [hc] <;> decide

theorem toLower_hex4 (n : Nat) : (Text.hex4 n).map Char.toLower = Text.hex4 n := by
  have hdigit : ∀ d < 16, (Nat.digitChar d).toLower = Nat.digitChar d := by decide
  have hlower : ∀ n, (Text.hexDigit n).toLower = Text.hexDigit n :=
    fun n => hdigit (n % 16) (Nat.mod_lt n (by decide))
  simp only [Text.hex4, List.map_cons, List.map_nil, hlower]

section Quoted

variable {must : Char → Bool} (hmust : ∀ c, must c = true → c.toNat < 0xd800)
include hmust

/-- A quoted text writes each of its characters, whether with an escape or not. -/
theorem writesChar_escape (c : Char) : WritesChar (Text.escape must c) c := by
  rw [Text.escape]
  split
  · next he => exact .short (mem_shortEscapes he)
  · next he =>
    split
    · next hcode =>
      have hlt := hmust c hcode
      exact .code ⟨by omega, toLower_hex4 _⟩
    · refine .raw ?_ ?_ <;> rintro rfl <;> cases he

theorem written_escape (cs : List Char) :
    List.Forall₂ WritesChar (cs.map (Text.escape must)) cs :=
  List.forall₂_map_left_iff.2 (List.forall₂_same.2 fun c _ => writesChar_escape hmust c)

end Quoted

theorem code_of_isControl (c : Char) (h : Text.isControl c = true) : c.toNat < 0xd800 := by
  simp only [Text.isControl, Bool.or_eq_true, Bool.and_eq_true, decide_eq_true_eq] at h
  omega

theorem code_of_jsonEscaped (c : Char) (h : Text.jsonEscaped c = true) : c.toNat < 0xd800 := by
  simp only [Text.jsonEscaped, decide_eq_true_eq] at h
  omega

/-- A hole is read back if its pipeline is. -/
theorem hole_takes {pipe : Reader Pipeline} {p : Pipeline} {t u : List Char}
    (hsolid : isSolid t = true) (hpipe : Reads pipe t p (')' :: u)) :
    Takes Anywhere Anywhere (piece pipe) ('\\' :: '(' :: t) (some (.hole p)) u := by
  have hopen : Takes Anywhere Apart (takeOneOf "(") ('(' :: t) (some '(') t :=
    fun b _ => ⟨'(' :: b, .inl rfl, rfl⟩
  have hskip : Reads skipTrivia t () t := by
    intro b hb
    refine ⟨b, hb, ?_⟩
    rw [skipTrivia, skipTrivia_solid hsolid]
    rfl
  refine (take_takes _ _).bind (hopen.bind (hskip.bind (hpipe.bind ?_)))
  exact (takeOneOf_hit (by decide) u).anywhere.bind (takes_pure _)

/-- The closing quote ends a string. -/
theorem quote_takes (pipe : Reader Pipeline) (rest : List Char) :
    Takes Anywhere Apart (piece pipe) ('"' :: rest) none rest :=
  fun b _ => ⟨'"' :: b, .inl rfl, rfl⟩

/-- The pieces that a text is made of. -/
def pieces (s : String) : List Piece := s.toList.map .char

/-- A text in a string is read back, in front of what else is read there. -/
theorem stringText_repeats {pipe : Reader Pipeline} {J : Cursor → Prop} (s : String)
    {t u : List Char} {more : List Piece} (h : Repeats Anywhere J (piece pipe) t more u) :
    Repeats Anywhere J (piece pipe) (stringText s ++ t) (pieces s ++ more) u :=
  written_repeats (written_escape code_of_isControl s.toList) h

theorem assemble_chars (cs text : List Char) (more : List Piece) :
    assemble text (cs.map .char ++ more) = assemble (cs.reverse ++ text) more := by
  induction cs generalizing text with
  | nil => rfl
  | cons c cs ih =>
    rw [List.map_cons, List.cons_append, assemble, ih, List.reverse_cons, List.append_assoc]
    rfl

theorem assemble_pieces (s : String) : assemble [] (pieces s) = ([], s) := by
  have h := assemble_chars s.toList [] []
  rw [List.append_nil] at h
  rw [pieces, h, assemble, List.append_nil, List.reverse_reverse, String.ofList_toList]

theorem assemble_hole (s : String) (p : Pipeline) (more : List Piece) :
    assemble [] (pieces s ++ .hole p :: more) =
      ((s, p) :: (assemble [] more).1, (assemble [] more).2) := by
  rw [pieces, assemble_chars, assemble, List.append_nil, List.reverse_reverse, String.ofList_toList]

/-- The instruction that a string stands for. -/
def ofPieces (ps : List Piece) : Instruction :=
  match assemble [] ps with
  | ([], text) => .string text
  | (parts, after) => .interpolated parts after

/-- A string is read as what its pieces stand for. -/
theorem string_reads {pipe : Reader Pipeline} {t rest : List Char} {ps : List Piece}
    (h : Repeats Anywhere Apart (piece pipe) t ps rest) (htidy : isTidy rest = true) :
    Reads (string pipe) ('"' :: t) (ofPieces ps) (stripped rest) :=
  (take_takes _ _).anywhere.bind (h.many.bind ((reads_skipTrivia htidy).bind (takes_pure _)))

/-- The text between quotes is read as the string. -/
theorem written_reads {writing : List (List Char)} {s : String}
    (h : List.Forall₂ WritesChar writing s.toList) (pipe : Reader Pipeline) {rest : List Char}
    (htidy : isTidy rest = true) :
    Reads (string pipe) ('"' :: (writing.flatten ++ '"' :: rest)) (.string s) (stripped rest) := by
  have hreads := string_reads (written_repeats h (.done (quote_takes pipe rest))) htidy
  rwa [List.append_nil, ← pieces, ofPieces, assemble_pieces] at hreads

/-- A text between quotes is read back, whichever characters are written by their codes. -/
theorem quote_reads {must : Char → Bool} (hmust : ∀ c, must c = true → c.toNat < 0xd800)
    (pipe : Reader Pipeline) (s : String) {rest : List Char} (htidy : isTidy rest = true) :
    Reads (string pipe) (Text.quote must s.toList ++ rest) (.string s) (stripped rest) := by
  have hreads := written_reads (written_escape hmust s.toList) pipe htidy
  simpa [Text.quote, List.flatMap_def] using hreads

theorem stringText_reads (pipe : Reader Pipeline) (s : String) {rest : List Char}
    (htidy : isTidy rest = true) :
    Reads (string pipe) ('"' :: stringText s ++ '"' :: rest) (.string s) (stripped rest) := by
  have hreads := quote_reads code_of_isControl pipe s htidy
  simpa [Text.quote, stringText] using hreads

theorem jsonText_reads (pipe : Reader Pipeline) (s : String) {rest : List Char}
    (htidy : isTidy rest = true) :
    Reads (string pipe) (Text.jsonText s ++ rest) (.string s) (stripped rest) :=
  quote_reads code_of_jsonEscaped pipe s htidy

end JsonPipe.Source
