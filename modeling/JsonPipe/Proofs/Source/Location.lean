import JsonPipe.Proofs.Source.Recursion
import Mathlib.Data.List.TakeWhile

/-! Where a syntax error is.

    Readers go forward from the start of the text, so a position that is reported is the number of
    bytes in some start of the text (`forward_programOver`). That start is found again from the
    number alone (`startOf_bytes`), and it ends in the line of the error: what comes before the line
    is empty or ends in a new line, and the column counts the characters of the line up to the
    error (`location_eq`). -/

namespace JsonPipe

/-! ### Bytes -/

/-- How many bytes a text takes. -/
def bytes (cs : List Char) : Nat := (String.ofList cs).utf8ByteSize

theorem bytes_nil : bytes [] = 0 := rfl

theorem bytes_append (cs ds : List Char) : bytes (cs ++ ds) = bytes cs + bytes ds := by
  rw [bytes, String.ofList_append, String.utf8ByteSize_append]
  rfl

theorem bytes_cons (c : Char) (cs : List Char) : bytes (c :: cs) = c.utf8Size + bytes cs := by
  have hone : bytes [c] = c.utf8Size := String.utf8ByteSize_singleton
  rw [← hone, ← bytes_append]
  rfl

namespace Cursor

theorem offset_cons (x : Char) (b t t' : List Char) :
    offset ⟨x :: b, t⟩ = x.utf8Size + offset ⟨b, t'⟩ := rfl

/-- The position is the number of bytes that have been read. -/
theorem offset_eq (c : Cursor) : c.offset = bytes c.before.reverse := by
  obtain ⟨b, t⟩ := c
  induction b with
  | nil => rfl
  | cons x b ih =>
    rw [offset_cons x b t t, ih, List.reverse_cons, bytes_append, bytes_cons, bytes_nil,
      Nat.add_comm]
    rfl

/-- A place that is reached from the start of a text splits the text. -/
theorem Leads.of_start {text : List Char} {d : Cursor} (h : (start text).Leads d) :
    ∃ read, text = read ++ d.after ∧ d.offset = bytes read := by
  obtain ⟨run, hafter, hbefore⟩ := h
  refine ⟨run, hafter, ?_⟩
  have hreverse : d.before.reverse = run := by simp [hbefore, start]
  rw [offset_eq, hreverse]

end Cursor

/-! ### Errors are reported at places in the text -/

namespace Source

open Reader

theorem forward_programOver {inner : Rule} (h : Forward inner) : Forward (programOver inner) := by
  refine forward_skipTrivia.bind fun _ => (forward_pipe h).bind fun p => ⟨?_, ?_⟩
  · intro c d q hd
    split at hd
    · cases hd
      exact .refl c
    · cases hd
  · intro c e he
    split at he
    · cases he
    · cases he
      exact ⟨c, .refl c, rfl⟩

/-- The text up to an error. -/
theorem exists_read {source : String} {e : SyntaxError}
    (h : Pipeline.parse source = .error e) :
    ∃ read rest, source.toList = read ++ rest ∧ e.offset = bytes read := by
  rw [parse_eq] at h
  cases hprogram : programOver nested (.start source.toList) with
  | ok p =>
    rw [hprogram] at h
    cases h
  | error e' =>
    rw [hprogram] at h
    cases h
    obtain ⟨d, hd, hoffset⟩ := (forward_programOver forward_nested).fails hprogram
    obtain ⟨read, htext, hread⟩ := hd.of_start
    exact ⟨read, d.after, htext, hoffset.trans hread⟩

end Source

/-! ### Line and column -/

namespace SyntaxError

/-- The start of a text is found from the number of its bytes. -/
theorem startOf_bytes (read rest : List Char) :
    startOf (bytes read) (read ++ rest) = some read := by
  induction read with
  | nil => cases rest <;> rfl
  | cons c read ih =>
    have hpos : 0 < c.utf8Size := c.utf8Size_pos
    rw [List.cons_append, startOf, bytes_cons, if_neg (by omega), if_neg (by omega),
      Nat.add_sub_cancel_left, ih]
    rfl

/-- A text up to its last new line, and what comes after that. -/
theorem exists_line (read : List Char) :
    ∃ lines line, read = lines ++ line ∧ (lines = [] ∨ ∃ more, lines = more ++ ['\n']) ∧
      '\n' ∉ line ∧ (read.reverse.takeWhile (· ≠ '\n')).length = line.length := by
  refine ⟨(read.reverse.dropWhile (· ≠ '\n')).reverse, (read.reverse.takeWhile (· ≠ '\n')).reverse,
    ?_, ?_, ?_, ?_⟩
  · rw [← List.reverse_append, List.takeWhile_append_dropWhile, List.reverse_reverse]
  · have hhead := List.head?_dropWhile_not (· ≠ '\n') read.reverse
    cases hdrop : read.reverse.dropWhile (· ≠ '\n') with
    | nil => exact .inl rfl
    | cons x xs =>
      rw [hdrop] at hhead
      obtain rfl : x = '\n' := by simpa using hhead
      exact .inr ⟨xs.reverse, List.reverse_cons⟩
  · intro hmem
    have hne := List.mem_takeWhile_imp (List.mem_reverse.1 hmem)
    simp at hne
  · rw [List.length_reverse]

/-- Line and column of an error at the end of a start of the text. -/
theorem location_eq {e : SyntaxError} {source : String} {lines line rest : List Char}
    (hsource : source.toList = lines ++ line ++ rest) (hoffset : e.offset = bytes (lines ++ line))
    (hline : '\n' ∉ line)
    (hlength : ((lines ++ line).reverse.takeWhile (· ≠ '\n')).length = line.length) :
    e.location source = (lines.count '\n' + 1, line.length + 1) := by
  have hcount : (lines ++ line).count '\n' = lines.count '\n' := by
    rw [List.count_append, List.count_eq_zero.2 hline, Nat.add_zero]
  have hstart : (startOf e.offset source.toList).getD source.toList = lines ++ line := by
    rw [hoffset, hsource, startOf_bytes]
    rfl
  simp only [location, hstart, hcount, hlength]

end SyntaxError

/-- Every text is read to an end. There is exactly one reader of the level of `try` that reads
    nested text by itself, without a bound on the nesting; it reads nested text only after it has
    taken a character; every step that it repeats takes one as well, so that its repetitions are
    loops; and a program is what this reader makes of its text. If that is an error, its position
    is a place between two characters of the text. The line of the error is the number of new lines
    before it plus one, and its column counts the characters between the start of the line and the
    error. -/
theorem Pipeline.parse_ends (source : String) :
    (∃ r : Source.Rule, r = Source.attempt r ∧ (∀ s, s = Source.attempt s → s = r) ∧
      (∀ (s : Source.Rule) (c : Cursor),
        (∀ d : Cursor, d.after.length < c.after.length → s d = r d) →
          Source.attempt s c = Source.attempt r c) ∧
      (∀ (α : Type) (step : Reader (Option α)), Source.Repeated r α step →
        Source.Advances step (fun o => o.isSome) ∧
          Reader.many step = do
            match ← step with
            | none => return []
            | some a => return a :: (← Reader.many step)) ∧
      Pipeline.parse source = (Source.programOver r (.start source.toList)).map Prod.fst) ∧
    ∀ e, Pipeline.parse source = .error e →
      e.offset ≤ source.utf8ByteSize ∧ String.Pos.Raw.IsValid source ⟨e.offset⟩ ∧
      ∃ lines line rest : String, source = lines ++ line ++ rest ∧
        (lines = "" ∨ ∃ more, lines = more ++ "\n") ∧ '\n' ∉ line.toList ∧
        e.offset = (lines ++ line).utf8ByteSize ∧
        e.location source = (lines.toList.count '\n' + 1, line.toList.length + 1) := by
  constructor
  · refine ⟨Source.nested, Source.nested_eq, fun s => Source.eq_nested, ?_, ?_,
      Source.parse_eq source⟩
    · intro s c hs
      exact Source.agrees_attempt hs Source.forward_nested (Nat.lt_succ_self _)
    · intro α step hstep
      have hadvances := hstep.advances Source.forward_nested
      exact ⟨hadvances, Source.many_unroll hadvances⟩
  · intro e he
    obtain ⟨read, rest, hsource, hoffset⟩ := Source.exists_read he
    obtain ⟨lines, line, rfl, hlines, hline, hlength⟩ := SyntaxError.exists_line read
    have htext : source = String.ofList lines ++ String.ofList line ++ String.ofList rest := by
      rw [← String.ofList_append, ← String.ofList_append, ← hsource, String.ofList_toList]
    have hbytes : e.offset = (String.ofList lines ++ String.ofList line).utf8ByteSize := by
      rw [hoffset, bytes, String.ofList_append]
    have hlocation := SyntaxError.location_eq hsource hoffset hline hlength
    refine ⟨?_, ?_, String.ofList lines, String.ofList line, String.ofList rest, htext, ?_, ?_,
      hbytes, ?_⟩
    · have hsize : source.utf8ByteSize = e.offset + (String.ofList rest).utf8ByteSize := by
        rw [htext, String.utf8ByteSize_append, hbytes]
      omega
    · rw [String.Pos.Raw.isValid_iff_exists_append]
      refine ⟨_, _, htext, ?_⟩
      rw [hbytes]
      rfl
    · rcases hlines with rfl | ⟨more, rfl⟩
      · exact .inl rfl
      · exact .inr ⟨String.ofList more, String.ofList_append⟩
    · rwa [String.toList_ofList]
    · rw [String.toList_ofList, String.toList_ofList]
      exact hlocation

/-- A parenthesis that closes nothing, on the second line, behind a character of two bytes. -/
theorem Pipeline.parse_ends_secondLine :
    ∃ e, Pipeline.parse "\"\u00e9\"\n )" = .error e ∧ e.offset = 6 ∧
      e.location "\"\u00e9\"\n )" = (2, 2) ∧ String.Pos.Raw.IsValid "\"\u00e9\"\n )" ⟨6⟩ := by
  have herror : (match Pipeline.parse "\"\u00e9\"\n )" with
      | .ok _ => none
      | .error e => some (e.offset, e.location "\"\u00e9\"\n )")) = some (6, 2, 2) := by
    decide +kernel
  cases hparse : Pipeline.parse "\"\u00e9\"\n )" with
  | ok p =>
    rw [hparse] at herror
    cases herror
  | error e =>
    rw [hparse] at herror
    obtain ⟨hoffset, hlocation⟩ := Prod.mk.inj (Option.some.inj herror)
    obtain ⟨-, hvalid, -⟩ := (Pipeline.parse_ends _).2 e hparse
    rw [hoffset] at hvalid
    exact ⟨e, rfl, hoffset, hlocation, hvalid⟩

end JsonPipe
