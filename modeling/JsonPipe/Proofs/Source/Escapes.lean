import JsonPipe.Proofs.Source.Numeral
import JsonPipe.Text.Quoted
import Mathlib.Data.List.Forall2

/-! The ways to write a character of a string.

    A character of a string is written as itself, by a letter after a backslash, by the four digits
    of its code or, beyond the first plane, by the digits of two codes that form a pair
    (`WritesChar`). In whichever way each of them is written, the characters are read one by one
    (`written_repeats`): a code that is no surrogate ends its escape at once, and a pair takes
    exactly its two escapes, so neighbours do not disturb each other. -/

namespace JsonPipe.Source

open Reader

/-! ### Codes -/

/-- The text is a code in four hexadecimal digits, with letters of either case. -/
def WritesCode (digits : List Char) (code : Nat) : Prop :=
  code < 0x10000 ∧ digits.map Char.toLower = Text.hex4 code

/-- What holds of the first 128 characters holds of every character with such a code. -/
theorem ascii_all {P : Char → Prop} (h : ∀ n, n < 128 → P (Char.ofNat n)) (c : Char)
    (hc : c.toNat < 128) : P c := by
  have hn := h c.toNat hc
  rwa [Char.ofNat_toNat] at hn

theorem toNat_lt_of_hexValue? {c : Char} {d : Nat} (h : hexValue? c = some d) : c.toNat < 128 := by
  have hle : ∀ a b : Char, a ≤ b → a.toNat ≤ b.toNat := fun a b hab => hab
  rw [hexValue?] at h
  split at h
  · next hdigit =>
    simp only [Char.isDigit, Bool.and_eq_true, decide_eq_true_eq] at hdigit
    have := hle c '9' hdigit.2
    simp only [Char.reduceToNat] at this
    omega
  · split at h
    · next hlower =>
      have := hle c 'f' hlower.2
      simp only [Char.reduceToNat] at this
      omega
    · split at h
      · next hupper =>
        have := hle c 'F' hupper.2
        simp only [Char.reduceToNat] at this
        omega
      · cases h

theorem toNat_lt_of_toLower {c : Char} (h : c.toLower.toNat < 128) : c.toNat < 128 := by
  delta Char.toLower at h
  split at h
  · next hupper =>
    have hle : c.toNat ≤ 'Z'.toNat := hupper.2
    simp only [Char.reduceToNat] at hle
    omega
  · exact h

/-- A digit of either case has the value of the lower-case digit. -/
theorem hexValue?_eq_some_iff {c : Char} {d : Nat} :
    hexValue? c = some d ↔ d < 16 ∧ c.toLower = Nat.digitChar d := by
  have hlt : ∀ c : Char, c.toNat < 128 → ∀ d, hexValue? c = some d → d < 16 := by
    intro c hc d hd
    have hall := ascii_all (P := fun c => (hexValue? c).all (· < 16) = true) (by decide +kernel) c hc
    simpa [hd] using hall
  have hiff : ∀ c : Char, c.toNat < 128 →
      ∀ d < 16, hexValue? c = some d ↔ c.toLower = Nat.digitChar d :=
    ascii_all (by decide +kernel)
  constructor
  · intro h
    have hc := toNat_lt_of_hexValue? h
    have hd := hlt c hc d h
    exact ⟨hd, (hiff c hc d hd).1 h⟩
  · rintro ⟨hd, h⟩
    have hdigit : ∀ d < 16, (Nat.digitChar d).toNat < 128 := by decide
    exact (hiff c (toNat_lt_of_toLower (h ▸ hdigit d hd)) d hd).2 h

/-- The digits of a code are read. -/
theorem hexDigit_takes {c : Char} {d : Nat} (h : c.toLower = Text.hexDigit d)
    (t : List Char) : Takes Anywhere Anywhere hexDigit (c :: t) (d % 16) t := by
  intro b _
  refine ⟨c :: b, trivial, ?_⟩
  have hpeek : peek ⟨b, c :: t⟩ = .ok (some c, ⟨b, c :: t⟩) := rfl
  have hvalue := hexValue?_eq_some_iff.2 ⟨Nat.mod_lt d (by decide), h⟩
  rw [hexDigit, bind_ok hpeek, Option.bind_some, hvalue]
  rfl

theorem WritesCode.takes {digits : List Char} {code : Nat} (h : WritesCode digits code)
    (t : List Char) : Takes Anywhere Anywhere hex4 (digits ++ t) code t := by
  obtain ⟨hlt, hdigits⟩ := h
  match digits with
  | [c₁, c₂, c₃, c₄] =>
    simp only [List.map_cons, List.map_nil, Text.hex4, List.cons.injEq] at hdigits
    obtain ⟨h₁, h₂, h₃, h₄, -⟩ := hdigits
    have hvalue : ((code / 4096 % 16 * 16 + code / 256 % 16) * 16 + code / 16 % 16) * 16 +
        code % 16 = code := by omega
    have htakes : Takes Anywhere Anywhere hex4 ([c₁, c₂, c₃, c₄] ++ t)
        (((code / 4096 % 16 * 16 + code / 256 % 16) * 16 + code / 16 % 16) * 16 + code % 16) t :=
      (hexDigit_takes h₁ _).bind ((hexDigit_takes h₂ _).bind
        ((hexDigit_takes h₃ _).bind ((hexDigit_takes h₄ _).bind
          (takes_pure _))))
    rwa [hvalue] at htakes
  | [] | [_] | [_, _] | [_, _, _] => simp [Text.hex4] at hdigits
  | _ :: _ :: _ :: _ :: _ :: _ => simp [Text.hex4] at hdigits

/-! ### Characters -/

/-- The ways to write a character of a string. -/
inductive WritesChar : List Char → Char → Prop
  | raw {c : Char} : c ≠ '"' → c ≠ '\\' → WritesChar [c] c
  | short {letter c : Char} : (letter, c) ∈ shortEscapes → WritesChar ['\\', letter] c
  | code {digits : List Char} {c : Char} :
    WritesCode digits c.toNat → WritesChar ('\\' :: 'u' :: digits) c
  /-- A character beyond the first plane, by the codes of the two halves of its pair. -/
  | pair {high low : List Char} {c : Char} : 0x10000 ≤ c.toNat →
    WritesCode high (0xd800 + (c.toNat - 0x10000) / 0x400) →
    WritesCode low (0xdc00 + (c.toNat - 0x10000) % 0x400) →
    WritesChar ('\\' :: 'u' :: high ++ '\\' :: 'u' :: low) c

theorem isHighSurrogate_eq_false {n : Nat} (h : n < 0xd800 ∨ 0xdc00 ≤ n) :
    isHighSurrogate n = false := by
  simp only [isHighSurrogate, Bool.and_eq_false_iff, decide_eq_false_iff_not]
  omega

theorem isLowSurrogate_eq_false {n : Nat} (h : n < 0xdc00 ∨ 0xe000 ≤ n) :
    isLowSurrogate n = false := by
  simp only [isLowSurrogate, Bool.and_eq_false_iff, decide_eq_false_iff_not]
  omega

/-- No character has the code of a surrogate. -/
theorem not_surrogate (c : Char) :
    isHighSurrogate c.toNat = false ∧ isLowSurrogate c.toNat = false := by
  have hvalid : c.toNat < 0xd800 ∨ 0xdfff < c.toNat ∧ c.toNat < 0x110000 := c.valid
  exact ⟨isHighSurrogate_eq_false (by omega), isLowSurrogate_eq_false (by omega)⟩

theorem codeEscape_takes_code {digits : List Char} {c : Char} (h : WritesCode digits c.toNat)
    (t : List Char) : Takes Anywhere Anywhere codeEscape (digits ++ t) c t := by
  obtain ⟨hhigh, hlow⟩ := not_surrogate c
  have hchar : Takes Anywhere Anywhere (charOfCode c.toNat) t c t := by
    have hpure := takes_pure (I := Anywhere) (t := t) c
    rw [charOfCode, hhigh, hlow, Char.ofNat_toNat]
    exact hpure
  rw [codeEscape]
  refine (h.takes t).bind ?_
  simp only [hhigh, Bool.false_eq_true, if_false]
  exact hchar

theorem takePhrase_takes (t : List Char) :
    Takes Anywhere Anywhere (takePhrase "\\u") ('\\' :: 'u' :: t) true t :=
  fun b _ => ⟨'u' :: '\\' :: b, trivial, rfl⟩

theorem codeEscape_takes_pair {high low : List Char} {c : Char} (hc : 0x10000 ≤ c.toNat)
    (hhigh : WritesCode high (0xd800 + (c.toNat - 0x10000) / 0x400))
    (hlow : WritesCode low (0xdc00 + (c.toNat - 0x10000) % 0x400)) (t : List Char) :
    Takes Anywhere Anywhere codeEscape (high ++ '\\' :: 'u' :: low ++ t) c t := by
  have hvalid : c.toNat < 0xd800 ∨ 0xdfff < c.toNat ∧ c.toNat < 0x110000 := c.valid
  have hfirst : isHighSurrogate (0xd800 + (c.toNat - 0x10000) / 0x400) = true := by
    simp only [isHighSurrogate, Bool.and_eq_true, decide_eq_true_eq]
    omega
  have hsecond : isLowSurrogate (0xdc00 + (c.toNat - 0x10000) % 0x400) = true := by
    simp only [isLowSurrogate, Bool.and_eq_true, decide_eq_true_eq]
    omega
  have hcode : 0x10000 + (0xd800 + (c.toNat - 0x10000) / 0x400 - 0xd800) * 1024 +
      (0xdc00 + (c.toNat - 0x10000) % 0x400 - 0xdc00) = c.toNat := by omega
  rw [codeEscape, List.append_assoc]
  refine (hhigh.takes _).bind ?_
  simp only [hfirst, if_true]
  refine (takePhrase_takes (low ++ t)).bind ?_
  simp only [if_true]
  refine (hlow.takes t).bind ?_
  simp only [hsecond, if_true, hcode, Char.ofNat_toNat]
  exact takes_pure c

/-- A character is read, in whichever way it is written. -/
theorem WritesChar.takes {text : List Char} {c : Char} (h : WritesChar text c)
    (pipe : Reader Pipeline) (t : List Char) :
    Takes Anywhere Anywhere (piece pipe) (text ++ t) (some (.char c)) t := by
  cases h with
  | raw hquote hslash =>
    refine (take_takes _ _).bind ?_
    split
    · next heq => cases heq
    · next heq => exact absurd (Option.some.inj heq) hquote
    · next heq => exact absurd (Option.some.inj heq) hslash
    · next heq =>
      rw [← Option.some.inj heq]
      exact takes_pure _
  | @short letter _ hshort =>
    simp only [shortEscapes, List.mem_cons, List.not_mem_nil, or_false, Prod.mk.injEq] at hshort
    rcases hshort with ⟨rfl, rfl⟩ | ⟨rfl, rfl⟩ | ⟨rfl, rfl⟩ | ⟨rfl, rfl⟩ | ⟨rfl, rfl⟩ | ⟨rfl, rfl⟩ |
      ⟨rfl, rfl⟩ | ⟨rfl, rfl⟩ <;> exact fun b _ => ⟨_, trivial, rfl⟩
  | code hcode =>
    refine (take_takes _ _).bind ((takeOneOf_miss rfl).bind ?_)
    exact Takes.bind ((take_takes _ _).bind (codeEscape_takes_code hcode t)) (takes_pure _)
  | pair hc hhigh hlow =>
    refine (take_takes _ _).bind ((takeOneOf_miss rfl).bind ?_)
    exact Takes.bind ((take_takes _ _).bind (codeEscape_takes_pair hc hhigh hlow t)) (takes_pure _)

theorem WritesChar.ne_nil {text : List Char} {c : Char} (h : WritesChar text c) : text ≠ [] := by
  cases h <;> simp

/-! ### Strings -/

/-- The characters of a string are read, in whichever way each of them is written. -/
theorem written_repeats {pipe : Reader Pipeline} {J : Cursor → Prop} {writing : List (List Char)}
    {cs : List Char} (h : List.Forall₂ WritesChar writing cs) {t u : List Char} {more : List Piece}
    (hmore : Repeats Anywhere J (piece pipe) t more u) :
    Repeats Anywhere J (piece pipe) (writing.flatten ++ t) (cs.map .char ++ more) u := by
  induction h with
  | nil => exact hmore
  | @cons text c writing cs hc _ ih =>
    rw [List.flatten_cons, List.append_assoc]
    refine .more (hc.takes pipe _) ?_ ih
    have hpos := List.length_pos_iff.2 hc.ne_nil
    simp only [List.length_append]
    omega

end JsonPipe.Source
