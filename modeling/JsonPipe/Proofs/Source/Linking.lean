import JsonPipe.Proofs.Source.SeamLiteral

/-! Ways to follow two readings of texts.

    The grammar is put together from words, names, numbers, strings and trivia. To see what it makes
    of two texts it is enough to say how the places of the two cursors are linked between tokens,
    and that each of these readers keeps them linked. `Linking` collects that, with the parentheses
    that are open: what it asks for is all that the levels of the grammar need. A seam is one way to
    link two texts (`Seam.linking`). -/

namespace JsonPipe.Source

open Reader

/-- How the places of two cursors are linked, and that the readers of tokens keep them linked. -/
structure Linking where
  /-- Linked places in code, with the given parentheses open. -/
  Near : List Opening → Cursor → Cursor → Prop
  /-- Linked places where a token starts. -/
  Settled : List Opening → Cursor → Cursor → Prop
  /-- A symbol that closes a pipeline is not missed at this place of the first text only. -/
  Within : Char → Cursor → Prop
  within_of_ne_nil {x : Char} {c : Cursor} : c.after ≠ [] → Within x c
  within_back {x : Char} {c d : Cursor} : c.Leads d → Within x d → Within x c
  /-- No pipeline is closed by an opening parenthesis. -/
  within_paren (c : Cursor) : Within '(' c
  head {opened : List Opening} {c d : Cursor} : Settled opened c d →
    c.after.head? = d.after.head? ∨ c.after = [] ∧ isClosing d.after = true
  mirrors_skipTrivia (opened : List Opening) :
    Mirrors Always (Near opened) skipTrivia skipTrivia fun _ => Settled opened
  carries_symbolNotBefore {s refused : String} (h : isPlain s.toList = true)
    (hrefused : refused.toList.all (fun x => !isEdge x) = true) (opened : List Opening) :
    Mirrors Always (Settled opened) (symbolNotBefore s refused) (symbolNotBefore s refused)
      fun _ => Settled opened
  carries_keyword {w : String} (h : isPlain w.toList = true) (opened : List Opening) :
    Mirrors Always (Settled opened) (keyword w) (keyword w) fun _ => Settled opened
  mirrors_single {x : Char} {refused : String} {opened opened' : List Opening}
    (hrefused : refused.toList.all (fun x => !isEdge x) = true)
    (hscan : ∀ v, Region.code.scan opened (x :: v) = Region.code.scan opened' v) :
    Mirrors (fun hit c => hit = true ∨ Within x c) (Settled opened)
      (symbolNotBefore (String.singleton x) refused) (symbolNotBefore (String.singleton x) refused)
      fun hit => Settled (bif hit then opened' else opened)
  carries_name (opened : List Opening) :
    Mirrors Always (Settled opened) name name fun _ => Settled opened
  carries_variableName (opened : List Opening) :
    Mirrors Always (Settled opened) variableName variableName fun _ => Settled opened
  carries_number (opened : List Opening) :
    Mirrors Always (Settled opened) number number fun _ => Settled opened
  mirrors_string {pipe pipe' : Reader Pipeline} (hforward : Forward pipe) (hforward' : Forward pipe')
    (hpipe : ∀ opened, Mirrors (fun _ c => c.after ≠ []) (Settled opened) pipe pipe'
      fun _ => Settled opened) (opened : List Opening) :
    Mirrors Always (fun c d => Settled opened c d ∧ c.after.head? = some '"') (string pipe)
      (string pipe') fun _ => Settled opened

namespace Linking

variable (σ : Linking)

/-- The readers keep the places of tokens linked, whatever parentheses are open. -/
def Carries {α : Type} (ok : α → Cursor → Prop) (r s : Reader α) : Prop :=
  ∀ opened, Mirrors ok (σ.Settled opened) r s fun _ => σ.Settled opened

theorem carries_symbol {s : String} (h : isPlain s.toList = true) :
    σ.Carries Always (symbol s) (symbol s) :=
  σ.carries_symbolNotBefore h rfl

theorem Within.back {σ : Linking} {x : Char} {c d : Cursor} (h : c.Leads d) (hd : σ.Within x d) :
    σ.Within x c :=
  σ.within_back h hd

end Linking

/-- A seam links the places of the two texts. -/
def Seam.linking (σ : Seam) : Linking where
  Near := σ.Near .code
  Settled := σ.Settled
  Within := σ.Within
  within_of_ne_nil := σ.within_of_ne_nil
  within_back h hd := Seam.Within.back h hd
  within_paren c r hr hhead := by
    have hclosing := σ.rest_closing r hr
    obtain ⟨t, rfl⟩ := List.head?_eq_some_iff.1 hhead
    cases hclosing
  head hcd := by
    rcases head_settled σ hcd with heq | ⟨r, hr, hc, hd⟩
    · exact .inl heq
    · exact .inr ⟨hc, hd ▸ σ.rest_closing r hr⟩
  mirrors_skipTrivia _ := σ.mirrors_skipTrivia
  carries_symbolNotBefore := σ.carries_symbolNotBefore
  carries_keyword := σ.carries_keyword
  mirrors_single := σ.mirrors_single
  carries_name := carries_name σ
  carries_variableName := carries_variableName σ
  carries_number := carries_number σ
  mirrors_string hforward hforward' hpipe _ := mirrors_string σ hforward hforward' hpipe

instance : Coe Seam Linking := ⟨Seam.linking⟩

end JsonPipe.Source
