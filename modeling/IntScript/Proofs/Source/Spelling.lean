import IntScript.Proofs.Source.Printing

/-!
# The spelling of terminals

What the grammar sees of a token determines its text.  Conversely, any terminals that tokens are
seen as are those of a source: the one in which their spellings stand side by side, with a blank
behind each.

* `Cursor.look_eq_of_mem_tokens` : tokens that are seen alike look alike.
* `Scans.spaced` : every list of terminals has a source.
-/

namespace IntScript

open Grammar

namespace Terminal

/-- The text of the tokens that are seen as the terminal. -/
def spelling : Terminal → List Char
  | fixed (.keyword keyword) => keyword.word.toList
  | fixed kind => ((fixedSpellings.find? (·.2 = kind)).map Prod.fst).getD []
  | name text => text.toList
  | numeral digits => digits.toList

/-- The kind and the text of the tokens that are seen as the terminal. -/
def look (terminal : Terminal) : TokenKind × String :=
  (terminal.kind, String.ofList terminal.spelling)

/-- Some token is seen as the terminal, and it is no numeral that is too large. -/
structure Occurs (terminal : Terminal) : Prop where
  proper : terminal.Proper
  isFixed : ∀ kind, terminal = .fixed kind → kind.isFixed = true

namespace Occurs

theorem fixed {kind : TokenKind} (h : kind.isFixed = true) : (Terminal.fixed kind).Occurs where
  proper := by
    refine ⟨?_, trivial⟩
    rintro rfl
    cases h
  isFixed := by
    rintro other ⟨⟩
    exact h

theorem name {name : String} (h : IsName name) : (Terminal.name name).Occurs :=
  ⟨⟨h, trivial⟩, nofun⟩

theorem numeral {digits : String} (h : (Terminal.numeral digits).Fits) :
    (Terminal.numeral digits).Occurs :=
  ⟨⟨⟨h.1, h.2.1⟩, h⟩, nofun⟩

end Occurs

end Terminal

/-! ## The text of a token -/

theorem spelling_of_mem_fixedSpellings : ∀ spelling ∈ fixedSpellings,
    (Terminal.fixed spelling.2).spelling = spelling.1 := by
  decide

theorem Lexeme.text_eq_spelling {source : List Char} {lexeme : Lexeme}
    (h : Lexeme.ofText? source = some lexeme) : lexeme.text = lexeme.terminal.spelling := by
  unfold Lexeme.ofText? at h
  split at h
  next => cases h
  next c rest =>
    split at h
    next =>
      obtain rfl := Option.some.inj h
      simp only [Lexeme.terminal, wordKind]
      cases hword : Keyword.ofWord? (String.ofList ((c :: rest).takeWhile isWordChar)) with
      | none => exact String.toList_ofList.symm
      | some keyword =>
          have hspelling := Keyword.word_of_ofWord? hword
          simp only [Terminal.ofKind, Terminal.spelling, hspelling, String.toList_ofList]
    next =>
      split at h
      next =>
        obtain rfl := Option.some.inj h
        exact String.toList_ofList.symm
      next =>
        obtain ⟨spelling, hfind, rfl⟩ := Option.map_eq_some_iff.mp h
        have hmem := List.mem_of_find?_eq_some hfind
        have hkind := Lexeme.fixedSpellings_kind spelling hmem
        have hterminal : Terminal.ofKind spelling.2 (String.ofList spelling.1) =
            .fixed spelling.2 := by
          unfold Terminal.ofKind
          split
          next heq => exact absurd heq hkind.1
          next heq => exact absurd heq hkind.2.1
          next => rfl
        rw [Lexeme.terminal, hterminal, spelling_of_mem_fixedSpellings spelling hmem]

namespace Cursor

theorem look_eq_of_mem_tokens {cursor : Cursor} :
    ∀ token ∈ cursor.tokens.1, token.look = token.terminal.look := by
  induction cursor using induct with
  | none cursor hnext =>
      rw [tokens_of_none hnext]
      exact fun _ h => absurd h List.not_mem_nil
  | some cursor token behind hnext ih =>
      obtain ⟨lexeme, hlexeme, heq⟩ := Option.map_eq_some_iff.mp hnext
      obtain ⟨rfl, -⟩ := Prod.mk.inj heq
      rw [tokens_of_some hnext, List.forall_mem_cons]
      refine ⟨?_, ih⟩
      rw [Token.look, Terminal.look, Token.kind_terminal]
      exact congrArg (lexeme.kind, String.ofList ·) (Lexeme.text_eq_spelling hlexeme)

theorem occurs_of_mem_tokens {cursor : Cursor} {token : Token} (h : token ∈ cursor.tokens.1)
    (hfits : token.terminal.Fits) : token.terminal.Occurs where
  proper := ⟨wellSpelled_of_mem_tokens token h, hfits⟩
  isFixed := by
    intro kind hterminal
    have hspelled := wellSpelled_of_mem_tokens token h
    have hkind : token.kind = kind := by
      rw [← token.kind_terminal, hterminal]
      rfl
    rw [hterminal] at hspelled
    cases kind with
    | eof => exact absurd rfl hspelled
    | identifier => cases (Token.terminal_of_identifier hkind).symm.trans hterminal
    | number => cases (Token.terminal_of_number hkind).symm.trans hterminal
    | _ => rfl

end Cursor

/-! ## The source of a list of terminals -/

/-- The spellings of terminals with a blank behind each. -/
def spaced (terminals : List Terminal) : List Char :=
  terminals.flatMap fun terminal => terminal.spelling ++ [' ']

namespace Scans

theorem spelling {terminal : Terminal} (h : terminal.Occurs) (rest : List Char) :
    Scans (terminal.spelling ++ ' ' :: rest) [terminal] rest := by
  suffices Scans (terminal.spelling ++ ' ' :: rest) [terminal] (' ' :: rest) from this.trans space
  have hseparated : Separated (' ' :: rest) := separated_cons (by decide)
  cases terminal with
  | name text => exact Scans.name h.proper.1 hseparated
  | numeral digits => exact Scans.numeral h.proper.1.1 h.proper.1.2 hseparated
  | fixed kind =>
      have hfixed := h.isFixed kind rfl
      cases kind with
      | eof | number | identifier => cases hfixed
      | keyword keyword => exact Scans.keyword keyword hseparated
      | operator op =>
          have hspelling : (Terminal.fixed (.operator op)).spelling = op.symbol.toList := by
            cases op <;> decide
          rw [hspelling]
          exact operator op rest
      | _ => exact single rfl rfl (by simp [Terminal.spelling, fixedSpellings])

theorem spaced {terminals : List Terminal} (h : ∀ terminal ∈ terminals, terminal.Occurs) :
    Scans (IntScript.spaced terminals) terminals [] := by
  induction terminals with
  | nil => exact .nil []
  | cons terminal others ih =>
      rw [List.forall_mem_cons] at h
      have hfirst := spelling h.1 (IntScript.spaced others)
      simpa [IntScript.spaced] using hfirst.trans (ih h.2)

end Scans

end IntScript
