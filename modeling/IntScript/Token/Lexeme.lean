import IntScript.Token

/-!
# Lexemes

The text of one token at the front of a longer text.  A word or a numeral takes all the characters
it can; among the fixed spellings the longer one is listed first, so that it wins.
-/

namespace IntScript

/-- A name or a reserved word starts with one of these. -/
def isWordStart (c : Char) : Bool :=
  c.isAlpha || c == '_'

/-- A name or a reserved word goes on with these. -/
def isWordChar (c : Char) : Bool :=
  c.isAlphanum || c == '_'

/-- What a whole word is: a reserved word, or else a name. -/
def wordKind (word : String) : TokenKind :=
  match Keyword.ofWord? word with
  | some keyword => .keyword keyword
  | none => .identifier

/-- The tokens with one spelling each.  A spelling comes before every shorter one that it
extends. -/
def fixedSpellings : List (List Char × TokenKind) :=
  [ (['('], .openParen), ([')'], .closeParen),
    (['\x7b'], .openCurly), (['\x7d'], .closeCurly),
    (['['], .openBracket), ([']'], .closeBracket),
    ([','], .comma), ([';'], .semicolon),
    (['=', '='], .operator .equals), (['!', '='], .operator .notEquals),
    (['='], .assignment),
    (['<', '='], .operator .lessEquals), (['<'], .operator .less),
    (['>', '='], .operator .greaterEquals), (['>'], .operator .greater),
    (['+'], .operator .add), (['-'], .operator .subtract),
    (['*'], .operator .multiply), (['/'], .operator .divide) ]

/-- A token's kind and text, cut off the front of a text. -/
structure Lexeme where
  kind : TokenKind
  text : List Char
  rest : List Char
  deriving DecidableEq, Repr

namespace Lexeme

/-- The longest token at the front of a text, if one starts there. -/
def ofText? (source : List Char) : Option Lexeme :=
  match source with
  | [] => none
  | c :: _ =>
    if isWordStart c then
      let text := source.takeWhile isWordChar
      some ⟨wordKind (String.ofList text), text, source.dropWhile isWordChar⟩
    else if c.isDigit then
      some ⟨.number, source.takeWhile Char.isDigit, source.dropWhile Char.isDigit⟩
    else
      (fixedSpellings.find? fun spelling => spelling.1.isPrefixOf source).map fun spelling =>
        ⟨spelling.2, spelling.1, source.drop spelling.1.length⟩

theorem isWordChar_of_isWordStart {c : Char} (h : isWordStart c = true) :
    isWordChar c = true := by
  simp only [isWordStart, isWordChar, Char.isAlphanum, Bool.or_eq_true] at h ⊢
  rcases h with h | h
  · exact .inl (.inl h)
  · exact .inr h

/-- No spelling is empty. -/
theorem fixedSpellings_ne_nil : ∀ spelling ∈ fixedSpellings, spelling.1 ≠ [] := by
  decide

/-- The text of a lexeme and what follows it make up the source. -/
theorem text_append_rest {source : List Char} {lexeme : Lexeme}
    (h : ofText? source = some lexeme) : lexeme.text ++ lexeme.rest = source := by
  unfold ofText? at h
  split at h
  · simp at h
  · split at h
    · obtain rfl := Option.some.inj h
      exact List.takeWhile_append_dropWhile
    · split at h
      · obtain rfl := Option.some.inj h
        exact List.takeWhile_append_dropWhile
      · obtain ⟨spelling, hfind, rfl⟩ := Option.map_eq_some_iff.mp h
        have hfront := List.find?_some hfind
        simp only [List.isPrefixOf_iff_prefix] at hfront
        obtain ⟨rest, hrest⟩ := hfront
        simp [← hrest]

/-- A lexeme has at least one character. -/
theorem text_ne_nil {source : List Char} {lexeme : Lexeme}
    (h : ofText? source = some lexeme) : lexeme.text ≠ [] := by
  unfold ofText? at h
  split at h
  · simp at h
  · split at h
    next hword =>
      obtain rfl := Option.some.inj h
      simp [isWordChar_of_isWordStart hword]
    next =>
      split at h
      next hdigit =>
        obtain rfl := Option.some.inj h
        simp [hdigit]
      next =>
        obtain ⟨spelling, hfind, rfl⟩ := Option.map_eq_some_iff.mp h
        exact fixedSpellings_ne_nil spelling (List.mem_of_find?_eq_some hfind)

/-- What follows a lexeme is shorter than the source. -/
theorem rest_length_lt {source : List Char} {lexeme : Lexeme}
    (h : ofText? source = some lexeme) : lexeme.rest.length < source.length := by
  have hsplit := congrArg List.length (text_append_rest h)
  have hpos := List.length_pos_iff.mpr (text_ne_nil h)
  simp only [List.length_append] at hsplit
  omega

end Lexeme

end IntScript
