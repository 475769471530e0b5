import Mathlib
import IntScript.Proofs.Grammar.TokensOnly
import IntScript.Proofs.Token.Joined

/-!
# Spaces between tokens

A source can be written with other blanks and comments between its tokens.  As long as a blank comes
behind each token, nothing that follows can be part of it, and as long as every comment is ended, no
token can be part of a comment.  So the tokens are the same, and what is read of them.

* `IsSpacing`, `IsSeparator`, `IsEnding` : what may stand in front of, between and behind tokens,
  and `Spaces` : tokens with that between and behind them.
* `Cursor.skipTrivia_spacing` : a cursor skips spacing, whatever comes behind it.
* `Cursor.tokens_of_spaces` : the tokens of a text are those that it spaces, by induction on them.
* `spaces_do_not_matter` : the main result.
-/

namespace IntScript

open Text

/-- A piece that is the whole text is the longest one. -/
theorem IsLongest.whole {P : List Char → Prop} {piece : List Char} (h : P piece) :
    IsLongest P piece (piece ++ []) := by
  rw [List.append_nil]
  exact ⟨List.prefix_rfl, h, fun _ _ hprefix => hprefix.length_le⟩

/-! ## Spacing -/

/-- Blanks and comments that are ended by line breaks. -/
inductive IsSpacing : List Char → Prop where
  | nil : IsSpacing []
  | blank {c : Char} {spacing : List Char} (hblank : isBlank c = true)
      (hspacing : IsSpacing spacing) : IsSpacing (c :: spacing)
  | comment {body spacing : List Char} (hbody : '\n' ∉ body) (hspacing : IsSpacing spacing) :
      IsSpacing ('/' :: '/' :: (body ++ '\n' :: spacing))

/-- What may stand between two tokens: spacing that starts with a blank. -/
inductive IsSeparator : List Char → Prop where
  | intro {c : Char} {spacing : List Char} (hblank : isBlank c = true)
      (hspacing : IsSpacing spacing) : IsSeparator (c :: spacing)

/-- What may stand behind the last token.  The last comment need not be ended. -/
inductive IsEnding : List Char → Prop where
  | nil : IsEnding []
  | separator {separator : List Char} (hseparator : IsSeparator separator) : IsEnding separator
  | comment {separator body : List Char} (hseparator : IsSeparator separator)
      (hbody : '\n' ∉ body) : IsEnding (separator ++ '/' :: '/' :: body)

/-- The text has the given tokens, with separators between them and an ending behind them. -/
inductive Spaces : List Token → List Char → Prop where
  | nil {ending : List Char} (hending : IsEnding ending) : Spaces [] ending
  | last (token : Token) {ending : List Char} (hending : IsEnding ending) :
      Spaces [token] (token.text.toList ++ ending)
  | cons (token : Token) {next : Token} {rest : List Token} {separator text : List Char}
      (hseparator : IsSeparator separator) (hrest : Spaces (next :: rest) text) :
      Spaces (token :: next :: rest) (token.text.toList ++ (separator ++ text))

/-- The source has the given tokens, with spacing in front of them as well. -/
inductive Respaced (tokens : List Token) (source : String) : Prop where
  | intro {spacing text : List Char} (hspacing : IsSpacing spacing) (htext : Spaces tokens text)
      (hsource : source.toList = spacing ++ text)

theorem IsSeparator.isSpacing {separator : List Char} (h : IsSeparator separator) :
    IsSpacing separator := by
  cases h with
  | intro hblank hspacing => exact .blank hblank hspacing

theorem IsSeparator.isBlank_head {separator : List Char} (h : IsSeparator separator)
    (behind : List Char) : ∀ c ∈ (separator ++ behind).head?, isBlank c = true := by
  cases h with
  | intro hblank =>
      rintro _ ⟨⟩
      exact hblank

theorem IsEnding.isBlank_head {ending : List Char} (h : IsEnding ending) :
    ∀ c ∈ ending.head?, isBlank c = true := by
  cases h with
  | nil => simp
  | separator hseparator =>
      rw [← List.append_nil ending]
      exact hseparator.isBlank_head []
  | comment hseparator => exact hseparator.isBlank_head _

/-- Spacing is trivia, and trivia may come behind it. -/
theorem IsSpacing.isTrivia_append {spacing trivia : List Char} (h : IsSpacing spacing)
    (htrivia : IsTrivia trivia) : IsTrivia (spacing ++ trivia) := by
  induction h with
  | nil => exact htrivia
  | blank hblank _ ih => exact .blank hblank ih
  | @comment body spacing hbody _ ih =>
      have hrest : IsTrivia ('\n' :: (spacing ++ trivia)) := .blank isBlank_lineBreak ih
      have hcomment := IsTrivia.comment hbody hrest
      simpa using hcomment

theorem IsEnding.isTrivia {ending : List Char} (h : IsEnding ending) : IsTrivia ending := by
  cases h with
  | nil => exact .nil
  | separator hseparator =>
      rw [← List.append_nil ending]
      exact hseparator.isSpacing.isTrivia_append .nil
  | @comment separator body hseparator hbody =>
      have hcomment := IsTrivia.comment hbody .nil
      rw [List.append_nil] at hcomment
      exact hseparator.isSpacing.isTrivia_append hcomment

namespace Cursor

theorem skipTriviaFrom_comment {body : List Char} (hbody : '\n' ∉ body) (offset : Nat)
    (rest : List Char) : ∃ offset', skipTriviaFrom true offset (body ++ '\n' :: rest) =
      skipTrivia ⟨offset', rest⟩ := by
  induction body generalizing offset with
  | nil => exact ⟨offset + '\n'.utf8Size, rfl⟩
  | cons c body ih =>
      rw [List.mem_cons, not_or] at hbody
      have hcomment : (c != '\n') = true := bne_iff_ne.mpr (Ne.symm hbody.1)
      rw [List.cons_append, skipTriviaFrom, if_pos rfl, hcomment]
      exact ih hbody.2 _

/-- Spacing is skipped, and then what comes behind it. -/
theorem skipTrivia_spacing {spacing : List Char} (h : IsSpacing spacing) (offset : Nat)
    (rest : List Char) :
    ∃ offset', skipTrivia ⟨offset, spacing ++ rest⟩ = skipTrivia ⟨offset', rest⟩ := by
  induction h generalizing offset with
  | nil => exact ⟨offset, rfl⟩
  | @blank c spacing hblank _ ih =>
      obtain ⟨offset', hskip⟩ := ih (offset + c.utf8Size)
      refine ⟨offset', ?_⟩
      rw [← hskip, List.cons_append, skipTrivia, skipTriviaFrom, if_neg Bool.false_ne_true,
        if_pos hblank]
      rfl
  | @comment body spacing hbody _ ih =>
      have hslash : '\n' ∉ '/' :: body := by simpa using hbody
      obtain ⟨mid, hcomment⟩ := skipTriviaFrom_comment hslash (offset + '/'.utf8Size)
        (spacing ++ rest)
      obtain ⟨offset', hskip⟩ := ih mid
      refine ⟨offset', ?_⟩
      rw [← hskip, ← hcomment]
      simp [skipTrivia, skipTriviaFrom, IsTrivia.not_isBlank_slash]

theorem skipTrivia_ending {ending : List Char} (h : IsEnding ending) (offset : Nat) :
    (skipTrivia ⟨offset, ending⟩).rest = [] := by
  have hskip : skipTrivia ⟨offset, ending ++ []⟩ = ⟨offset + byteLength ending, []⟩ :=
    skipTrivia_eq_iff.mpr (.whole h.isTrivia)
  rw [List.append_nil] at hskip
  rw [hskip]

end Cursor

/-! ## Tokens -/

namespace IsLexeme

variable {kind : TokenKind} {text behind : List Char}

/-- No lexeme starts a comment. -/
theorem not_comment (h : IsLexeme kind text) : ¬ ['/', '/'] <+: text := by
  rintro ⟨rest, rfl⟩
  have hmem := h.mem_fixedSpellings (by decide) (by decide)
  have hnone : ∀ spelling ∈ fixedSpellings, ¬ ['/', '/'] <+: spelling.1 := by decide
  exact hnone _ hmem ⟨rest, rfl⟩

/-- A lexeme is cut off where it stands alone or has a blank behind it, and no comment starts
there. -/
theorem ofText?_append (h : IsLexeme kind text)
    (hbehind : ∀ c ∈ behind.head?, isBlank c = true) :
    Lexeme.ofText? (text ++ behind) = some ⟨kind, text, behind⟩ ∧
      ¬ ['/', '/'] <+: text ++ behind := by
  have halone := Lexeme.ofText?_eq_some_iff.mpr ⟨h, .whole ⟨kind, h⟩⟩
  rw [List.append_nil] at halone
  cases behind with
  | nil =>
      rw [List.append_nil]
      exact ⟨halone, h.not_comment⟩
  | cons c behind =>
      have hblank : isBlank c = true := hbehind c rfl
      have hslashes : c ∉ ['/', '/'] := by
        intro hmem
        obtain rfl : c = '/' := by simpa using hmem
        exact IsTrivia.not_isBlank_slash hblank
      refine ⟨Lexeme.ofText?_append_of_some hblank halone, ?_⟩
      rw [prefix_append_cons_iff hslashes]
      exact h.not_comment

end IsLexeme

namespace Cursor

/-- The texts of tokens are lexemes of their kinds. -/
theorem isLexeme_of_mem_tokens (cursor : Cursor) :
    ∀ token ∈ cursor.tokens.1, IsLexeme token.kind token.text.toList := by
  induction cursor using induct with
  | none cursor hnext =>
      rw [tokens_of_none hnext]
      exact fun _ h => absurd h List.not_mem_nil
  | some cursor token behind hnext ih =>
      obtain ⟨lexeme, hlexeme, rfl, -⟩ := next?_eq_some_iff.mp hnext
      rw [tokens_of_some hnext, List.forall_mem_cons, String.toList_ofList]
      exact ⟨(Lexeme.longest_of_ofText? hlexeme).1, ih⟩

/-- A lexeme with a blank or nothing behind it is the first token of the text. -/
theorem tokens_of_isLexeme {kind : TokenKind} {text behind : List Char} (h : IsLexeme kind text)
    (hbehind : ∀ c ∈ behind.head?, isBlank c = true) (offset : Nat) :
    ∃ token offset', (skipTrivia ⟨offset, text ++ behind⟩).tokens =
        (token :: (skipTrivia ⟨offset', behind⟩).tokens.1,
          (skipTrivia ⟨offset', behind⟩).tokens.2) ∧
      token.look = (kind, String.ofList text) := by
  obtain ⟨hlexeme, hcomment⟩ := h.ofText?_append hbehind
  rw [Scans.skipTrivia_of_ofText? hlexeme hcomment]
  exact ⟨_, _, tokens_of_some (next?_eq_some_iff.mpr ⟨_, hlexeme, rfl, rfl⟩), rfl⟩

/-- A text that spaces tokens has these tokens, and is read to its end. -/
theorem tokens_of_spaces {tokens : List Token} {text : List Char} (h : Spaces tokens text)
    (hlexemes : ∀ token ∈ tokens, IsLexeme token.kind token.text.toList) (offset : Nat) :
    (skipTrivia ⟨offset, text⟩).tokens.1.map Token.look = tokens.map Token.look ∧
      (skipTrivia ⟨offset, text⟩).tokens.2.rest = [] := by
  have hend : ∀ {ending} offset, IsEnding ending →
      (skipTrivia ⟨offset, ending⟩).tokens = ([], skipTrivia ⟨offset, ending⟩) := by
    intro ending offset hending
    refine tokens_of_none (next?_eq_none_iff.mpr ?_)
    rw [skipTrivia_ending hending]
    rfl
  induction h generalizing offset with
  | nil hending =>
      rw [hend offset hending]
      exact ⟨rfl, skipTrivia_ending hending offset⟩
  | last token hending =>
      obtain ⟨first, offset', htokens, hlook⟩ :=
        tokens_of_isLexeme (hlexemes token List.mem_cons_self) hending.isBlank_head offset
      rw [htokens, hend offset' hending, List.map_singleton, List.map_singleton, hlook,
        String.ofList_toList]
      exact ⟨rfl, skipTrivia_ending hending offset'⟩
  | @cons token next rest separator text hseparator _ ih =>
      obtain ⟨first, mid, htokens, hlook⟩ :=
        tokens_of_isLexeme (hlexemes token List.mem_cons_self) (hseparator.isBlank_head text) offset
      obtain ⟨offset', hskip⟩ := skipTrivia_spacing hseparator.isSpacing mid text
      obtain ⟨hlooks, hrest⟩ :=
        ih (fun token hmem => hlexemes token (List.mem_cons_of_mem _ hmem)) offset'
      rw [htokens, hskip, List.map_cons, List.map_cons, hlook, hlooks, String.ofList_toList]
      exact ⟨rfl, hrest⟩

end Cursor

/-! ## Sources -/

/-- What is read of a source is read of any other with the same tokens. -/
theorem ReadsBy.eq_ok_iff_of_look_eq {α : Type} {parse : String → String → Except Error α}
    {reader : Nat → Reader α} {language : Grammar.Language} (h : ReadsBy parse reader language)
    {source file other otherFile : String} {tokens otherTokens : List Token}
    (htokenize : tokenize source file = .ok tokens)
    (htokenize' : tokenize other otherFile = .ok otherTokens)
    (hlooks : otherTokens.map Token.look = tokens.map Token.look) (value : α) :
    parse source file = .ok value ↔ parse other otherFile = .ok value := by
  rcases h.of_look_eq htokenize htokenize' hlooks with
    ⟨found, hparse, hparse'⟩ | ⟨_, _, _, _, -, -, hparse, hparse'⟩
  · rw [hparse, hparse']
  · simp [hparse, hparse']

theorem Respaced.tokenize {source file other : String} {tokens : List Token} {last : Token}
    (h : Respaced tokens other)
    (htokenize : IntScript.tokenize source file = .ok (tokens ++ [last])) (otherFile : String) :
    ∃ others, IntScript.tokenize other otherFile = .ok others ∧
      others.map Token.look = (tokens ++ [last]).map Token.look := by
  obtain ⟨rfl, -, rfl⟩ := tokenize_eq_ok_iff.mp htokenize
  obtain @⟨spacing, text, hspacing, htext, hsource⟩ := h
  obtain ⟨offset, hskip⟩ := Cursor.skipTrivia_spacing hspacing 0 text
  have hcursor : Cursor.ofSource other = Cursor.skipTrivia ⟨offset, text⟩ := by
    rw [Cursor.ofSource, hsource, hskip]
  obtain ⟨hlooks, hrest⟩ := Cursor.tokens_of_spaces htext (Cursor.isLexeme_of_mem_tokens _) offset
  rw [← hcursor] at hlooks hrest
  refine ⟨_, tokenize_eq_ok_iff.mpr ⟨rfl, hrest, rfl⟩, ?_⟩
  rw [List.map_append, List.map_append]
  exact congrArg (· ++ _) hlooks

/-- A source that can be read into tokens can be written with other spaces: blanks and comments in
front of the tokens, between them and behind them, of which each gap between two starts with a blank
and each comment is ended, unless nothing follows it.  It then has the same tokens, up to their
places, and both parsers read the same trees. -/
theorem spaces_do_not_matter (source file : String) (tokens : List Token) (last : Token)
    (htokenize : tokenize source file = .ok (tokens ++ [last])) (other otherFile : String)
    (hrespaced : Respaced tokens other) :
    (∃ others, tokenize other otherFile = .ok others ∧
      others.map Token.look = (tokens ++ [last]).map Token.look) ∧
    (∀ program, parseProgram source file = .ok program ↔
      parseProgram other otherFile = .ok program) ∧
    ∀ body, parseStatements source file = .ok body ↔
      parseStatements other otherFile = .ok body := by
  obtain ⟨others, htokenize', hlooks⟩ := hrespaced.tokenize htokenize otherFile
  exact ⟨⟨others, htokenize', hlooks⟩,
    readsBy_parseProgram.eq_ok_iff_of_look_eq htokenize htokenize' hlooks,
    readsBy_parseStatements.eq_ok_iff_of_look_eq htokenize htokenize' hlooks⟩

/-- A comment that looks like a token and one that is not ended, and a blank that is no space. -/
theorem spaces_do_not_matter_to_comparison :
    (∃ tokens last, tokenize "1<=x;" "shell" = .ok (tokens ++ [last]) ∧
      ∃ others, tokenize "//(\n1\u00a0//=2\n<=\tx\n;\n//;" "shell" = .ok others ∧
        others.map Token.look = (tokens ++ [last]).map Token.look) ∧
    parseStatements "1<=x;" "shell" = .ok [.binary .lessEquals (.number 1) (.symbol "x")] ∧
    parseStatements "//(\n1\u00a0//=2\n<=\tx\n;\n//;" "shell" =
      .ok [.binary .lessEquals (.number 1) (.symbol "x")] := by
  have htokenize : tokenize "1<=x;" "shell" = .ok ([⟨.number, "1", 0, 1⟩,
      ⟨.operator .lessEquals, "<=", 1, 3⟩, ⟨.identifier, "x", 3, 4⟩, ⟨.semicolon, ";", 4, 5⟩] ++
      [.atEnd 5]) := by cbv
  have hparse : parseStatements "1<=x;" "shell" =
      .ok [.binary .lessEquals (.number 1) (.symbol "x")] := by cbv
  have hrespaced : Respaced [⟨.number, "1", 0, 1⟩, ⟨.operator .lessEquals, "<=", 1, 3⟩,
      ⟨.identifier, "x", 3, 4⟩, ⟨.semicolon, ";", 4, 5⟩] "//(\n1\u00a0//=2\n<=\tx\n;\n//;" := by
    have hfront : IsSpacing ['/', '/', '(', '\n'] := @IsSpacing.comment ['('] [] (by decide) .nil
    have hcomment : IsSeparator ['\u00a0', '/', '/', '=', '2', '\n'] :=
      .intro (by decide) (@IsSpacing.comment ['=', '2'] [] (by decide) .nil)
    have hlineBreak : IsSeparator ['\n'] := .intro (by decide) .nil
    have htab : IsSeparator ['\t'] := .intro (by decide) .nil
    have hending : IsEnding ['\n', '/', '/', ';'] :=
      @IsEnding.comment ['\n'] [';'] hlineBreak (by decide)
    exact .intro hfront (.cons _ hcomment (.cons _ htab (.cons _ hlineBreak (.last _ hending)))) rfl
  obtain ⟨hothers, -, hbody⟩ := spaces_do_not_matter _ _ _ _ htokenize _ "shell" hrespaced
  exact ⟨⟨_, _, htokenize, hothers⟩, hparse, (hbody _).mp hparse⟩

end IntScript
