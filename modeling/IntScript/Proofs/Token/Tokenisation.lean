import Mathlib
import IntScript.Proofs.Token.Munch

/-!
# The tokens of a source

A source is made of tokens and of the trivia between them in one way only, if each of them is as
long as it can be.  `Tokenisation` says what that way is, by the spans of the tokens: they are not
empty and do not overlap, each token has exactly the text of its span and that is the longest
lexeme there, and all that is not in a span is trivia.  Trivia has to be as long as it can be as
well, since two slashes would otherwise be two operators.

* `Tokenisation.cons_iff` : the spans of the first token and of the others can be looked at one by
  one.
* `Cursor.tokenisation` : the tokens that a cursor reads off are such, by induction along them.
* `Tokenisation.tokens_eq` : and no others are, by induction on the list of tokens.
* `tokenize_eq_iff_tokenisation` : the main result, for sources whose offsets do not wrap.
-/

namespace IntScript

open Text

/-! ## Spans -/

/-- Of the pieces of some class that start at a byte offset, the longest stops at the other. -/
def LongestAt (P : List Char → Prop) (text : List Char) (start stop : Nat) (piece : List Char) :
    Prop :=
  ∃ rest, Cursor.StandsIn text ⟨start, piece ++ rest⟩ ∧ stop = start + byteLength piece ∧
    IsLongest P piece (piece ++ rest)

/-- The spans in front of, between and behind tokens, from one offset to another. -/
def gaps (start : Nat) : List Token → Nat → List (Nat × Nat)
  | [], stop => [(start, stop)]
  | token :: tokens, stop => (start, token.start.toNat) :: gaps token.stop.toNat tokens stop

/-- The text between two offsets is made of the tokens and of trivia. -/
structure Tokenisation (text : List Char) (start : Nat) (tokens : List Token) (stop : Nat) :
    Prop where
  /-- No token is empty. -/
  nonempty : ∀ token ∈ tokens, token.start < token.stop
  /-- Tokens stand one behind the other. -/
  ordered : tokens.Pairwise fun token other => token.stop ≤ other.start
  /-- The text of a token is that of its span, and the longest lexeme there. -/
  lexemes : ∀ token ∈ tokens,
    LongestAt IsAnyLexeme text token.start.toNat token.stop.toNat token.text.toList
  /-- The kind of a token is the one that its text has. -/
  kinds : ∀ token ∈ tokens, IsLexeme token.kind token.text.toList
  /-- All that is not in the span of a token is trivia, and as long as it can be. -/
  trivia : ∀ gap ∈ gaps start tokens stop, ∃ piece, LongestAt IsTrivia text gap.1 gap.2 piece

namespace LongestAt

variable {P : List Char → Prop} {text rest piece : List Char} {start stop : Nat}

theorem le (h : LongestAt P text start stop piece) : start ≤ stop := by
  obtain ⟨rest, -, rfl, -⟩ := h
  exact Nat.le_add_right _ _

theorem lt (h : LongestAt P text start stop piece) (hne : piece ≠ []) : start < stop := by
  obtain ⟨rest, -, rfl, -⟩ := h
  exact Nat.lt_add_of_pos_right (byteLength_pos hne)

/-- Seen from the text at the offset. -/
theorem exists_rest (h : LongestAt P text start stop piece)
    (hstands : Cursor.StandsIn text ⟨start, rest⟩) : ∃ behind, rest = piece ++ behind ∧
      Cursor.StandsIn text ⟨stop, behind⟩ ∧ stop = start + byteLength piece ∧
      IsLongest P piece rest := by
  obtain ⟨behind, hpiece, rfl, hlongest⟩ := h
  have hrest : some rest = some (piece ++ behind) :=
    hstands.dropBytes?_eq.symm.trans hpiece.dropBytes?_eq
  obtain rfl := Option.some.inj hrest
  exact ⟨behind, rfl, hpiece.forward, rfl, hlongest⟩

end LongestAt

namespace Tokenisation

variable {text rest : List Char} {start stop : Nat} {token : Token} {tokens : List Token}

theorem nil_iff : Tokenisation text start [] stop ↔
    ∃ piece, LongestAt IsTrivia text start stop piece := by
  constructor
  · intro h
    exact h.trivia (start, stop) List.mem_cons_self
  · intro h
    refine ⟨nofun, .nil, nofun, nofun, fun gap hmem => ?_⟩
    obtain rfl := List.mem_singleton.mp hmem
    exact h

/-- Tokens start no earlier than the text that they are tokens of. -/
theorem le_start (h : Tokenisation text start tokens stop) :
    ∀ token ∈ tokens, start ≤ token.start.toNat := by
  cases tokens with
  | nil => exact nofun
  | cons first tokens =>
      obtain ⟨piece, hgap⟩ := h.trivia _ List.mem_cons_self
      intro token hmem
      rcases List.mem_cons.mp hmem with rfl | hmem
      · exact hgap.le
      · have hfirst : first.start < first.stop := h.nonempty first List.mem_cons_self
        have hstop : first.stop ≤ token.start := List.rel_of_pairwise_cons h.ordered hmem
        rw [UInt32.lt_iff_toNat_lt] at hfirst
        rw [UInt32.le_iff_toNat_le] at hstop
        have hle : start ≤ first.start.toNat := hgap.le
        omega

/-- The first token, the trivia in front of it, and what stands behind it. -/
theorem cons_iff : Tokenisation text start (token :: tokens) stop ↔
    (∃ piece, LongestAt IsTrivia text start token.start.toNat piece) ∧
      LongestAt IsAnyLexeme text token.start.toNat token.stop.toNat token.text.toList ∧
      IsLexeme token.kind token.text.toList ∧
      Tokenisation text token.stop.toNat tokens stop := by
  constructor
  · intro h
    refine ⟨h.trivia _ List.mem_cons_self, h.lexemes _ List.mem_cons_self,
      h.kinds _ List.mem_cons_self, ?_⟩
    exact ⟨fun _ hmem => h.nonempty _ (List.mem_cons_of_mem _ hmem),
      (List.pairwise_cons.mp h.ordered).2,
      fun _ hmem => h.lexemes _ (List.mem_cons_of_mem _ hmem),
      fun _ hmem => h.kinds _ (List.mem_cons_of_mem _ hmem),
      fun _ hmem => h.trivia _ (List.mem_cons_of_mem _ hmem)⟩
  · rintro ⟨hgap, hlexeme, hkind, htokens⟩
    have hlt : token.start < token.stop :=
      UInt32.lt_iff_toNat_lt.mpr (hlexeme.lt hkind.ne_nil)
    have hbehind : ∀ other ∈ tokens, token.stop ≤ other.start := fun other hmem =>
      UInt32.le_iff_toNat_le.mpr (htokens.le_start other hmem)
    exact ⟨List.forall_mem_cons.mpr ⟨hlt, htokens.nonempty⟩,
      List.pairwise_cons.mpr ⟨hbehind, htokens.ordered⟩,
      List.forall_mem_cons.mpr ⟨hlexeme, htokens.lexemes⟩,
      List.forall_mem_cons.mpr ⟨hkind, htokens.kinds⟩,
      List.forall_mem_cons.mpr ⟨hgap, htokens.trivia⟩⟩

end Tokenisation

/-! ## What a cursor reads off -/

namespace Cursor

variable {text : List Char} {cursor behind : Cursor} {token : Token}

theorem longestAt_skipTrivia (h : StandsIn text cursor) :
    ∃ piece, LongestAt IsTrivia text cursor.offset cursor.skipTrivia.offset piece := by
  obtain ⟨offset, rest⟩ := cursor
  obtain ⟨piece, behind, rfl, hlongest, hskip⟩ := skipTriviaFrom_longest false offset rest
  have hoffset : (skipTrivia ⟨offset, piece ++ behind⟩).offset = offset + byteLength piece :=
    congrArg Cursor.offset hskip
  exact ⟨piece, behind, h, hoffset, hlongest⟩

theorem longestAt_next? (hsize : byteLength text < UInt32.size) (h : StandsIn text cursor)
    (hnext : cursor.next? = some (token, behind)) :
    token.start.toNat = cursor.offset ∧
      LongestAt IsAnyLexeme text token.start.toNat token.stop.toNat token.text.toList ∧
      IsLexeme token.kind token.text.toList ∧
      ∃ rest, StandsIn text ⟨token.stop.toNat, rest⟩ ∧
        behind = skipTrivia ⟨token.stop.toNat, rest⟩ := by
  obtain ⟨lexeme, hlexeme, rfl, rfl⟩ := next?_eq_some_iff.mp hnext
  obtain ⟨hkind, hlongest⟩ := Lexeme.longest_of_ofText? hlexeme
  have hrest : lexeme.text ++ lexeme.rest = cursor.rest := Lexeme.text_append_rest hlexeme
  have hat : StandsIn text ⟨cursor.offset, lexeme.text ++ lexeme.rest⟩ := by
    rwa [hrest]
  have hbehind : StandsIn text ⟨cursor.offset + byteLength lexeme.text, lexeme.rest⟩ :=
    hat.forward
  have hstart := h.toNat_offset hsize
  have hstop := hbehind.toNat_offset hsize
  simp only [String.toList_ofList, hstart, hstop]
  refine ⟨trivial, ⟨lexeme.rest, hat, rfl, ?_⟩, hkind, lexeme.rest, hbehind, rfl⟩
  rwa [hrest]

/-- The tokens that a cursor reads off, and the trivia that it skips. -/
theorem tokenisation (hsize : byteLength text < UInt32.size) (h : StandsIn text cursor) :
    Tokenisation text cursor.offset cursor.skipTrivia.tokens.1
      cursor.skipTrivia.tokens.2.offset := by
  generalize hsettled : cursor.skipTrivia = settled
  induction settled using induct generalizing cursor with
  | none settled hnext =>
      have hgap := longestAt_skipTrivia h
      rw [tokens_of_none hnext, Tokenisation.nil_iff]
      rwa [hsettled] at hgap
  | some settled token behind hnext ih =>
      have hgap := longestAt_skipTrivia h
      have hat : StandsIn text settled := hsettled ▸ StandsIn.skipTriviaFrom false h
      obtain ⟨hstart, hlexeme, hkind, rest, hrest, rfl⟩ := longestAt_next? hsize hat hnext
      rw [tokens_of_some hnext, Tokenisation.cons_iff]
      rw [hsettled, ← hstart] at hgap
      exact ⟨hgap, hlexeme, hkind, ih hrest rfl⟩

end Cursor

/-- No other tokens make up the text up to a place where no lexeme starts. -/
theorem Tokenisation.tokens_eq {text rest behind : List Char} {start stop : Nat}
    {tokens : List Token} (h : Tokenisation text start tokens stop)
    (hstart : Cursor.StandsIn text ⟨start, rest⟩) (hstop : Cursor.StandsIn text ⟨stop, behind⟩)
    (hnone : Lexeme.ofText? behind = none) :
    (Cursor.skipTrivia ⟨start, rest⟩).tokens = (tokens, ⟨stop, behind⟩) := by
  induction tokens generalizing start rest with
  | nil =>
      obtain ⟨piece, hgap⟩ := nil_iff.mp h
      obtain ⟨other, rfl, hother, rfl, hlongest⟩ := hgap.exists_rest hstart
      have hrest : some other = some behind :=
        hother.dropBytes?_eq.symm.trans hstop.dropBytes?_eq
      obtain rfl := Option.some.inj hrest
      rw [Cursor.skipTrivia_eq_iff.mpr hlongest]
      exact Cursor.tokens_of_none (Cursor.next?_eq_none_iff.mpr hnone)
  | cons token tokens ih =>
      obtain ⟨⟨piece, hgap⟩, hlexeme, hkind, htokens⟩ := cons_iff.mp h
      obtain ⟨rest, rfl, hfront, hoffset, htrivia⟩ := hgap.exists_rest hstart
      obtain ⟨rest, rfl, hbehind, hlength, hlongest⟩ := hlexeme.exists_rest hfront
      have hskip : Cursor.skipTrivia ⟨start, piece ++ (token.text.toList ++ rest)⟩ =
          ⟨token.start.toNat, token.text.toList ++ rest⟩ := by
        rw [hoffset]
        exact Cursor.skipTrivia_eq_iff.mpr htrivia
      have hnext : Cursor.next? ⟨token.start.toNat, token.text.toList ++ rest⟩ =
          some (token, Cursor.skipTrivia ⟨token.stop.toNat, rest⟩) := by
        rw [Cursor.next?_eq_some_iff]
        refine ⟨_, Lexeme.ofText?_eq_some_iff.mpr ⟨hkind, hlongest⟩, ?_, ?_⟩
        · simp only [← hlength, String.ofList_toList, UInt32.ofNat_toNat]
        · rw [← hlength]
      rw [hskip, Cursor.tokens_of_some hnext, ih htokens hbehind]

/-! ## What a source is read as -/

/-- The token at the end of a source. -/
def endOf (source : String) : Token :=
  .atEnd (.ofNat source.utf8ByteSize)

/-- The error at the first character behind a text, if no lexeme starts there. -/
def unrecognisedBehind (before : List Char) (c : Char) (file : String) : Error :=
  ⟨.parse (.unrecognised (String.ofList [c])), ⟨.ofNat (byteLength before), file⟩⟩

section

variable {source : String} {tokens : List Token} {before rest : List Char} {c : Char}

theorem tokenize_of_tokenisation {behind : List Char} {stop : Nat}
    (h : Tokenisation source.toList 0 tokens stop)
    (hstop : Cursor.StandsIn source.toList ⟨stop, behind⟩) (hnone : Lexeme.ofText? behind = none)
    (file : String) :
    tokenize source file = (Cursor.stopped file ⟨stop, behind⟩).map (tokens ++ [·]) := by
  have hstart : Cursor.StandsIn source.toList ⟨0, source.toList⟩ := ⟨[], rfl, rfl⟩
  have hread : (Cursor.ofSource source).tokens = (tokens, ⟨stop, behind⟩) :=
    h.tokens_eq hstart hstop hnone
  rw [tokenize, Cursor.tokensToEnd, hread]

theorem tokenize_of_tokenisation_to_end
    (h : Tokenisation source.toList 0 tokens source.utf8ByteSize) (file : String) :
    tokenize source file = .ok (tokens ++ [endOf source]) := by
  have hend : Cursor.StandsIn source.toList ⟨source.utf8ByteSize, []⟩ :=
    ⟨source.toList, (List.append_nil _).symm, (byteLength_toList source).symm⟩
  exact tokenize_of_tokenisation h hend rfl file

theorem tokenize_of_tokenisation_to_character (hsource : source.toList = before ++ c :: rest)
    (h : Tokenisation source.toList 0 tokens (byteLength before))
    (hnone : ∀ kind piece, IsLexeme kind piece → ¬ piece <+: c :: rest) (file : String) :
    tokenize source file = .error (unrecognisedBehind before c file) :=
  tokenize_of_tokenisation h ⟨before, hsource, rfl⟩ (Lexeme.ofText?_eq_none_iff.mpr hnone) file

/-- Every source is made of tokens, up to its end or to a character that starts none. -/
theorem exists_tokenisation (hsize : source.utf8ByteSize < UInt32.size) :
    (∃ tokens, Tokenisation source.toList 0 tokens source.utf8ByteSize) ∨
    ∃ tokens before c rest, source.toList = before ++ c :: rest ∧
      Tokenisation source.toList 0 tokens (byteLength before) ∧
      ∀ kind piece, IsLexeme kind piece → ¬ piece <+: c :: rest := by
  rw [← byteLength_toList] at hsize ⊢
  have hstart : Cursor.StandsIn source.toList ⟨0, source.toList⟩ := ⟨[], rfl, rfl⟩
  have htokens : Tokenisation source.toList 0 (Cursor.ofSource source).tokens.1
      (Cursor.ofSource source).tokens.2.offset :=
    Cursor.tokenisation hsize hstart
  have hstop := (Cursor.StandsIn.ofSource source).tokens
  have hnone := Cursor.next?_eq_none_iff.mp (Cursor.ofSource source).next?_tokens
  cases hrest : (Cursor.ofSource source).tokens.2.rest with
  | nil =>
      rw [hstop.rest_eq_nil_iff] at hrest
      rw [hrest] at htokens
      exact .inl ⟨_, htokens⟩
  | cons c rest =>
      obtain ⟨before, hsource, hoffset⟩ := hstop
      rw [hoffset] at htokens
      rw [hrest] at hsource hnone
      exact .inr ⟨_, before, c, rest, hsource, htokens, Lexeme.ofText?_eq_none_iff.mp hnone⟩

end

/-- A source shorter than offsets can count is read as the tokens that make it up, and as no others.
If there are none, it is read up to a character that is not the start of any lexeme, and the error
is about that character. -/
theorem tokenize_eq_iff_tokenisation (source file : String)
    (hsize : source.utf8ByteSize < UInt32.size) :
    (∀ tokens, tokenize source file = .ok tokens ↔
      ∃ body, tokens = body ++ [endOf source] ∧
        Tokenisation source.toList 0 body source.utf8ByteSize) ∧
    (∀ error, tokenize source file = .error error ↔
      ∃ body before c rest, source.toList = before ++ c :: rest ∧
        error = unrecognisedBehind before c file ∧
        Tokenisation source.toList 0 body (byteLength before) ∧
        ∀ kind piece, IsLexeme kind piece → ¬ piece <+: c :: rest) := by
  refine ⟨fun tokens => ⟨fun h => ?_, ?_⟩, fun error => ⟨fun h => ?_, ?_⟩⟩
  · rcases exists_tokenisation hsize with
      ⟨body, hbody⟩ | ⟨body, before, c, rest, hsource, hbody, hnone⟩
    · rw [tokenize_of_tokenisation_to_end hbody] at h
      cases h
      exact ⟨body, rfl, hbody⟩
    · rw [tokenize_of_tokenisation_to_character hsource hbody hnone] at h
      cases h
  · rintro ⟨body, rfl, hbody⟩
    exact tokenize_of_tokenisation_to_end hbody file
  · rcases exists_tokenisation hsize with
      ⟨body, hbody⟩ | ⟨body, before, c, rest, hsource, hbody, hnone⟩
    · rw [tokenize_of_tokenisation_to_end hbody] at h
      cases h
    · rw [tokenize_of_tokenisation_to_character hsource hbody hnone] at h
      cases h
      exact ⟨body, before, c, rest, hsource, rfl, hbody, hnone⟩
  · rintro ⟨body, before, c, rest, hsource, rfl, hbody, hnone⟩
    exact tokenize_of_tokenisation_to_character hsource hbody hnone file

/-- A reserved word at the front of a name, an operator that might be two, and a comment that might
be two operators; then a character that is not the start of any lexeme, behind a comment with a
character of two bytes. -/
theorem tokenize_eq_iff_tokenisation_of_comments :
    "iffy<=1//=\n".utf8ByteSize < UInt32.size ∧
    tokenize "iffy<=1//=\n" "shell" = .ok [⟨.identifier, "iffy", 0, 4⟩,
      ⟨.operator .lessEquals, "<=", 4, 6⟩, ⟨.number, "1", 6, 7⟩, ⟨.eof, "EOF", 11, 11⟩] ∧
    Tokenisation "iffy<=1//=\n".toList 0 [⟨.identifier, "iffy", 0, 4⟩,
      ⟨.operator .lessEquals, "<=", 4, 6⟩, ⟨.number, "1", 6, 7⟩] 11 ∧
    "x // é\n ~".utf8ByteSize < UInt32.size ∧
    tokenize "x // é\n ~" "shell" = .error ⟨.parse (.unrecognised "~"), ⟨9, "shell"⟩⟩ ∧
    ∃ body before rest, "x // é\n ~".toList = before ++ '~' :: rest ∧
      Tokenisation "x // é\n ~".toList 0 body (byteLength before) := by
  have hread : tokenize "iffy<=1//=\n" "shell" = .ok [⟨.identifier, "iffy", 0, 4⟩,
      ⟨.operator .lessEquals, "<=", 4, 6⟩, ⟨.number, "1", 6, 7⟩, ⟨.eof, "EOF", 11, 11⟩] := by cbv
  have hfault : tokenize "x // é\n ~" "shell" =
      .error ⟨.parse (.unrecognised "~"), ⟨9, "shell"⟩⟩ := by cbv
  refine ⟨by decide, hread, ?_, by decide, hfault, ?_⟩
  · obtain ⟨body, htokens, hbody⟩ :=
      ((tokenize_eq_iff_tokenisation _ "shell" (by decide)).1 _).mp hread
    have hsplit : [_, _, _] ++ [_] = body ++ [endOf "iffy<=1//=\n"] := htokens
    obtain ⟨rfl, -⟩ := List.append_inj' hsplit rfl
    exact hbody
  · obtain ⟨body, before, c, rest, hsource, herror, hbody, -⟩ :=
      ((tokenize_eq_iff_tokenisation _ "shell" (by decide)).2 _).mp hfault
    have hcharacter : "~".toList = [c] := by
      injection herror with hcause
      injection hcause with hcause
      injection hcause with htext
      rw [htext, String.toList_ofList]
    obtain rfl : '~' = c := List.head_eq_of_cons_eq hcharacter
    exact ⟨body, before, rest, hsource, hbody⟩

end IntScript
