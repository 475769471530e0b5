import Mathlib
import IntScript.Proofs.Grammar.Forward
import IntScript.Proofs.Token.Boundary

/-!
# Readers rest between tokens

Whoever reads a source looks at tokens, consumes them, has parts of the grammar read, and goes back
to places that were noted before or where a look ahead began.  Some of this fails, and then the next
thing is tried from where the failure left the source.  Whatever the order, the lexer stands between
characters, with no trivia ahead of it, and the tokens that are left are those ahead of it.

* `Lexer.OnBoundary` : where the lexer stands.
* `Trail` : the tokens that are left, the lexer in front of them, and the places noted.
  `Trail.Reaches` says how one is reached from another, looks ahead nested in any way.
* `Trail.RestsIn.perform` : a single operation comes to its end and leaves the lexer between tokens,
  and `Trail.RestsIn.of_reaches` : so does what is made of operations, by induction on it.
* `lexer_rests_between_tokens` : the main result.
-/

namespace IntScript

open Text

/-! ## Lexers between tokens -/

/-- The offset of the lexer is that of a character of its source or that of the end, and the text
from there on starts neither with a blank nor with a comment. -/
structure Lexer.OnBoundary (lexer : Lexer) : Prop where
  offset_le : lexer.footing.offset ≤ lexer.source.utf8ByteSize
  isValid : String.Pos.Raw.IsValid lexer.source ⟨lexer.footing.offset⟩
  exists_remainder : ∃ before rest : String, lexer.source = before ++ rest ∧
    before.utf8ByteSize = lexer.footing.offset ∧ lexer.remainder? = some rest ∧
    (∀ c ∈ rest.toList.head?, isBlank c = false) ∧ ¬ ['/', '/'] <+: rest.toList

namespace Cursor.RestsIn

variable {source : String} {cursor : Cursor}

theorem onBoundary (h : cursor.RestsIn source.toList) (file : String) :
    (Lexer.ofCursor source file cursor).OnBoundary := by
  obtain ⟨before, hsource, hoffset⟩ := h.standsIn
  have happend : source = String.ofList before ++ String.ofList cursor.rest := by
    rw [← String.ofList_append, ← hsource, String.ofList_toList]
  have hbytes : (String.ofList before).utf8ByteSize = cursor.offset := by
    rw [hoffset, byteLength_eq_utf8ByteSize]
  refine ⟨?_, ?_, String.ofList before, String.ofList cursor.rest, happend, hbytes, rfl, ?_, ?_⟩
  · rw [← byteLength_toList]
    exact h.standsIn.offset_le
  · exact String.Pos.Raw.isValid_iff_exists_append.mpr
      ⟨_, _, happend, congrArg String.Pos.Raw.mk hbytes.symm⟩
  · rw [String.toList_ofList]
    exact h.not_blank
  · rw [String.toList_ofList]
    exact h.not_comment

theorem passes {text : List Char} {count : Nat} {stop : Cursor} (h : cursor.RestsIn text)
    (hpasses : cursor.Passes count stop) : stop.RestsIn text := by
  induction hpasses with
  | refl => exact h
  | next hnext _ ih => exact ih (h.next? hnext)

end Cursor.RestsIn

namespace Lexer

variable (source file : String) (cursor : Cursor)

/-- What the lexer shows is the token at the cursor, or else what stands there. -/
theorem peek?_ofCursor : (ofCursor source file cursor).peek? = some
    (match cursor.next? with
      | some (token, _) => .ok token
      | none => cursor.stopped file) := by
  cases hnext : cursor.next? <;> simp [peek?, cursor?, ofCursor, hnext]

/-- The lexer is at the end exactly if the end is the next token. -/
theorem atEnd_iff : (ofCursor source file cursor).atEnd = true ↔
    ∃ token, (ofCursor source file cursor).peek? = some (.ok token) ∧ token.kind = .eof := by
  have hend : (ofCursor source file cursor).atEnd = true ↔ cursor.rest = [] := List.isEmpty_iff
  rw [hend, peek?_ofCursor]
  cases hnext : cursor.next? with
  | none =>
      constructor
      · intro hrest
        exact ⟨.atEnd (.ofNat cursor.offset), by simp [Cursor.stopped, hrest], rfl⟩
      · rintro ⟨token, hpeek, -⟩
        exact Cursor.rest_eq_nil_of_stopped (Option.some.inj hpeek)
  | some found =>
      obtain ⟨first, behind⟩ := found
      have hfirst : first.kind ≠ .eof := by
        obtain ⟨lexeme, hlexeme, hterminal, -⟩ := Cursor.terminal_of_next? hnext
        exact kind_ne_eof_of_wellSpelled (hterminal ▸ Lexeme.wellSpelled_terminal hlexeme)
      constructor
      · intro hrest
        rw [Cursor.next?, hrest] at hnext
        cases hnext
      · rintro ⟨token, hpeek, hkind⟩
        obtain rfl : first = token := Except.ok.inj (Option.some.inj hpeek)
        exact absurd hkind hfirst

/-- A slash that the lexer shows as an operator does not start a comment. -/
theorem remainder?_of_slash {source file : String} {cursor : Cursor} {token : Token}
    (h : cursor.RestsIn source.toList)
    (hpeek : (ofCursor source file cursor).peek? = some (.ok token))
    (hkind : token.kind = .operator .divide) :
    ∃ others, (ofCursor source file cursor).remainder? = some (String.ofList ('/' :: others)) ∧
      others.head? ≠ some '/' := by
  rw [peek?_ofCursor] at hpeek
  cases hnext : cursor.next? with
  | none =>
      rw [hnext] at hpeek
      have hstopped : cursor.stopped file = .ok token := Option.some.inj hpeek
      rw [Cursor.stopped, Cursor.rest_eq_nil_of_stopped hstopped] at hstopped
      obtain rfl := Except.ok.inj hstopped
      cases hkind
  | some found =>
      rw [hnext] at hpeek
      obtain rfl : found.1 = token := Except.ok.inj (Option.some.inj hpeek)
      obtain ⟨others, hrest, hhead⟩ := h.rest_of_slash hnext hkind
      exact ⟨others, congrArg (some <| String.ofList ·) hrest, hhead⟩

end Lexer

/-! ## What is asked of a parser -/

namespace Reader

/-- What a parser is asked for: the token at hand, the next one, a token of some kind, whether there
is one at all, the fault that there is another one, or a part of the grammar. -/
inductive Operation : {α : Type} → Reader α → Prop where
  | current : Operation current
  | currentKind : Operation currentKind
  | advance : Operation advance
  | hasTokens : Operation hasTokens
  | expect (kind : TokenKind) : Operation (expect kind)
  | expectFor (kind : TokenKind) (expectation : String) : Operation (expectFor kind expectation)
  | failInstead {α : Type} (expectation : String) : Operation (failInstead (α := α) expectation)
  | parse {α : Type} {reader : Reader α} (h : ParseFunction reader) : Operation reader

theorem Operation.hasScanner {α : Type} {reader : Reader α} (h : Operation reader) :
    HasScanner reader := by
  have hscanner := hereditary_hasScanner
  cases h with
  | current => exact ⟨_, .current⟩
  | currentKind => exact hscanner.currentKind
  | advance => exact hscanner.advance
  | hasTokens => exact ⟨_, .hasTokens⟩
  | expect kind => exact hscanner.expect kind
  | expectFor kind expectation => exact hscanner.expectFor kind expectation
  | failInstead expectation => exact hscanner.failInstead expectation
  | parse h => exact h.hasScanner

theorem eq_of_advance_error {tokens left : Tokens} {halt : Halt}
    (h : advance tokens = .error halt left) : left = tokens := by
  rw [advance] at h
  cases hcurrent : tokens.current with
  | ok token =>
      rw [hcurrent] at h
      cases h
  | error error =>
      rw [hcurrent] at h
      cases h
      rfl

end Reader

theorem Scanner.eq_of_advance_error {lexer left : Lexer} {halt : Halt}
    (h : Scanner.advance lexer = some (.error halt, left)) : left = lexer := by
  obtain ⟨outcome, -, heq⟩ := Option.map_eq_some_iff.mp h
  cases outcome with
  | ok found => cases heq
  | error error =>
      cases heq
      rfl

open Reader

/-- A source that is being read: the tokens that are left, the lexer that they would be read from,
and the places noted, as the tokens left there and the byte offset. -/
structure Trail where
  tokens : Tokens
  lexer : Lexer
  marks : List (Tokens × Nat)

namespace Trail

/-- The start of a source. -/
def ofSource (source file : String) : Trail :=
  ⟨.ofSource source file, .ofSource source file, []⟩

/-- A source that has been read up to a cursor. -/
def ofCursor (source file : String) (cursor : Cursor) (marks : List (Tokens × Nat)) : Trail :=
  ⟨.ofCursor file cursor, .ofCursor source file cursor, marks⟩

/-- The second trail is what may become of the first one.  An operation ends with a value or it
halts; a look ahead is anything that may become of the trail, and then the way back. -/
inductive Reaches : Trail → Trail → Prop where
  | refl (trail : Trail) : Reaches trail trail
  | trans {first mid last : Trail} (h : Reaches first mid) (h' : Reaches mid last) :
      Reaches first last
  | perform {α : Type} {trail : Trail} {reader : Reader α} {scanner : Scanner α}
      {outcome outcome' : Except Halt α} {tokens : Tokens} {lexer : Lexer}
      (hoperation : Operation reader) (hscanner : OnDemand reader scanner)
      (htokens : reader trail.tokens = endingIn tokens outcome)
      (hlexer : scanner trail.lexer = some (outcome', lexer)) :
      Reaches trail { trail with tokens, lexer }
  | lookahead {trail ended : Trail} (h : Reaches trail ended) :
      Reaches trail { ended with
        tokens := trail.tokens
        lexer := ended.lexer.seek trail.lexer.footing.offset }
  | mark (trail : Trail) :
      Reaches trail { trail with
        marks := (trail.tokens, trail.lexer.footing.offset) :: trail.marks }
  | restore {trail : Trail} {tokens : Tokens} {offset : Nat}
      (hmark : (tokens, offset) ∈ trail.marks) :
      Reaches trail { trail with tokens, lexer := trail.lexer.seek offset }

theorem Reaches.of_endsAt {source file : String} {α : Type} {reader : Reader α}
    {scanner : Scanner α} {outcome : Except Halt α} {cursor stop : Cursor} {count : Nat}
    (hoperation : Operation reader) (hscanner : OnDemand reader scanner)
    (hends : EndsAt reader scanner source file cursor outcome count stop)
    (marks : List (Tokens × Nat)) :
    (ofCursor source file cursor marks).Reaches (.ofCursor source file stop marks) :=
  .perform hoperation hscanner hends.reader_eq hends.scanner_eq

/-- The lexer stands at a cursor that rests in the source, the tokens left are those from there on,
and so it was at every place noted. -/
structure RestsIn (source file : String) (trail : Trail) : Prop where
  exists_cursor : ∃ cursor : Cursor, cursor.RestsIn source.toList ∧
    trail.tokens = .ofCursor file cursor ∧ trail.lexer = .ofCursor source file cursor
  marks : ∀ mark ∈ trail.marks, ∃ cursor : Cursor, cursor.RestsIn source.toList ∧
    mark = (.ofCursor file cursor, cursor.offset)

namespace RestsIn

variable {source file : String} {trail : Trail}

theorem ofSource (source file : String) : (Trail.ofSource source file).RestsIn source file :=
  ⟨⟨.ofSource source, .ofSource source, rfl, rfl⟩, nofun⟩

/-- A lexer that is sent back to where it rested stands there as it did. -/
theorem seek_ofCursor {cursor : Cursor} (h : cursor.RestsIn source.toList) (stop : Cursor) :
    (Lexer.ofCursor source file stop).seek cursor.offset = .ofCursor source file cursor :=
  (Lexer.standsBefore_ofCursor file h.standsIn).seek_restore (.firm stop)

/-- The operation comes to its end, the reader and the scanner with the same outcome. -/
theorem perform (h : trail.RestsIn source file) {α : Type} {reader : Reader α}
    {scanner : Scanner α} (hscanner : OnDemand reader scanner) :
    ∃ (outcome : Except Halt α) (stop : Cursor), stop.RestsIn source.toList ∧
      reader trail.tokens = endingIn (.ofCursor file stop) outcome ∧
      scanner trail.lexer = some (outcome, .ofCursor source file stop) := by
  obtain ⟨cursor, hrests, htokens, hlexer⟩ := h.exists_cursor
  obtain ⟨outcome, count, stop, hends⟩ := hscanner.exists_endsAt file hrests.standsIn
  refine ⟨outcome, stop, hrests.passes hends.passes, ?_, ?_⟩
  · rw [htokens, hends.reader_eq]
  · rw [hlexer, hends.scanner_eq]

theorem of_reaches {after : Trail} (hreaches : trail.Reaches after)
    (h : trail.RestsIn source file) : after.RestsIn source file := by
  induction hreaches with
  | refl => exact h
  | trans _ _ ih ih' => exact ih' (ih h)
  | perform hoperation hscanner htokens hlexer =>
      obtain ⟨outcome, stop, hstop, htokens', hlexer'⟩ := h.perform hscanner
      obtain ⟨-, rfl⟩ := endingIn_inj (htokens.symm.trans htokens')
      obtain ⟨-, rfl⟩ := Prod.mk.inj (Option.some.inj (hlexer.symm.trans hlexer'))
      exact ⟨⟨stop, hstop, rfl, rfl⟩, h.marks⟩
  | lookahead _ ih =>
      obtain ⟨cursor, hrests, htokens, hlexer⟩ := h.exists_cursor
      have hended := ih h
      obtain ⟨stop, -, -, hstop⟩ := hended.exists_cursor
      refine ⟨⟨cursor, hrests, htokens, ?_⟩, hended.marks⟩
      show Lexer.seek _ _ = _
      rw [hlexer, hstop]
      exact seek_ofCursor hrests stop
  | mark trail =>
      obtain ⟨cursor, hrests, htokens, hlexer⟩ := h.exists_cursor
      refine ⟨h.exists_cursor, List.forall_mem_cons.mpr ⟨⟨cursor, hrests, ?_⟩, h.marks⟩⟩
      rw [htokens, hlexer]
      rfl
  | restore hmark =>
      obtain ⟨stop, -, -, hstop⟩ := h.exists_cursor
      obtain ⟨cursor, hrests, heq⟩ := h.marks _ hmark
      obtain ⟨rfl, rfl⟩ := Prod.mk.inj heq
      refine ⟨⟨cursor, hrests, rfl, ?_⟩, h.marks⟩
      show Lexer.seek _ _ = _
      rw [hstop]
      exact seek_ofCursor hrests stop

end RestsIn

end Trail

/-- Whatever is asked for, in whatever order and with whatever success, the lexer stands between
characters and has no trivia ahead of it.  So there is always text to read on from and every reader
comes to its end, a slash that is read as an operator does not start a comment, to consume a token
that there is not leaves the lexer where it was, and the lexer is at the end exactly if the end is
the next token.  The tokens left to the readers are those ahead of the lexer. -/
theorem lexer_rests_between_tokens (source file : String) (trail : Trail)
    (hreaches : (Trail.ofSource source file).Reaches trail) :
    trail.lexer.source = source ∧ trail.lexer.OnBoundary ∧
    trail.lexer.StandsBefore trail.tokens ∧
    (∃ outcome, trail.lexer.peek? = some outcome) ∧
    (∃ outcome, trail.lexer.advance? = some outcome) ∧
    (∀ (α : Type) (reader : Reader α), Operation reader → HasScanner reader) ∧
    (∀ (α : Type) (reader : Reader α) (scanner : Scanner α), OnDemand reader scanner →
      ∃ outcome tokens lexer, reader trail.tokens = endingIn tokens outcome ∧
        scanner trail.lexer = some (outcome, lexer)) ∧
    (∀ token, trail.lexer.peek? = some (.ok token) → token.kind = .operator .divide →
      ∃ others, trail.lexer.remainder? = some (String.ofList ('/' :: others)) ∧
        others.head? ≠ some '/') ∧
    (∀ halt tokens, Reader.advance trail.tokens = .error halt tokens → tokens = trail.tokens) ∧
    (∀ halt lexer, Scanner.advance trail.lexer = some (.error halt, lexer) →
      lexer = trail.lexer) ∧
    (trail.lexer.atEnd = true ↔
      ∃ token, trail.lexer.peek? = some (.ok token) ∧ token.kind = .eof) := by
  have hrests := (Trail.RestsIn.ofSource source file).of_reaches hreaches
  obtain ⟨cursor, hcursor, htokens, hlexer⟩ := hrests.exists_cursor
  refine ⟨?_, ?_, ?_, ?_, ?_, fun _ _ h => h.hasScanner, ?_, ?_, ?_, ?_, ?_⟩
  · rw [hlexer]
    rfl
  · rw [hlexer]
    exact hcursor.onBoundary file
  · rw [hlexer, htokens]
    exact Lexer.standsBefore_ofCursor file hcursor.standsIn
  · rw [hlexer, Lexer.peek?_ofCursor]
    exact ⟨_, rfl⟩
  · obtain ⟨outcome, stop, -, -, hends⟩ := hrests.perform .advance
    obtain ⟨result, hresult, -⟩ := Option.map_eq_some_iff.mp hends
    exact ⟨result, hresult⟩
  · intro α reader scanner hscanner
    obtain ⟨outcome, stop, -, hends⟩ := hrests.perform hscanner
    exact ⟨outcome, _, _, hends⟩
  · rw [hlexer]
    exact fun token hpeek hkind => Lexer.remainder?_of_slash hcursor hpeek hkind
  · exact fun halt tokens hadvance => Reader.eq_of_advance_error hadvance
  · exact fun halt lexer hadvance => Scanner.eq_of_advance_error hadvance
  · rw [hlexer]
    exact Lexer.atEnd_iff source file cursor

/-- A comment with a character of two bytes between a name and a character that is no token: the
lexer looks ahead, goes back, moves on, fails, goes back to the start and moves on again. -/
theorem lexer_rests_between_tokens_up_to_character : ∃ trail,
    (Trail.ofSource "a //é\n~" "shell").Reaches trail ∧ trail.lexer.OnBoundary ∧
    trail.lexer.footing.offset = 7 ∧ trail.lexer.remainder? = some "~" ∧
    ∃ lexer, Scanner.advance trail.lexer =
        some (.error (.fault ⟨.parse (.unrecognised "~"), ⟨7, "shell"⟩⟩), lexer) ∧
      lexer = trail.lexer := by
  have hnext : Cursor.next? (.ofSource "a //é\n~") =
      some (⟨.identifier, "a", 0, 1⟩, ⟨7, ['~']⟩) := by decide
  have hmove := Trail.Reaches.of_endsAt .advance .advance
    (endsAt_advance_of_next? "a //é\n~" "shell" hnext)
  have hstands : Cursor.StandsIn "a //é\n~".toList ⟨7, ['~']⟩ := ⟨"a //é\n".toList, rfl, rfl⟩
  have hcurrent : (Tokens.ofCursor "shell" ⟨7, ['~']⟩).current =
      .error ⟨.parse (.unrecognised "~"), ⟨7, "shell"⟩⟩ := by
    rw [Tokens.ofCursor, Cursor.tokens_of_none (by decide)]
    rfl
  have hfails := endsAt_advance_of_error "shell" hstands hcurrent
  have hahead : (Trail.ofSource "a //é\n~" "shell").Reaches (.ofSource "a //é\n~" "shell") :=
    .lookahead (hmove [])
  have hreaches := hahead.trans <| (Trail.Reaches.mark _).trans <| (hmove _).trans <|
    (Trail.Reaches.of_endsAt .advance .advance hfails _).trans <|
      (Trail.Reaches.restore List.mem_cons_self).trans (hmove _)
  obtain ⟨-, hboundary, -, -, -, -, -, -, -, hstays, -⟩ := lexer_rests_between_tokens _ _ _ hreaches
  exact ⟨_, hreaches, hboundary, rfl, rfl, _, hfails.scanner_eq, hstays _ _ hfails.scanner_eq⟩

end IntScript
