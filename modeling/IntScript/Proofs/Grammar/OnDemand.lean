import Mathlib
import IntScript.Proofs.Grammar.Accesses
import IntScript.Proofs.Grammar.Places

/-!
# Tokens on demand

The readers of the grammar take their tokens from a list that holds all tokens of the source.  They
could as well take them from a lexer, one at a time: looking at the token where the lexer stands,
moving behind it, and going back to a byte offset where the lexer was before.

`Reader.OnDemand reader scanner` says that a scanner is a reader with each of its accesses to the
list replaced by one to a lexer.  Whatever the order of these accesses, the lexer then stands in
front of the tokens that the list still holds.

* `Reader.hereditary_hasScanner` : every reader of the grammar can be made a scanner.
* `Lexer.StandsBefore.peek?`, `Lexer.StandsBefore.advance?`, `Lexer.StandsBefore.seek_restore` :
  what a lexer makes of its accesses.
* `Reader.OnDemand.agrees` : the reader and the scanner come to the same outcome, and so they do on
  a whole source (`Reader.OnDemand.outcome?_eq`).
* `Reader.OnDemand.explains` : a reader has no fault of its own about a character that starts no
  token, so that any such fault is what stands behind the last token.
-/

namespace IntScript

/-! ## Scanners -/

/-- A reader that takes tokens from a lexer.  It has no outcome if the lexer gets into the middle of
a character. -/
abbrev Scanner (α : Type) := ExceptT Halt (StateT Lexer Option) α

namespace Scanner

variable {α : Type}

/-- The token at the lexer, not consumed. -/
def current : Scanner Token := fun lexer =>
  lexer.peek?.map fun token => (token.mapError .fault, lexer)

/-- Consumes the token at the lexer. -/
def advance : Scanner Token := fun lexer =>
  lexer.advance?.map fun
    | .ok (token, behind) => (.ok token, behind)
    | .error error => (.error (.fault error), lexer)

/-- Whether text is left. -/
def hasTokens : Scanner Bool := fun lexer =>
  some (.ok (!lexer.atEnd), lexer)

/-- Halts with a fault at a token. -/
def failAt (token : Token) (fault : ParseFault) : Scanner α := fun lexer =>
  some (.error (.fault ⟨.parse fault, ⟨token.start, lexer.file⟩⟩), lexer)

/-- Halts for want of fuel. -/
def outOfFuel : Scanner α := fun lexer =>
  some (.error .outOfFuel, lexer)

/-- The outcome of a scanner.  The lexer is sent back to the byte offset where it was before. -/
def lookahead (scanner : Scanner α) : Scanner α := fun lexer =>
  (scanner lexer).map fun ended => (ended.1, ended.2.seek lexer.footing.offset)

/-- All tokens up to the end of the source, which is the last one. -/
def allTokens : (fuel : Nat) → Scanner (List Token)
  | 0 => outOfFuel
  | fuel + 1 => do
    let token ← advance
    if token.kind = .eof then return [token]
    else
      let others ← allTokens fuel
      return token :: others

/-- The outcome on a source, unless the lexer goes astray or the fuel runs out. -/
def outcome? (scanner : Scanner α) (source file : String) : Option (Except Error α) :=
  match scanner (.ofSource source file) with
  | some (.ok value, _) => some (.ok value)
  | some (.error (.fault error), _) => some (.error error)
  | some (.error .outOfFuel, _) | none => none

end Scanner

namespace Reader

/-- The outcome on tokens, unless the fuel runs out. -/
def outcome? {α : Type} (reader : Reader α) (tokens : Tokens) : Option (Except Error α) :=
  match reader tokens with
  | .ok value _ => some (.ok value)
  | .error (.fault error) _ => some (.error error)
  | .error .outOfFuel _ => none

/-- All tokens up to the end of the source, which is the last one. -/
def allTokens : (fuel : Nat) → Reader (List Token)
  | 0 => outOfFuel
  | fuel + 1 => do
    let token ← advance
    if token.kind = .eof then return [token]
    else
      let others ← allTokens fuel
      return token :: others

/-- The scanner is the reader, step by step, with a lexer in the place of the list of tokens.  No
step has a fault about a character of its own. -/
inductive OnDemand : {α : Type} → Reader α → Scanner α → Prop
  | pure {α : Type} (value : α) : OnDemand (Pure.pure value) (Pure.pure value)
  | bind {α β : Type} {reader : Reader α} {scanner : Scanner α} {next : α → Reader β}
      {next' : α → Scanner β} (h : OnDemand reader scanner)
      (hnext : ∀ value, OnDemand (next value) (next' value)) :
      OnDemand (reader >>= next) (scanner >>= next')
  | current : OnDemand current .current
  | advance : OnDemand advance .advance
  | hasTokens : OnDemand hasTokens .hasTokens
  | failAt {α : Type} (token : Token) {fault : ParseFault}
      (hfault : ∀ text, fault ≠ .unrecognised text) :
      OnDemand (failAt (α := α) token fault) (.failAt token fault)
  | outOfFuel {α : Type} : OnDemand (outOfFuel (α := α)) .outOfFuel
  | lookahead {α : Type} {reader : Reader α} {scanner : Scanner α} (h : OnDemand reader scanner) :
      OnDemand (lookahead reader) (.lookahead scanner)

end Reader

/-! ## Lexers in front of tokens -/

theorem Cursor.rest_eq_nil_of_stopped {cursor : Cursor} {file : String} {token : Token}
    (h : cursor.stopped file = .ok token) : cursor.rest = [] := by
  unfold stopped at h
  cases hrest : cursor.rest with
  | nil => rfl
  | cons c rest => simp [hrest] at h

/-- The tokens are what the lexer would read off its source, one after the other. -/
inductive Lexer.StandsBefore : Tokens → Lexer → Prop
  | mk {source : String} (file : String) {cursor : Cursor} (h : cursor.StandsIn source.toList) :
      StandsBefore ⟨file, cursor.tokens.1, cursor.tokens.2⟩ ⟨source, file, .firm cursor⟩

namespace Lexer.StandsBefore

theorem ofSource (source file : String) :
    StandsBefore (.ofSource source file) (.ofSource source file) :=
  mk file (Cursor.StandsIn.ofSource source)

variable {tokens : Tokens} {lexer : Lexer}

theorem peek? (h : StandsBefore tokens lexer) : lexer.peek? = some tokens.current := by
  obtain ⟨file, hstands⟩ := h
  rename_i source cursor
  simp only [Lexer.peek?, Lexer.cursor?, Option.bind_eq_bind, Option.bind_some]
  cases hnext : cursor.next? with
  | none =>
      rw [Cursor.tokens_of_none hnext]
      rfl
  | some found =>
      rw [Cursor.tokens_of_some hnext]
      rfl

/-- The lexer moves on to the next token, and stays where it is at the end. -/
theorem advance? {token : Token} (h : StandsBefore tokens lexer)
    (hcurrent : tokens.current = .ok token) :
    ∃ footing, lexer.advance? = some (.ok (token, lexer.restore footing)) ∧
      StandsBefore tokens.rest (lexer.restore footing) := by
  obtain ⟨file, hstands⟩ := h
  rename_i source cursor
  simp only [Lexer.advance?, Lexer.cursor?, Option.bind_eq_bind, Option.bind_some]
  cases hnext : cursor.next? with
  | some found =>
      obtain ⟨first, behind⟩ := found
      rw [Cursor.tokens_of_some hnext] at hcurrent ⊢
      obtain rfl := Except.ok.inj hcurrent
      exact ⟨.firm behind, rfl, mk file (hstands.next? hnext)⟩
  | none =>
      rw [Cursor.tokens_of_none hnext] at hcurrent ⊢
      have hstopped : cursor.stopped file = .ok token := hcurrent
      have hrest := Cursor.rest_eq_nil_of_stopped hstopped
      -- A cursor with nothing left to read is at the length of the source already.
      have hoffset := hstands.rest_eq_nil_iff.mp hrest
      have hend : (⟨source.utf8ByteSize, []⟩ : Cursor) = cursor := by
        rw [← Text.byteLength_toList, ← hoffset, ← hrest]
      refine ⟨.firm cursor, ?_, ?_⟩
      · rw [hstopped, hend]
        rfl
      · have hbefore := mk file hstands
        rw [Cursor.tokens_of_none hnext] at hbefore
        exact hbefore

theorem advance?_error {error : Error} (h : StandsBefore tokens lexer)
    (hcurrent : tokens.current = .error error) : lexer.advance? = some (.error error) := by
  obtain ⟨file, hstands⟩ := h
  rename_i source cursor
  simp only [Lexer.advance?, Lexer.cursor?, Option.bind_eq_bind, Option.bind_some]
  cases hnext : cursor.next? with
  | some found =>
      rw [Cursor.tokens_of_some hnext] at hcurrent
      cases hcurrent
  | none =>
      rw [Cursor.tokens_of_none hnext] at hcurrent
      have hstopped : cursor.stopped file = .error error := hcurrent
      rw [hstopped]
      rfl

theorem atEnd_eq (h : StandsBefore tokens lexer) : lexer.atEnd = tokens.atEnd := by
  obtain ⟨file, hstands⟩ := h
  rename_i source cursor
  cases hnext : cursor.next? with
  | none =>
      rw [Cursor.tokens_of_none hnext]
      rfl
  | some found =>
      rw [Cursor.tokens_of_some hnext]
      have hpos := Nat.lt_of_le_of_lt (Nat.zero_le _) (Cursor.rest_length_lt_of_next? hnext)
      show cursor.rest.isEmpty = false
      rw [List.isEmpty_eq_false_iff, ← List.length_pos_iff]
      exact hpos

theorem file_eq (h : StandsBefore tokens lexer) : lexer.file = tokens.file := by
  obtain ⟨file, -⟩ := h
  rfl

/-- Wherever the lexer went, it comes back. -/
theorem seek_restore (h : StandsBefore tokens lexer) (footing : Footing) :
    (lexer.restore footing).seek lexer.footing.offset = lexer := by
  obtain ⟨file, hstands⟩ := h
  simp only [seek, restore, Footing.offset, hstands.dropBytes?_eq]

end Lexer.StandsBefore

namespace Reader

/-! ## Agreement -/

/-- A reader and a scanner come to the same outcome.  If that is a value, the lexer stands before
the tokens that the reader leaves, and in any case it is one in the same source. -/
inductive Agrees {α : Type} (lexer : Lexer) :
    EStateM.Result Halt Tokens α → Option (Except Halt α × Lexer) → Prop
  | ok (value : α) {left : Tokens} (footing : Footing)
      (h : (lexer.restore footing).StandsBefore left) :
      Agrees lexer (.ok value left) (some (.ok value, lexer.restore footing))
  | error (halt : Halt) (left : Tokens) (footing : Footing) :
      Agrees lexer (.error halt left) (some (.error halt, lexer.restore footing))

namespace OnDemand

variable {α β : Type}

theorem agrees {reader : Reader α} {scanner : Scanner α} (h : OnDemand reader scanner)
    {tokens : Tokens} {lexer : Lexer} (hbefore : lexer.StandsBefore tokens) :
    Agrees lexer (reader tokens) (scanner lexer) := by
  induction h generalizing tokens lexer with
  | pure value => exact .ok value lexer.footing hbefore
  | @bind α β reader scanner next next' _ _ ih ihnext =>
      have hagrees := ih hbefore
      show Agrees lexer (EStateM.bind reader next tokens) ((scanner lexer).bind fun ended =>
        ExceptT.bindCont next' ended.1 ended.2)
      unfold EStateM.bind
      generalize reader tokens = result at hagrees
      generalize scanner lexer = ended at hagrees
      cases hagrees with
      | ok value footing hleft =>
          have hnext := ihnext value hleft
          show Agrees lexer (next value _) (next' value (lexer.restore footing))
          generalize next value _ = result at hnext
          generalize next' value (lexer.restore footing) = ended at hnext
          cases hnext with
          | ok value footing' hleft' => exact .ok value footing' hleft'
          | error halt left footing' => exact .error halt left footing'
      | error halt left footing => exact .error halt left footing
  | current =>
      show Agrees lexer (Reader.current tokens) (lexer.peek?.map _)
      rw [hbefore.peek?, Reader.current]
      cases tokens.current with
      | ok token => exact .ok token lexer.footing hbefore
      | error error => exact .error (.fault error) tokens lexer.footing
  | advance =>
      show Agrees lexer (Reader.advance tokens) (lexer.advance?.map _)
      rw [Reader.advance]
      cases hcurrent : tokens.current with
      | ok token =>
          obtain ⟨footing, hadvance, hbehind⟩ := hbefore.advance? hcurrent
          rw [hadvance]
          exact .ok token footing hbehind
      | error error =>
          rw [hbefore.advance?_error hcurrent]
          exact .error (.fault error) tokens lexer.footing
  | hasTokens =>
      show Agrees lexer (.ok (!tokens.atEnd) tokens) (some (.ok (!lexer.atEnd), lexer))
      rw [hbefore.atEnd_eq]
      exact .ok _ lexer.footing hbefore
  | failAt token =>
      show Agrees lexer (.error (.fault ⟨_, ⟨token.start, tokens.file⟩⟩) tokens)
        (some (.error (.fault ⟨_, ⟨token.start, lexer.file⟩⟩), lexer))
      rw [hbefore.file_eq]
      exact .error _ tokens lexer.footing
  | outOfFuel => exact .error .outOfFuel tokens lexer.footing
  | @lookahead α reader scanner _ ih =>
      have hagrees := ih hbefore
      show Agrees lexer (Reader.lookahead reader tokens) ((scanner lexer).map _)
      unfold Reader.lookahead
      generalize reader tokens = result at hagrees
      generalize scanner lexer = ended at hagrees
      cases hagrees with
      | ok value footing hleft =>
          rw [Option.map_some, hbefore.seek_restore]
          exact .ok value lexer.footing hbefore
      | error halt left footing =>
          rw [Option.map_some, hbefore.seek_restore]
          exact .error halt tokens lexer.footing

/-- On a whole source, the scanner does what the reader does on the list of its tokens. -/
theorem outcome?_eq {reader : Reader α} {scanner : Scanner α} (h : OnDemand reader scanner)
    (source file : String) :
    scanner.outcome? source file = reader.outcome? (.ofSource source file) := by
  have hagrees := h.agrees (Lexer.StandsBefore.ofSource source file)
  unfold Scanner.outcome? Reader.outcome?
  generalize reader (.ofSource source file) = result at hagrees
  generalize scanner (.ofSource source file) = ended at hagrees
  cases hagrees with
  | ok value footing hleft => rfl
  | error halt left footing => cases halt <;> rfl

theorem allTokens (fuel : Nat) : OnDemand (Reader.allTokens fuel) (Scanner.allTokens fuel) := by
  induction fuel with
  | zero => exact .outOfFuel
  | succ fuel ih =>
      refine .bind .advance fun token => ?_
      split
      · exact .pure [token]
      · exact .bind ih fun others => .pure (token :: others)

end OnDemand

/-- Where the tokens come to their end explains every fault about a character that starts none. -/
def Explains {α : Type} (tokens : Tokens) : EStateM.Result Halt Tokens α → Prop
  | .ok _ left => left.file = tokens.file ∧ left.stop = tokens.stop
  | .error (.fault error) _ => ∀ text, error.cause = .parse (.unrecognised text) →
      tokens.stop.stopped tokens.file = .error error
  | .error .outOfFuel _ => True

theorem explains_of_current_error {α : Type} {tokens : Tokens} {error : Error} (left : Tokens)
    (hcurrent : tokens.current = .error error) :
    Explains (α := α) tokens (.error (.fault error) left) := by
  intro text _
  unfold Tokens.current at hcurrent
  split at hcurrent
  · cases hcurrent
  · exact hcurrent

theorem OnDemand.explains {α : Type} {reader : Reader α} {scanner : Scanner α}
    (h : OnDemand reader scanner) (tokens : Tokens) : Explains tokens (reader tokens) := by
  induction h generalizing tokens with
  | pure | hasTokens => exact ⟨rfl, rfl⟩
  | @bind α β reader scanner next next' _ _ ih ihnext =>
      have hfirst := ih tokens
      show Explains tokens (EStateM.bind reader next tokens)
      unfold EStateM.bind
      cases houtcome : reader tokens with
      | ok value left =>
          rw [houtcome] at hfirst
          have hrest := ihnext value left
          obtain ⟨hfile, hstop⟩ := hfirst
          unfold Explains at hrest ⊢
          rw [hfile, hstop] at hrest
          exact hrest
      | error halt left =>
          rw [houtcome] at hfirst
          cases halt with
          | fault error => exact hfirst
          | outOfFuel => trivial
  | current =>
      rw [Reader.current]
      cases hcurrent : tokens.current with
      | ok token => exact ⟨rfl, rfl⟩
      | error error => exact explains_of_current_error tokens hcurrent
  | advance =>
      rw [Reader.advance]
      cases hcurrent : tokens.current with
      | ok token => exact ⟨rfl, rfl⟩
      | error error => exact explains_of_current_error tokens hcurrent
  | failAt token hfault =>
      intro text hcause
      exact absurd (Cause.parse.inj hcause) (hfault text)
  | outOfFuel => trivial
  | @lookahead α reader scanner _ ih =>
      have hinner := ih tokens
      unfold Reader.lookahead
      cases houtcome : reader tokens with
      | ok value left => exact ⟨rfl, rfl⟩
      | error halt left =>
          rw [houtcome] at hinner
          cases halt with
          | fault error => exact hinner
          | outOfFuel => trivial

/-! ## Every reader has a scanner -/

/-- The reader can be made a scanner. -/
def HasScanner {α : Type} (reader : Reader α) : Prop :=
  ∃ scanner, OnDemand reader scanner

/-- Whatever the readers do with their tokens, a scanner can do. -/
theorem hereditary_hasScanner :
    Hereditary (fun _ => True) fun _ reader => HasScanner reader where
  pure value := ⟨_, .pure value⟩
  bind := by
    rintro α β reader next ⟨scanner, hscanner⟩ hnext
    choose next' hnext' using hnext
    exact ⟨scanner >>= next', .bind hscanner hnext'⟩
  current_bind := by
    intro α next hnext
    choose next' hnext' using hnext
    exact ⟨.current >>= fun token => next' token trivial,
      .bind .current fun token => hnext' token _⟩
  advance_bind := by
    intro α next hnext
    choose next' hnext' using hnext
    exact ⟨.advance >>= fun token => next' token trivial,
      .bind .advance fun token => hnext' token _⟩
  hasTokens := ⟨_, .hasTokens⟩
  outOfFuel := ⟨_, .outOfFuel⟩
  lookahead := by
    rintro α reader ⟨scanner, hscanner⟩
    exact ⟨_, .lookahead hscanner⟩
  failAt _ _ hfault := ⟨_, .failAt _ hfault⟩

namespace HasScanner

variable (vocabulary : Vocabulary) (fuel : Nat)

theorem program : HasScanner (Reader.program vocabulary fuel) :=
  hereditary_hasScanner.program vocabulary fuel

theorem statements : HasScanner (Reader.statements vocabulary fuel) :=
  hereditary_hasScanner.statements vocabulary fuel

end HasScanner

end Reader

end IntScript
