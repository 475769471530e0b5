import IntScript.Proofs.Grammar.Fuel
import IntScript.Proofs.Grammar.TokensOnly

/-!
# Readers only move forward

A reader that takes its tokens from a lexer moves the cursor of the lexer.  Whatever becomes of it,
a value, a fault or no fuel, the cursor is never left in front of the place where it was: a step
that looks ahead goes back to where the look began, also if it fails, and all other steps stay or
pass a token.

* `Cursor.Passes` : a cursor that is reached from another one over tokens.
* `Reader.OnDemand.exists_endsAt` : every reader ends at such a cursor, by induction on the steps it
  is made of, and its scanner ends at the same one.
* `Reader.exists_endsAt_of_advances` : with enough fuel it ends with a value or a fault, whatever
  the fuel is, and it gets as far as it is known to advance.
* `Reader.ParseFunction` : the functions of the grammar, which all are such readers.
* `parser_moves_forward` : the main result.
-/

namespace IntScript

/-! ## Cursors that move over tokens -/

namespace Cursor

/-- The other cursor is reached from the cursor over so many tokens. -/
inductive Passes : Cursor → Nat → Cursor → Prop where
  | refl (cursor : Cursor) : Passes cursor 0 cursor
  | next {cursor behind stop : Cursor} {token : Token} {count : Nat}
      (hnext : cursor.next? = some (token, behind)) (hbehind : Passes behind count stop) :
      Passes cursor (count + 1) stop

namespace Passes

variable {cursor mid stop : Cursor} {count more : Nat}

theorem trans (h : cursor.Passes count mid) (h' : mid.Passes more stop) :
    cursor.Passes (count + more) stop := by
  induction h with
  | refl cursor => rwa [Nat.zero_add]
  | next hnext _ ih =>
      rw [Nat.add_right_comm]
      exact .next hnext (ih h')

theorem standsIn {text : List Char} (h : cursor.Passes count stop)
    (hstands : cursor.StandsIn text) : stop.StandsIn text := by
  induction h with
  | refl cursor => exact hstands
  | next hnext _ ih => exact ih (hstands.next? hnext)

/-- Every token that is passed moves the cursor on by a byte at least. -/
theorem offset_add_le (h : cursor.Passes count stop) : cursor.offset + count ≤ stop.offset := by
  induction h with
  | refl cursor => exact Nat.le_refl _
  | next hnext _ ih =>
      have hlt := offset_lt_of_next? hnext
      omega

/-- The tokens that are passed are no longer left. -/
theorem length_tokens (h : cursor.Passes count stop) :
    cursor.tokens.1.length = count + stop.tokens.1.length := by
  induction h with
  | refl cursor => exact (Nat.zero_add _).symm
  | next hnext _ ih =>
      rw [tokens_of_some hnext, List.length_cons, ih]
      omega

/-- How many tokens are passed tells where that leads. -/
theorem unique {stop' : Cursor} (h : cursor.Passes count stop) (h' : cursor.Passes count stop') :
    stop' = stop := by
  induction h with
  | refl cursor =>
      cases h'
      rfl
  | next hnext _ ih =>
      cases h' with
      | next hnext' hbehind' =>
          obtain ⟨-, rfl⟩ := Prod.mk.inj (Option.some.inj (hnext.symm.trans hnext'))
          exact ih hbehind'

end Passes

end Cursor

/-- The tokens from a cursor on. -/
def Tokens.ofCursor (file : String) (cursor : Cursor) : Tokens :=
  ⟨file, cursor.tokens.1, cursor.tokens.2⟩

/-- The tokens that are left behind those that are passed tell where that leads. -/
theorem Cursor.Passes.eq_of_ofCursor_eq {file : String} {cursor stop stop' : Cursor}
    {count count' : Nat} (h : cursor.Passes count stop) (h' : cursor.Passes count' stop')
    (hleft : Tokens.ofCursor file stop' = .ofCursor file stop) :
    count' = count ∧ stop' = stop := by
  have hlength : stop'.tokens.1.length = stop.tokens.1.length :=
    congrArg (·.pending.length) hleft
  have hcount := h.length_tokens
  rw [h'.length_tokens, hlength] at hcount
  obtain rfl := Nat.add_right_cancel hcount
  exact ⟨rfl, h.unique h'⟩

/-- The lexer that stands at a cursor of the source. -/
def Lexer.ofCursor (source file : String) (cursor : Cursor) : Lexer :=
  ⟨source, file, .firm cursor⟩

theorem Lexer.standsBefore_ofCursor {source : String} {cursor : Cursor} (file : String)
    (h : cursor.StandsIn source.toList) :
    StandsBefore (.ofCursor file cursor) (.ofCursor source file cursor) :=
  .mk file h

/-! ## Where readers end -/

namespace Reader

variable {α β : Type}

/-- The end of a reader that leaves the tokens. -/
def endingIn (left : Tokens) : Except Halt α → EStateM.Result Halt Tokens α
  | .ok value => .ok value left
  | .error halt => .error halt left

theorem endingIn_inj {left left' : Tokens} {outcome outcome' : Except Halt α}
    (h : endingIn left outcome = endingIn left' outcome') : outcome = outcome' ∧ left = left' := by
  cases outcome with
  | ok value =>
      cases outcome' with
      | ok value' =>
          obtain ⟨rfl, rfl⟩ := EStateM.Result.ok.inj h
          exact ⟨rfl, rfl⟩
      | error halt' => cases h
  | error halt =>
      cases outcome' with
      | ok value' => cases h
      | error halt' =>
          obtain ⟨rfl, rfl⟩ := EStateM.Result.error.inj h
          exact ⟨rfl, rfl⟩

theorem outcome?_of_endingIn {reader : Reader α} {tokens left : Tokens} {outcome : Except Error α}
    (h : reader tokens = endingIn left (outcome.mapError .fault)) :
    reader.outcome? tokens = some outcome := by
  rw [outcome?, h]
  cases outcome <;> rfl

/-- Started at the cursor, the reader and the scanner end with the same outcome at the same cursor,
so many tokens ahead. -/
structure EndsAt (reader : Reader α) (scanner : Scanner α) (source file : String) (cursor : Cursor)
    (outcome : Except Halt α) (count : Nat) (stop : Cursor) : Prop where
  passes : cursor.Passes count stop
  reader_eq : reader (.ofCursor file cursor) = endingIn (.ofCursor file stop) outcome
  scanner_eq : scanner (.ofCursor source file cursor) =
    some (outcome, .ofCursor source file stop)

namespace EndsAt

variable {reader : Reader α} {scanner : Scanner α} {next : α → Reader β} {next' : α → Scanner β}
  {source file : String} {cursor mid stop : Cursor} {count more : Nat}

theorem bind_error {halt : Halt}
    (h : EndsAt reader scanner source file cursor (.error halt) count stop) :
    EndsAt (reader >>= next) (scanner >>= next') source file cursor (.error halt) count stop where
  passes := h.passes
  reader_eq := Faults.eq_of_bind h.reader_eq
  scanner_eq := by
    show (scanner (.ofCursor source file cursor)).bind _ = _
    rw [h.scanner_eq]
    rfl

theorem bind_ok {value : α} {outcome : Except Halt β}
    (h : EndsAt reader scanner source file cursor (.ok value) count mid)
    (hnext : EndsAt (next value) (next' value) source file mid outcome more stop) :
    EndsAt (reader >>= next) (scanner >>= next') source file cursor outcome (count + more)
      stop where
  passes := h.passes.trans hnext.passes
  reader_eq := (Reads.eq_of_bind h.reader_eq).trans hnext.reader_eq
  scanner_eq := by
    show (scanner (.ofCursor source file cursor)).bind _ = _
    rw [h.scanner_eq]
    exact hnext.scanner_eq

/-- What a reader does with the tokens at a cursor tells where it ends. -/
theorem unique {reader' : Reader α} {scanner' : Scanner α} {outcome outcome' : Except Halt α}
    {count' : Nat} {stop' : Cursor}
    (h : EndsAt reader scanner source file cursor outcome count stop)
    (h' : EndsAt reader' scanner' source file cursor outcome' count' stop')
    (heq : reader' (.ofCursor file cursor) = reader (.ofCursor file cursor)) :
    outcome' = outcome ∧ count' = count ∧ stop' = stop := by
  obtain ⟨rfl, hleft⟩ := endingIn_inj (h'.reader_eq.symm.trans (heq.trans h.reader_eq))
  exact ⟨rfl, h.passes.eq_of_ofCursor_eq h'.passes hleft⟩

/-- A look ahead comes back, also if it fails. -/
theorem stays (h : EndsAt (lookahead reader) scanner source file cursor outcome count stop) :
    count = 0 ∧ stop = cursor := by
  have hlookahead : ∃ result, lookahead reader (.ofCursor file cursor) =
      endingIn (.ofCursor file cursor) result := by
    rw [lookahead]
    cases reader (.ofCursor file cursor) with
    | ok value left => exact ⟨.ok value, rfl⟩
    | error halt left => exact ⟨.error halt, rfl⟩
  obtain ⟨result, hresult⟩ := hlookahead
  have hleft := (endingIn_inj (h.reader_eq.symm.trans hresult)).2
  exact (Cursor.Passes.refl cursor).eq_of_ofCursor_eq h.passes hleft

end EndsAt

theorem endsAt_advance_of_next? (source file : String) {cursor behind : Cursor} {token : Token}
    (hnext : cursor.next? = some (token, behind)) :
    EndsAt advance Scanner.advance source file cursor (.ok token) 1 behind where
  passes := .next hnext (.refl behind)
  reader_eq := by
    rw [Reader.advance, Tokens.ofCursor, Cursor.tokens_of_some hnext]
    rfl
  scanner_eq := by
    have hadvance : (Lexer.ofCursor source file cursor).advance? =
        some (.ok (token, .ofCursor source file behind)) := by
      simp [Lexer.advance?, Lexer.ofCursor, Lexer.cursor?, hnext]
    rw [Scanner.advance, hadvance]
    rfl

theorem endsAt_advance_of_error {source : String} (file : String) {cursor : Cursor} {error : Error}
    (hstands : cursor.StandsIn source.toList)
    (hcurrent : (Tokens.ofCursor file cursor).current = .error error) :
    EndsAt advance Scanner.advance source file cursor (.error (.fault error)) 0 cursor where
  passes := .refl cursor
  reader_eq := by
    rw [Reader.advance, hcurrent]
    rfl
  scanner_eq := by
    rw [Scanner.advance, (Lexer.standsBefore_ofCursor file hstands).advance?_error hcurrent]
    rfl

/-- At the end of the source nothing is passed. -/
theorem exists_endsAt_advance {source : String} (file : String) {cursor : Cursor}
    (hstands : cursor.StandsIn source.toList) :
    ∃ outcome count stop, EndsAt advance Scanner.advance source file cursor outcome count stop := by
  cases hnext : cursor.next? with
  | some found => exact ⟨_, _, _, endsAt_advance_of_next? source file hnext⟩
  | none =>
      have htokens := Cursor.tokens_of_none hnext
      cases hcurrent : (Tokens.ofCursor file cursor).current with
      | error error => exact ⟨_, _, _, endsAt_advance_of_error file hstands hcurrent⟩
      | ok token =>
          have hstopped : cursor.stopped file = .ok token := by
            rwa [Tokens.ofCursor, htokens] at hcurrent
          have hrest := Cursor.rest_eq_nil_of_stopped hstopped
          -- The lexer goes to the length of the source, which is where the cursor is already.
          have hend : (⟨source.utf8ByteSize, []⟩ : Cursor) = cursor := by
            rw [← Text.byteLength_toList, ← hstands.rest_eq_nil_iff.mp hrest, ← hrest]
          refine ⟨.ok token, 0, cursor, .refl cursor, ?_, ?_⟩
          · rw [Reader.advance, hcurrent, Tokens.ofCursor, htokens]
            rfl
          · have hadvance : (Lexer.ofCursor source file cursor).advance? =
                some (.ok (token, .ofCursor source file cursor)) := by
              simp [Lexer.advance?, Lexer.ofCursor, Lexer.cursor?, hnext, hstopped, hend,
                Except.map]
            rw [Scanner.advance, hadvance]
            rfl

/-- Every reader ends at the cursor where it started or ahead of it, and so does its scanner. -/
theorem OnDemand.exists_endsAt {reader : Reader α} {scanner : Scanner α}
    (h : OnDemand reader scanner) {source : String} (file : String) {cursor : Cursor}
    (hstands : cursor.StandsIn source.toList) :
    ∃ outcome count stop, EndsAt reader scanner source file cursor outcome count stop := by
  induction h generalizing cursor with
  | pure value => exact ⟨.ok value, 0, cursor, .refl cursor, rfl, rfl⟩
  | bind _ _ ih ihnext =>
      obtain ⟨outcome, count, mid, hfirst⟩ := ih hstands
      cases outcome with
      | error halt => exact ⟨_, _, _, hfirst.bind_error⟩
      | ok value =>
          obtain ⟨outcome, more, stop, hrest⟩ := ihnext value (hfirst.passes.standsIn hstands)
          exact ⟨_, _, _, hfirst.bind_ok hrest⟩
  | current =>
      have hpeek := (Lexer.standsBefore_ofCursor file hstands).peek?
      refine ⟨(Tokens.ofCursor file cursor).current.mapError .fault, 0, cursor, .refl cursor,
        ?_, ?_⟩
      · rw [Reader.current]
        cases (Tokens.ofCursor file cursor).current <;> rfl
      · rw [Scanner.current, hpeek]
        rfl
  | advance => exact exists_endsAt_advance file hstands
  | hasTokens =>
      have hend := (Lexer.standsBefore_ofCursor file hstands).atEnd_eq
      refine ⟨.ok (!(Tokens.ofCursor file cursor).atEnd), 0, cursor, .refl cursor, rfl, ?_⟩
      rw [Scanner.hasTokens, hend]
  | failAt token _ => exact ⟨_, 0, cursor, .refl cursor, rfl, rfl⟩
  | outOfFuel => exact ⟨_, 0, cursor, .refl cursor, rfl, rfl⟩
  | @lookahead α reader scanner _ ih =>
      obtain ⟨outcome, count, mid, hinner⟩ := ih hstands
      have hback : (Lexer.ofCursor source file mid).seek cursor.offset =
          .ofCursor source file cursor :=
        (Lexer.standsBefore_ofCursor file hstands).seek_restore (.firm mid)
      refine ⟨outcome, 0, cursor, .refl cursor, ?_, ?_⟩
      · rw [Reader.lookahead, hinner.reader_eq]
        cases outcome <;> rfl
      · rw [Scanner.lookahead, hinner.scanner_eq, Option.map_some]
        exact congrArg (fun lexer => some (outcome, lexer)) hback

/-! ## Enough fuel -/

/-- A reader that is given enough fuel ends with a value or a fault, which more fuel does not
change, and if it is a value it has passed as many tokens as it is known to consume. -/
theorem exists_endsAt_of_advances {reader : Nat → Reader α} {least : Nat} {source file : String}
    {cursor : Cursor} (hstands : cursor.StandsIn source.toList)
    (hscanner : ∀ fuel, HasScanner (reader fuel))
    (hfuel : ∀ {fuel more}, fuel ≤ more → Approximates (reader fuel) (reader more))
    (hadvances : Advances least (reader (Tokens.ofCursor file cursor).fuel)
      (.ofCursor file cursor)) :
    ∃ (outcome : Except Error α) (count : Nat) (stop : Cursor),
      (∀ fuel scanner, (Tokens.ofCursor file cursor).fuel ≤ fuel →
        OnDemand (reader fuel) scanner →
        EndsAt (reader fuel) scanner source file cursor (outcome.mapError .fault) count stop) ∧
      ∀ value, outcome = .ok value → least ≤ count := by
  obtain ⟨scanner, honDemand⟩ := hscanner (Tokens.ofCursor file cursor).fuel
  obtain ⟨halted, count, stop, hends⟩ := honDemand.exists_endsAt file hstands
  have hmore : ∀ fuel scanner', (Tokens.ofCursor file cursor).fuel ≤ fuel →
      OnDemand (reader fuel) scanner' →
      EndsAt (reader fuel) scanner' source file cursor halted count stop := by
    intro fuel scanner' hle honDemand'
    obtain ⟨halted', count', stop', hends'⟩ := honDemand'.exists_endsAt file hstands
    obtain ⟨rfl, rfl, rfl⟩ := hends.unique hends' ((hfuel hle).eq_of_advances hadvances)
    exact hends'
  rw [Advances, hends.reader_eq] at hadvances
  cases halted with
  | ok value =>
      have hcount := hends.passes.length_tokens
      have hleast : stop.tokens.1.length + least ≤ cursor.tokens.1.length := hadvances
      exact ⟨.ok value, count, stop, hmore, fun _ _ => by omega⟩
  | error halt =>
      cases halt with
      | fault error => exact ⟨.error error, count, stop, hmore, fun _ h => by cases h⟩
      | outOfFuel => exact hadvances.elim

/-- The reader returns from every cursor of every source, and if it returns a value it has passed a
token at least. -/
structure GoesAhead (reader : Nat → Reader α) : Prop where
  hasScanner : ∀ fuel, HasScanner (reader fuel)
  exists_endsAt : ∀ (source file : String) (cursor : Cursor), cursor.StandsIn source.toList →
    ∃ (outcome : Except Error α) (count : Nat) (stop : Cursor),
      (∀ fuel scanner, (Tokens.ofCursor file cursor).fuel ≤ fuel →
        OnDemand (reader fuel) scanner →
        EndsAt (reader fuel) scanner source file cursor (outcome.mapError .fault) count stop) ∧
      ∀ value, outcome = .ok value → 1 ≤ count ∧ cursor.offset < stop.offset

theorem goesAhead_of_advances {reader : Nat → Reader α}
    (hscanner : ∀ fuel, HasScanner (reader fuel))
    (hfuel : ∀ {fuel more}, fuel ≤ more → Approximates (reader fuel) (reader more))
    (hadvances : ∀ tokens : Tokens, Advances 1 (reader tokens.fuel) tokens) :
    GoesAhead reader where
  hasScanner := hscanner
  exists_endsAt := by
    intro source file cursor hstands
    obtain ⟨outcome, count, stop, hends, hleast⟩ :=
      exists_endsAt_of_advances hstands hscanner hfuel (hadvances (.ofCursor file cursor))
    refine ⟨outcome, count, stop, hends, fun value hok => ?_⟩
    have hcount := hleast value hok
    obtain ⟨scanner, honDemand⟩ := hscanner (Tokens.ofCursor file cursor).fuel
    have hoffset := (hends _ scanner (Nat.le_refl _) honDemand).passes.offset_add_le
    exact ⟨hcount, by omega⟩

theorem goesAhead_expressionOf (layer : Precedence) : GoesAhead (expressionOf layer) :=
  goesAhead_of_advances (hereditary_hasScanner.expressionOf layer) (.expressionOf layer)
    fun tokens => .expressionOf (by simp only [Tokens.fuel]; omega)

theorem goesAhead_line (vocabulary : Vocabulary) : GoesAhead (line vocabulary) :=
  goesAhead_of_advances (hereditary_hasScanner.line vocabulary) (.line vocabulary)
    fun tokens => .line (by simp only [Tokens.fuel]; omega)

theorem goesAhead_definition (vocabulary : Vocabulary) : GoesAhead (definition vocabulary) :=
  goesAhead_of_advances (hereditary_hasScanner.definition vocabulary) (.definition vocabulary)
    fun tokens => .definition (by simp only [Tokens.fuel]; omega)

/-- On every source, the reader returns what the function does. -/
structure Returns (parse : String → String → Except Error α) (reader : Nat → Reader α) : Prop where
  hasScanner : ∀ fuel, HasScanner (reader fuel)
  exists_endsAt : ∀ source file : String, ∃ (count : Nat) (stop : Cursor), ∀ fuel scanner,
    (Tokens.ofSource source file).fuel ≤ fuel → OnDemand (reader fuel) scanner →
      EndsAt (reader fuel) scanner source file (.ofSource source)
        ((parse source file).mapError .fault) count stop

theorem returns_of_readsBy {parse : String → String → Except Error α} {reader : Nat → Reader α}
    {language : Grammar.Language} (h : ReadsBy parse reader language)
    (hscanner : ∀ fuel, HasScanner (reader fuel))
    (hfuel : ∀ {fuel more}, fuel ≤ more → Approximates (reader fuel) (reader more)) :
    Returns parse reader where
  hasScanner := hscanner
  exists_endsAt := by
    intro source file
    obtain ⟨outcome, count, stop, hends, -⟩ := exists_endsAt_of_advances
      (Cursor.StandsIn.ofSource source) hscanner hfuel (h.advances (.ofSource source file))
    obtain ⟨scanner, honDemand⟩ := hscanner (Tokens.ofSource source file).fuel
    have houtcome := outcome?_of_endingIn (hends _ scanner (Nat.le_refl _) honDemand).reader_eq
    obtain rfl := Option.some.inj (h.some_parse_eq.trans houtcome)
    exact ⟨count, stop, hends⟩

/-! ## The functions of the grammar -/

/-- The functions that read a part of the grammar each, with the fuel for what they nest and for
what they repeat. -/
inductive ParseFunction : {α : Type} → Reader α → Prop where
  | expressionOf (layer : Precedence) (fuel : Nat) : ParseFunction (expressionOf layer fuel)
  | primary (fuel rounds : Nat) : ParseFunction (primary (expression fuel) rounds)
  | grouping (fuel : Nat) : ParseFunction (grouping (expression fuel))
  | numeral : ParseFunction numeral
  | named (fuel rounds : Nat) : ParseFunction (named (expression fuel) rounds)
  | callOf (callee : String) (fuel rounds : Nat) :
      ParseFunction (callOf callee (expression fuel) rounds)
  | labelledCallOf (callee : String) (fuel rounds : Nat) :
      ParseFunction (labelledCallOf callee (expression fuel) rounds)
  | line (vocabulary : Vocabulary) (fuel : Nat) : ParseFunction (line vocabulary fuel)
  | startsAssignment : ParseFunction startsAssignment
  | condition (fuel : Nat) : ParseFunction (condition (expression fuel))
  | printlnLine (fuel : Nat) : ParseFunction (printlnLine (expression fuel))
  | loopLine (vocabulary : Vocabulary) (fuel : Nat) :
      ParseFunction (loopLine (expression fuel) (Reader.line vocabulary fuel))
  | conditionalLine (vocabulary : Vocabulary) (fuel : Nat) :
      ParseFunction (conditionalLine (expression fuel) (Reader.line vocabulary fuel))
  | blockLine (vocabulary : Vocabulary) (fuel rounds : Nat) :
      ParseFunction (blockLine (Reader.line vocabulary fuel) rounds)
  | countedLine (vocabulary : Vocabulary) (fuel : Nat) :
      ParseFunction (countedLine (expression fuel) (Reader.line vocabulary fuel))
  | assignmentLine (fuel : Nat) : ParseFunction (assignmentLine (expression fuel))
  | expressionLine (fuel : Nat) : ParseFunction (expressionLine (expression fuel))
  | definition (vocabulary : Vocabulary) (fuel : Nat) :
      ParseFunction (definition vocabulary fuel)
  | globalDefinition (fuel : Nat) : ParseFunction (globalDefinition fuel)
  | functionDefinition (vocabulary : Vocabulary) (fuel : Nat) :
      ParseFunction (functionDefinition vocabulary fuel)
  | program (vocabulary : Vocabulary) (fuel : Nat) : ParseFunction (program vocabulary fuel)
  | statements (vocabulary : Vocabulary) (fuel : Nat) :
      ParseFunction (statements vocabulary fuel)

theorem ParseFunction.hasScanner {reader : Reader α} (h : ParseFunction reader) :
    HasScanner reader := by
  have hscanner := hereditary_hasScanner
  have hexpression := hscanner.expressionOf .relational
  cases h with
  | expressionOf layer fuel => exact hscanner.expressionOf layer fuel
  | primary fuel rounds => exact hscanner.primary (hexpression fuel) rounds
  | grouping fuel => exact hscanner.grouping (hexpression fuel)
  | numeral => exact hscanner.numeral
  | named fuel rounds => exact hscanner.named (hexpression fuel) rounds
  | callOf callee fuel rounds => exact hscanner.callOf (hexpression fuel) callee rounds
  | labelledCallOf callee fuel rounds =>
      exact hscanner.labelledCallOf (hexpression fuel) callee rounds
  | line vocabulary fuel => exact hscanner.line vocabulary fuel
  | startsAssignment => exact hscanner.startsAssignment
  | condition fuel => exact hscanner.condition (hexpression fuel)
  | printlnLine fuel => exact hscanner.printlnLine (hexpression fuel)
  | loopLine vocabulary fuel =>
      exact hscanner.loopLine (hexpression fuel) (hscanner.line vocabulary fuel)
  | conditionalLine vocabulary fuel =>
      exact hscanner.conditionalLine (hexpression fuel) (hscanner.line vocabulary fuel)
  | blockLine vocabulary fuel rounds =>
      exact hscanner.blockLine (hscanner.line vocabulary fuel) rounds
  | countedLine vocabulary fuel =>
      exact hscanner.countedLine (hexpression fuel) (hscanner.line vocabulary fuel)
  | assignmentLine fuel => exact hscanner.assignmentLine (hexpression fuel)
  | expressionLine fuel => exact hscanner.expressionLine (hexpression fuel)
  | definition vocabulary fuel => exact hscanner.definition vocabulary fuel
  | globalDefinition fuel => exact hscanner.globalDefinition fuel
  | functionDefinition vocabulary fuel => exact hscanner.functionDefinition vocabulary fuel
  | program vocabulary fuel => exact hscanner.program vocabulary fuel
  | statements vocabulary fuel => exact hscanner.statements vocabulary fuel

/-- Wherever the reader starts and whatever becomes of it, it ends as many bytes ahead at least as
it passes tokens. -/
structure NeverGoesBack (reader : Reader α) : Prop where
  hasScanner : HasScanner reader
  exists_endsAt : ∀ scanner, OnDemand reader scanner → ∀ (source file : String) (cursor : Cursor),
    cursor.StandsIn source.toList → ∃ outcome count stop,
      EndsAt reader scanner source file cursor outcome count stop ∧
      cursor.offset + count ≤ stop.offset

theorem ParseFunction.neverGoesBack {reader : Reader α} (h : ParseFunction reader) :
    NeverGoesBack reader where
  hasScanner := h.hasScanner
  exists_endsAt := by
    intro scanner honDemand source file cursor hstands
    obtain ⟨outcome, count, stop, hends⟩ := honDemand.exists_endsAt file hstands
    exact ⟨outcome, count, stop, hends, hends.passes.offset_add_le⟩

end Reader

open Reader in
/-- Both parsers return on every source.  From every cursor, expressions of every layer, lines and
definitions are read, or found to be none, in the end, and where one is read a token is passed at
least.  No function of the grammar ends in front of the cursor where it started, and the look for an
assignment ends at that cursor. -/
theorem parser_moves_forward :
    Returns parseProgram (Reader.program .full) ∧
      Returns parseStatements (Reader.statements .full) ∧
      (∀ layer, GoesAhead (expressionOf layer)) ∧
      (∀ vocabulary, GoesAhead (line vocabulary)) ∧
      (∀ vocabulary, GoesAhead (definition vocabulary)) ∧
      (∀ (α : Type) (reader : Reader α), ParseFunction reader → NeverGoesBack reader) ∧
      ∀ scanner, OnDemand startsAssignment scanner → ∀ (source file : String) (cursor : Cursor),
        cursor.StandsIn source.toList →
          ∃ outcome, EndsAt startsAssignment scanner source file cursor outcome 0 cursor := by
  refine ⟨?_, ?_, goesAhead_expressionOf, goesAhead_line, goesAhead_definition, ?_, ?_⟩
  · exact returns_of_readsBy readsBy_parseProgram (HasScanner.program .full) (.program .full)
  · exact returns_of_readsBy readsBy_parseStatements (HasScanner.statements .full)
      (.statements .full)
  · exact fun _ _ h => h.neverGoesBack
  · intro scanner honDemand source file cursor hstands
    obtain ⟨outcome, count, stop, hends⟩ := honDemand.exists_endsAt file hstands
    obtain ⟨rfl, rfl⟩ := hends.stays
    exact ⟨outcome, hends⟩

end IntScript
