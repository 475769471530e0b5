import Mathlib
import IntScript.Proofs.Evaluation.Steps
import IntScript.Proofs.Grammar.Acceptance
import IntScript.Shell.Conversation

/-!
# What the lines of a session are taken for

A session cuts the first word off a line to tell definitions from statements.  The readers go by
tokens: they pass over comments and have rules for words of their own.  On one line the two agree,
because a comment there leaves nothing to read, and because a word ends for both where its
characters do.

* `Shell.holdsDefinitions_iff` : a line is taken for definitions exactly if its first token is a
  word that introduces one.
* `Shell.exists_readLine_iff` : so a line that either parser accepts is given to one that does.
* `Shell.IsProgram.tokenize_eq` : only a line without tokens is a line of both languages, because no
  statement starts with such a word.
* `Shell.answer_of_error` : a line that is not read changes nothing.  What the lines before it
  printed has been shown by then (`Shell.allShown_of_sessionAfter?`).
-/

namespace IntScript

open Text Grammar

/-! ## The first word of a text -/

namespace Cursor

/-- A comment on the last line of a text leaves nothing to read. -/
theorem rest_skipTriviaFrom_inComment {text : List Char} (hlast : '\n' ∉ text.dropLast)
    (offset : Nat) : (skipTriviaFrom true offset text).rest = [] := by
  induction text generalizing offset with
  | nil => rfl
  | cons c rest ih =>
      rw [skipTriviaFrom, if_pos rfl]
      cases rest with
      | nil => rfl
      | cons next others =>
          rw [List.dropLast_cons_cons, List.mem_cons, not_or] at hlast
          rw [bne_iff_ne.mpr (Ne.symm hlast.1)]
          exact ih hlast.2 _

/-- What is left behind the trivia at the front of a line starts with the same word as what is left
behind the blanks: a comment starts with no word. -/
theorem takeWhile_rest_skipTriviaFrom {text : List Char} (hlast : '\n' ∉ text.dropLast)
    (offset : Nat) : (skipTriviaFrom false offset text).rest.takeWhile isWordChar =
      (trimStart text).takeWhile isWordChar := by
  induction text generalizing offset with
  | nil => rfl
  | cons c rest ih =>
      have hrest : '\n' ∉ rest.dropLast := by
        cases rest with
        | nil => exact List.not_mem_nil
        | cons next others =>
            rw [List.dropLast_cons_cons, List.mem_cons, not_or] at hlast
            exact hlast.2
      rw [skipTriviaFrom, if_neg Bool.false_ne_true, trimStart]
      split
      next hblank =>
        rw [List.dropWhile_cons_of_pos hblank]
        exact ih hrest _
      next hblank =>
        rw [List.dropWhile_cons_of_neg hblank]
        split
        next hslashes =>
          rw [Bool.and_eq_true, beq_iff_eq] at hslashes
          rw [rest_skipTriviaFrom_inComment hrest, hslashes.1]
          rfl
        next => rfl

end Cursor

namespace Lexeme

theorem fixedSpellings_ne_keyword : ∀ spelling ∈ fixedSpellings, ∀ keyword : Keyword,
    spelling.2 ≠ .keyword keyword := by
  intro spelling hmem keyword
  revert spelling
  cases keyword <;> decide

/-- A reserved word is cut off a text exactly if the text starts with it as a whole word. -/
theorem kind_ofText?_eq_keyword_iff {text : List Char} {keyword : Keyword} :
    (ofText? text).map kind = some (.keyword keyword) ↔
      String.ofList (text.takeWhile isWordChar) = keyword.word := by
  constructor
  · intro h
    obtain ⟨lexeme, hlexeme, hkind⟩ := Option.map_eq_some_iff.mp h
    unfold ofText? at hlexeme
    split at hlexeme
    next => cases hlexeme
    next c rest =>
      split at hlexeme
      next =>
        obtain rfl := Option.some.inj hlexeme
        simp only [wordKind] at hkind
        split at hkind
        next found hfound =>
          rw [← TokenKind.keyword.inj hkind, Keyword.word_of_ofWord? hfound]
        next => cases hkind
      next =>
        split at hlexeme
        next =>
          obtain rfl := Option.some.inj hlexeme
          cases hkind
        next =>
          obtain ⟨spelling, hfind, rfl⟩ := Option.map_eq_some_iff.mp hlexeme
          have hmem := List.mem_of_find?_eq_some hfind
          exact absurd hkind (fixedSpellings_ne_keyword spelling hmem keyword)
  · intro h
    obtain ⟨first, others, hword, hstart⟩ := keyword.isWordStart_word
    rw [← h, String.toList_ofList] at hword
    obtain ⟨behind, hbehind⟩ : first :: others <+: text := hword ▸ List.takeWhile_prefix isWordChar
    rw [← hbehind, List.cons_append] at h ⊢
    rw [ofText?, if_pos hstart, Option.map_some, h, Keyword.wordKind_word]

end Lexeme

/-! ## Telling definitions from statements -/

namespace Shell

/-- The text has no line break but at its end. -/
def IsLine (line : String) : Prop :=
  '\n' ∉ line.toList.dropLast

/-- The first token of the line is the reserved word. -/
def StartsWith (line : String) (keyword : Keyword) : Prop :=
  ∃ token, (Lexer.ofSource line Lexer.defaultFile).peek? = some (.ok token) ∧
    token.kind = .keyword keyword

/-- The line is read as definitions. -/
def IsProgram (line : String) : Prop :=
  ∃ program, parseProgram line Lexer.defaultFile = .ok program

/-- The line is read as statements. -/
def IsStatements (line : String) : Prop :=
  ∃ body, parseStatements line Lexer.defaultFile = .ok body

variable {line : String} {keyword : Keyword}

theorem startsWith_iff_next? : StartsWith line keyword ↔
    (Cursor.ofSource line).next?.map (·.1.kind) = some (.keyword keyword) := by
  rw [StartsWith]
  cases hnext : (Cursor.ofSource line).next? with
  | some found =>
      have hpeek : (Lexer.ofSource line Lexer.defaultFile).peek? = some (.ok found.1) := by
        simp [Lexer.peek?, Lexer.ofSource, Lexer.cursor?, hnext]
      simp [hpeek]
  | none =>
      have hpeek : (Lexer.ofSource line Lexer.defaultFile).peek? =
          some ((Cursor.ofSource line).stopped Lexer.defaultFile) := by
        simp [Lexer.peek?, Lexer.ofSource, Lexer.cursor?, hnext]
      rw [hpeek]
      -- What stands at the end of a line is no word.
      simp only [Option.some.injEq, Option.map_none, reduceCtorEq, iff_false, not_exists, not_and]
      intro token hstopped hkind
      unfold Cursor.stopped at hstopped
      split at hstopped
      · cases hstopped
        cases hkind
      · cases hstopped

/-- The first token of a line is what the grammar sees first. -/
theorem startsWith_iff_head? : StartsWith line keyword ↔
    (Cursor.ofSource line).reading.1.head? = some (.fixed (.keyword keyword)) := by
  rw [startsWith_iff_next?]
  cases hnext : (Cursor.ofSource line).next? with
  | none =>
      rw [Cursor.reading_of_none hnext]
      exact iff_of_false nofun nofun
  | some found =>
      obtain ⟨token, behind⟩ := found
      rw [Cursor.reading_of_some hnext, List.head?_cons, Option.map_some, Option.some.injEq,
        Option.some.injEq]
      exact (Token.terminal_eq_fixed_iff rfl).symm

/-- A line is taken for definitions exactly if its first token is a word that introduces one. -/
theorem holdsDefinitions_iff (hline : IsLine line) :
    holdsDefinitions line = true ↔ StartsWith line .define ∨ StartsWith line .global := by
  have hword : ∀ keyword, StartsWith line keyword ↔
      String.ofList ((trimStart line.toList).takeWhile isWordChar) = keyword.word := by
    intro keyword
    have hkind : (Cursor.ofSource line).next?.map (·.1.kind) =
        (Lexeme.ofText? (Cursor.ofSource line).rest).map Lexeme.kind := by
      rw [Cursor.next?, Option.map_map]
      rfl
    rw [startsWith_iff_next?, hkind, Lexeme.kind_ofText?_eq_keyword_iff, Cursor.ofSource,
      Cursor.skipTrivia, Cursor.takeWhile_rest_skipTriviaFrom hline]
  rw [hword, hword, holdsDefinitions, Bool.or_eq_true, beq_iff_eq, beq_iff_eq]

/-! ## The two languages -/

theorem isProgram_iff : IsProgram line ↔ ∃ items : List Item,
    (Cursor.ofSource line).reading = (Item.allTerminals items, []) ∧
      (∀ terminal ∈ Item.allTerminals items, terminal.Fits) ∧
      ∀ item ∈ items, item.AttachesNearest := by
  simp only [IsProgram, parseProgram_eq_ok_iff_shows, Tokens.shows_ofSource_iff]
  constructor
  · rintro ⟨program, items, hreading, hfits, hnearest, -⟩
    exact ⟨items, hreading, hfits, hnearest⟩
  · rintro ⟨items, hreading, hfits, hnearest⟩
    exact ⟨_, items, hreading, hfits, hnearest, rfl⟩

theorem isStatements_iff : IsStatements line ↔ ∃ lines : List Line,
    (Cursor.ofSource line).reading = (Line.allTerminals lines, []) ∧
      (∀ terminal ∈ Line.allTerminals lines, terminal.Fits) ∧ Line.AllAttachNearest lines := by
  simp only [IsStatements, parseStatements_eq_ok_iff_shows, Tokens.shows_ofSource_iff]
  constructor
  · rintro ⟨body, lines, hreading, hfits, hnearest, -⟩
    exact ⟨lines, hreading, hfits, hnearest⟩
  · rintro ⟨lines, hreading, hfits, hnearest⟩
    exact ⟨_, lines, hreading, hfits, hnearest, rfl⟩

/-- What is read as definitions starts as one, or has no token. -/
theorem IsProgram.startsWith (h : IsProgram line) :
    StartsWith line .define ∨ StartsWith line .global ∨
      (Cursor.ofSource line).reading = ([], []) := by
  obtain ⟨items, hreading, -, -⟩ := isProgram_iff.mp h
  rw [startsWith_iff_head?, startsWith_iff_head?, hreading]
  cases items with
  | nil => exact .inr (.inr rfl)
  | cons item others =>
      cases item with
      | global name value => exact .inr (.inl rfl)
      | function name parameters body => exact .inl rfl

/-- What is read as statements does not start as a definition. -/
theorem IsStatements.not_startsWith (h : IsStatements line) :
    ¬ (StartsWith line .define ∨ StartsWith line .global) := by
  obtain ⟨lines, hreading, -, -⟩ := isStatements_iff.mp h
  rw [startsWith_iff_head?, startsWith_iff_head?, hreading]
  cases lines with
  | nil => exact Or.rec nofun nofun
  | cons first others =>
      obtain ⟨head, rest, hfirst, hstarts⟩ := first.exists_head
      rw [Line.allTerminals, hfirst, List.cons_append, List.head?_cons, Option.some.injEq,
        Option.some.injEq]
      rintro (rfl | rfl) <;> cases hstarts

theorem isStatements_of_nil (h : (Cursor.ofSource line).reading = ([], [])) :
    IsStatements line :=
  isStatements_iff.mpr ⟨[], h, nofun, trivial⟩

/-- A line of both languages has no token. -/
theorem IsProgram.tokenize_eq (hprogram : IsProgram line) (hstatements : IsStatements line) :
    ∃ last, tokenize line Lexer.defaultFile = .ok [last] ∧ last.kind = .eof := by
  have hnil : (Cursor.ofSource line).reading = ([], []) := by
    have hnot := hstatements.not_startsWith
    rw [not_or] at hnot
    rcases hprogram.startsWith with hdefine | hglobal | hnil
    · exact absurd hdefine hnot.1
    · exact absurd hglobal hnot.2
    · exact hnil
  have hpending : (Tokens.ofSource line Lexer.defaultFile).pending = [] :=
    List.map_eq_nil_iff.mp (congrArg Prod.fst hnil)
  exact ⟨_, tokenize_eq_ok_iff.mpr ⟨hpending, congrArg Prod.snd hnil, rfl⟩, rfl⟩

/-! ## What the session reads -/

/-- What a line was read as. -/
inductive Reading where
  | definitions (program : Program)
  | statements (body : List Expr)

/-- What a session reads in a line, before it acts on any of it. -/
def readLine (line : String) : Except Error Reading :=
  if holdsDefinitions line then (parseProgram line Lexer.defaultFile).map .definitions
  else (parseStatements line Lexer.defaultFile).map .statements

/-- Acts on what was read in a line: takes in the definitions, or evaluates the statements, or
reports why nothing was read. -/
def actOn (fuel : Nat) (line : String) : Except Error Reading → StateT Session Option Answer
  | .error error => return answerOfError line error
  | .ok (.definitions program) => do
    match ← (Session.register fuel program).run with
    | .error fault => return answerOfError line (.ofRun fault)
    | .ok () => return answerOf ""
  | .ok (.statements body) => do
    let (values, fault) ← Session.evaluateAll fuel body
    match fault, values.getLast? with
    | some fault, _ => return answerOfError line (.ofRun fault)
    | none, some value => return answerOf (decimal value ++ "\n")
    | none, none => return answerOf ""

variable {fuel : Nat} {error : Error}

theorem evaluateLine_eq (fuel : Nat) (line : String) :
    evaluateLine fuel line = actOn fuel line (readLine line) := by
  unfold evaluateLine readLine
  split
  · cases parseProgram line Lexer.defaultFile <;> rfl
  · cases parseStatements line Lexer.defaultFile <;> rfl

theorem exists_readLine_of_holdsDefinitions (h : holdsDefinitions line = true) :
    (∃ reading, readLine line = .ok reading) ↔ IsProgram line := by
  rw [readLine, if_pos h, IsProgram]
  cases parseProgram line Lexer.defaultFile <;> simp [Except.map]

theorem exists_readLine_of_not_holdsDefinitions (h : ¬ holdsDefinitions line = true) :
    (∃ reading, readLine line = .ok reading) ↔ IsStatements line := by
  rw [readLine, if_neg h, IsStatements]
  cases parseStatements line Lexer.defaultFile <;> simp [Except.map]

/-- No line is lost: the parser that a line is given to accepts it if one of the two does. -/
theorem exists_readLine_iff (hline : IsLine line) :
    (∃ reading, readLine line = .ok reading) ↔ IsProgram line ∨ IsStatements line := by
  by_cases hholds : holdsDefinitions line = true
  · have hstarts := (holdsDefinitions_iff hline).mp hholds
    rw [exists_readLine_of_holdsDefinitions hholds]
    refine ⟨.inl, fun h => h.elim id fun hstatements => ?_⟩
    exact absurd hstarts hstatements.not_startsWith
  · rw [exists_readLine_of_not_holdsDefinitions hholds]
    refine ⟨.inr, fun h => h.elim (fun hprogram => ?_) id⟩
    rw [holdsDefinitions_iff hline, not_or] at hholds
    rcases hprogram.startsWith with hdefine | hglobal | hnil
    · exact absurd hdefine hholds.1
    · exact absurd hglobal hholds.2
    · exact isStatements_of_nil hnil

/-! ## Lines that are not read -/

/-- The session that the lines leave behind, one after another, unless the fuel runs out. -/
def sessionAfter? (fuel callLimit : Nat) (lines : List String) : Option Session :=
  lines.foldlM (fun session line => ((answer fuel line).run session).map Prod.snd)
    (newSession callLimit)

/-- All that was printed has been shown. -/
def AllShown (session : Session) : Prop :=
  session.output.flush = session.output

theorem flush_flush (output : Output) : output.flush.flush = output.flush := by
  cases output <;> rfl

theorem written_of_flush {output : Output} (h : output.flush = output) : output.written = "" := by
  cases output with
  | console written => exact (Output.console.inj h).symm
  | buffer captured => rfl
  | silent => rfl

/-- An answer shows all that was printed. -/
theorem allShown_of_answer {session after : Session} {reply : Answer}
    (h : (answer fuel line).run session = some (reply, after)) : AllShown after := by
  obtain ⟨_, mid, -, h⟩ := Session.stateBind_eq_some_iff.mp h
  cases h
  exact flush_flush mid.output

/-- Between two lines, all that was printed has been shown. -/
theorem allShown_of_sessionAfter? {callLimit : Nat} {lines : List String} {session : Session}
    (h : sessionAfter? fuel callLimit lines = some session) : AllShown session := by
  suffices ∀ start : Session, AllShown start →
      lines.foldlM (fun session line => ((answer fuel line).run session).map Prod.snd) start =
        some session → AllShown session from
    this (newSession callLimit) rfl h
  intro start hstart hlines
  clear h
  induction lines generalizing start with
  | nil =>
      cases hlines
      exact hstart
  | cons line others ih =>
      rw [List.foldlM_cons, Option.bind_eq_bind, Option.bind_eq_some_iff] at hlines
      obtain ⟨mid, hfirst, hothers⟩ := hlines
      obtain ⟨⟨reply, after⟩, hanswer, rfl⟩ := Option.map_eq_some_iff.mp hfirst
      exact ih after (allShown_of_answer hanswer) hothers

/-- A line that is not read changes nothing. -/
theorem answer_of_error {session : Session} (hshown : AllShown session)
    (h : readLine line = .error error) :
    (answer fuel line).run session = some (answerOfError line error, session) := by
  refine Session.stateBind_eq_some_iff.mpr ⟨answerOfError line error, session, ?_, ?_⟩
  · rw [evaluateLine_eq, h]
    rfl
  · have hwritten := written_of_flush hshown
    have hsession : { session with output := session.output.flush } = session := by rw [hshown]
    show some (({ answerOfError line error with
      stdout := session.output.written ++ (answerOfError line error).stdout } : Answer),
      { session with output := session.output.flush }) = _
    rw [hsession, hwritten, String.empty_append]

end Shell

open Shell

/-- On every line, the first word says that definitions follow exactly if the first token does.  So
the session reads what one of the parsers accepts, and what both accept has no token.  A line that
is not read leaves the session as it was, whatever lines came before it. -/
theorem dispatch_follows_first_token (line : String) (hline : IsLine line) :
    (holdsDefinitions line = true ↔ StartsWith line .define ∨ StartsWith line .global) ∧
    (∀ fuel, evaluateLine fuel line = actOn fuel line (readLine line)) ∧
    ((∃ reading, readLine line = .ok reading) ↔ IsProgram line ∨ IsStatements line) ∧
    (IsProgram line → IsStatements line →
      ∃ last, tokenize line Lexer.defaultFile = .ok [last] ∧ last.kind = .eof) ∧
    ∀ error, readLine line = .error error →
      ∀ fuel fuel' callLimit before session, sessionAfter? fuel callLimit before = some session →
        (answer fuel' line).run session = some (answerOfError line error, session) :=
  ⟨holdsDefinitions_iff hline, fun fuel => evaluateLine_eq fuel line, exists_readLine_iff hline,
    IsProgram.tokenize_eq, fun _ herror _ _ _ _ _ hsession =>
      answer_of_error (allShown_of_sessionAfter? hsession) herror⟩

/-- A definition that breaks off, behind a blank of two bytes.  The variable that the line before it
defines is kept. -/
theorem dispatch_follows_first_token_of_broken_definition :
    IsLine "\u00a0global y\n" ∧
    (StartsWith "\u00a0global y\n" .define ∨ StartsWith "\u00a0global y\n" .global) ∧
    ∃ error session, readLine "\u00a0global y\n" = .error error ∧
      sessionAfter? 9 1 ["global x = 7;\n"] = some session ∧
      session = (newSession 1).defineGlobal "x" 7 ∧
      (answer 9 "\u00a0global y\n").run session =
        some (answerOfError "\u00a0global y\n" error, session) := by
  have hline : IsLine "\u00a0global y\n" := by
    unfold IsLine
    decide
  have hholds : holdsDefinitions "\u00a0global y\n" = true := by decide
  have hbroken : readLine "\u00a0global y\n" =
      .error ⟨.parse (.unexpected "EOF"), ⟨11, Lexer.defaultFile⟩⟩ := by cbv
  have hfirst : readLine "global x = 7;\n" = .ok (.definitions [.global "x" (.number 7)]) := by
    cbv
  have hsession : sessionAfter? 9 1 ["global x = 7;\n"] =
      some ((newSession 1).defineGlobal "x" 7) := by
    simp only [sessionAfter?, List.foldlM_cons, answer, evaluateLine_eq, hfirst]
    rfl
  obtain ⟨hdispatch, -, -, -, hunread⟩ := dispatch_follows_first_token "\u00a0global y\n" hline
  exact ⟨hline, hdispatch.mp hholds, _, _, hbroken, hsession, rfl,
    hunread _ hbroken 9 9 1 _ _ hsession⟩

end IntScript
