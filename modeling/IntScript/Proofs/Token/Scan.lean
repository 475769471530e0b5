import IntScript.Proofs.Grammar.Derivation
import IntScript.Token.Lexer

/-!
# Texts and their terminals

What the lexer makes of a text, without the offsets.

`Scans text terminals rest` says that the front of a text is made of blanks and lexemes, that the
grammar sees the lexemes as the terminals, and that the text goes on with `rest`.  It is built from
the front, one blank or one lexeme at a time (`Scans.blank`, `Scans.lexeme`), and composed
(`Scans.trans`), so that a text can be scanned piece by piece.

* `Scans.reading` : a cursor reads off what the text scans to and then what it goes on with,
  whatever offset it starts from.
* `Cursor.wellSpelled_of_mem_tokens` : the converse for single tokens, as far as it is needed.  The
  tokens that a cursor reads off are lexemes, so that a numeral is a run of digits, a name starts
  with a letter or an underscore and is no reserved word, and none of them is the end.
-/

namespace IntScript

open Text

/-- The kind and the text of a token, wherever it stands. -/
def Token.look (token : Token) : TokenKind × String :=
  (token.kind, token.text)

/-! ## Names -/

/-- A letter or an underscore, further ones or digits behind it, and no reserved word. -/
structure IsName (name : String) : Prop where
  isWordStart : ∃ first rest, name.toList = first :: rest ∧ isWordStart first = true
  isWordChar : ∀ c ∈ name.toList, isWordChar c = true
  not_reserved : Keyword.ofWord? name = none

namespace Keyword

theorem word_of_ofWord? {word : String} {keyword : Keyword} (h : ofWord? word = some keyword) :
    keyword.word = word := by
  unfold ofWord? at h
  have hword := List.find?_some h
  exact beq_iff_eq.mp hword

theorem wordKind_word (keyword : Keyword) : wordKind keyword.word = .keyword keyword := by
  cases keyword <;> decide

theorem isWordStart_word (keyword : Keyword) :
    ∃ first rest, keyword.word.toList = first :: rest ∧ isWordStart first = true := by
  cases keyword <;> exact ⟨_, _, rfl, rfl⟩

theorem isWordChar_word (keyword : Keyword) :
    ∀ c ∈ keyword.word.toList, isWordChar c = true :=
  List.all_eq_true.mp (by cases keyword <;> rfl)

end Keyword

/-- What the grammar sees of a token is spelled as a token of its kind is. -/
def Terminal.WellSpelled : Terminal → Prop
  | fixed kind => kind ≠ .eof
  | name text => IsName text
  | numeral digits => digits.toList ≠ [] ∧ ∀ c ∈ digits.toList, c.isDigit = true

namespace Lexeme

/-- What the grammar sees of a lexeme. -/
def terminal (lexeme : Lexeme) : Terminal :=
  .ofKind lexeme.kind (String.ofList lexeme.text)

/-- A fixed spelling is neither a name nor a numeral nor the end. -/
theorem fixedSpellings_kind : ∀ spelling ∈ fixedSpellings,
    spelling.2 ≠ .identifier ∧ spelling.2 ≠ .number ∧ spelling.2 ≠ .eof := by
  decide

theorem wellSpelled_terminal {source : List Char} {lexeme : Lexeme}
    (h : ofText? source = some lexeme) : lexeme.terminal.WellSpelled := by
  unfold ofText? at h
  split at h
  · cases h
  next c rest =>
    split at h
    next hstart =>
      obtain rfl := Option.some.inj h
      unfold terminal wordKind Terminal.ofKind
      cases hreserved : Keyword.ofWord? (String.ofList ((c :: rest).takeWhile isWordChar)) with
      | some keyword => exact nofun
      | none =>
          have hchar := isWordChar_of_isWordStart hstart
          refine ⟨⟨c, rest.takeWhile isWordChar, ?_, hstart⟩, ?_, hreserved⟩
          · rw [String.toList_ofList, List.takeWhile_cons_of_pos hchar]
          · rw [String.toList_ofList]
            exact List.all_eq_true.mp List.all_takeWhile
    next =>
      split at h
      next hdigit =>
        obtain rfl := Option.some.inj h
        refine ⟨?_, ?_⟩
        · rw [String.toList_ofList, List.takeWhile_cons_of_pos hdigit]
          exact List.cons_ne_nil _ _
        · rw [String.toList_ofList]
          exact List.all_eq_true.mp List.all_takeWhile
      next =>
        obtain ⟨spelling, hfind, rfl⟩ := Option.map_eq_some_iff.mp h
        have hkind := fixedSpellings_kind spelling (List.mem_of_find?_eq_some hfind)
        unfold terminal Terminal.ofKind
        split
        next heq => exact absurd heq hkind.1
        next heq => exact absurd heq hkind.2.1
        next => exact hkind.2.2

theorem isWordStart_iff_toNat {c : Char} : isWordStart c = true ↔
    (65 ≤ c.toNat ∧ c.toNat ≤ 90) ∨ (97 ≤ c.toNat ∧ c.toNat ≤ 122) ∨ c.toNat = 95 := by
  have hupper : c.isUpper = true ↔ 65 ≤ c.toNat ∧ c.toNat ≤ 90 := decide_eq_true_iff
  have hlower : c.isLower = true ↔ 97 ≤ c.toNat ∧ c.toNat ≤ 122 := by
    show (decide (97 ≤ c.toNat) && decide (c.toNat ≤ 122)) = true ↔ _
    rw [Bool.and_eq_true, decide_eq_true_iff, decide_eq_true_iff]
  have hunderscore : c = '_' ↔ c.toNat = 95 := Char.toNat_inj.symm
  show (c.isUpper || c.isLower || c == '_') = true ↔ _
  rw [Bool.or_eq_true, Bool.or_eq_true, hupper, hlower, beq_iff_eq, hunderscore, or_assoc]

theorem isWordChar_iff_toNat {c : Char} : isWordChar c = true ↔
    isWordStart c = true ∨ (48 ≤ c.toNat ∧ c.toNat ≤ 57) := by
  show (c.isAlpha || c.isDigit || c == '_') = true ↔ (c.isAlpha || c == '_') = true ∨ _
  rw [Bool.or_eq_true, Bool.or_eq_true, Bool.or_eq_true, Char.isDigit_iff_toNat, or_right_comm]
  rfl

/-- No word, no name and no numeral goes on with a blank. -/
theorem isBlank_eq_false_of_isWordChar {c : Char} (h : isWordChar c = true) :
    isBlank c = false := by
  rw [isWordChar_iff_toNat, isWordStart_iff_toNat] at h
  -- The blanks with codes below 128 are those from 9 to 13 and 32.
  simp only [isBlank, Bool.or_eq_false_iff, Bool.and_eq_false_iff, decide_eq_false_iff_not,
    beq_eq_false_iff_ne]
  omega

theorem isWordChar_of_isDigit {c : Char} (h : c.isDigit = true) : isWordChar c = true :=
  isWordChar_iff_toNat.mpr (.inr (Char.isDigit_iff_toNat.mp h))

theorem isWordStart_ne_true_of_isDigit {c : Char} (h : c.isDigit = true) :
    ¬ isWordStart c = true := by
  have hdigit : 48 ≤ c.toNat ∧ c.toNat ≤ 57 := Char.isDigit_iff_toNat.mp h
  rw [isWordStart_iff_toNat]
  omega

theorem fixedSpellings_isBlank : ∀ spelling ∈ fixedSpellings, ∀ c ∈ spelling.1,
    isBlank c = false := by
  have hall : fixedSpellings.all (fun spelling => spelling.1.all (!isBlank ·)) = true := rfl
  simpa only [List.all_eq_true, Bool.not_eq_true'] using hall

/-- No lexeme starts with a blank. -/
theorem isBlank_eq_false {c : Char} {rest : List Char} {lexeme : Lexeme}
    (h : ofText? (c :: rest) = some lexeme) : isBlank c = false := by
  unfold ofText? at h
  dsimp only at h
  split at h
  next hstart => exact isBlank_eq_false_of_isWordChar (isWordChar_of_isWordStart hstart)
  next =>
    split at h
    next hdigit => exact isBlank_eq_false_of_isWordChar (isWordChar_of_isDigit hdigit)
    next =>
      obtain ⟨spelling, hfind, rfl⟩ := Option.map_eq_some_iff.mp h
      have hmem := List.mem_of_find?_eq_some hfind
      have hfront := List.find?_some hfind
      obtain ⟨first, others, hspelling⟩ :=
        List.exists_cons_of_ne_nil (fixedSpellings_ne_nil spelling hmem)
      rw [List.isPrefixOf_iff_prefix, hspelling, List.cons_prefix_cons] at hfront
      -- The text starts with the first character of a spelling, and spellings have no blanks.
      rw [← hfront.1]
      exact fixedSpellings_isBlank spelling hmem first (by simp [hspelling])

end Lexeme

namespace Cursor

variable {cursor behind : Cursor} {token : Token}

theorem next?_eq_some_iff : cursor.next? = some (token, behind) ↔
    ∃ lexeme, Lexeme.ofText? cursor.rest = some lexeme ∧
      token = ⟨lexeme.kind, String.ofList lexeme.text, .ofNat cursor.offset,
        .ofNat (cursor.offset + byteLength lexeme.text)⟩ ∧
      behind = skipTrivia ⟨cursor.offset + byteLength lexeme.text, lexeme.rest⟩ := by
  unfold next?
  rw [Option.map_eq_some_iff]
  constructor
  · rintro ⟨lexeme, hlexeme, heq⟩
    obtain ⟨rfl, rfl⟩ := Prod.mk.inj heq
    exact ⟨lexeme, hlexeme, rfl, rfl⟩
  · rintro ⟨lexeme, hlexeme, rfl, rfl⟩
    exact ⟨lexeme, hlexeme, rfl⟩

theorem next?_eq_none_iff : cursor.next? = none ↔ Lexeme.ofText? cursor.rest = none :=
  Option.map_eq_none_iff

theorem terminal_of_next? (h : cursor.next? = some (token, behind)) :
    ∃ lexeme, Lexeme.ofText? cursor.rest = some lexeme ∧ token.terminal = lexeme.terminal ∧
      behind = skipTrivia ⟨cursor.offset + byteLength lexeme.text, lexeme.rest⟩ := by
  obtain ⟨lexeme, hlexeme, rfl, hbehind⟩ := next?_eq_some_iff.mp h
  exact ⟨lexeme, hlexeme, rfl, hbehind⟩

theorem tokensBehind_of_none (h : cursor.next? = none) (before : List Token) :
    cursor.tokensBehind before = (before.reverse, cursor) := by
  rw [tokensBehind]
  split
  next => rfl
  next heq => cases h.symm.trans heq

theorem tokensBehind_of_some (h : cursor.next? = some (token, behind)) (before : List Token) :
    cursor.tokensBehind before = behind.tokensBehind (token :: before) := by
  rw [tokensBehind]
  split
  next heq => cases h.symm.trans heq
  next heq =>
    cases h.symm.trans heq
    rfl

/-- Induction along the tokens that a cursor reads off. -/
theorem induct {P : Cursor → Prop} (none : ∀ cursor, cursor.next? = none → P cursor)
    (some : ∀ cursor token behind, cursor.next? = some (token, behind) → P behind → P cursor)
    (cursor : Cursor) : P cursor := by
  -- Every token shortens the rest of the text, which is what the induction is on.
  suffices ∀ bound (cursor : Cursor), cursor.rest.length < bound → P cursor from
    this _ cursor (Nat.lt_succ_self _)
  intro bound
  induction bound with
  | zero => exact fun _ h => absurd h (Nat.not_lt_zero _)
  | succ bound ih =>
      intro cursor hlt
      cases hnext : cursor.next? with
      | none => exact none cursor hnext
      | some result =>
          have hlength := rest_length_lt_of_next? hnext
          exact some cursor result.1 result.2 hnext (ih _ (by omega))

/-- The tokens collected before stand in front of the others. -/
theorem tokensBehind_eq (cursor : Cursor) (before : List Token) :
    cursor.tokensBehind before = (before.reverse ++ cursor.tokens.1, cursor.tokens.2) := by
  induction cursor using induct generalizing before with
  | none cursor hnext => simp [tokens, tokensBehind_of_none hnext]
  | some cursor token behind hnext ih =>
      rw [tokens, tokensBehind_of_some hnext before, tokensBehind_of_some hnext [], ih, ih]
      simp

theorem tokens_of_none (h : cursor.next? = none) :
    cursor.tokens = ([], cursor) :=
  tokensBehind_of_none h []

theorem tokens_of_some (h : cursor.next? = some (token, behind)) :
    cursor.tokens = (token :: behind.tokens.1, behind.tokens.2) := by
  rw [tokens, tokensBehind_of_some h, tokensBehind_eq]
  rfl

/-- Tokens that a cursor reads off are spelled as their kinds are. -/
theorem wellSpelled_of_mem_tokens :
    ∀ token ∈ cursor.tokens.1, token.terminal.WellSpelled := by
  induction cursor using induct with
  | none cursor hnext =>
      rw [tokens_of_none hnext]
      exact fun _ h => absurd h List.not_mem_nil
  | some cursor token behind hnext ih =>
      obtain ⟨lexeme, hlexeme, hterminal, -⟩ := terminal_of_next? hnext
      rw [tokens_of_some hnext, List.forall_mem_cons, hterminal]
      exact ⟨Lexeme.wellSpelled_terminal hlexeme, ih⟩

/-! ### What the grammar sees -/

/-- What the grammar sees of the tokens from a cursor on, and the text behind them. -/
def reading (cursor : Cursor) : List Terminal × List Char :=
  (cursor.tokens.1.map Token.terminal, cursor.tokens.2.rest)

theorem reading_of_none (h : cursor.next? = none) : cursor.reading = ([], cursor.rest) := by
  rw [reading, tokens_of_none h, List.map_nil]

theorem reading_of_some (h : cursor.next? = some (token, behind)) :
    cursor.reading = (token.terminal :: behind.reading.1, behind.reading.2) := by
  rw [reading, tokens_of_some h, List.map_cons]
  rfl

theorem skipTriviaFrom_rest_eq (inComment : Bool) (offset offset' : Nat) (text : List Char) :
    (skipTriviaFrom inComment offset text).rest = (skipTriviaFrom inComment offset' text).rest := by
  induction text generalizing inComment offset offset' with
  | nil => rfl
  | cons c text ih =>
      unfold skipTriviaFrom
      split
      · exact ih _ _ _
      · split
        · exact ih _ _ _
        · split
          · exact ih _ _ _
          · rfl

/-- The offset does not matter to the grammar. -/
theorem reading_congr {other : Cursor} (h : cursor.rest = other.rest) :
    cursor.reading = other.reading := by
  induction cursor using induct generalizing other with
  | none cursor hnext =>
      have hother : other.next? = none := by
        rw [next?_eq_none_iff] at hnext ⊢
        rwa [← h]
      rw [reading_of_none hnext, reading_of_none hother, h]
  | some cursor token behind hnext ih =>
      obtain ⟨lexeme, hlexeme, rfl, rfl⟩ := next?_eq_some_iff.mp hnext
      rw [h] at hlexeme
      have hother := next?_eq_some_iff.mpr ⟨lexeme, hlexeme, rfl, rfl⟩
      rw [reading_of_some hnext, reading_of_some hother, ih (skipTriviaFrom_rest_eq ..)]
      rfl

end Cursor

/-! ## Scanning -/

/-- The front of the text is made of blanks and of lexemes that the grammar sees as the terminals,
and the text goes on with `rest`.  Two slashes would be no lexemes but a comment. -/
inductive Scans : List Char → List Terminal → List Char → Prop where
  | nil (rest : List Char) : Scans rest [] rest
  | blank {c : Char} {text rest : List Char} {terminals : List Terminal}
      (hblank : isBlank c = true) (htext : Scans text terminals rest) :
      Scans (c :: text) terminals rest
  | lexeme {text rest : List Char} {lexeme : Lexeme} {terminals : List Terminal}
      (hlexeme : Lexeme.ofText? text = some lexeme)
      (hcomment : ¬ ['/', '/'] <+: text)
      (hrest : Scans lexeme.rest terminals rest) :
      Scans text (lexeme.terminal :: terminals) rest

namespace Scans

theorem trans {text mid rest : List Char} {first second : List Terminal}
    (h : Scans text first mid) (h' : Scans mid second rest) :
    Scans text (first ++ second) rest := by
  induction h with
  | nil => exact h'
  | blank hblank _ ih => exact .blank hblank (ih h')
  | lexeme hlexeme hcomment _ ih => exact .lexeme hlexeme hcomment (ih h')

/-! ### Single lexemes -/

/-- A word or a numeral in front of the text ends where the text starts. -/
def Separated (text : List Char) : Prop :=
  ∀ c ∈ text.head?, isWordChar c = false

theorem takeWhile_append {p : Char → Bool} {word rest : List Char} (hword : ∀ c ∈ word, p c = true)
    (hrest : ∀ c ∈ rest.head?, p c = false) : (word ++ rest).takeWhile p = word := by
  rw [List.takeWhile_append_of_pos hword]
  cases rest with
  | nil => rw [List.takeWhile_nil, List.append_nil]
  | cons c rest =>
      rw [List.takeWhile_cons_of_neg (by simp [hrest c rfl]), List.append_nil]

theorem dropWhile_append {p : Char → Bool} {word rest : List Char} (hword : ∀ c ∈ word, p c = true)
    (hrest : ∀ c ∈ rest.head?, p c = false) : (word ++ rest).dropWhile p = rest := by
  rw [List.dropWhile_append_of_pos hword]
  cases rest with
  | nil => rfl
  | cons c rest => rw [List.dropWhile_cons_of_neg (by simp [hrest c rfl])]

/-- A lexeme in front of the text, if it is no comment. -/
theorem single {text spelling rest : List Char} {kind : TokenKind} {terminal : Terminal}
    (hlexeme : Lexeme.ofText? text = some ⟨kind, spelling, rest⟩)
    (hterminal : .ofKind kind (String.ofList spelling) = terminal)
    (hcomment : ¬ ['/', '/'] <+: text) : Scans text [terminal] rest := by
  subst hterminal
  exact .lexeme hlexeme hcomment (.nil rest)

theorem not_comment_of_isWordChar {c : Char} {rest : List Char} (h : isWordChar c = true) :
    ¬ ['/', '/'] <+: c :: rest := by
  intro hprefix
  rw [List.cons_prefix_cons] at hprefix
  rw [← hprefix.1] at h
  exact absurd h (by decide)

/-- A word in front of the text: a name or a reserved word. -/
theorem word {word : String} {rest : List Char}
    (hstart : ∃ first others, word.toList = first :: others ∧ isWordStart first = true)
    (hchar : ∀ c ∈ word.toList, isWordChar c = true) (hrest : Separated rest) :
    Scans (word.toList ++ rest) [.ofKind (wordKind word) word] rest := by
  obtain ⟨first, others, hword, hfirst⟩ := hstart
  have hlexeme : Lexeme.ofText? (word.toList ++ rest) =
      some ⟨wordKind word, word.toList, rest⟩ := by
    have htake := takeWhile_append hchar hrest
    have hdrop := dropWhile_append hchar hrest
    rw [hword, List.cons_append] at htake hdrop ⊢
    rw [Lexeme.ofText?, if_pos hfirst, htake, hdrop, ← hword]
    simp only [String.ofList_toList]
  refine single hlexeme (by rw [String.ofList_toList]) ?_
  rw [hword, List.cons_append]
  exact not_comment_of_isWordChar (Lexeme.isWordChar_of_isWordStart hfirst)

theorem name {name : String} {rest : List Char} (hname : IsName name) (hrest : Separated rest) :
    Scans (name.toList ++ rest) [.name name] rest := by
  have hword := word hname.isWordStart hname.isWordChar hrest
  rwa [wordKind, hname.not_reserved] at hword

theorem keyword (keyword : Keyword) {rest : List Char} (hrest : Separated rest) :
    Scans (keyword.word.toList ++ rest) [.fixed (.keyword keyword)] rest := by
  have hword := word keyword.isWordStart_word keyword.isWordChar_word hrest
  rwa [keyword.wordKind_word] at hword

theorem numeral {digits : String} {rest : List Char} (hne : digits.toList ≠ [])
    (hdigits : ∀ c ∈ digits.toList, c.isDigit = true) (hrest : Separated rest) :
    Scans (digits.toList ++ rest) [.numeral digits] rest := by
  obtain ⟨first, others, hfirst⟩ := List.exists_cons_of_ne_nil hne
  have hdigit : first.isDigit = true := hdigits first (by simp [hfirst])
  -- A numeral ends where a word would, because a digit goes on with a word.
  have hstop : ∀ c ∈ rest.head?, c.isDigit = false := by
    intro c hmem
    rw [← Bool.not_eq_true]
    intro hdigit
    exact Bool.false_ne_true ((hrest c hmem).symm.trans (Lexeme.isWordChar_of_isDigit hdigit))
  have hlexeme : Lexeme.ofText? (digits.toList ++ rest) = some ⟨.number, digits.toList, rest⟩ := by
    have htake := takeWhile_append hdigits hstop
    have hdrop := dropWhile_append hdigits hstop
    rw [hfirst, List.cons_append] at htake hdrop ⊢
    rw [Lexeme.ofText?, if_neg (Lexeme.isWordStart_ne_true_of_isDigit hdigit), if_pos hdigit,
      htake, hdrop]
  refine single hlexeme (by rw [String.ofList_toList]; rfl) ?_
  rw [hfirst, List.cons_append]
  exact not_comment_of_isWordChar (Lexeme.isWordChar_of_isDigit hdigit)

/-- An operator with a blank behind it. -/
theorem operator (op : Operator) (rest : List Char) :
    Scans (op.symbol.toList ++ ' ' :: rest) [.fixed (.operator op)] (' ' :: rest) := by
  have hlexeme : Lexeme.ofText? (op.symbol.toList ++ ' ' :: rest) =
      some ⟨.operator op, op.symbol.toList, ' ' :: rest⟩ := by
    cases op <;> rfl
  exact single hlexeme rfl (by cases op <;> simp [Operator.symbol])

theorem spaces (n : Nat) (rest : List Char) : Scans (List.replicate n ' ' ++ rest) [] rest := by
  induction n with
  | zero => exact .nil rest
  | succ n ih =>
      rw [List.replicate_succ, List.cons_append]
      exact .blank (by decide) ih

/-! ### Whole texts -/

/-- Nothing is skipped where a lexeme starts. -/
theorem skipTrivia_of_ofText? {offset : Nat} {text : List Char} {lexeme : Lexeme}
    (hlexeme : Lexeme.ofText? text = some lexeme) (hcomment : ¬ ['/', '/'] <+: text) :
    Cursor.skipTrivia ⟨offset, text⟩ = ⟨offset, text⟩ := by
  cases text with
  | nil => rfl
  | cons c rest =>
      have hblank : isBlank c = false := Lexeme.isBlank_eq_false hlexeme
      have hslashes : (c == '/' && rest.head? == some '/') = false := by
        rw [← Bool.not_eq_true, Bool.and_eq_true]
        rintro ⟨hfirst, hsecond⟩
        rw [beq_iff_eq] at hfirst hsecond
        obtain ⟨tail, rfl⟩ := List.head?_eq_some_iff.mp hsecond
        exact hcomment ⟨tail, by rw [hfirst]; rfl⟩
      simp [Cursor.skipTrivia, Cursor.skipTriviaFrom, hblank, hslashes]

/-- What a text scans to is read off first, and then what it goes on with. -/
theorem reading {text rest : List Char} {terminals : List Terminal}
    (h : Scans text terminals rest) (offset offset' : Nat) :
    (Cursor.skipTrivia ⟨offset, text⟩).reading =
      (terminals ++ (Cursor.skipTrivia ⟨offset', rest⟩).reading.1,
        (Cursor.skipTrivia ⟨offset', rest⟩).reading.2) := by
  induction h generalizing offset with
  | nil rest => exact Cursor.reading_congr (Cursor.skipTriviaFrom_rest_eq false offset offset' rest)
  | @blank c text rest terminals hblank _ ih =>
      have hskip : Cursor.skipTrivia ⟨offset, c :: text⟩ =
          Cursor.skipTrivia ⟨offset + c.utf8Size, text⟩ := by
        simp [Cursor.skipTrivia, Cursor.skipTriviaFrom, hblank]
      rw [hskip]
      exact ih _
  | @lexeme text rest lexeme terminals hlexeme hcomment _ ih =>
      rw [skipTrivia_of_ofText? hlexeme hcomment,
        Cursor.reading_of_some (Cursor.next?_eq_some_iff.mpr ⟨lexeme, hlexeme, rfl, rfl⟩), ih]
      rfl

/-- A text that scans to its end is read off to its end. -/
theorem reading_of_end {text : List Char} {terminals : List Terminal}
    (h : Scans text terminals []) (offset : Nat) :
    (Cursor.skipTrivia ⟨offset, text⟩).reading = (terminals, []) := by
  have hend : (Cursor.skipTrivia ⟨0, []⟩).reading = ([], []) := Cursor.reading_of_none rfl
  rw [h.reading offset 0, hend, List.append_nil]

end Scans

end IntScript
