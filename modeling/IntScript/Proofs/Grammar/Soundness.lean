import IntScript.Grammar
import IntScript.Proofs.Grammar.Follow

/-!
# What is read has a derivation

When a reader of the grammar succeeds, the tokens it consumed have a derivation, and its value is
the tree of that derivation.  Of a line, moreover, every `else` belongs to the nearest conditional:
the reader of a conditional takes the `else` that follows as soon as it may, so that a line which
ends in a conditional without one is never followed by an `else`.

`Spends tokens spent left` accounts for the tokens between two states of a reader.  The proofs
follow the readers: each step of a reader spends some terminals, and these add up to those of the
derivation (`Spends.trans`).
-/

namespace IntScript

open Grammar

/-- A numeral is a run of digits, and its number is not too large. -/
def Terminal.Fits : Terminal → Prop
  | numeral digits =>
    digits.toList ≠ [] ∧ (∀ c ∈ digits.toList, c.isDigit = true) ∧
      decimalValue digits ≤ largestNumeral
  | fixed _ | name _ => True

/-- Whether tokens of a kind have one spelling, so that the grammar sees nothing but the kind. -/
def TokenKind.isFixed : TokenKind → Bool
  | eof | number | identifier => false
  | _ => true

theorem Token.terminal_of_isFixed {token : Token} (h : token.kind.isFixed = true) :
    token.terminal = .fixed token.kind := by
  unfold Token.terminal Terminal.ofKind
  split
  next heq => simp [heq, TokenKind.isFixed] at h
  next heq => simp [heq, TokenKind.isFixed] at h
  next => rfl

theorem Token.terminal_eq_fixed_iff {token : Token} {kind : TokenKind}
    (h : kind.isFixed = true) : token.terminal = .fixed kind ↔ token.kind = kind := by
  constructor
  · intro heq
    rw [← token.kind_terminal, heq]
    rfl
  · rintro rfl
    exact Token.terminal_of_isFixed h

theorem Token.terminal_of_identifier {token : Token} (h : token.kind = .identifier) :
    token.terminal = .name token.text := by
  rw [Token.terminal, h, Terminal.ofKind]

theorem Token.terminal_of_number {token : Token} (h : token.kind = .number) :
    token.terminal = .numeral token.text := by
  rw [Token.terminal, h, Terminal.ofKind]

theorem Token.text_of_terminal_eq_name {token : Token} {text : String}
    (h : token.terminal = .name text) : token.text = text := by
  have hkind : token.kind = .identifier := by rw [← token.kind_terminal, h]; rfl
  rw [Token.terminal_of_identifier hkind] at h
  exact Terminal.name.inj h

theorem Token.text_of_terminal_eq_numeral {token : Token} {digits : String}
    (h : token.terminal = .numeral digits) : token.text = digits := by
  have hkind : token.kind = .number := by rw [← token.kind_terminal, h]; rfl
  rw [Token.terminal_of_number hkind] at h
  exact Terminal.numeral.inj h

/-- A text is read as a numeral exactly if it fits, and its value is its number. -/
theorem numeral?_eq_some_iff {text : String} {value : Int64} :
    Text.numeral? text = some value ↔
      (Terminal.numeral text).Fits ∧ value = .ofNat (decimalValue text) := by
  have hbound : Text.numeralBound = largestNumeral + 1 := rfl
  simp only [Text.numeral?, Terminal.Fits, decimalValue, Bool.and_eq_true,
    Bool.not_eq_eq_eq_not, Bool.not_true, List.isEmpty_eq_false_iff, List.all_eq_true]
  by_cases hdigits : text.toList ≠ [] ∧ ∀ c ∈ text.toList, c.isDigit = true
  · rw [if_pos hdigits]
    by_cases hlt : Nat.ofDigitChars 10 text.toList 0 < Text.numeralBound
    · rw [if_pos hlt, Option.some.injEq]
      exact ⟨fun h => ⟨⟨hdigits.1, hdigits.2, by omega⟩, h.symm⟩, fun h => h.2.symm⟩
    · rw [if_neg hlt]
      simp only [reduceCtorEq, false_iff, not_and]
      omega
  · rw [if_neg hdigits]
    simp only [reduceCtorEq, false_iff, not_and]
    exact fun h => absurd ⟨h.1, h.2.1⟩ hdigits

namespace Tokens

/-- What the grammar sees of the tokens that are left. -/
def terminals (tokens : Tokens) : List Terminal :=
  tokens.pending.map Token.terminal

end Tokens

namespace Reader

variable {α β δ : Type} {tokens left : Tokens}

/-! ## Accounting for tokens -/

/-- Between the two states a reader consumes the terminals `spent`. -/
structure Spends (tokens : Tokens) (spent : List Terminal) (left : Tokens) : Prop where
  terminals_eq : tokens.terminals = spent ++ left.terminals
  fits : ∀ terminal ∈ spent, terminal.Fits
  stop_eq : left.stop = tokens.stop

namespace Spends

theorem refl (tokens : Tokens) : Spends tokens [] tokens :=
  ⟨rfl, by simp, rfl⟩

theorem trans {mid : Tokens} {first second : List Terminal} (h : Spends tokens first mid)
    (h' : Spends mid second left) : Spends tokens (first ++ second) left where
  terminals_eq := by rw [h.terminals_eq, h'.terminals_eq, List.append_assoc]
  fits := List.forall_mem_append.mpr ⟨h.fits, h'.fits⟩
  stop_eq := h'.stop_eq.trans h.stop_eq

end Spends

/-- What the reader consumes has a derivation, and its value is the tree of that derivation. -/
def SoundFor (reader : Reader α) (tree : δ → α) (terminals : δ → List Terminal) : Prop :=
  ∀ ⦃tokens value left⦄, reader tokens = .ok value left →
    ∃ derivation, tree derivation = value ∧ Spends tokens (terminals derivation) left

/-- A sequence of readers succeeds only if both do. -/
theorem exists_of_bind {reader : Reader α} {next : α → Reader β} {value : β}
    (h : (reader >>= next) tokens = .ok value left) :
    ∃ first mid, reader tokens = .ok first mid ∧ next first mid = .ok value left := by
  simp only [Bind.bind, EStateM.bind] at h
  split at h
  next first mid heq => exact ⟨first, mid, heq, h⟩
  next => simp at h

theorem eq_of_pure {value result : α} (h : (Pure.pure value : Reader α) tokens = .ok result left) :
    value = result ∧ tokens = left := by
  simpa [Pure.pure, EStateM.pure] using h

theorem current_of_bind {next : Token → Reader β} {value : β}
    (h : (current >>= next) tokens = .ok value left) :
    ∃ token, tokens.current = .ok token ∧ next token tokens = .ok value left := by
  simp only [Bind.bind, EStateM.bind, Reader.current] at h
  cases hcurrent : tokens.current with
  | ok token => exact ⟨token, rfl, by simpa [hcurrent] using h⟩
  | error error => simp [hcurrent] at h

theorem current_of_currentKind_bind {next : TokenKind → Reader β} {value : β}
    (h : (currentKind >>= next) tokens = .ok value left) :
    ∃ token, tokens.current = .ok token ∧ next token.kind tokens = .ok value left := by
  simp only [Bind.bind, EStateM.bind, currentKind, Reader.current] at h
  cases hcurrent : tokens.current with
  | ok token => exact ⟨token, rfl, by simpa [hcurrent, Pure.pure, EStateM.pure] using h⟩
  | error error => simp [hcurrent] at h

/-- The first token is the end of the source, or the first of those that are left. -/
theorem pending_of_current {token : Token} (h : tokens.current = .ok token) :
    (tokens.pending = [] ∧ token.kind = .eof) ∨ tokens.pending = token :: tokens.rest.pending := by
  unfold Tokens.current at h
  cases hpending : tokens.pending with
  | nil =>
      simp only [hpending, Cursor.stopped] at h
      split at h
      · obtain rfl := Except.ok.inj h
        exact .inl ⟨rfl, rfl⟩
      · cases h
  | cons first others =>
      simp only [hpending, Except.ok.injEq] at h
      right
      rw [Tokens.rest, hpending, h, List.tail_cons]

theorem terminals_of_current {token : Token} (h : tokens.current = .ok token)
    (hkind : token.kind ≠ .eof) : tokens.terminals = token.terminal :: tokens.rest.terminals := by
  rcases pending_of_current h with ⟨-, heof⟩ | hpending
  · exact absurd heof hkind
  · rw [Tokens.terminals, hpending, List.map_cons]
    rfl

theorem spends_rest {token : Token} (h : tokens.current = .ok token) (hkind : token.kind ≠ .eof)
    (hfits : token.terminal.Fits) : Spends tokens [token.terminal] tokens.rest :=
  ⟨terminals_of_current h hkind, by simpa using hfits, rfl⟩

/-- The first token is of a kind with one spelling. -/
theorem spends_rest_of_isFixed {kind : TokenKind} {token : Token} (h : tokens.current = .ok token)
    (hkind : token.kind = kind) (hfixed : kind.isFixed = true) :
    Spends tokens [.fixed kind] tokens.rest := by
  subst hkind
  rw [← Token.terminal_of_isFixed hfixed]
  refine spends_rest h ?_ ?_
  · rintro heq
    simp [heq, TokenKind.isFixed] at hfixed
  · rw [Token.terminal_of_isFixed hfixed]
    trivial

theorem spends_rest_of_identifier {token : Token} (h : tokens.current = .ok token)
    (hkind : token.kind = .identifier) : Spends tokens [.name token.text] tokens.rest := by
  rw [← Token.terminal_of_identifier hkind]
  refine spends_rest h (by simp [hkind]) ?_
  rw [Token.terminal_of_identifier hkind]
  trivial

/-- A reader that consumes the first token and goes on. -/
theorem of_advance_bind {token : Token} {next : Token → Reader β} {value : β}
    (hcurrent : tokens.current = .ok token) (h : (advance >>= next) tokens = .ok value left) :
    next token tokens.rest = .ok value left := by
  simpa [Bind.bind, EStateM.bind, advance, hcurrent] using h

theorem current_of_expect_bind {kind : TokenKind} {next : Token → Reader β} {value : β}
    (h : (expect kind >>= next) tokens = .ok value left) :
    ∃ token, tokens.current = .ok token ∧ token.kind = kind ∧
      next token tokens.rest = .ok value left := by
  obtain ⟨token, mid, hexpect, hnext⟩ := exists_of_bind h
  obtain ⟨first, hcurrent, hfirst⟩ := current_of_bind hexpect
  split at hfirst
  next hkind =>
    simp only [advance, hcurrent, EStateM.Result.ok.injEq] at hfirst
    obtain ⟨rfl, rfl⟩ := hfirst
    exact ⟨first, hcurrent, hkind, hnext⟩
  next => simp [failAt] at hfirst

/-- An expectation makes a difference to faults only. -/
theorem expect_bind_of_expectFor_bind {kind : TokenKind} {expectation : String}
    {next : Token → Reader β} {value : β}
    (h : (expectFor kind expectation >>= next) tokens = .ok value left) :
    (expect kind >>= next) tokens = .ok value left := by
  obtain ⟨token, mid, hexpectFor, hnext⟩ := exists_of_bind h
  have hexpect : expect kind tokens = .ok token mid := by
    obtain ⟨first, hcurrent, hfirst⟩ := current_of_bind hexpectFor
    split at hfirst
    next hkind =>
      simpa [expect, Bind.bind, EStateM.bind, Reader.current, hcurrent, hkind] using hfirst
    next => simp [failAt] at hfirst
  simpa only [Bind.bind, EStateM.bind, hexpect] using hnext

/-- A bracket, a sign or a word is consumed, whatever the fault would be. -/
theorem spends_of_expect_bind {kind : TokenKind} {next : Token → Reader β} {value : β}
    (h : (expect kind >>= next) tokens = .ok value left) (hfixed : kind.isFixed = true) :
    ∃ token mid, Spends tokens [.fixed kind] mid ∧ next token mid = .ok value left := by
  obtain ⟨token, hcurrent, hkind, hnext⟩ := current_of_expect_bind h
  exact ⟨token, _, spends_rest_of_isFixed hcurrent hkind hfixed, hnext⟩

theorem spends_of_expectFor_bind {kind : TokenKind} {expectation : String}
    {next : Token → Reader β} {value : β}
    (h : (expectFor kind expectation >>= next) tokens = .ok value left)
    (hfixed : kind.isFixed = true) :
    ∃ token mid, Spends tokens [.fixed kind] mid ∧ next token mid = .ok value left :=
  spends_of_expect_bind (expect_bind_of_expectFor_bind h) hfixed

/-- A name is consumed. -/
theorem spends_of_expect_name_bind {next : Token → Reader β} {value : β}
    (h : (expect .identifier >>= next) tokens = .ok value left) :
    ∃ token mid, Spends tokens [.name token.text] mid ∧ next token mid = .ok value left := by
  obtain ⟨token, hcurrent, hkind, hnext⟩ := current_of_expect_bind h
  exact ⟨token, _, spends_rest_of_identifier hcurrent hkind, hnext⟩

theorem spends_of_expectFor_name_bind {expectation : String} {next : Token → Reader β} {value : β}
    (h : (expectFor .identifier expectation >>= next) tokens = .ok value left) :
    ∃ token mid, Spends tokens [.name token.text] mid ∧ next token mid = .ok value left :=
  spends_of_expect_name_bind (expect_bind_of_expectFor_bind h)

/-! ## Repetition -/

/-- One or more items with commas between them. -/
theorem exists_of_commaSeparated {item : Reader α} {tree : δ → α} {terminals : δ → List Terminal}
    (hitem : SoundFor item tree terminals) :
    ∀ {fuel : Nat} {tokens : Tokens} {values : List α},
      Reader.commaSeparated item fuel tokens = .ok values left →
      ∃ first others, (first :: others).map tree = values ∧
        Spends tokens (Grammar.commaSeparated ((first :: others).map terminals)) left := by
  intro fuel
  induction fuel with
  | zero => intro tokens values h; simp [Reader.commaSeparated, outOfFuel] at h
  | succ fuel ih =>
      intro tokens values h
      obtain ⟨_, mid, hfirst, hmore⟩ := exists_of_bind h
      obtain ⟨first, rfl, hspends⟩ := hitem hfirst
      obtain ⟨token, hcurrent, hdecide⟩ := current_of_currentKind_bind hmore
      split at hdecide
      next hcomma =>
        obtain ⟨_, _, hothers, hpure⟩ := exists_of_bind (of_advance_bind hcurrent hdecide)
        obtain ⟨rfl, rfl⟩ := eq_of_pure hpure
        -- Behind a comma there is at least one more item, so that no comma comes last.
        obtain ⟨next, others, rfl, hspends'⟩ := ih hothers
        exact ⟨first, next :: others, rfl,
          hspends.trans ((spends_rest_of_isFixed hcurrent hcomma rfl).trans hspends')⟩
      next =>
        obtain ⟨rfl, rfl⟩ := eq_of_pure hdecide
        exact ⟨first, [], rfl, hspends⟩

/-- Items with commas between them, or none. -/
theorem soundFor_listUntil {item : Reader α} {tree : δ → α} {terminals : δ → List Terminal}
    (hitem : SoundFor item tree terminals) (close : TokenKind) (fuel : Nat) :
    SoundFor (Reader.listUntil close item fuel) (List.map tree)
      (fun derivations => Grammar.commaSeparated (derivations.map terminals)) := by
  intro tokens values left h
  obtain ⟨token, _, hdecide⟩ := current_of_currentKind_bind h
  split at hdecide
  next =>
    obtain ⟨rfl, rfl⟩ := eq_of_pure hdecide
    exact ⟨[], rfl, .refl _⟩
  next =>
    obtain ⟨first, others, htree, hspends⟩ := exists_of_commaSeparated hitem hdecide
    exact ⟨first :: others, htree, hspends⟩

/-! ## Expressions -/

theorem soundFor_operators {layer : Precedence} {operand : Reader Expr}
    (hoperand : SoundFor operand Phrase.tree (@Phrase.terminals layer.next)) :
    ∀ {fuel : Nat} {first : Expr},
      SoundFor (Reader.operators layer operand fuel first) (Operands.fold first)
        (@Operands.terminals layer) := by
  intro fuel
  induction fuel with
  | zero => intro first tokens value left h; simp [Reader.operators, outOfFuel] at h
  | succ fuel ih =>
      intro first tokens value left h
      rw [Reader.operators] at h
      obtain ⟨token, hcurrent, hdecide⟩ := current_of_currentKind_bind h
      cases hop : token.kind with
      | operator op =>
          simp only [hop] at hdecide
          split at hdecide
          next hlayer =>
            obtain ⟨_, mid, hright, hmore⟩ := exists_of_bind (of_advance_bind hcurrent hdecide)
            obtain ⟨right, rfl, hspends⟩ := hoperand hright
            obtain ⟨others, rfl, hspends'⟩ := ih hmore
            exact ⟨.cons op hlayer right others, rfl,
              (spends_rest_of_isFixed hcurrent hop rfl).trans (hspends.trans hspends')⟩
          next =>
            obtain ⟨rfl, rfl⟩ := eq_of_pure hdecide
            exact ⟨.nil, rfl, .refl _⟩
      | _ =>
          simp only [hop] at hdecide
          obtain ⟨rfl, rfl⟩ := eq_of_pure hdecide
          exact ⟨.nil, rfl, .refl _⟩

section

variable {expression : Reader Expr}
  (hexpression : SoundFor expression Phrase.tree (@Phrase.terminals .relational))

include hexpression

theorem soundFor_grouping {token : Token} {value : Expr} (hcurrent : tokens.current = .ok token)
    (hkind : token.kind = .openParen) (h : grouping expression tokens = .ok value left) :
    ∃ phrase : Phrase .primary, phrase.tree = value ∧ Spends tokens phrase.terminals left := by
  obtain ⟨_, mid, hinner, hmore⟩ := exists_of_bind (of_advance_bind hcurrent h)
  obtain ⟨inner, rfl, hspends⟩ := hexpression hinner
  obtain ⟨_, _, hclose, hpure⟩ := spends_of_expect_bind hmore rfl
  obtain ⟨rfl, rfl⟩ := eq_of_pure hpure
  exact ⟨.group inner, rfl,
    (spends_rest_of_isFixed hcurrent hkind rfl).trans (hspends.trans hclose)⟩

theorem soundFor_labelled :
    SoundFor (labelled expression) (fun argument => (argument.1, argument.2.tree))
      (fun argument : String × Phrase .relational =>
        .name argument.1 :: .fixed .assignment :: argument.2.terminals) := by
  intro tokens value left h
  obtain ⟨label, _, hlabel, h₁⟩ := spends_of_expectFor_name_bind h
  obtain ⟨_, _, hsign, h₂⟩ := spends_of_expect_bind h₁ rfl
  obtain ⟨_, _, hargument, hpure⟩ := exists_of_bind h₂
  obtain ⟨argument, rfl, hspends⟩ := hexpression hargument
  obtain ⟨rfl, rfl⟩ := eq_of_pure hpure
  exact ⟨(label.text, argument), rfl, hlabel.trans (hsign.trans hspends)⟩

theorem soundFor_named {fuel : Nat} {value : Expr}
    (h : named expression fuel tokens = .ok value left) :
    ∃ phrase : Phrase .primary, phrase.tree = value ∧ Spends tokens phrase.terminals left := by
  obtain ⟨name, mid, hname, h₁⟩ := spends_of_expect_name_bind h
  obtain ⟨token, hcurrent, hdecide⟩ := current_of_currentKind_bind h₁
  cases hkind : token.kind with
  | openParen =>
      simp only [hkind] at hdecide
      obtain ⟨_, _, hopen, h₂⟩ := spends_of_expect_bind hdecide rfl
      obtain ⟨_, _, hlist, h₃⟩ := exists_of_bind h₂
      obtain ⟨arguments, rfl, hspends⟩ := soundFor_listUntil hexpression .closeParen fuel hlist
      obtain ⟨_, _, hclose, hpure⟩ := spends_of_expectFor_bind h₃ rfl
      obtain ⟨rfl, rfl⟩ := eq_of_pure hpure
      refine ⟨.call name.text arguments, ?_, ?_⟩
      · rw [Phrase.tree, argumentTrees_eq_map]
      · rw [Phrase.terminals, argumentTerminals_eq_map]
        exact hname.trans (hopen.trans (hspends.trans hclose))
  | openBracket =>
      simp only [hkind] at hdecide
      obtain ⟨_, _, hopen, h₂⟩ := spends_of_expect_bind hdecide rfl
      obtain ⟨_, _, hlist, h₃⟩ := exists_of_bind h₂
      obtain ⟨arguments, rfl, hspends⟩ :=
        soundFor_listUntil (soundFor_labelled hexpression) .closeBracket fuel hlist
      obtain ⟨_, _, hclose, hpure⟩ := spends_of_expectFor_bind h₃ rfl
      obtain ⟨rfl, rfl⟩ := eq_of_pure hpure
      refine ⟨.labelledCall name.text arguments, ?_, ?_⟩
      · rw [Phrase.tree, labelledTrees_eq_map]
      · rw [Phrase.terminals, labelledTerminals_eq_map]
        exact hname.trans (hopen.trans (hspends.trans hclose))
  | _ =>
      simp only [hkind] at hdecide
      obtain ⟨rfl, rfl⟩ := eq_of_pure hdecide
      exact ⟨.name name.text, rfl, hname⟩

theorem soundFor_primary (fuel : Nat) :
    SoundFor (primary expression fuel) Phrase.tree (@Phrase.terminals .primary) := by
  intro tokens value left h
  obtain ⟨token, hcurrent, hdecide⟩ := current_of_currentKind_bind h
  cases hkind : token.kind with
  | openParen =>
      simp only [hkind] at hdecide
      exact soundFor_grouping hexpression hcurrent hkind hdecide
  | number =>
      simp only [hkind] at hdecide
      have hvalue := of_advance_bind hcurrent hdecide
      cases hnumeral : Text.numeral? token.text with
      | none => simp [hnumeral, failAt] at hvalue
      | some number =>
          simp only [hnumeral] at hvalue
          obtain ⟨rfl, rfl⟩ := eq_of_pure hvalue
          obtain ⟨hfits, rfl⟩ := numeral?_eq_some_iff.mp hnumeral
          -- The derivation keeps the digits, so that leading zeros are not lost.
          refine ⟨.number token.text, rfl, ?_⟩
          rw [← Token.terminal_of_number hkind] at hfits
          have hspends := spends_rest hcurrent (by simp [hkind]) hfits
          rwa [Token.terminal_of_number hkind] at hspends
  | identifier =>
      simp only [hkind] at hdecide
      exact soundFor_named hexpression hdecide
  | _ =>
      simp only [hkind] at hdecide
      obtain ⟨_, _, hfail⟩ := current_of_bind hdecide
      simp [failAt] at hfail

end

theorem soundFor_expressionOf : ∀ (fuel : Nat) (layer : Precedence),
    SoundFor (Reader.expressionOf layer fuel) Phrase.tree (@Phrase.terminals layer) := by
  intro fuel
  induction fuel with
  | zero => intro layer tokens value left h; simp [Reader.expressionOf, outOfFuel] at h
  | succ fuel ih =>
      intro layer tokens value left h
      by_cases hlayer : layer = .primary
      · subst hlayer
        rw [Reader.expressionOf] at h
        exact soundFor_primary (ih .relational) fuel h
      · rw [Reader.expressionOf] at h
        · obtain ⟨_, mid, hfirst, hmore⟩ := exists_of_bind h
          obtain ⟨first, rfl, hspends⟩ := ih layer.next hfirst
          obtain ⟨others, rfl, hspends'⟩ := soundFor_operators (ih layer.next) hmore
          exact ⟨.chain hlayer first others, rfl, hspends.trans hspends'⟩
        · exact hlayer

/-! ## Lines -/

/-- What a reader of lines consumes has a derivation, in which every `else` belongs to the nearest
conditional, also if an `else` follows. -/
def SoundForLines (reader : Reader Expr) : Prop :=
  ∀ ⦃tokens value left⦄, reader tokens = .ok value left →
    ∃ line : Line, line.tree = value ∧ Spends tokens line.terminals left ∧ line.AttachesNearest ∧
      line.Ends left.terminals

/-- The next terminal is an `else` exactly if the next token is. -/
theorem head?_terminals_eq_else_iff {token : Token} (h : tokens.current = .ok token) :
    tokens.terminals.head? = some (.fixed (.keyword .«else»)) ↔
      token.kind = .keyword .«else» := by
  rcases pending_of_current h with ⟨hpending, heof⟩ | hpending
  · simp [Tokens.terminals, hpending, heof]
  · rw [Tokens.terminals, hpending, List.map_cons, List.head?_cons, Option.some.injEq]
    exact Token.terminal_eq_fixed_iff rfl

/-- The token that introduces a form of line. -/
def LineForm.kind : LineForm → TokenKind
  | println => .keyword .println
  | loop => .keyword .«while»
  | conditional => .keyword .«if»
  | counted => .keyword .«for»
  | block => .openCurly

theorem LineForm.ofKind?_eq_some_iff {kind : TokenKind} {form : LineForm} :
    LineForm.ofKind? kind = some form ↔ kind = form.kind := by
  constructor
  · intro h
    unfold LineForm.ofKind? at h
    split at h <;> cases h <;> rfl
  · rintro rfl
    cases form <;> rfl

/-- Looking ahead consumes nothing. -/
theorem eq_of_startsAssignment {starts : Bool} (h : startsAssignment tokens = .ok starts left) :
    left = tokens := by
  simp only [startsAssignment, lookahead] at h
  split at h
  · exact (EStateM.Result.ok.inj h).2.symm
  · simp at h

section

variable {line : Reader Expr} (hline : SoundForLines line)

include hline

/-- Lines up to a closing brace. -/
theorem exists_of_blockLines : ∀ {fuel : Nat} {tokens : Tokens} {values : List Expr},
    blockLines line fuel tokens = .ok values left →
    ∃ lines, lines.map Line.tree = values ∧ Spends tokens (Line.allTerminals lines) left ∧
      Line.AllAttachNearest lines := by
  intro fuel
  induction fuel with
  | zero => intro tokens values h; simp [blockLines, outOfFuel] at h
  | succ fuel ih =>
      intro tokens values h
      rw [blockLines] at h
      obtain ⟨token, _, hdecide⟩ := current_of_currentKind_bind h
      cases hkind : token.kind with
      | closeCurly =>
          simp only [hkind] at hdecide
          obtain ⟨rfl, rfl⟩ := eq_of_pure hdecide
          exact ⟨[], rfl, .refl _, trivial⟩
      | eof =>
          simp only [hkind] at hdecide
          obtain ⟨_, _, hfail⟩ := current_of_bind hdecide
          simp [failAt] at hfail
      | _ =>
          simp only [hkind] at hdecide
          obtain ⟨_, _, hfirst, h₁⟩ := exists_of_bind hdecide
          obtain ⟨first, rfl, hspends, hnearest, -⟩ := hline hfirst
          obtain ⟨_, _, hothers, hpure⟩ := exists_of_bind h₁
          obtain ⟨rfl, rfl⟩ := eq_of_pure hpure
          obtain ⟨others, rfl, hspends', hnearest'⟩ := ih hothers
          exact ⟨first :: others, rfl, hspends.trans hspends', hnearest, hnearest'⟩

theorem exists_of_blockLine {fuel : Nat} {value : Expr}
    (h : blockLine line fuel tokens = .ok value left) :
    ∃ lines, .block (lines.map Line.tree) = value ∧
      Spends tokens (.fixed .openCurly :: (Line.allTerminals lines ++ [.fixed .closeCurly])) left ∧
      Line.AllAttachNearest lines := by
  obtain ⟨_, _, hopen, h₁⟩ := spends_of_expect_bind h rfl
  obtain ⟨_, _, hbody, h₂⟩ := exists_of_bind h₁
  obtain ⟨lines, rfl, hspends, hnearest⟩ := exists_of_blockLines hline hbody
  obtain ⟨_, _, hclose, hpure⟩ := spends_of_expect_bind h₂ rfl
  obtain ⟨rfl, rfl⟩ := eq_of_pure hpure
  exact ⟨lines, rfl, hopen.trans (hspends.trans hclose), hnearest⟩

end

section

variable {expression line : Reader Expr}
  (hexpression : SoundFor expression Phrase.tree (@Phrase.terminals .relational))

include hexpression

/-- What stands between brackets behind a word. -/
theorem soundFor_condition : SoundFor (condition expression) Phrase.tree
    (fun phrase : Phrase .relational =>
      .fixed .openParen :: (phrase.terminals ++ [.fixed .closeParen])) := by
  intro tokens value left h
  obtain ⟨_, _, hopen, h₁⟩ := spends_of_expect_bind h rfl
  obtain ⟨_, _, hinner, h₂⟩ := exists_of_bind h₁
  obtain ⟨inner, rfl, hspends⟩ := hexpression hinner
  obtain ⟨_, _, hclose, hpure⟩ := spends_of_expect_bind h₂ rfl
  obtain ⟨rfl, rfl⟩ := eq_of_pure hpure
  exact ⟨inner, rfl, hopen.trans (hspends.trans hclose)⟩

theorem sound_expressionLine : SoundForLines (expressionLine expression) := by
  intro tokens value left h
  obtain ⟨_, _, hvalue, h₁⟩ := exists_of_bind h
  obtain ⟨phrase, rfl, hspends⟩ := hexpression hvalue
  obtain ⟨_, _, hend, hpure⟩ := spends_of_expect_bind h₁ rfl
  obtain ⟨rfl, rfl⟩ := eq_of_pure hpure
  exact ⟨.expression phrase, rfl, hspends.trans hend, trivial,
    Line.ends_of_endsOpen_eq_false rfl _⟩

theorem sound_assignmentLine : SoundForLines (assignmentLine expression) := by
  intro tokens value left h
  obtain ⟨name, _, hname, h₁⟩ := spends_of_expect_name_bind h
  obtain ⟨_, _, hsign, h₂⟩ := spends_of_expect_bind h₁ rfl
  obtain ⟨_, _, hvalue, h₃⟩ := exists_of_bind h₂
  obtain ⟨phrase, rfl, hspends⟩ := hexpression hvalue
  obtain ⟨_, _, hend, hpure⟩ := spends_of_expect_bind h₃ rfl
  obtain ⟨rfl, rfl⟩ := eq_of_pure hpure
  exact ⟨.assign name.text phrase, rfl, hname.trans (hsign.trans (hspends.trans hend)), trivial,
    Line.ends_of_endsOpen_eq_false rfl _⟩

variable (hline : SoundForLines line)

include hline

/-- A conditional takes an `else` that follows its first line; that line does not end open then,
because it would have taken the `else` itself. -/
theorem sound_conditionalLine {token : Token} {value : Expr} (hcurrent : tokens.current = .ok token)
    (hkind : token.kind = .keyword .«if»)
    (h : conditionalLine expression line tokens = .ok value left) :
    ∃ line : Line, line.tree = value ∧ Spends tokens line.terminals left ∧ line.AttachesNearest ∧
      line.Ends left.terminals := by
  have hword := spends_rest_of_isFixed hcurrent hkind rfl
  obtain ⟨_, _, htest, h₁⟩ := exists_of_bind (of_advance_bind hcurrent h)
  obtain ⟨test, rfl, hspends⟩ := soundFor_condition hexpression htest
  obtain ⟨_, _, hthen, h₂⟩ := exists_of_bind h₁
  obtain ⟨thenBody, rfl, hspends', hnearest, hends⟩ := hline hthen
  obtain ⟨follower, hfollower, hdecide⟩ := current_of_currentKind_bind h₂
  have hif := hword.trans (hspends.trans hspends')
  split at hdecide
  next helse =>
    obtain ⟨_, _, hbody, hpure⟩ := exists_of_bind (of_advance_bind hfollower hdecide)
    obtain ⟨rfl, rfl⟩ := eq_of_pure hpure
    obtain ⟨elseBody, rfl, hspends'', hnearest', hends'⟩ := hline hbody
    -- An open line would have taken this `else` before the conditional could see it.
    have hclosed : thenBody.endsOpen = false := by
      rw [← Bool.not_eq_true]
      intro hopen
      exact hends hopen ((head?_terminals_eq_else_iff hfollower).mpr helse)
    refine ⟨.ifElse test thenBody elseBody, rfl, ?_, ⟨hclosed, hnearest, hnearest'⟩, hends'⟩
    simpa [Line.terminals] using
      hif.trans ((spends_rest_of_isFixed hfollower helse rfl).trans hspends'')
  next helse =>
    obtain ⟨rfl, rfl⟩ := eq_of_pure hdecide
    refine ⟨.ifThen test thenBody, rfl, by simpa [Line.terminals] using hif, hnearest, ?_⟩
    exact fun _ heq => helse ((head?_terminals_eq_else_iff hfollower).mp heq)

/-- The forms of a line that their first token gives away. -/
theorem sound_lineOf {fuel : Nat} {token : Token} {form : LineForm} {value : Expr}
    (hcurrent : tokens.current = .ok token) (hform : LineForm.ofKind? token.kind = some form)
    (h : lineOf expression line fuel form tokens = .ok value left) :
    ∃ line : Line, line.tree = value ∧ Spends tokens line.terminals left ∧ line.AttachesNearest ∧
      line.Ends left.terminals := by
  cases form with
  | println =>
      have hkind : token.kind = .keyword .println := LineForm.ofKind?_eq_some_iff.mp hform
      have hword := spends_rest_of_isFixed hcurrent hkind rfl
      obtain ⟨_, _, hcondition, h₁⟩ := exists_of_bind (of_advance_bind hcurrent h)
      obtain ⟨argument, rfl, hspends⟩ := soundFor_condition hexpression hcondition
      obtain ⟨_, _, hend, hpure⟩ := spends_of_expect_bind h₁ rfl
      obtain ⟨rfl, rfl⟩ := eq_of_pure hpure
      refine ⟨.println argument, rfl, ?_, trivial, Line.ends_of_endsOpen_eq_false rfl _⟩
      simpa [Line.terminals] using hword.trans (hspends.trans hend)
  | loop =>
      have hkind : token.kind = .keyword .«while» := LineForm.ofKind?_eq_some_iff.mp hform
      have hword := spends_rest_of_isFixed hcurrent hkind rfl
      obtain ⟨_, _, htest, h₁⟩ := exists_of_bind (of_advance_bind hcurrent h)
      obtain ⟨test, rfl, hspends⟩ := soundFor_condition hexpression htest
      obtain ⟨_, _, hbody, hpure⟩ := exists_of_bind h₁
      obtain ⟨body, rfl, hspends', hnearest, hends⟩ := hline hbody
      obtain ⟨rfl, rfl⟩ := eq_of_pure hpure
      refine ⟨.loop test body, rfl, ?_, hnearest, hends⟩
      simpa [Line.terminals] using hword.trans (hspends.trans hspends')
  | conditional =>
      have hkind : token.kind = .keyword .«if» := LineForm.ofKind?_eq_some_iff.mp hform
      exact sound_conditionalLine hexpression hline hcurrent hkind h
  | block =>
      obtain ⟨lines, rfl, hspends, hnearest⟩ := exists_of_blockLine hline h
      exact ⟨.block lines, by rw [Line.tree, Line.allTrees_eq_map], hspends, hnearest,
        Line.ends_of_endsOpen_eq_false rfl _⟩
  | counted =>
      have hkind : token.kind = .keyword .«for» := LineForm.ofKind?_eq_some_iff.mp hform
      have hword := spends_rest_of_isFixed hcurrent hkind rfl
      obtain ⟨_, _, hopen, h₁⟩ := spends_of_expect_bind (of_advance_bind hcurrent h) rfl
      obtain ⟨name, _, hname, h₂⟩ := spends_of_expectFor_name_bind h₁
      obtain ⟨_, _, hin, h₃⟩ := spends_of_expect_bind h₂ rfl
      obtain ⟨_, _, hstart, h₄⟩ := exists_of_bind h₃
      obtain ⟨start, rfl, hspendsStart⟩ := hexpression hstart
      obtain ⟨_, _, hto, h₅⟩ := spends_of_expect_bind h₄ rfl
      obtain ⟨_, _, hstop, h₆⟩ := exists_of_bind h₅
      obtain ⟨stop, rfl, hspendsStop⟩ := hexpression hstop
      obtain ⟨_, _, hclose, h₇⟩ := spends_of_expect_bind h₆ rfl
      obtain ⟨_, _, hbody, hpure⟩ := exists_of_bind h₇
      obtain ⟨body, rfl, hspendsBody, hnearest, hends⟩ := hline hbody
      obtain ⟨rfl, rfl⟩ := eq_of_pure hpure
      refine ⟨.counted name.text start stop body, rfl, ?_, hnearest, hends⟩
      exact hword.trans (hopen.trans (hname.trans (hin.trans (hspendsStart.trans
        (hto.trans (hspendsStop.trans (hclose.trans hspendsBody)))))))

end

theorem sound_line : ∀ fuel, SoundForLines (Reader.line .full fuel) := by
  intro fuel
  induction fuel with
  | zero => intro tokens value left h; simp [Reader.line, outOfFuel] at h
  | succ fuel ih =>
      intro tokens value left h
      have hexpression := soundFor_expressionOf fuel .relational
      rw [Reader.line] at h
      obtain ⟨token, hcurrent, hdecide⟩ := current_of_currentKind_bind h
      cases hform : LineForm.ofKind? token.kind with
      | some form =>
          simp only [Vocabulary.lineForm?, hform] at hdecide
          exact sound_lineOf hexpression ih hcurrent hform hdecide
      | none =>
          simp only [Vocabulary.lineForm?, hform] at hdecide
          -- Either reader is sound by itself, whatever looking ahead has found.
          obtain ⟨starts, mid, hstarts, h₁⟩ := exists_of_bind hdecide
          obtain rfl := eq_of_startsAssignment hstarts
          split at h₁
          next => exact sound_assignmentLine hexpression h₁
          next => exact sound_expressionLine hexpression h₁

/-! ## Definitions -/

/-- The token that introduces a form of definition. -/
def DefinitionForm.kind : DefinitionForm → TokenKind
  | global => .keyword .global
  | function => .keyword .define

theorem DefinitionForm.ofKind?_eq_some_iff {kind : TokenKind} {form : DefinitionForm} :
    DefinitionForm.ofKind? kind = some form ↔ kind = form.kind := by
  constructor
  · intro h
    unfold DefinitionForm.ofKind? at h
    split at h <;> cases h <;> rfl
  · rintro rfl
    cases form <;> rfl

theorem soundFor_parameter :
    SoundFor parameter id (fun name => [Terminal.name name]) := by
  intro tokens value left h
  obtain ⟨name, _, hname, hpure⟩ := spends_of_expectFor_name_bind h
  obtain ⟨rfl, rfl⟩ := eq_of_pure hpure
  exact ⟨name.text, rfl, hname⟩

/-- What a reader of definitions consumes has a derivation. -/
def SoundForItems (reader : Reader Definition) : Prop :=
  ∀ ⦃tokens value left⦄, reader tokens = .ok value left →
    ∃ item : Item, item.tree = value ∧ Spends tokens item.terminals left ∧ item.AttachesNearest

theorem sound_globalDefinition {fuel : Nat} {token : Token} {value : Definition}
    (hcurrent : tokens.current = .ok token) (hkind : token.kind = .keyword .global)
    (h : globalDefinition fuel tokens = .ok value left) :
    ∃ item : Item, item.tree = value ∧ Spends tokens item.terminals left ∧
      item.AttachesNearest := by
  have hword := spends_rest_of_isFixed hcurrent hkind rfl
  obtain ⟨name, _, hname, h₁⟩ := spends_of_expectFor_name_bind (of_advance_bind hcurrent h)
  obtain ⟨_, _, hsign, h₂⟩ := spends_of_expect_bind h₁ rfl
  obtain ⟨_, _, hvalue, h₃⟩ := exists_of_bind h₂
  obtain ⟨phrase, rfl, hspends⟩ := soundFor_expressionOf fuel .relational hvalue
  obtain ⟨_, _, hend, hpure⟩ := spends_of_expect_bind h₃ rfl
  obtain ⟨rfl, rfl⟩ := eq_of_pure hpure
  exact ⟨.global name.text phrase, rfl,
    hword.trans (hname.trans (hsign.trans (hspends.trans hend))), trivial⟩

theorem sound_functionDefinition {fuel : Nat} {token : Token} {value : Definition}
    (hcurrent : tokens.current = .ok token) (hkind : token.kind = .keyword .define)
    (h : functionDefinition .full fuel tokens = .ok value left) :
    ∃ item : Item, item.tree = value ∧ Spends tokens item.terminals left ∧
      item.AttachesNearest := by
  have hword := spends_rest_of_isFixed hcurrent hkind rfl
  obtain ⟨name, _, hname, h₁⟩ := spends_of_expectFor_name_bind (of_advance_bind hcurrent h)
  obtain ⟨_, _, hopen, h₂⟩ := spends_of_expect_bind h₁ rfl
  obtain ⟨_, _, hparameters, h₃⟩ := exists_of_bind h₂
  obtain ⟨parameters, rfl, hspends⟩ := soundFor_listUntil soundFor_parameter _ _ hparameters
  obtain ⟨_, _, hclose, h₄⟩ := spends_of_expectFor_bind h₃ rfl
  obtain ⟨brace, _, hdecide⟩ := current_of_currentKind_bind h₄
  split at hdecide
  next =>
    obtain ⟨_, _, hbody, hpure⟩ := exists_of_bind hdecide
    obtain ⟨lines, rfl, hspends', hnearest⟩ := exists_of_blockLine (sound_line fuel) hbody
    obtain ⟨rfl, rfl⟩ := eq_of_pure hpure
    refine ⟨.function name.text parameters lines, ?_, ?_, hnearest⟩
    · rw [Item.tree, Line.allTrees_eq_map, List.map_id]
    · exact hword.trans (hname.trans (hopen.trans (hspends.trans (hclose.trans hspends'))))
  next =>
    obtain ⟨_, _, hfail⟩ := current_of_bind hdecide
    simp [failAt] at hfail

theorem sound_definition (fuel : Nat) : SoundForItems (definition .full fuel) := by
  intro tokens value left h
  obtain ⟨token, hcurrent, hdecide⟩ := current_of_bind h
  cases hform : DefinitionForm.ofKind? token.kind with
  | none => simp [Vocabulary.definitionForm?, hform, failAt] at hdecide
  | some form =>
      simp only [Vocabulary.definitionForm?, hform] at hdecide
      cases form with
      | global =>
          have hkind : token.kind = .keyword .global := DefinitionForm.ofKind?_eq_some_iff.mp hform
          exact sound_globalDefinition hcurrent hkind hdecide
      | function =>
          have hkind : token.kind = .keyword .define := DefinitionForm.ofKind?_eq_some_iff.mp hform
          exact sound_functionDefinition hcurrent hkind hdecide

/-! ## Whole sources -/

theorem atEnd_iff : tokens.atEnd = true ↔ tokens.terminals = [] ∧ tokens.stop.rest = [] := by
  simp [Tokens.atEnd, Tokens.terminals]

/-- Items up to the end of the source, of a kind whose reader is sound. -/
theorem exists_of_untilEnd {item : Reader α} {tree : δ → α} {terminals : δ → List Terminal}
    {holds : δ → Prop}
    (hitem : ∀ ⦃tokens value left⦄, item tokens = .ok value left → ∃ derivation,
      tree derivation = value ∧ Spends tokens (terminals derivation) left ∧ holds derivation) :
    ∀ {fuel : Nat} {tokens : Tokens} {values : List α},
      untilEnd item fuel tokens = .ok values left →
      ∃ derivations : List δ, derivations.map tree = values ∧
        Spends tokens (derivations.flatMap terminals) left ∧
        (∀ derivation ∈ derivations, holds derivation) ∧ left.atEnd = true := by
  intro fuel
  induction fuel with
  | zero => intro tokens values h; simp [untilEnd, outOfFuel] at h
  | succ fuel ih =>
      intro tokens values h
      rw [untilEnd] at h
      obtain ⟨some, mid, hsome, hdecide⟩ := exists_of_bind h
      simp only [hasTokens, EStateM.Result.ok.injEq] at hsome
      obtain ⟨rfl, rfl⟩ := hsome
      split at hdecide
      next =>
        obtain ⟨_, _, hfirst, h₁⟩ := exists_of_bind hdecide
        obtain ⟨first, rfl, hspends, hholds⟩ := hitem hfirst
        obtain ⟨_, _, hothers, hpure⟩ := exists_of_bind h₁
        obtain ⟨rfl, rfl⟩ := eq_of_pure hpure
        obtain ⟨others, rfl, hspends', hholds', hend⟩ := ih hothers
        exact ⟨first :: others, rfl, hspends.trans hspends',
          List.forall_mem_cons.mpr ⟨hholds, hholds'⟩, hend⟩
      next hend =>
        obtain ⟨rfl, rfl⟩ := eq_of_pure hdecide
        exact ⟨[], rfl, .refl _, by simp, by simpa using hend⟩

end Reader

end IntScript
