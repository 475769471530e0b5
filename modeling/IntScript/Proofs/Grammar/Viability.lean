import IntScript.Proofs.Grammar.Locality
import IntScript.Proofs.Source.Spelling

/-!
# What is read before a fault can be completed

Wherever a reader faults, the tokens before the fault start something that it would accept.  The
completion is found along with the fault: each step of a reader that consumes terminals hands the
language of what may follow on to the next step, and at the end of the reader nothing needs to
follow.

`Viable reader tokens language` says this for a reader of a language.  It also says that the
language has a word at all, so that a reader may stop between any two of its steps.
`Parses` is what is known of a reader that is a step of another.
-/

namespace IntScript

open Grammar

/-! ## Completions -/

namespace Terminal

theorem isName_x : IsName "x" where
  isWordStart := ⟨'x', [], rfl, rfl⟩
  isWordChar := List.all_eq_true.mp rfl
  not_reserved := rfl

theorem occurs_x : (name "x").Occurs :=
  .name isName_x

theorem occurs_zero : (numeral "0").Occurs :=
  .numeral ⟨List.cons_ne_nil '0' [], List.all_eq_true.mp rfl, by decide⟩

end Terminal

namespace Grammar

/-- A language, as what holds of its words. -/
abbrev Language := List Terminal → Prop

/-- Some terminals of tokens are a word of the language. -/
def Completable (language : Language) : Prop :=
  ∃ completion, (∀ terminal ∈ completion, terminal.Occurs) ∧ language completion

/-- What makes a word of the language if the terminals `spent` stand in front of it. -/
def after (spent : List Terminal) (language : Language) : Language :=
  fun rest => language (spent ++ rest)

namespace Completable

variable {language larger : Language} {spent : List Terminal}

theorem nil (h : language []) : Completable language :=
  ⟨[], by simp, h⟩

theorem imp (h : Completable language) (himp : ∀ word, language word → larger word) :
    Completable larger := by
  obtain ⟨completion, hoccurs, hword⟩ := h
  exact ⟨completion, hoccurs, himp completion hword⟩

/-- What can be completed behind terminals of tokens can be completed with them. -/
theorem of_after (hspent : ∀ terminal ∈ spent, terminal.Occurs)
    (h : Completable (after spent language)) : Completable language := by
  obtain ⟨completion, hoccurs, hword⟩ := h
  exact ⟨spent ++ completion, List.forall_mem_append.mpr ⟨hspent, hoccurs⟩, hword⟩

theorem of_after_fixed {kind : TokenKind} (hfixed : kind.isFixed = true)
    (h : Completable (after [.fixed kind] language)) : Completable language :=
  of_after (by simpa using Terminal.Occurs.fixed hfixed) h

theorem of_after_name (h : Completable (after [.name "x"] language)) : Completable language :=
  of_after (by simpa using Terminal.occurs_x) h

end Completable

end Grammar

namespace Reader

variable {α β δ : Type}

/-! ## Faults -/

theorem exists_fault_of_bind {reader : Reader α} {next : α → Reader β} {tokens left : Tokens}
    {error : Error} (h : (reader >>= next) tokens = .error (.fault error) left) :
    (∃ mid, reader tokens = .error (.fault error) mid) ∨
      ∃ value mid, reader tokens = .ok value mid ∧ next value mid = .error (.fault error) left := by
  simp only [Bind.bind, EStateM.bind] at h
  cases houtcome : reader tokens with
  | ok value mid =>
      rw [houtcome] at h
      exact .inr ⟨value, mid, rfl, h⟩
  | error halt mid =>
      rw [houtcome] at h
      cases h
      exact .inl ⟨left, rfl⟩

/-- The error is at a place where the tokens before it can be completed to a word. -/
def FaultsViably (tokens : Tokens) (language : Language) (error : Error) : Prop :=
  ∃ count spent, Spends tokens spent (tokens.drop count) ∧
    error.position = (tokens.drop count).position ∧ Completable (after spent language)

/-- Whatever is read before a fault can be completed to a word of the language, which has words. -/
structure Viable (reader : Reader α) (tokens : Tokens) (language : Language) : Prop where
  completable : Completable language
  faultsViably : ∀ error left, reader tokens = .error (.fault error) left →
    FaultsViably tokens language error

/-- What is known of a reader: how it derives what it consumes, under which condition on what
follows, and that what it reads before a fault can be completed. -/
structure Parses (reader : Reader α) (tree : δ → α) (terminals : δ → List Terminal)
    (holds : δ → List Terminal → Prop) : Prop where
  sound : ∀ {tokens value left}, reader tokens = .ok value left →
    ∃ derivation, tree derivation = value ∧ Spends tokens (terminals derivation) left ∧
      holds derivation left.terminals
  isLocal : Local reader reader
  viable : ∀ tokens, Viable reader tokens
    (fun word => ∃ derivation, terminals derivation = word ∧ holds derivation [])

theorem Local.exists_drop {reader other : Reader α} (h : Local reader other) {tokens left : Tokens}
    {value : α} (hread : reader tokens = .ok value left) : ∃ count, left = tokens.drop count := by
  have htracks := h tokens tokens
  rw [Tracks, hread] at htracks
  obtain ⟨count, -, hleft, -⟩ := htracks
  exact ⟨count, hleft⟩

namespace FaultsViably

variable {tokens : Tokens} {language larger : Language} {error : Error} {spent : List Terminal}

theorem imp (h : FaultsViably tokens language error) (himp : ∀ word, language word → larger word) :
    FaultsViably tokens larger error := by
  obtain ⟨count, spent, hspends, hposition, hcompletable⟩ := h
  exact ⟨count, spent, hspends, hposition, hcompletable.imp fun word => himp (spent ++ word)⟩

/-- At the first token nothing was spent. -/
theorem here (hposition : error.position = tokens.position) (h : Completable language) :
    FaultsViably tokens language error :=
  ⟨0, [], .refl tokens, hposition, h⟩

/-- Terminals spent before add up. -/
theorem of_drop {count : Nat} (hspends : Spends tokens spent (tokens.drop count))
    (h : FaultsViably (tokens.drop count) (after spent language) error) :
    FaultsViably tokens language error := by
  obtain ⟨more, spent', hspends', hposition, hcompletable⟩ := h
  rw [Tokens.drop_drop] at hspends' hposition
  refine ⟨count + more, spent ++ spent', hspends.trans hspends', hposition, ?_⟩
  refine hcompletable.imp fun word hword => ?_
  rwa [after, List.append_assoc]

end FaultsViably

namespace Viable

variable {reader : Reader α} {next : α → Reader β} {tokens : Tokens} {language larger : Language}

theorem imp (h : Viable reader tokens language) (himp : ∀ word, language word → larger word) :
    Viable reader tokens larger :=
  ⟨h.completable.imp himp, fun error left hfault => (h.faultsViably error left hfault).imp himp⟩

theorem pure (value : α) (h : language []) : Viable (Pure.pure value) tokens language :=
  ⟨.nil h, fun _ _ => nofun⟩

theorem outOfFuel (h : Completable language) :
    Viable (Reader.outOfFuel (α := α)) tokens language :=
  ⟨h, fun _ _ => nofun⟩

/-- What comes behind the last step may change the value only. -/
theorem map (h : Viable reader tokens language) (f : α → β) :
    Viable (reader >>= fun value => Pure.pure (f value)) tokens language := by
  refine ⟨h.completable, fun error left hfault => ?_⟩
  obtain ⟨mid, hreader⟩ | ⟨value, mid, -, hpure⟩ := exists_fault_of_bind hfault
  · exact h.faultsViably error mid hreader
  · cases hpure

/-! ### Looking at the first token -/

theorem current_bind {next : Token → Reader β} (h : Completable language)
    (hnext : ∀ token, tokens.current = .ok token → Viable (next token) tokens language) :
    Viable (current >>= next) tokens language := by
  refine ⟨h, fun error left hfault => ?_⟩
  cases hcurrent : tokens.current with
  | ok token =>
      refine (hnext token hcurrent).faultsViably error left ?_
      simpa [Bind.bind, EStateM.bind, Reader.current, hcurrent] using hfault
  | error halted =>
      obtain ⟨fault, herror⟩ := Tokens.exists_atFault hcurrent
      simp only [Bind.bind, EStateM.bind, Reader.current, hcurrent] at hfault
      cases hfault
      exact .here (by rw [herror.error_eq]) h

theorem currentKind_bind {next : TokenKind → Reader β} (h : Completable language)
    (hnext : ∀ token, tokens.current = .ok token → Viable (next token.kind) tokens language) :
    Viable (currentKind >>= next) tokens language := by
  simp only [currentKind, bind_assoc, pure_bind]
  exact current_bind h hnext

theorem failAt {token : Token} (hcurrent : tokens.current = .ok token) (fault : ParseFault)
    (h : Completable language) : Viable (Reader.failAt (α := α) token fault) tokens language := by
  refine ⟨h, fun error left hfault => ?_⟩
  cases hfault
  exact .here (by rw [Tokens.position, Tokens.offset_of_current hcurrent]) h

theorem failInstead (expectation : String) (h : Completable language) :
    Viable (Reader.failInstead (α := α) expectation) tokens language :=
  current_bind h fun _ hcurrent => failAt hcurrent _ h

/-! ### Consuming the first token -/

theorem advance_bind_of_spends {next : Token → Reader β} {token : Token} {spent : List Terminal}
    (h : Completable language) (hcurrent : tokens.current = .ok token)
    (hspends : Spends tokens spent tokens.rest)
    (hnext : Viable (next token) tokens.rest (after spent language)) :
    Viable (advance >>= next) tokens language := by
  refine ⟨h, fun error left hfault => ?_⟩
  rw [← Tokens.drop_one] at hspends hnext
  refine .of_drop hspends (hnext.faultsViably error left ?_)
  simpa [Bind.bind, EStateM.bind, advance, hcurrent, Tokens.drop_one] using hfault

/-- A token that is known is consumed. -/
theorem advance_bind {next : Token → Reader β} {token : Token} {kind : TokenKind}
    (hcurrent : tokens.current = .ok token) (hkind : token.kind = kind)
    (hfixed : kind.isFixed = true)
    (hnext : ∀ left, Viable (next token) left (after [.fixed kind] language)) :
    Viable (advance >>= next) tokens language :=
  advance_bind_of_spends (.of_after_fixed hfixed (hnext tokens).completable) hcurrent
    (spends_rest_of_isFixed hcurrent hkind hfixed) (hnext tokens.rest)

/-- A token is consumed if it is of the kind, and otherwise it is at fault. -/
theorem wanted_bind {next : Token → Reader β} {kind : TokenKind} (fault : String → ParseFault)
    (spent : Token → List Terminal) (h : Completable language)
    (hspends : ∀ {token}, tokens.current = .ok token → token.kind = kind →
      Spends tokens (spent token) tokens.rest)
    (hnext : ∀ token left, Viable (next token) left (after (spent token) language)) :
    Viable
      ((do
        let token ← current
        if token.kind = kind then advance else Reader.failAt token (fault token.text)) >>= next)
      tokens language := by
  simp only [bind_assoc]
  refine current_bind h fun token hcurrent => ?_
  by_cases hkind : token.kind = kind
  · rw [if_pos hkind]
    exact advance_bind_of_spends h hcurrent (hspends hcurrent hkind) (hnext token tokens.rest)
  · rw [if_neg hkind]
    exact failAt hcurrent _ h

theorem expect_bind {next : Token → Reader β} {kind : TokenKind} (hfixed : kind.isFixed = true)
    (hnext : ∀ token left, Viable (next token) left (after [.fixed kind] language)) :
    Viable (expect kind >>= next) tokens language :=
  wanted_bind .unexpected (fun _ => [.fixed kind])
    (.of_after_fixed hfixed (hnext (.atEnd 0) tokens).completable)
    (fun hcurrent hkind => spends_rest_of_isFixed hcurrent hkind hfixed) hnext

theorem expectFor_bind {next : Token → Reader β} {kind : TokenKind} {expectation : String}
    (hfixed : kind.isFixed = true)
    (hnext : ∀ token left, Viable (next token) left (after [.fixed kind] language)) :
    Viable (expectFor kind expectation >>= next) tokens language :=
  wanted_bind (.unexpectedInstead · expectation) (fun _ => [.fixed kind])
    (.of_after_fixed hfixed (hnext (.atEnd 0) tokens).completable)
    (fun hcurrent hkind => spends_rest_of_isFixed hcurrent hkind hfixed) hnext

theorem expect_name_bind {next : Token → Reader β}
    (hnext : ∀ token left, Viable (next token) left (after [.name token.text] language)) :
    Viable (expect .identifier >>= next) tokens language :=
  wanted_bind .unexpected (fun token => [.name token.text])
    (.of_after_name (hnext ⟨.identifier, "x", 0, 0⟩ tokens).completable)
    spends_rest_of_identifier hnext

theorem expectFor_name_bind {next : Token → Reader β} {expectation : String}
    (hnext : ∀ token left, Viable (next token) left (after [.name token.text] language)) :
    Viable (expectFor .identifier expectation >>= next) tokens language :=
  wanted_bind (.unexpectedInstead · expectation) (fun token => [.name token.text])
    (.of_after_name (hnext ⟨.identifier, "x", 0, 0⟩ tokens).completable)
    spends_rest_of_identifier hnext

/-! ### Steps that are readers themselves -/

/-- What the first reader reads before a fault is completed first, and then the rest is. -/
theorem bind {tree : δ → α} {terminals : δ → List Terminal} {holds : δ → List Terminal → Prop}
    (hreader : Parses reader tree terminals holds)
    (hnext : ∀ derivation left, holds derivation left.terminals →
      Viable (next (tree derivation)) left (after (terminals derivation) language)) :
    Viable (reader >>= next) tokens language := by
  have hrest : ∀ derivation, holds derivation [] →
      Completable (after (terminals derivation) language) :=
    fun derivation hholds => (hnext derivation ⟨tokens.file, [], tokens.stop⟩ hholds).completable
  refine ⟨?_, fun error left hfault => ?_⟩
  · obtain ⟨completion, hoccurs, derivation, rfl, hholds⟩ := (hreader.viable tokens).completable
    exact .of_after hoccurs (hrest derivation hholds)
  · obtain ⟨mid, hfirst⟩ | ⟨value, mid, hfirst, hsecond⟩ := exists_fault_of_bind hfault
    · obtain ⟨count, spent, hspends, hposition, completion, hoccurs, derivation, hword, hholds⟩ :=
        (hreader.viable tokens).faultsViably error mid hfirst
      refine ⟨count, spent, hspends, hposition, .of_after hoccurs ?_⟩
      refine (hrest derivation hholds).imp fun word h => ?_
      rwa [after, after, ← List.append_assoc, ← hword]
    · obtain ⟨derivation, rfl, hspends, hholds⟩ := hreader.sound hfirst
      obtain ⟨count, rfl⟩ := hreader.isLocal.exists_drop hfirst
      exact .of_drop hspends ((hnext derivation _ hholds).faultsViably error left hsecond)

theorem hasTokens_bind {next : Bool → Reader β}
    (hnext : ∀ some, Viable (next some) tokens language) :
    Viable (hasTokens >>= next) tokens language :=
  ⟨(hnext true).completable, (hnext (!tokens.atEnd)).faultsViably⟩

/-- Looking ahead faults at the first token, or behind a name. -/
theorem startsAssignment_bind {next : Bool → Reader β}
    (hname : ∀ name, Completable (after [.name name] language))
    (hnext : ∀ starts, Viable (next starts) tokens language) :
    Viable (startsAssignment >>= next) tokens language := by
  refine ⟨(hnext true).completable, fun error left hfault => ?_⟩
  obtain ⟨mid, hlook⟩ | ⟨starts, mid, hlook, hafter⟩ := exists_fault_of_bind hfault
  · cases hcurrent : tokens.current with
    | error halted =>
        obtain ⟨fault, herror⟩ := Tokens.exists_atFault hcurrent
        cases (startsAssignment_of_error hcurrent).symm.trans hlook
        exact .here (by rw [herror.error_eq]) (hnext true).completable
    | ok token =>
        by_cases hkind : token.kind = .identifier
        · have hspends := spends_rest_of_identifier hcurrent hkind
          rw [← Tokens.drop_one] at hspends
          cases hfollower : tokens.rest.current with
          | error halted =>
              obtain ⟨fault, herror⟩ := Tokens.exists_atFault hfollower
              cases (startsAssignment_of_name_error hcurrent hkind hfollower).symm.trans hlook
              refine ⟨1, _, hspends, by rw [herror.error_eq, Tokens.drop_one], hname token.text⟩
          | ok follower =>
              cases (startsAssignment_of_name hcurrent hkind hfollower).symm.trans hlook
        · cases (startsAssignment_of_ne hcurrent hkind).symm.trans hlook
  · obtain rfl := eq_of_startsAssignment hlook
    exact (hnext starts).faultsViably error left hafter

end Viable

/-! ## Readers that may stop anywhere -/

/-- The words that are derived. -/
def derived (terminals : δ → List Terminal) : Language := fun word =>
  ∃ derivation, terminals derivation = word

/-- What is known of a reader of a language in which nothing depends on what follows. -/
abbrev ParsesFor (reader : Reader α) (tree : δ → α) (terminals : δ → List Terminal) : Prop :=
  Parses reader tree terminals fun _ _ => True

theorem parsesFor {reader : Reader α} {tree : δ → α} {terminals : δ → List Terminal}
    (hsound : SoundFor reader tree terminals) (hlocal : Local reader reader)
    (hviable : ∀ tokens, Viable reader tokens (derived terminals)) :
    ParsesFor reader tree terminals where
  sound := by
    intro tokens value left h
    obtain ⟨derivation, htree, hspends⟩ := hsound h
    exact ⟨derivation, htree, hspends, trivial⟩
  isLocal := hlocal
  viable := fun tokens => (hviable tokens).imp fun _ ⟨derivation, hword⟩ =>
    ⟨derivation, hword, trivial⟩

theorem ParsesFor.soundFor {reader : Reader α} {tree : δ → α} {terminals : δ → List Terminal}
    (h : ParsesFor reader tree terminals) : SoundFor reader tree terminals := by
  intro tokens value left hread
  obtain ⟨derivation, htree, hspends, -⟩ := h.sound hread
  exact ⟨derivation, htree, hspends⟩

theorem ParsesFor.viable {reader : Reader α} {tree : δ → α} {terminals : δ → List Terminal}
    (h : ParsesFor reader tree terminals) (tokens : Tokens) :
    Viable reader tokens (derived terminals) :=
  (Parses.viable h tokens).imp fun _ ⟨derivation, hword, _⟩ => ⟨derivation, hword⟩

/-! ## Repetition -/

/-- The words derived with commas between them. -/
def oneOrMore (terminals : δ → List Terminal) : Language := fun word =>
  ∃ first others, Grammar.commaSeparated ((first :: others).map terminals) = word

section

variable {item : Reader α} {tree : δ → α} {terminals : δ → List Terminal}
  (hitem : ParsesFor item tree terminals)

include hitem

theorem viable_commaSeparated : ∀ (fuel : Nat) (tokens : Tokens),
    Viable (Reader.commaSeparated item fuel) tokens (oneOrMore terminals) := by
  intro fuel
  induction fuel with
  | zero =>
      intro tokens
      refine .outOfFuel ((ParsesFor.viable hitem tokens).completable.imp ?_)
      rintro word ⟨derivation, rfl⟩
      exact ⟨derivation, [], rfl⟩
  | succ fuel ih =>
      intro tokens
      refine .bind hitem fun first left _ => ?_
      -- One item is enough, so that the reader may stop here.
      have hone : after (terminals first) (oneOrMore terminals) [] :=
        ⟨first, [], (List.append_nil _).symm⟩
      refine .currentKind_bind (.nil hone) fun token hcurrent => ?_
      by_cases hcomma : token.kind = .comma
      · rw [if_pos hcomma]
        refine .advance_bind hcurrent hcomma rfl fun behind => ?_
        refine ((ih behind).map _).imp ?_
        rintro word ⟨second, others, rfl⟩
        exact ⟨first, second :: others, rfl⟩
      · rw [if_neg hcomma]
        exact .pure _ hone

theorem parses_listUntil (close : TokenKind) (fuel : Nat) :
    ParsesFor (Reader.listUntil close item fuel) (List.map tree)
      (fun derivations => Grammar.commaSeparated (derivations.map terminals)) := by
  refine parsesFor (soundFor_listUntil (ParsesFor.soundFor hitem) close fuel)
    (hitem.isLocal.listUntil close fuel fuel) fun tokens => ?_
  refine .currentKind_bind (.nil ⟨[], rfl⟩) fun token _ => ?_
  split
  · exact .pure [] ⟨[], rfl⟩
  · refine (viable_commaSeparated hitem fuel tokens).imp ?_
    rintro word ⟨first, others, rfl⟩
    exact ⟨first :: others, rfl⟩

end

/-! ## Expressions -/

/-- The words derived from a layer. -/
abbrev phrases (layer : Precedence) : Language :=
  derived (@Phrase.terminals layer)

/-- What a tightest phrase derives is derived from every layer. -/
theorem mem_phrases_of_primary (phrase : Phrase .primary) (layer : Precedence) :
    phrases layer phrase.terminals := by
  have hrank : layer.rank ≤ Precedence.primary.rank := by cases layer <;> decide
  obtain ⟨looser, -, hterminals⟩ := exists_loosened phrase hrank
  exact ⟨looser, hterminals⟩

theorem completable_phrases (layer : Precedence) : Completable (phrases layer) :=
  ⟨[.numeral "0"], by simpa using Terminal.occurs_zero,
    mem_phrases_of_primary (.number "0") layer⟩

theorem viable_operators {layer : Precedence} {operand : Reader Expr}
    (hoperand : ParsesFor operand Phrase.tree (@Phrase.terminals layer.next)) :
    ∀ (fuel : Nat) (left : Expr) (tokens : Tokens),
      Viable (Reader.operators layer operand fuel left) tokens
        (derived (@Operands.terminals layer)) := by
  intro fuel
  induction fuel with
  | zero => exact fun _ _ => .outOfFuel (.nil ⟨.nil, rfl⟩)
  | succ fuel ih =>
      intro left tokens
      refine .currentKind_bind (.nil ⟨.nil, rfl⟩) fun token hcurrent => ?_
      cases hkind : token.kind with
      | operator op =>
          dsimp only
          by_cases hop : op.precedence = layer
          · rw [if_pos hop]
            refine .advance_bind hcurrent hkind rfl fun mid => ?_
            refine .bind hoperand fun right behind _ => (ih _ behind).imp ?_
            rintro word ⟨others, rfl⟩
            exact ⟨.cons op hop right others, rfl⟩
          · rw [if_neg hop]
            exact .pure left ⟨.nil, rfl⟩
      | _ => exact .pure left ⟨.nil, rfl⟩

/-- A numeral that does not fit is at fault itself. -/
theorem viable_numeral {tokens : Tokens} {token : Token} (hcurrent : tokens.current = .ok token)
    {language : Language} (h : Completable language) : Viable numeral tokens language := by
  refine ⟨h, fun error left hfault => ?_⟩
  cases hvalue : Text.numeral? token.text with
  | some value =>
      simp [numeral, Bind.bind, EStateM.bind, advance, hcurrent, hvalue, Pure.pure,
        EStateM.pure] at hfault
  | none =>
      cases (Local.numeral_of_none hcurrent hvalue).symm.trans hfault
      exact .here (by rw [Tokens.position, Tokens.offset_of_current hcurrent]) h

section

variable {expression : Reader Expr} {tokens : Tokens}
  (hexpression : ParsesFor expression Phrase.tree (@Phrase.terminals .relational))

include hexpression

theorem viable_grouping {token : Token} (hcurrent : tokens.current = .ok token)
    (hkind : token.kind = .openParen) :
    Viable (grouping expression) tokens (phrases .primary) := by
  refine .advance_bind hcurrent hkind rfl fun left => ?_
  refine .bind hexpression fun inner mid _ => ?_
  exact .expect_bind rfl fun _ _ => .pure _ ⟨.group inner, rfl⟩

theorem viable_callOf (callee : String) (fuel : Nat) :
    Viable (callOf callee expression fuel) tokens (after [.name callee] (phrases .primary)) := by
  refine .expect_bind rfl fun _ left => ?_
  refine .bind (parses_listUntil hexpression .closeParen fuel) fun arguments mid _ => ?_
  refine .expectFor_bind rfl fun _ _ => .pure _ ⟨.call callee arguments, ?_⟩
  rw [Phrase.terminals, argumentTerminals_eq_map]
  rfl

theorem parses_labelled :
    ParsesFor (labelled expression) (fun argument => (argument.1, argument.2.tree))
      (fun argument : String × Phrase .relational =>
        .name argument.1 :: .fixed .assignment :: argument.2.terminals) := by
  refine parsesFor (soundFor_labelled (ParsesFor.soundFor hexpression))
    hexpression.isLocal.labelled fun tokens => ?_
  refine .expectFor_name_bind fun label left => .expect_bind rfl fun _ mid => ?_
  refine ((ParsesFor.viable hexpression mid).map _).imp ?_
  rintro word ⟨argument, rfl⟩
  exact ⟨(label.text, argument), rfl⟩

theorem viable_labelledCallOf (callee : String) (fuel : Nat) :
    Viable (labelledCallOf callee expression fuel) tokens
      (after [.name callee] (phrases .primary)) := by
  refine .expect_bind rfl fun _ left => ?_
  refine .bind (parses_listUntil (parses_labelled hexpression) .closeBracket fuel)
    fun arguments mid _ => ?_
  refine .expectFor_bind rfl fun _ _ => .pure _ ⟨.labelledCall callee arguments, ?_⟩
  rw [Phrase.terminals, labelledTerminals_eq_map]
  rfl

theorem viable_named (fuel : Nat) : Viable (named expression fuel) tokens (phrases .primary) := by
  refine .expect_name_bind fun name left => ?_
  have hname : after [.name name.text] (phrases .primary) [] := ⟨.name name.text, rfl⟩
  refine .currentKind_bind (.nil hname) fun token _ => ?_
  cases token.kind with
  | openParen => exact viable_callOf hexpression name.text fuel
  | openBracket => exact viable_labelledCallOf hexpression name.text fuel
  | _ => exact .pure _ hname

theorem viable_primary (fuel : Nat) (tokens : Tokens) :
    Viable (primary expression fuel) tokens (phrases .primary) := by
  have hnumeral := completable_phrases .primary
  refine .currentKind_bind hnumeral fun token hcurrent => ?_
  cases hkind : token.kind with
  | openParen => exact viable_grouping hexpression hcurrent hkind
  | number => exact viable_numeral hcurrent hnumeral
  | identifier => exact viable_named hexpression fuel
  | _ => exact .current_bind hnumeral fun _ hcurrent => .failAt hcurrent _ hnumeral

end

theorem parses_expressionOf (fuel : Nat) (layer : Precedence) :
    ParsesFor (Reader.expressionOf layer fuel) Phrase.tree (@Phrase.terminals layer) := by
  induction fuel generalizing layer with
  | zero =>
      exact parsesFor (soundFor_expressionOf 0 layer) (Local.expressionOf 0 0 layer)
        fun _ => .outOfFuel (completable_phrases layer)
  | succ fuel ih =>
      refine parsesFor (soundFor_expressionOf _ layer) (Local.expressionOf _ _ layer)
        fun tokens => ?_
      by_cases hlayer : layer = .primary
      · subst hlayer
        rw [Reader.expressionOf]
        exact viable_primary (ih .relational) fuel tokens
      · rw [Reader.expressionOf]
        · refine .bind (ih layer.next) fun first left _ => ?_
          refine (viable_operators (ih layer.next) fuel first.tree left).imp ?_
          rintro word ⟨others, rfl⟩
          exact ⟨.chain hlayer first others, rfl⟩
        · exact hlayer

/-! ## Lines -/

/-- What is known of a reader of lines. -/
abbrev ParsesLines (reader : Reader Expr) : Prop :=
  Parses reader Line.tree Line.terminals fun line behind => line.AttachesNearest ∧ line.Ends behind

/-- The words derived from lines in which every `else` belongs to the nearest conditional. -/
def lines : Language := fun word =>
  ∃ line : Line, line.terminals = word ∧ line.AttachesNearest

theorem parsesLines {reader : Reader Expr} (hsound : SoundForLines reader)
    (hlocal : Local reader reader) (hviable : ∀ tokens, Viable reader tokens lines) :
    ParsesLines reader where
  sound := fun h => hsound h
  isLocal := hlocal
  viable := fun tokens => (hviable tokens).imp fun _ ⟨line, hword, hnearest⟩ =>
    ⟨line, hword, hnearest, fun _ => nofun⟩

/-- A name with a semicolon is a line. -/
theorem mem_lines_of_primary (phrase : Phrase .primary) :
    lines (phrase.terminals ++ [.fixed .semicolon]) := by
  obtain ⟨looser, hterminals⟩ := mem_phrases_of_primary phrase .relational
  exact ⟨.expression looser, by rw [Line.terminals, hterminals], trivial⟩

theorem completable_lines : Completable lines := by
  refine ⟨[.numeral "0", .fixed .semicolon], ?_, mem_lines_of_primary (.number "0")⟩
  simpa using ⟨Terminal.occurs_zero, Terminal.Occurs.fixed rfl⟩

section

variable {line : Reader Expr} (hline : ParsesLines line)

include hline

theorem viable_blockLines : ∀ (fuel : Nat) (tokens : Tokens),
    Viable (blockLines line fuel) tokens
      (fun word => ∃ lines, Line.allTerminals lines = word ∧ Line.AllAttachNearest lines) := by
  intro fuel
  induction fuel with
  | zero => exact fun _ => .outOfFuel (.nil ⟨[], rfl, trivial⟩)
  | succ fuel ih =>
      intro tokens
      refine .currentKind_bind (.nil ⟨[], rfl, trivial⟩) fun token _ => ?_
      cases token.kind with
      | closeCurly => exact .pure [] ⟨[], rfl, trivial⟩
      | eof => exact .failInstead _ (.nil ⟨[], rfl, trivial⟩)
      | _ =>
          refine .bind hline fun first left hfirst => ((ih left).map _).imp ?_
          rintro word ⟨others, rfl, hnearest⟩
          exact ⟨first :: others, rfl, hfirst.1, hnearest⟩

theorem parses_blockLines (fuel : Nat) :
    Parses (blockLines line fuel) (List.map Line.tree) Line.allTerminals
      (fun lines _ => Line.AllAttachNearest lines) where
  sound := exists_of_blockLines (fun _ _ _ => hline.sound)
  isLocal := hline.isLocal.blockLines fuel fuel
  viable := viable_blockLines hline fuel

/-- The words of a block. -/
def blocks : Language := fun word => ∃ lines : List Line,
  .fixed .openCurly :: (Line.allTerminals lines ++ [.fixed .closeCurly]) = word ∧
    Line.AllAttachNearest lines

theorem viable_blockLine (fuel : Nat) (tokens : Tokens) :
    Viable (blockLine line fuel) tokens blocks := by
  refine .expect_bind rfl fun _ left => ?_
  refine .bind (parses_blockLines hline fuel) fun lines mid hnearest => ?_
  exact .expect_bind rfl fun _ _ => .pure _ ⟨lines, rfl, hnearest⟩

end

section

variable {expression line : Reader Expr} {tokens : Tokens} {token : Token}
  (hexpression : ParsesFor expression Phrase.tree (@Phrase.terminals .relational))

include hexpression

theorem parses_condition : ParsesFor (condition expression) Phrase.tree
    (fun phrase : Phrase .relational =>
      .fixed .openParen :: (phrase.terminals ++ [.fixed .closeParen])) := by
  refine parsesFor (soundFor_condition (ParsesFor.soundFor hexpression))
    hexpression.isLocal.condition fun tokens => ?_
  refine .expect_bind rfl fun _ left => .bind hexpression fun inner mid _ => ?_
  exact .expect_bind rfl fun _ _ => .pure _ ⟨inner, rfl⟩

theorem viable_expressionLine : Viable (expressionLine expression) tokens lines := by
  refine .bind hexpression fun value left _ => ?_
  exact .expect_bind rfl fun _ _ => .pure _ ⟨.expression value, rfl, trivial⟩

theorem viable_assignmentLine : Viable (assignmentLine expression) tokens lines := by
  refine .expect_name_bind fun name left => .expect_bind rfl fun _ left₂ => ?_
  refine .bind hexpression fun value left₃ _ => ?_
  exact .expect_bind rfl fun _ _ => .pure _ ⟨.assign name.text value, rfl, trivial⟩

theorem viable_printlnLine (hcurrent : tokens.current = .ok token)
    (hkind : token.kind = .keyword .println) :
    Viable (printlnLine expression) tokens lines := by
  refine .advance_bind hcurrent hkind rfl fun left => ?_
  refine .bind (parses_condition hexpression) fun argument left₂ _ => ?_
  refine .expect_bind rfl fun _ _ => .pure _ ⟨.println argument, ?_, trivial⟩
  simp [Line.terminals]

variable (hline : ParsesLines line)

include hline

theorem viable_loopLine (hcurrent : tokens.current = .ok token)
    (hkind : token.kind = .keyword .«while») :
    Viable (loopLine expression line) tokens lines := by
  refine .advance_bind hcurrent hkind rfl fun left => ?_
  refine .bind (parses_condition hexpression) fun test left₂ _ => ?_
  refine .bind hline fun body left₃ hbody => .pure _ ⟨.loop test body, ?_, hbody.1⟩
  simp [Line.terminals]

/-- Behind its first line a conditional is complete, with or without an `else`. -/
theorem viable_conditionalLine (hcurrent : tokens.current = .ok token)
    (hkind : token.kind = .keyword .«if») :
    Viable (conditionalLine expression line) tokens lines := by
  refine .advance_bind hcurrent hkind rfl fun left => ?_
  refine .bind (parses_condition hexpression) fun test left₂ _ => ?_
  refine .bind hline fun thenBody left₃ hthen => ?_
  have hif : after thenBody.terminals
      (after (.fixed .openParen :: (test.terminals ++ [.fixed .closeParen]))
        (after [.fixed (.keyword .«if»)] lines)) [] :=
    ⟨.ifThen test thenBody, by simp [Line.terminals], hthen.1⟩
  refine .currentKind_bind (.nil hif) fun follower hfollower => ?_
  by_cases helse : follower.kind = .keyword .«else»
  · rw [if_pos helse]
    -- An open line would have taken this `else` itself.
    have hclosed : thenBody.endsOpen = false := by
      rw [← Bool.not_eq_true]
      intro hopen
      exact hthen.2 hopen ((head?_terminals_eq_else_iff hfollower).mpr helse)
    refine .advance_bind hfollower helse rfl fun left₄ => ?_
    refine .bind hline fun elseBody left₅ hbody => .pure _ ⟨.ifElse test thenBody elseBody, ?_, ?_⟩
    · simp [Line.terminals]
    · exact ⟨hclosed, hthen.1, hbody.1⟩
  · rw [if_neg helse]
    exact .pure _ hif

theorem viable_countedLine (hcurrent : tokens.current = .ok token)
    (hkind : token.kind = .keyword .«for») :
    Viable (countedLine expression line) tokens lines := by
  refine .advance_bind hcurrent hkind rfl fun left => .expect_bind rfl fun _ left₂ => ?_
  refine .expectFor_name_bind fun name left₃ => .expect_bind rfl fun _ left₄ => ?_
  refine .bind hexpression fun start left₅ _ => .expect_bind rfl fun _ left₆ => ?_
  refine .bind hexpression fun stop left₇ _ => .expect_bind rfl fun _ left₈ => ?_
  refine .bind hline fun body left₉ hbody => ?_
  exact .pure _ ⟨.counted name.text start stop body, by simp [Line.terminals], hbody.1⟩

theorem viable_lineOf {fuel : Nat} {form : LineForm} (hcurrent : tokens.current = .ok token)
    (hform : LineForm.ofKind? token.kind = some form) :
    Viable (lineOf expression line fuel form) tokens lines := by
  have hkind := LineForm.ofKind?_eq_some_iff.mp hform
  cases form with
  | println => exact viable_printlnLine hexpression hcurrent hkind
  | loop => exact viable_loopLine hexpression hline hcurrent hkind
  | conditional => exact viable_conditionalLine hexpression hline hcurrent hkind
  | counted => exact viable_countedLine hexpression hline hcurrent hkind
  | block =>
      refine (viable_blockLine hline fuel tokens).imp ?_
      rintro word ⟨lines, rfl, hnearest⟩
      exact ⟨.block lines, rfl, hnearest⟩

end

theorem parses_line (fuel : Nat) : ParsesLines (Reader.line .full fuel) := by
  induction fuel with
  | zero => exact parsesLines (sound_line 0) (.line .full 0 0) fun _ => .outOfFuel completable_lines
  | succ fuel ih =>
      refine parsesLines (sound_line _) (.line .full _ _) fun tokens => ?_
      have hexpression := parses_expressionOf fuel .relational
      refine .currentKind_bind completable_lines fun token hcurrent => ?_
      cases hform : LineForm.ofKind? token.kind with
      | some form =>
          simp only [Vocabulary.lineForm?, hform]
          exact viable_lineOf hexpression ih hcurrent hform
      | none =>
          simp only [Vocabulary.lineForm?, hform]
          refine .startsAssignment_bind (fun name => ?_) fun starts => ?_
          · -- Behind a name alone, a semicolon makes a line of it.
            exact ⟨[.fixed .semicolon], by simpa using Terminal.Occurs.fixed rfl,
              mem_lines_of_primary (.name name)⟩
          · split
            · exact viable_assignmentLine hexpression
            · exact viable_expressionLine hexpression

/-! ## Definitions -/

/-- The words derived from definitions in which every `else` belongs to the nearest conditional. -/
def items : Language := fun word =>
  ∃ item : Item, item.terminals = word ∧ item.AttachesNearest

theorem completable_items : Completable items := by
  obtain ⟨value, hvalue⟩ := mem_phrases_of_primary (.number "0") .relational
  refine ⟨[.fixed (.keyword .global), .name "x", .fixed .assignment, .numeral "0",
    .fixed .semicolon], ?_, .global "x" value, ?_, trivial⟩
  · simpa using ⟨Terminal.Occurs.fixed rfl, Terminal.occurs_x, Terminal.Occurs.fixed rfl,
      Terminal.occurs_zero, Terminal.Occurs.fixed rfl⟩
  · rw [Item.terminals, hvalue]
    rfl

theorem parses_parameter :
    ParsesFor parameter id (fun name => [Terminal.name name]) := by
  refine parsesFor soundFor_parameter .parameter fun tokens => ?_
  exact .expectFor_name_bind fun name left => .pure _ ⟨name.text, rfl⟩

section

variable {tokens : Tokens} {token : Token} (hcurrent : tokens.current = .ok token)

include hcurrent

theorem viable_globalDefinition (hkind : token.kind = .keyword .global) (fuel : Nat) :
    Viable (globalDefinition fuel) tokens items := by
  refine .advance_bind hcurrent hkind rfl fun left => .expectFor_name_bind fun name left₂ => ?_
  refine .expect_bind rfl fun _ left₃ => ?_
  refine .bind (parses_expressionOf fuel .relational) fun value left₄ _ => ?_
  exact .expect_bind rfl fun _ _ => .pure _ ⟨.global name.text value, rfl, trivial⟩

theorem viable_functionDefinition (hkind : token.kind = .keyword .define) (fuel : Nat) :
    Viable (functionDefinition .full fuel) tokens items := by
  refine .advance_bind hcurrent hkind rfl fun left => .expectFor_name_bind fun name left₂ => ?_
  refine .expect_bind rfl fun _ left₃ => ?_
  refine .bind (parses_listUntil parses_parameter .closeParen fuel) fun parameters left₄ _ => ?_
  refine .expectFor_bind rfl fun _ left₅ => ?_
  have hblock := viable_blockLine (parses_line fuel) fuel left₅
  have hbody : ∀ word, blocks word →
      after [.fixed .closeParen]
        (after (Grammar.commaSeparated (parameters.map fun name => [Terminal.name name]))
          (after [.fixed .openParen] (after [.name name.text]
            (after [.fixed (.keyword .define)] items)))) word := by
    rintro word ⟨body, rfl, hnearest⟩
    exact ⟨.function name.text parameters body, by simp [Item.terminals], hnearest⟩
  have hcompletable := hblock.completable.imp hbody
  refine .currentKind_bind hcompletable fun brace _ => ?_
  split
  · exact (hblock.map _).imp hbody
  · exact .failInstead _ hcompletable

end

theorem parses_definition (fuel : Nat) :
    Parses (Reader.definition .full fuel) Item.tree Item.terminals
      (fun item _ => item.AttachesNearest) where
  sound := fun h => sound_definition fuel h
  isLocal := .definition .full fuel fuel
  viable := by
    intro tokens
    refine .current_bind completable_items fun token hcurrent => ?_
    cases hform : DefinitionForm.ofKind? token.kind with
    | none =>
        simp only [Vocabulary.definitionForm?, hform]
        exact .failAt hcurrent _ completable_items
    | some form =>
        have hkind := DefinitionForm.ofKind?_eq_some_iff.mp hform
        simp only [Vocabulary.definitionForm?, hform]
        cases form with
        | global => exact viable_globalDefinition hcurrent hkind fuel
        | function => exact viable_functionDefinition hcurrent hkind fuel

/-! ## Whole sources -/

theorem viable_untilEnd {item : Reader α} {tree : δ → α} {terminals : δ → List Terminal}
    {holds : δ → List Terminal → Prop} {good : δ → Prop} (hitem : Parses item tree terminals holds)
    (hgood : ∀ derivation behind, holds derivation behind → good derivation) :
    ∀ (fuel : Nat) (tokens : Tokens), Viable (untilEnd item fuel) tokens
      (fun word => ∃ derivations : List δ, derivations.flatMap terminals = word ∧
        ∀ derivation ∈ derivations, good derivation) := by
  intro fuel
  induction fuel with
  | zero => exact fun _ => .outOfFuel (.nil ⟨[], rfl, by simp⟩)
  | succ fuel ih =>
      intro tokens
      refine .hasTokens_bind fun some => ?_
      split
      · refine .bind hitem fun first left hfirst => ((ih left).map _).imp ?_
        rintro word ⟨others, rfl, hothers⟩
        exact ⟨first :: others, rfl,
          List.forall_mem_cons.mpr ⟨hgood first _ hfirst, hothers⟩⟩
      · exact .pure [] ⟨[], rfl, by simp⟩

end Reader

end IntScript
