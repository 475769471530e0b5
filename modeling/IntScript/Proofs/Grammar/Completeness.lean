import IntScript.Proofs.Grammar.Soundness

/-!
# What has a derivation is read

On tokens that start with the terminals of a derivation, the reader of its symbol yields the tree of
the derivation and leaves the tokens behind it, provided that what follows does not belong to the
derivation (`Ends`, `Line.Ends`), that every `else` belongs to the nearest conditional, and that the
numerals fit.

`Yields reader tokens post behind` says what a reader does *unless it runs out of fuel*, so that no
proof here counts fuel; that it never runs out is the matter of `Reader.Advances`.  The proofs go by
induction on the derivation and follow the reader, one lemma for each step that a reader can take.
-/

namespace IntScript

open Grammar

/-- The tokens are seen as these terminals, and the source ends behind them. -/
structure Tokens.Shows (tokens : Tokens) (terminals : List Terminal) : Prop where
  terminals_eq : tokens.terminals = terminals
  stop_rest : tokens.stop.rest = []

/-- The kind of token that comes first, at the end of the source if there is none. -/
def Grammar.nextKind (terminals : List Terminal) : TokenKind :=
  (terminals.head?.map Terminal.kind).getD .eof

@[simp] theorem Grammar.nextKind_cons (terminal : Terminal) (rest : List Terminal) :
    nextKind (terminal :: rest) = terminal.kind := rfl

/-- A kind with one spelling tells the terminal that comes first. -/
theorem Grammar.eq_cons_of_nextKind {terminals : List Terminal} {kind : TokenKind}
    (h : nextKind terminals = kind) (hfixed : kind.isFixed = true) :
    ∃ rest, terminals = .fixed kind :: rest := by
  subst h
  cases terminals with
  | nil => cases hfixed
  | cons terminal rest =>
      cases terminal with
      | fixed kind => exact ⟨rest, rfl⟩
      | name | numeral => cases hfixed

/-- What starts with a terminal of a class does not start with a token of a kind outside it. -/
theorem Grammar.nextKind_append_ne {starts : Terminal → Bool} {terminals : List Terminal}
    (hhead : ∃ first rest, terminals = first :: rest ∧ starts first = true) {kind : TokenKind}
    (h : starts (.fixed kind) = false) (hname : kind ≠ .identifier) (hnumber : kind ≠ .number)
    (rest : List Terminal) : nextKind (terminals ++ rest) ≠ kind := by
  obtain ⟨first, others, rfl, hstarts⟩ := hhead
  rw [List.cons_append, nextKind_cons]
  rintro rfl
  cases first with
  | fixed kind => exact Bool.false_ne_true (h.symm.trans hstarts)
  | name => exact hname rfl
  | numeral => exact hnumber rfl

namespace Reader

variable {α β δ : Type} {tokens : Tokens} {terminals behind : List Terminal}

/-- Unless it runs out of fuel, the reader yields a value with the property and leaves tokens that
are seen as `behind`. -/
def Yields (reader : Reader α) (tokens : Tokens) (post : α → Prop) (behind : List Terminal) :
    Prop :=
  match reader tokens with
  | .ok value left => post value ∧ left.Shows behind
  | .error (.fault _) _ => False
  | .error .outOfFuel _ => True

namespace Yields

variable {reader : Reader α} {next : α → Reader β} {post : α → Prop} {post' : β → Prop}
  {mid : List Terminal}

theorem pure {value : α} (hpost : post value) (h : tokens.Shows behind) :
    Yields (Pure.pure value) tokens post behind :=
  ⟨hpost, h⟩

theorem outOfFuel : Yields (Reader.outOfFuel (α := α)) tokens post behind :=
  trivial

/-- What the first reader leaves is what the second one finds. -/
theorem bind (hreader : Yields reader tokens post mid)
    (hnext : ∀ value left, post value → left.Shows mid → Yields (next value) left post' behind) :
    Yields (reader >>= next) tokens post' behind := by
  unfold Yields at hreader
  simp only [Yields, Bind.bind, EStateM.bind]
  cases heq : reader tokens with
  | ok value left =>
      rw [heq] at hreader
      exact hnext value left hreader.1 hreader.2
  | error halt left =>
      rw [heq] at hreader
      cases halt with
      | fault error => exact hreader.elim
      | outOfFuel => trivial

theorem bind_eq {value : α} (hreader : Yields reader tokens (· = value) mid)
    (hnext : ∀ left, left.Shows mid → Yields (next value) left post' behind) :
    Yields (reader >>= next) tokens post' behind := by
  refine bind hreader fun result left heq hleft => ?_
  rw [heq]
  exact hnext left hleft

/-- Terminals tell the first token, which is the end of the source if there are none. -/
theorem exists_current (h : tokens.Shows terminals) :
    ∃ token, tokens.current = .ok token ∧ token.kind = nextKind terminals := by
  obtain ⟨rfl, hstop⟩ := h
  simp only [Tokens.terminals, Tokens.current]
  cases tokens.pending with
  | nil => exact ⟨Token.atEnd (.ofNat tokens.stop.offset), by simp [Cursor.stopped, hstop], rfl⟩
  | cons token others => exact ⟨token, rfl, token.kind_terminal.symm⟩

theorem currentKind_bind {next : TokenKind → Reader β} (h : tokens.Shows terminals)
    (hnext : Yields (next (nextKind terminals)) tokens post' behind) :
    Yields (currentKind >>= next) tokens post' behind := by
  obtain ⟨token, hcurrent, hkind⟩ := exists_current h
  rw [← hkind] at hnext
  simpa only [Yields, Bind.bind, EStateM.bind, currentKind, Reader.current, hcurrent, Pure.pure,
    EStateM.pure] using hnext

theorem current_bind {next : Token → Reader β} (h : tokens.Shows terminals)
    (hnext : ∀ token, token.kind = nextKind terminals →
      Yields (next token) tokens post' behind) :
    Yields (current >>= next) tokens post' behind := by
  obtain ⟨token, hcurrent, hkind⟩ := exists_current h
  simpa only [Yields, Bind.bind, EStateM.bind, Reader.current, hcurrent] using hnext token hkind

/-- The first token is known by its terminal, and the others are left. -/
theorem exists_current_of_cons {terminal : Terminal} (h : tokens.Shows (terminal :: terminals)) :
    ∃ token, tokens.current = .ok token ∧ token.terminal = terminal ∧
      tokens.rest.Shows terminals := by
  obtain ⟨hterminals, hstop⟩ := h
  obtain ⟨token, others, hpending, rfl, rfl⟩ := List.map_eq_cons_iff.mp hterminals
  exact ⟨token, by simp [Tokens.current, hpending], rfl,
    ⟨by simp [Tokens.terminals, Tokens.rest, hpending], hstop⟩⟩

theorem advance (h : tokens.Shows terminals) :
    Yields Reader.advance tokens (·.kind = nextKind terminals) terminals.tail := by
  obtain ⟨token, hcurrent, hkind⟩ := exists_current h
  obtain ⟨rfl, hstop⟩ := h
  simp only [Yields, Reader.advance, hcurrent]
  exact ⟨hkind, by simp [Tokens.terminals, Tokens.rest], hstop⟩

/-- Looking ahead leaves what was there. -/
theorem lookahead (h : tokens.Shows terminals) (mid : List Terminal)
    (hreader : Yields reader tokens post mid) :
    Yields (Reader.lookahead reader) tokens post terminals := by
  unfold Yields at hreader
  simp only [Yields, Reader.lookahead]
  cases heq : reader tokens with
  | ok value left =>
      rw [heq] at hreader
      exact ⟨hreader.1, h⟩
  | error halt left =>
      rw [heq] at hreader
      cases halt with
      | fault error => exact hreader.elim
      | outOfFuel => trivial

theorem advance_bind {next : Token → Reader β} {terminal : Terminal}
    (h : tokens.Shows (terminal :: terminals))
    (hnext : ∀ token left, token.terminal = terminal → left.Shows terminals →
      Yields (next token) left post' behind) :
    Yields (Reader.advance >>= next) tokens post' behind := by
  obtain ⟨token, hcurrent, hterminal, hrest⟩ := exists_current_of_cons h
  simpa only [Yields, Bind.bind, EStateM.bind, Reader.advance, hcurrent] using
    hnext token tokens.rest hterminal hrest

theorem expect_bind {next : Token → Reader β} {terminal : Terminal} {kind : TokenKind}
    (h : tokens.Shows (terminal :: terminals)) (hkind : terminal.kind = kind)
    (hnext : ∀ token left, token.terminal = terminal → left.Shows terminals →
      Yields (next token) left post' behind) :
    Yields (expect kind >>= next) tokens post' behind := by
  obtain ⟨token, hcurrent, rfl, hrest⟩ := exists_current_of_cons h
  rw [Token.kind_terminal] at hkind
  simpa [Yields, Bind.bind, EStateM.bind, expect, Reader.current, Reader.advance, hcurrent, hkind]
    using hnext token tokens.rest rfl hrest

theorem expectFor_bind {next : Token → Reader β} {terminal : Terminal} {kind : TokenKind}
    {expectation : String} (h : tokens.Shows (terminal :: terminals))
    (hkind : terminal.kind = kind)
    (hnext : ∀ token left, token.terminal = terminal → left.Shows terminals →
      Yields (next token) left post' behind) :
    Yields (expectFor kind expectation >>= next) tokens post' behind := by
  obtain ⟨token, hcurrent, rfl, hrest⟩ := exists_current_of_cons h
  rw [Token.kind_terminal] at hkind
  simpa [Yields, Bind.bind, EStateM.bind, expectFor, Reader.current, Reader.advance, hcurrent,
    hkind] using hnext token tokens.rest rfl hrest

end Yields

/-! ## Repetition -/

/-- The reader reads what the derivation derives, where it is not followed by more of it. -/
def CompleteFor (reader : Reader α) (tree : δ → α) (terminals : δ → List Terminal)
    (follows : List Terminal → Prop) (derivation : δ) : Prop :=
  ∀ ⦃tokens behind⦄, (∀ terminal ∈ terminals derivation, terminal.Fits) → follows behind →
    tokens.Shows (terminals derivation ++ behind) →
    Yields reader tokens (· = tree derivation) behind

section Lists

variable {item : Reader α} {tree : δ → α} {terminals : δ → List Terminal}
  {follows : List Terminal → Prop} {close : TokenKind}

/-- One or more items with commas between them, before a closing bracket. -/
theorem yields_commaSeparated (hcomma : ∀ rest, follows (.fixed .comma :: rest))
    (hclose : ∀ rest, follows (.fixed close :: rest)) (hne : close ≠ .comma) :
    ∀ {fuel : Nat} {first : δ} {others : List δ} {tokens : Tokens},
      (∀ derivation ∈ first :: others, CompleteFor item tree terminals follows derivation) →
      (∀ terminal ∈ Grammar.commaSeparated ((first :: others).map terminals), terminal.Fits) →
      tokens.Shows (Grammar.commaSeparated ((first :: others).map terminals) ++
        .fixed close :: behind) →
      Yields (Reader.commaSeparated item fuel) tokens (· = (first :: others).map tree)
        (.fixed close :: behind) := by
  intro fuel
  induction fuel with
  | zero => intros; exact .outOfFuel
  | succ fuel ih =>
      intro first others tokens hitems hfits h
      rw [List.forall_mem_cons] at hitems
      cases others with
      | nil =>
          refine .bind_eq (hitems.1 hfits (hclose _) h) fun left hleft => ?_
          refine .currentKind_bind hleft ?_
          rw [nextKind_cons, Terminal.kind, if_neg hne]
          exact .pure rfl hleft
      | cons second others =>
          simp only [List.map_cons, Grammar.commaSeparated, List.append_assoc,
            List.cons_append] at h
          simp only [List.map_cons, Grammar.commaSeparated, List.forall_mem_append,
            List.forall_mem_cons] at hfits
          refine .bind_eq (hitems.1 hfits.1 (hcomma _) h) fun left hleft => ?_
          refine .currentKind_bind hleft ?_
          rw [nextKind_cons, Terminal.kind, if_pos rfl]
          refine .advance_bind hleft fun _ rest _ hrest => ?_
          refine .bind_eq (ih hitems.2 (by simpa using hfits.2.2) (by simpa using hrest))
            fun last hlast => ?_
          exact .pure rfl hlast

/-- Items with commas between them, or none, before a closing bracket that starts no item. -/
theorem yields_listUntil (hcomma : ∀ rest, follows (.fixed .comma :: rest))
    (hclose : ∀ rest, follows (.fixed close :: rest)) (hne : close ≠ .comma)
    (hstart : ∀ derivation rest, nextKind (terminals derivation ++ rest) ≠ close)
    {fuel : Nat} {derivations : List δ}
    (hitems : ∀ derivation ∈ derivations, CompleteFor item tree terminals follows derivation)
    (hfits : ∀ terminal ∈ Grammar.commaSeparated (derivations.map terminals), terminal.Fits)
    (h : tokens.Shows (Grammar.commaSeparated (derivations.map terminals) ++
      .fixed close :: behind)) :
    Yields (listUntil close item fuel) tokens (· = derivations.map tree)
      (.fixed close :: behind) := by
  refine .currentKind_bind h ?_
  cases derivations with
  | nil =>
      rw [List.map_nil, Grammar.commaSeparated, List.nil_append, nextKind_cons, Terminal.kind,
        if_pos rfl]
      exact .pure rfl h
  | cons first others =>
      have hfirst : nextKind (Grammar.commaSeparated ((first :: others).map terminals) ++
          .fixed close :: behind) ≠ close := by
        cases others with
        | nil => exact hstart first _
        | cons second others =>
            simp only [List.map_cons, Grammar.commaSeparated, List.append_assoc]
            exact hstart first _
      rw [if_neg hfirst]
      exact yields_commaSeparated hcomma hclose hne hitems hfits h

end Lists

/-! ## Expressions -/

section

variable {expression : Reader Expr} {inner : Phrase .relational} {fuel : Nat}

theorem yields_grouping
    (hinner : CompleteFor expression Phrase.tree Phrase.terminals (Ends .relational) inner)
    (hfits : ∀ terminal ∈ (Phrase.group inner).terminals, terminal.Fits)
    (h : tokens.Shows ((Phrase.group inner).terminals ++ behind)) :
    Yields (grouping expression) tokens (· = inner.tree) behind := by
  simp only [Phrase.terminals, List.cons_append, List.append_assoc, List.nil_append,
    List.forall_mem_cons, List.forall_mem_append] at h hfits
  refine .advance_bind h fun _ left _ hleft => ?_
  refine .bind_eq (hinner hfits.2.1 (ends_cons.mpr rfl) hleft) fun mid hmid => ?_
  exact .expect_bind hmid rfl fun _ last _ hlast => .pure rfl hlast

/-- A numeral that fits stands for its number. -/
theorem yields_numeral {digits : String} (hfits : (Terminal.numeral digits).Fits)
    (h : tokens.Shows (.numeral digits :: behind)) :
    Yields numeral tokens (· = .number (.ofNat (decimalValue digits))) behind := by
  refine .advance_bind h fun token left htoken hleft => ?_
  rw [Token.text_of_terminal_eq_numeral htoken, numeral?_eq_some_iff.mpr ⟨hfits, rfl⟩]
  exact .pure rfl hleft

/-- A name stands for a variable where no opening bracket follows. -/
theorem yields_named_name {name : String} (hends : Ends .primary behind)
    (h : tokens.Shows (.name name :: behind)) :
    Yields (named expression fuel) tokens (· = .symbol name) behind := by
  refine .expect_bind h rfl fun token left htoken hleft => ?_
  refine .currentKind_bind hleft ?_
  split
  next heq =>
    obtain ⟨rest, rfl⟩ := eq_cons_of_nextKind heq rfl
    exact absurd (ends_cons.mp hends) Bool.true_eq_false.mp
  next heq =>
    obtain ⟨rest, rfl⟩ := eq_cons_of_nextKind heq rfl
    exact absurd (ends_cons.mp hends) Bool.true_eq_false.mp
  next =>
    rw [Token.text_of_terminal_eq_name htoken]
    exact .pure rfl hleft

/-- A list of arguments behind its opening bracket. -/
theorem yields_callOf {callee : String} {arguments : List (Phrase .relational)}
    (harguments : ∀ argument ∈ arguments,
      CompleteFor expression Phrase.tree Phrase.terminals (Ends .relational) argument)
    (hfits : ∀ terminal ∈ Grammar.commaSeparated (arguments.map Phrase.terminals),
      terminal.Fits)
    (h : tokens.Shows (.fixed .openParen ::
      (Grammar.commaSeparated (arguments.map Phrase.terminals) ++
        .fixed .closeParen :: behind))) :
    Yields (callOf callee expression fuel) tokens (· = .call callee (arguments.map Phrase.tree))
      behind := by
  refine .expect_bind h rfl fun _ left _ hleft => ?_
  refine .bind_eq (yields_listUntil (fun _ => ends_cons.mpr rfl) (fun _ => ends_cons.mpr rfl)
    (by decide)
    (fun argument => nextKind_append_ne argument.exists_head rfl (by decide) (by decide))
    harguments hfits hleft) fun mid hmid => ?_
  exact .expectFor_bind hmid rfl fun _ last _ hlast => .pure rfl hlast

theorem completeFor_labelled {argument : String × Phrase .relational}
    (h : CompleteFor expression Phrase.tree Phrase.terminals (Ends .relational) argument.2) :
    CompleteFor (labelled expression) (fun argument => (argument.1, argument.2.tree))
      (fun argument => .name argument.1 :: .fixed .assignment :: argument.2.terminals)
      (Ends .relational) argument := by
  intro tokens behind hfits hends hshows
  simp only [List.forall_mem_cons] at hfits
  refine .expectFor_bind hshows rfl fun token left htoken hleft => ?_
  refine .expect_bind hleft rfl fun _ mid _ hmid => ?_
  refine .bind_eq (h hfits.2.2 hends hmid) fun last hlast => ?_
  rw [Token.text_of_terminal_eq_name htoken]
  exact .pure rfl hlast

/-- A list of labelled arguments behind its opening bracket. -/
theorem yields_labelledCallOf {callee : String} {arguments : List (String × Phrase .relational)}
    (harguments : ∀ argument ∈ arguments,
      CompleteFor expression Phrase.tree Phrase.terminals (Ends .relational) argument.2)
    (hfits : ∀ terminal ∈ Grammar.commaSeparated (labelledTerminals arguments), terminal.Fits)
    (h : tokens.Shows (.fixed .openBracket ::
      (Grammar.commaSeparated (labelledTerminals arguments) ++
        .fixed .closeBracket :: behind))) :
    Yields (labelledCallOf callee expression fuel) tokens
      (· = .labelledCall callee (labelledTrees arguments)) behind := by
  rw [labelledTerminals_eq_map] at h hfits
  rw [labelledTrees_eq_map]
  refine .expect_bind h rfl fun _ left _ hleft => ?_
  refine .bind_eq (yields_listUntil (fun _ => ends_cons.mpr rfl) (fun _ => ends_cons.mpr rfl)
    (by decide) (fun _ _ => by simp [Terminal.kind])
    (fun argument hmem => completeFor_labelled (harguments argument hmem)) hfits hleft)
    fun mid hmid => ?_
  exact .expectFor_bind hmid rfl fun _ last _ hlast => .pure rfl hlast

end

/-- The reader of a layer reads every phrase of that layer. -/
theorem completeFor_expressionOf {layer : Precedence} (phrase : Phrase layer) (fuel : Nat) :
    CompleteFor (Reader.expressionOf layer fuel) Phrase.tree Phrase.terminals (Ends layer)
      phrase := by
  refine Phrase.induct
    (P := fun layer phrase => ∀ fuel,
      CompleteFor (Reader.expressionOf layer fuel) Phrase.tree Phrase.terminals (Ends layer) phrase)
    (Q := fun layer others => ∀ fuel fuel' first,
      CompleteFor (Reader.operators layer (Reader.expressionOf layer.next fuel') fuel first)
        (Operands.fold first) Operands.terminals (Ends layer) others)
    ?group ?number ?name ?call ?labelledCall ?chain ?nil ?cons phrase fuel
  -- In every case the reader may run out of fuel at once, and then there is nothing to show.
  case group =>
    rintro inner ih (_ | fuel) tokens behind hfits _ h
    · exact .outOfFuel
    · exact .currentKind_bind h (yields_grouping (ih fuel) hfits h)
  case number =>
    rintro digits (_ | fuel) tokens behind hfits _ h
    · exact .outOfFuel
    · exact .currentKind_bind h (yields_numeral (by simpa [Phrase.terminals] using hfits) h)
  case name =>
    rintro name (_ | fuel) tokens behind _ hends h
    · exact .outOfFuel
    · exact .currentKind_bind h (yields_named_name hends h)
  case call =>
    rintro callee arguments ih (_ | fuel) tokens behind hfits _ h
    · exact .outOfFuel
    · simp only [Phrase.terminals, List.cons_append, List.append_assoc, List.nil_append,
        argumentTerminals_eq_map, List.forall_mem_cons, List.forall_mem_append] at h hfits
      refine .currentKind_bind h (.expect_bind h rfl fun token left htoken hleft => ?_)
      refine .currentKind_bind hleft ?_
      simp only [Phrase.tree, argumentTrees_eq_map, Token.text_of_terminal_eq_name htoken]
      exact yields_callOf (fun argument hmem => ih argument hmem fuel) hfits.2.2.1 hleft
  case labelledCall =>
    rintro callee arguments ih (_ | fuel) tokens behind hfits _ h
    · exact .outOfFuel
    · simp only [Phrase.terminals, List.cons_append, List.append_assoc, List.nil_append,
        List.forall_mem_cons, List.forall_mem_append] at h hfits
      refine .currentKind_bind h (.expect_bind h rfl fun token left htoken hleft => ?_)
      refine .currentKind_bind hleft ?_
      simp only [Phrase.tree, Token.text_of_terminal_eq_name htoken]
      exact yields_labelledCallOf (fun argument hmem => ih argument hmem fuel) hfits.2.2.1 hleft
  case chain =>
    rintro layer hlayer first others hfirst hothers (_ | fuel) tokens behind hfits hends h
    · exact .outOfFuel
    · simp only [Phrase.terminals, List.append_assoc, List.forall_mem_append] at h hfits
      rw [Reader.expressionOf]
      · refine .bind_eq (hfirst fuel hfits.1 (others.ends hlayer hends) h) fun left hleft => ?_
        exact hothers fuel fuel first.tree hfits.2 hends hleft
      · exact hlayer
  case nil =>
    rintro layer (_ | fuel) fuel' first tokens behind _ hends h
    · exact .outOfFuel
    · rw [Operands.terminals, List.nil_append] at h
      rw [Reader.operators]
      refine .currentKind_bind h ?_
      split
      next op hop =>
        -- An operator may follow, but it belongs to a looser layer.
        obtain ⟨rest, rfl⟩ := eq_cons_of_nextKind hop rfl
        have hlayer : op.precedence ≠ layer := by
          rintro rfl
          exact not_ends_operator hends
        rw [if_neg hlayer]
        exact .pure rfl h
      next => exact .pure rfl h
  case cons =>
    rintro layer op rfl right others hright hothers (_ | fuel) fuel' first tokens behind hfits
      hends h
    · exact .outOfFuel
    · simp only [Operands.terminals, List.cons_append, List.append_assoc, List.forall_mem_cons,
        List.forall_mem_append] at h hfits
      have hlayer := precedence_ne_primary op
      rw [Reader.operators]
      refine .currentKind_bind h ?_
      simp only [nextKind_cons, Terminal.kind, if_true]
      refine .advance_bind h fun _ left _ hleft => ?_
      refine .bind_eq (hright fuel' hfits.2.1 (others.ends hlayer hends) hleft) fun mid hmid => ?_
      exact hothers fuel fuel' _ hfits.2.2 hends hmid

/-! ## Lines -/

/-- A token that starts a phrase gives no form of line away. -/
theorem LineForm.ofKind?_eq_none {terminal : Terminal} (h : terminal.startsPhrase = true) :
    LineForm.ofKind? terminal.kind = none := by
  cases terminal with
  | fixed kind =>
      unfold Terminal.startsPhrase at h
      split at h <;> simp_all [Terminal.kind, LineForm.ofKind?]
  | name text => rfl
  | numeral digits => rfl

/-- Whether a name and an assignment sign come first. -/
def assigns (terminals : List Terminal) : Bool :=
  nextKind terminals = .identifier && nextKind terminals.tail = .assignment

theorem yields_startsAssignment (h : tokens.Shows terminals) :
    Yields startsAssignment tokens (· = assigns terminals) terminals := by
  by_cases hname : nextKind terminals = .identifier
  · refine .lookahead h terminals.tail.tail (.bind (.advance h) fun token left hkind hleft => ?_)
    rw [hkind, if_pos hname]
    refine .bind (.advance hleft) fun token' left' hkind' hleft' => ?_
    exact .pure (by simp [assigns, hname, hkind']) hleft'
  · refine .lookahead h terminals.tail (.bind (.advance h) fun token left hkind hleft => ?_)
    rw [hkind, if_neg hname]
    exact .pure (by simp [assigns, hname]) hleft

/-- A phrase is not mistaken for an assignment. -/
theorem assigns_phrase {layer : Precedence} (phrase : Phrase layer)
    (hbehind : behind.head? ≠ some (.fixed .assignment)) :
    assigns (phrase.terminals ++ behind) = false := by
  obtain ⟨first, others, hfirst, hstarts⟩ := phrase.exists_head
  have hne := phrase.terminals_ne_assignment hbehind
  rw [hfirst, List.cons_append] at hne ⊢
  cases first with
  | fixed kind =>
      unfold Terminal.startsPhrase at hstarts
      split at hstarts <;> simp_all [assigns, Terminal.kind]
  | numeral digits => rfl
  | name text =>
      cases hrest : others ++ behind with
      | nil => rfl
      | cons second rest =>
          cases second with
          | fixed kind =>
              have hkind : kind ≠ .assignment := by
                rintro rfl
                exact hne text rest (by rw [hrest])
              simp [assigns, Terminal.kind, hkind]
          | name | numeral => rfl

section

variable {expression line : Reader Expr} {inner : Phrase .relational} {fuel : Nat}

theorem yields_condition
    (hinner : CompleteFor expression Phrase.tree Phrase.terminals (Ends .relational) inner)
    (hfits : ∀ terminal ∈ inner.terminals, terminal.Fits)
    (h : tokens.Shows (.fixed .openParen :: (inner.terminals ++ .fixed .closeParen :: behind))) :
    Yields (condition expression) tokens (· = inner.tree) behind := by
  refine .expect_bind h rfl fun _ left _ hleft => ?_
  refine .bind_eq (hinner hfits (ends_cons.mpr rfl) hleft) fun mid hmid => ?_
  exact .expect_bind hmid rfl fun _ last _ hlast => .pure rfl hlast

theorem yields_expressionLine
    (hinner : CompleteFor expression Phrase.tree Phrase.terminals (Ends .relational) inner)
    (hfits : ∀ terminal ∈ inner.terminals, terminal.Fits)
    (h : tokens.Shows (inner.terminals ++ .fixed .semicolon :: behind)) :
    Yields (expressionLine expression) tokens (· = inner.tree) behind := by
  refine .bind_eq (hinner hfits (ends_cons.mpr rfl) h) fun left hleft => ?_
  exact .expect_bind hleft rfl fun _ last _ hlast => .pure rfl hlast

theorem yields_assignmentLine {name : String}
    (hinner : CompleteFor expression Phrase.tree Phrase.terminals (Ends .relational) inner)
    (hfits : ∀ terminal ∈ inner.terminals, terminal.Fits)
    (h : tokens.Shows (.name name :: .fixed .assignment ::
      (inner.terminals ++ .fixed .semicolon :: behind))) :
    Yields (assignmentLine expression) tokens (· = .assign name inner.tree) behind := by
  refine .expect_bind h rfl fun token left htoken hleft => ?_
  refine .expect_bind hleft rfl fun _ mid _ hmid => ?_
  refine .bind_eq (hinner hfits (ends_cons.mpr rfl) hmid) fun last hlast => ?_
  rw [Token.text_of_terminal_eq_name htoken]
  exact .expect_bind hlast rfl fun _ rest _ hrest => .pure rfl hrest

/-- Lines up to a closing brace, which starts no line. -/
theorem yields_blockLines : ∀ {fuel : Nat} {lines : List Line} {tokens : Tokens},
    (∀ body ∈ lines, CompleteFor line Line.tree Line.terminals body.Ends body) →
    (∀ terminal ∈ Line.allTerminals lines, terminal.Fits) →
    tokens.Shows (Line.allTerminals lines ++ .fixed .closeCurly :: behind) →
    Yields (blockLines line fuel) tokens (· = Line.allTrees lines)
      (.fixed .closeCurly :: behind) := by
  intro fuel
  induction fuel with
  | zero => intros; exact .outOfFuel
  | succ fuel ih =>
      intro lines tokens hlines hfits h
      rw [blockLines]
      cases lines with
      | nil => exact .currentKind_bind h (.pure rfl h)
      | cons first others =>
          rw [List.forall_mem_cons] at hlines
          simp only [Line.allTerminals, List.append_assoc, List.forall_mem_append] at h hfits
          refine .currentKind_bind h ?_
          split
          next heq =>
            exact absurd heq (nextKind_append_ne first.exists_head rfl (by decide) (by decide) _)
          next heq =>
            exact absurd heq (nextKind_append_ne first.exists_head rfl (by decide) (by decide) _)
          next =>
            refine .bind_eq (hlines.1 hfits.1 (first.ends_allTerminals others (.closeCurly _)) h)
              fun left hleft => ?_
            refine .bind_eq (ih hlines.2 hfits.2 hleft) fun last hlast => ?_
            exact .pure rfl hlast

theorem yields_blockLine {lines : List Line}
    (hlines : ∀ body ∈ lines, CompleteFor line Line.tree Line.terminals body.Ends body)
    (hfits : ∀ terminal ∈ Line.allTerminals lines, terminal.Fits)
    (h : tokens.Shows (.fixed .openCurly ::
      (Line.allTerminals lines ++ .fixed .closeCurly :: behind))) :
    Yields (blockLine line fuel) tokens (· = .block (Line.allTrees lines)) behind := by
  refine .expect_bind h rfl fun _ left _ hleft => ?_
  refine .bind_eq (yields_blockLines hlines hfits hleft) fun mid hmid => ?_
  exact .expect_bind hmid rfl fun _ last _ hlast => .pure rfl hlast

/-- A conditional without `else`, where none follows. -/
theorem yields_conditionalLine_ifThen {thenBody : Line}
    (hinner : CompleteFor expression Phrase.tree Phrase.terminals (Ends .relational) inner)
    (hthen : CompleteFor line Line.tree Line.terminals thenBody.Ends thenBody)
    (hfits : ∀ terminal ∈ (Line.ifThen inner thenBody).terminals, terminal.Fits)
    (hbehind : behind.head? ≠ some (.fixed (.keyword .«else»)))
    (h : tokens.Shows ((Line.ifThen inner thenBody).terminals ++ behind)) :
    Yields (conditionalLine expression line) tokens (· = .ifThen inner.tree thenBody.tree)
      behind := by
  simp only [Line.terminals, List.cons_append, List.append_assoc, List.forall_mem_cons,
    List.forall_mem_append] at h hfits
  refine .advance_bind h fun _ left _ hleft => ?_
  refine .bind_eq (yields_condition hinner hfits.2.2.1 hleft) fun mid hmid => ?_
  refine .bind_eq (hthen hfits.2.2.2.2 (fun _ => hbehind) hmid) fun last hlast => ?_
  refine .currentKind_bind hlast ?_
  have helse : nextKind behind ≠ .keyword .«else» := by
    intro heq
    obtain ⟨rest, rfl⟩ := eq_cons_of_nextKind heq rfl
    exact hbehind rfl
  rw [if_neg helse]
  exact .pure rfl hlast

/-- A conditional with `else`.  The line before it does not end open, so that the `else` is left to
this conditional. -/
theorem yields_conditionalLine_ifElse {thenBody elseBody : Line}
    (hinner : CompleteFor expression Phrase.tree Phrase.terminals (Ends .relational) inner)
    (hthen : CompleteFor line Line.tree Line.terminals thenBody.Ends thenBody)
    (helse : CompleteFor line Line.tree Line.terminals elseBody.Ends elseBody)
    (hclosed : thenBody.endsOpen = false)
    (hfits : ∀ terminal ∈ (Line.ifElse inner thenBody elseBody).terminals, terminal.Fits)
    (hends : elseBody.Ends behind)
    (h : tokens.Shows ((Line.ifElse inner thenBody elseBody).terminals ++ behind)) :
    Yields (conditionalLine expression line) tokens
      (· = .ifElse inner.tree thenBody.tree elseBody.tree) behind := by
  simp only [Line.terminals, List.cons_append, List.append_assoc, List.forall_mem_cons,
    List.forall_mem_append] at h hfits
  refine .advance_bind h fun _ left _ hleft => ?_
  refine .bind_eq (yields_condition hinner hfits.2.2.1 hleft) fun mid hmid => ?_
  -- The line before the `else` is closed, so that its reader does not take the `else`.
  refine .bind_eq (hthen hfits.2.2.2.2.1 (Line.ends_of_endsOpen_eq_false hclosed _) hmid)
    fun last hlast => ?_
  refine .currentKind_bind hlast ?_
  rw [nextKind_cons, Terminal.kind, if_pos rfl]
  refine .advance_bind hlast fun _ rest _ hrest => ?_
  refine .bind_eq (helse hfits.2.2.2.2.2.2 hends hrest) fun final hfinal => ?_
  exact .pure rfl hfinal

theorem yields_countedLine {name : String} {start stop : Phrase .relational} {body : Line}
    (hinner : ∀ phrase : Phrase .relational,
      CompleteFor expression Phrase.tree Phrase.terminals (Ends .relational) phrase)
    (hbody : CompleteFor line Line.tree Line.terminals body.Ends body)
    (hfits : ∀ terminal ∈ (Line.counted name start stop body).terminals, terminal.Fits)
    (hends : body.Ends behind)
    (h : tokens.Shows ((Line.counted name start stop body).terminals ++ behind)) :
    Yields (countedLine expression line) tokens (· = (Line.counted name start stop body).tree)
      behind := by
  simp only [Line.terminals, List.cons_append, List.append_assoc, List.forall_mem_cons,
    List.forall_mem_append] at h hfits
  obtain ⟨-, -, -, -, hfitsStart, -, hfitsStop, -, hfitsBody⟩ := hfits
  refine .advance_bind h fun _ left₁ _ h₁ => ?_
  refine .expect_bind h₁ rfl fun _ left₂ _ h₂ => ?_
  refine .expectFor_bind h₂ rfl fun token left₃ htoken h₃ => ?_
  refine .expect_bind h₃ rfl fun _ left₄ _ h₄ => ?_
  refine .bind_eq (hinner start hfitsStart (ends_cons.mpr rfl) h₄) fun left₅ h₅ => ?_
  refine .expect_bind h₅ rfl fun _ left₆ _ h₆ => ?_
  refine .bind_eq (hinner stop hfitsStop (ends_cons.mpr rfl) h₆) fun left₇ h₇ => ?_
  refine .expect_bind h₇ rfl fun _ left₈ _ h₈ => ?_
  refine .bind_eq (hbody hfitsBody hends h₈) fun left₉ h₉ => ?_
  rw [Token.text_of_terminal_eq_name htoken]
  exact .pure rfl h₉

end

/-- The reader of lines reads every line in which each `else` belongs to the nearest
conditional. -/
theorem completeFor_line (line : Line) : line.AttachesNearest → ∀ fuel,
    CompleteFor (Reader.line .full fuel) Line.tree Line.terminals line.Ends line := by
  have hinner : ∀ fuel (phrase : Phrase .relational), CompleteFor (expression fuel) Phrase.tree
      Phrase.terminals (Ends .relational) phrase :=
    fun fuel phrase => completeFor_expressionOf phrase fuel
  induction line using Line.induct with
  | println argument =>
      rintro _ (_ | fuel) tokens behind hfits _ h
      · exact .outOfFuel
      · simp only [Line.terminals, List.cons_append, List.append_assoc, List.nil_append,
          List.forall_mem_cons, List.forall_mem_append] at h hfits
        refine .currentKind_bind h (.advance_bind h fun _ left _ hleft => ?_)
        refine .bind_eq (yields_condition (hinner fuel argument) hfits.2.2.1 hleft)
          fun mid hmid => ?_
        exact .expect_bind hmid rfl fun _ last _ hlast => .pure rfl hlast
  | loop condition body ih =>
      rintro hnearest (_ | fuel) tokens behind hfits hends h
      · exact .outOfFuel
      · simp only [Line.terminals, List.cons_append, List.append_assoc, List.forall_mem_cons,
          List.forall_mem_append] at h hfits
        refine .currentKind_bind h (.advance_bind h fun _ left _ hleft => ?_)
        refine .bind_eq (yields_condition (hinner fuel condition) hfits.2.2.1 hleft)
          fun mid hmid => ?_
        refine .bind_eq (ih hnearest fuel hfits.2.2.2.2 hends hmid) fun last hlast => ?_
        exact .pure rfl hlast
  | ifThen condition thenBody ih =>
      rintro hnearest (_ | fuel) tokens behind hfits hends h
      · exact .outOfFuel
      · exact .currentKind_bind h
          (yields_conditionalLine_ifThen (hinner fuel condition) (ih hnearest fuel) hfits
            (hends rfl) h)
  | ifElse condition thenBody elseBody ih ih' =>
      rintro ⟨hclosed, hnearest, hnearest'⟩ (_ | fuel) tokens behind hfits hends h
      · exact .outOfFuel
      · exact .currentKind_bind h
          (yields_conditionalLine_ifElse (hinner fuel condition) (ih hnearest fuel)
            (ih' hnearest' fuel) hclosed hfits hends h)
  | counted name start stop body ih =>
      rintro hnearest (_ | fuel) tokens behind hfits hends h
      · exact .outOfFuel
      · exact .currentKind_bind h
          (yields_countedLine (hinner fuel) (ih hnearest fuel) hfits hends h)
  | block lines ih =>
      rintro hnearest (_ | fuel) tokens behind hfits _ h
      · exact .outOfFuel
      · simp only [Line.terminals, List.cons_append, List.append_assoc, List.nil_append,
          List.forall_mem_cons, List.forall_mem_append] at h hfits
        have hlines := fun body hmem =>
          ih body hmem (Line.allAttachNearest_iff.mp hnearest body hmem) fuel
        exact .currentKind_bind h (yields_blockLine hlines hfits.2.1 h)
  | assign name value =>
      rintro _ (_ | fuel) tokens behind hfits _ h
      · exact .outOfFuel
      · simp only [Line.terminals, List.cons_append, List.append_assoc, List.nil_append,
          List.forall_mem_cons, List.forall_mem_append] at h hfits
        refine .currentKind_bind h (.bind_eq (yields_startsAssignment h) fun left hleft => ?_)
        exact yields_assignmentLine (hinner fuel value) hfits.2.2.1 hleft
  | expression value =>
      rintro _ (_ | fuel) tokens behind hfits _ h
      · exact .outOfFuel
      · simp only [Line.terminals, List.append_assoc, List.cons_append, List.nil_append,
          List.forall_mem_append] at h hfits
        have hform : LineForm.ofKind? (nextKind (value.terminals ++ .fixed .semicolon :: behind)) =
            none := by
          obtain ⟨first, rest, hfirst, hstarts⟩ := value.exists_head
          rw [hfirst, List.cons_append, nextKind_cons]
          exact LineForm.ofKind?_eq_none hstarts
        -- Neither a form of line nor an assignment is found.
        rw [Reader.line]
        refine .currentKind_bind h ?_
        simp only [Vocabulary.lineForm?, hform]
        refine .bind_eq (yields_startsAssignment h) fun left hleft => ?_
        rw [assigns_phrase value (by simp), if_neg Bool.false_ne_true]
        exact yields_expressionLine (hinner fuel value) hfits.1 hleft

/-! ## Definitions -/

theorem completeFor_parameter (name : String) :
    CompleteFor parameter id (fun name => [Terminal.name name]) (fun _ => True) name := by
  intro tokens behind _ _ h
  refine .expectFor_bind h rfl fun token left htoken hleft => ?_
  exact .pure (Token.text_of_terminal_eq_name htoken) hleft

theorem yields_globalDefinition {name : String} {value : Phrase .relational} {fuel : Nat}
    (hfits : ∀ terminal ∈ (Item.global name value).terminals, terminal.Fits)
    (h : tokens.Shows ((Item.global name value).terminals ++ behind)) :
    Yields (globalDefinition fuel) tokens (· = .global name value.tree) behind := by
  simp only [Item.terminals, List.cons_append, List.append_assoc, List.nil_append,
    List.forall_mem_cons, List.forall_mem_append] at h hfits
  refine .advance_bind h fun _ left₁ _ h₁ => ?_
  refine .expectFor_bind h₁ rfl fun token left₂ htoken h₂ => ?_
  refine .expect_bind h₂ rfl fun _ left₃ _ h₃ => ?_
  refine .bind_eq (completeFor_expressionOf value fuel hfits.2.2.2.1 (ends_cons.mpr rfl) h₃)
    fun left₄ h₄ => ?_
  rw [Token.text_of_terminal_eq_name htoken]
  exact .expect_bind h₄ rfl fun _ left₅ _ h₅ => .pure rfl h₅

theorem yields_functionDefinition {name : String} {parameters : List String} {body : List Line}
    {fuel : Nat} (hnearest : Line.AllAttachNearest body)
    (hfits : ∀ terminal ∈ (Item.function name parameters body).terminals, terminal.Fits)
    (h : tokens.Shows ((Item.function name parameters body).terminals ++ behind)) :
    Yields (functionDefinition .full fuel) tokens
      (· = .function ⟨name, parameters, .block (Line.allTrees body)⟩) behind := by
  simp only [Item.terminals, List.cons_append, List.append_assoc, List.nil_append,
    List.forall_mem_cons, List.forall_mem_append] at h hfits
  obtain ⟨-, -, -, hfitsParameters, -, -, hfitsBody, -⟩ := hfits
  refine .advance_bind h fun _ left₁ _ h₁ => ?_
  refine .expectFor_bind h₁ rfl fun token left₂ htoken h₂ => ?_
  refine .expect_bind h₂ rfl fun _ left₃ _ h₃ => ?_
  refine .bind_eq (yields_listUntil (fun _ => trivial) (fun _ => trivial) (by decide)
    (fun _ _ => by simp [Terminal.kind]) (fun parameter _ => completeFor_parameter parameter)
    hfitsParameters h₃) fun left₄ h₄ => ?_
  refine .expectFor_bind h₄ rfl fun _ left₅ _ h₅ => ?_
  refine .currentKind_bind h₅ ?_
  rw [nextKind_cons, Terminal.kind, if_pos rfl]
  have hlines := fun line hmem =>
    completeFor_line line (Line.allAttachNearest_iff.mp hnearest line hmem) fuel
  refine .bind_eq (yields_blockLine hlines hfitsBody h₅) fun left₆ h₆ => ?_
  rw [Token.text_of_terminal_eq_name htoken, List.map_id]
  exact .pure rfl h₆

/-- The reader of definitions reads every definition, whatever follows. -/
theorem completeFor_definition (item : Item) (hnearest : item.AttachesNearest) (fuel : Nat) :
    CompleteFor (definition .full fuel) Item.tree Item.terminals (fun _ => True) item := by
  intro tokens behind hfits _ h
  cases item with
  | global name value =>
      refine .current_bind h fun token hkind => ?_
      rw [hkind]
      exact yields_globalDefinition hfits h
  | function name parameters body =>
      refine .current_bind h fun token hkind => ?_
      rw [hkind]
      exact yields_functionDefinition hnearest hfits h

/-! ## Whole sources -/

/-- Items up to the end of the source.  No item is empty, so that the reader stops at the end
only. -/
theorem yields_untilEnd {item : Reader α} {tree : δ → α} {terminals : δ → List Terminal}
    {follows : δ → List Terminal → Prop} (hne : ∀ derivation, terminals derivation ≠ [])
    (hfollows : ∀ derivation (others : List δ),
      follows derivation (others.flatMap terminals)) :
    ∀ {fuel : Nat} {derivations : List δ} {tokens : Tokens},
      (∀ derivation ∈ derivations,
        CompleteFor item tree terminals (follows derivation) derivation) →
      (∀ terminal ∈ derivations.flatMap terminals, terminal.Fits) →
      tokens.Shows (derivations.flatMap terminals) →
      Yields (untilEnd item fuel) tokens (· = derivations.map tree) [] := by
  intro fuel
  induction fuel with
  | zero => intros; exact .outOfFuel
  | succ fuel ih =>
      intro derivations tokens hitems hfits h
      have hsome : Yields hasTokens tokens (· = !tokens.atEnd) (derivations.flatMap terminals) :=
        ⟨rfl, h⟩
      refine .bind_eq hsome fun left hleft => ?_
      cases derivations with
      | nil =>
          have hend : tokens.atEnd = true := atEnd_iff.mpr ⟨h.terminals_eq, h.stop_rest⟩
          rw [hend]
          exact .pure rfl hleft
      | cons first others =>
          have hend : tokens.atEnd = false := by
            rw [← Bool.not_eq_true, atEnd_iff, h.terminals_eq]
            intro hnil
            exact hne first (List.append_eq_nil_iff.mp hnil.1).1
          rw [List.forall_mem_cons] at hitems
          rw [List.flatMap_cons, List.forall_mem_append] at hfits
          rw [List.flatMap_cons] at hleft
          rw [hend]
          refine .bind_eq (hitems.1 hfits.1 (hfollows first others) hleft) fun mid hmid => ?_
          refine .bind_eq (ih hitems.2 hfits.2 hmid) fun last hlast => ?_
          exact .pure rfl hlast

end Reader

end IntScript
