import IntScript.Proofs.Grammar.Follow

/-!
# A token sequence has at most one derivation

`Phrase.terminals` is injective, and so is `Line.terminals` on the derivations in which every `else`
belongs to the nearest conditional: two derivations that derive the same terminals are equal.

The induction needs more than that, because the parts of a derivation are followed by others: two
derivations are equal as soon as what they derive, *with something behind it that belongs to
neither*, is the same.  `ReadsUniquely` says so of any kind of item, with the condition on what
follows as a parameter; lists of items with commas between them inherit it
(`eq_of_commaSeparated_eq`).
-/

namespace IntScript.Grammar

/-- What an item derives cannot be confused with what another one derives, as long as what follows
both of them may do so. -/
def ReadsUniquely {α : Type} (terminals : α → List Terminal) (follows : List Terminal → Prop)
    (item : α) : Prop :=
  ∀ ⦃other : α⦄ ⦃behind behind' : List Terminal⦄, follows behind → follows behind' →
    terminals item ++ behind = terminals other ++ behind' → item = other ∧ behind = behind'

/-! ## Lists of items -/

section CommaSeparated

variable {α : Type} {terminals : α → List Terminal} {follows : List Terminal → Prop}
  {close : Terminal}

/-- The closing bracket starts no item. -/
theorem close_ne_commaSeparated
    (hstart : ∀ item behind rest, terminals item ++ behind ≠ close :: rest)
    (item : α) (others : List α) (behind rest : List Terminal) :
    close :: rest ≠ commaSeparated ((item :: others).map terminals) ++ behind := by
  cases others with
  | nil => exact (hstart item behind rest).symm
  | cons next others =>
      simp only [List.map_cons, commaSeparated, List.append_assoc]
      exact (hstart item _ rest).symm

/-- Lists of items between brackets cannot be confused if the items cannot. -/
theorem eq_of_commaSeparated_eq (hcomma : ∀ rest, follows (.fixed .comma :: rest))
    (hclose : ∀ rest, follows (close :: rest)) (hne : close ≠ .fixed .comma)
    (hstart : ∀ item behind rest, terminals item ++ behind ≠ close :: rest) :
    ∀ {items others : List α} {behind behind' : List Terminal},
      (∀ item ∈ items, ReadsUniquely terminals follows item) →
      commaSeparated (items.map terminals) ++ close :: behind =
        commaSeparated (others.map terminals) ++ close :: behind' →
      items = others ∧ behind = behind' := by
  intro items
  induction items with
  | nil =>
      intro others behind behind' _ heq
      cases others with
      | nil => exact ⟨rfl, (List.cons.inj heq).2⟩
      | cons other others => exact absurd heq (close_ne_commaSeparated hstart other others _ _)
  | cons item items ih =>
      intro others behind behind' hunique heq
      have hitem := hunique item (List.mem_cons_self ..)
      have hitems := fun item h => hunique item (List.mem_cons_of_mem _ h)
      cases others with
      | nil => exact absurd heq.symm (close_ne_commaSeparated hstart item items _ _)
      | cons other others =>
          cases items with
          | nil =>
              cases others with
              | nil =>
                  obtain ⟨rfl, hrest⟩ := hitem (hclose _) (hclose _) heq
                  exact ⟨rfl, (List.cons.inj hrest).2⟩
              | cons next' others =>
                  -- The closing bracket would stand where the other list has a comma.
                  simp only [List.map_cons, List.map_nil, commaSeparated, List.append_assoc] at heq
                  obtain ⟨-, hrest⟩ := hitem (hclose _) (hcomma _) heq
                  exact absurd (List.cons.inj hrest).1 hne
          | cons next items =>
              cases others with
              | nil =>
                  simp only [List.map_cons, List.map_nil, commaSeparated, List.append_assoc] at heq
                  obtain ⟨-, hrest⟩ := hitem (hcomma _) (hclose _) heq
                  exact absurd (List.cons.inj hrest).1.symm hne
              | cons next' others =>
                  simp only [List.map_cons, commaSeparated, List.append_assoc,
                    List.cons_append] at heq
                  obtain ⟨rfl, hrest⟩ := hitem (hcomma _) (hcomma _) heq
                  have htail : commaSeparated ((next :: items).map terminals) ++ close :: behind =
                      commaSeparated ((next' :: others).map terminals) ++ close :: behind' :=
                    (List.cons.inj hrest).2
                  obtain ⟨hitems', rfl⟩ := ih hitems htail
                  exact ⟨by rw [hitems'], rfl⟩

end CommaSeparated

/-! ## Phrases -/

/-- A labelled argument cannot be confused if its expression cannot. -/
theorem readsUniquely_labelled {argument : String × Phrase .relational}
    (h : ReadsUniquely Phrase.terminals (Ends .relational) argument.2) :
    ReadsUniquely (fun argument : String × Phrase .relational =>
      .name argument.1 :: .fixed .assignment :: argument.2.terminals) (Ends .relational)
      argument := by
  intro other behind behind' hbehind hbehind' heq
  simp only [List.cons_append, List.cons.injEq, Terminal.name.injEq, true_and] at heq
  obtain ⟨htext, hrest⟩ := heq
  obtain ⟨hphrase, rfl⟩ := h hbehind hbehind' hrest
  exact ⟨Prod.ext htext hphrase, rfl⟩

/-- A phrase cannot be confused with another one of its layer. -/
theorem Phrase.readsUniquely {layer : Precedence} (phrase : Phrase layer) :
    ReadsUniquely Phrase.terminals (Ends layer) phrase := by
  refine Phrase.induct
    (P := fun layer phrase => ReadsUniquely Phrase.terminals (Ends layer) phrase)
    (Q := fun layer others => ReadsUniquely Operands.terminals (Ends layer) others)
    ?group ?number ?name ?call ?labelledCall ?chain ?nil ?cons phrase
  case group =>
    intro inner ih other behind behind' _ _ heq
    cases other with
    | chain hlayer => exact absurd rfl hlayer
    | group inner' =>
        simp only [Phrase.terminals, List.cons_append, List.append_assoc, List.nil_append] at heq
        obtain ⟨rfl, hrest⟩ := ih (by simp [Terminal.continues]) (by simp [Terminal.continues])
          (List.cons.inj heq).2
        exact ⟨rfl, (List.cons.inj hrest).2⟩
    | _ => simp [Phrase.terminals] at heq
  case number =>
    intro digits other behind behind' _ _ heq
    cases other with
    | chain hlayer => exact absurd rfl hlayer
    | _ => simp_all [Phrase.terminals]
  case name =>
    intro text other behind behind' hbehind hbehind' heq
    cases other with
    | chain hlayer => exact absurd rfl hlayer
    | call | labelledCall =>
        -- A bracket behind the name would be part of the phrase.
        simp only [Phrase.terminals, List.cons_append, List.nil_append, List.cons.injEq] at heq
        rw [heq.2] at hbehind
        exact absurd hbehind (by simp [Terminal.continues])
    | _ => simp_all [Phrase.terminals]
  case call =>
    intro callee arguments ih other behind behind' hbehind hbehind' heq
    cases other with
    | chain hlayer => exact absurd rfl hlayer
    | name =>
        simp only [Phrase.terminals, List.cons_append, List.nil_append, List.cons.injEq] at heq
        rw [← heq.2] at hbehind'
        exact absurd hbehind' (by simp [Terminal.continues])
    | call callee' arguments' =>
        simp only [Phrase.terminals, List.cons_append, List.append_assoc, List.nil_append,
          List.cons.injEq, true_and, Terminal.name.injEq, argumentTerminals_eq_map] at heq
        obtain ⟨rfl, hrest⟩ := heq
        obtain ⟨rfl, rfl⟩ := eq_of_commaSeparated_eq
          (by simp [Terminal.continues]) (by simp [Terminal.continues]) (by decide)
          (fun argument => argument.terminals_ne_cons rfl) ih hrest
        exact ⟨rfl, rfl⟩
    | _ => simp [Phrase.terminals] at heq
  case labelledCall =>
    intro callee arguments ih other behind behind' hbehind hbehind' heq
    cases other with
    | chain hlayer => exact absurd rfl hlayer
    | name =>
        simp only [Phrase.terminals, List.cons_append, List.nil_append, List.cons.injEq] at heq
        rw [← heq.2] at hbehind'
        exact absurd hbehind' (by simp [Terminal.continues])
    | labelledCall callee' arguments' =>
        simp only [Phrase.terminals, List.cons_append, List.append_assoc, List.nil_append,
          List.cons.injEq, true_and, Terminal.name.injEq, labelledTerminals_eq_map] at heq
        obtain ⟨rfl, hrest⟩ := heq
        obtain ⟨rfl, rfl⟩ := eq_of_commaSeparated_eq
          (by simp [Terminal.continues]) (by simp [Terminal.continues]) (by decide)
          (by simp) (fun argument h => readsUniquely_labelled (ih argument h)) hrest
        exact ⟨rfl, rfl⟩
    | _ => simp [Phrase.terminals] at heq
  case chain =>
    intro layer hlayer first others hfirst hothers other behind behind' hbehind hbehind' heq
    cases other with
    | chain hlayer' first' others' =>
        -- The operators of the layer end both first operands, which are therefore the same.
        simp only [Phrase.terminals, List.append_assoc] at heq
        obtain ⟨rfl, hrest⟩ :=
          hfirst (others.ends hlayer hbehind) (others'.ends hlayer hbehind') heq
        obtain ⟨rfl, rfl⟩ := hothers hbehind hbehind' hrest
        exact ⟨rfl, rfl⟩
    | _ => exact absurd rfl hlayer
  case nil =>
    intro layer other behind behind' hbehind _ heq
    cases other with
    | nil => exact ⟨rfl, heq⟩
    | cons op hop right others =>
        subst hop
        simp only [Operands.terminals, List.nil_append, List.cons_append] at heq
        exact absurd (heq ▸ hbehind) not_ends_operator
  case cons =>
    intro layer op hop right others hright hothers other behind behind' hbehind hbehind' heq
    subst hop
    cases other with
    | nil =>
        simp only [Operands.terminals, List.nil_append, List.cons_append] at heq
        exact absurd (heq ▸ hbehind') not_ends_operator
    | cons op' hop' right' others' =>
        simp only [Operands.terminals, List.cons_append, List.append_assoc, List.cons.injEq,
          Terminal.fixed.injEq, TokenKind.operator.injEq] at heq
        obtain ⟨rfl, hrest⟩ := heq
        have hlayer := precedence_ne_primary op
        obtain ⟨rfl, hothers'⟩ :=
          hright (others.ends hlayer hbehind) (others'.ends hlayer hbehind') hrest
        obtain ⟨rfl, rfl⟩ := hothers hbehind hbehind' hothers'
        exact ⟨rfl, rfl⟩

/-- Expressions with the same terminal behind them, which goes on with neither. -/
theorem Phrase.eq_of_terminals_eq {phrase other : Phrase .relational} {terminal : Terminal}
    {behind behind' : List Terminal} (h : terminal.continues .relational = false)
    (heq : phrase.terminals ++ terminal :: behind = other.terminals ++ terminal :: behind') :
    phrase = other ∧ behind = behind' := by
  have hends : ∀ rest, Ends .relational (terminal :: rest) := fun rest => ends_cons.mpr h
  obtain ⟨hphrase, hrest⟩ := phrase.readsUniquely (hends _) (hends _) heq
  exact ⟨hphrase, (List.cons.inj hrest).2⟩

/-! ## Lines -/

namespace Line

/-- A line in which every `else` belongs to the nearest conditional cannot be confused with another
one, as long as what follows belongs to neither. -/
def ReadsOnce (line : Line) : Prop :=
  ∀ (other : Line) ⦃behind behind' : List Terminal⦄, line.AttachesNearest →
    other.AttachesNearest → line.Ends behind → other.Ends behind' →
    line.terminals ++ behind = other.terminals ++ behind' → line = other ∧ behind = behind'

/-- Lists of lines cannot be confused if the lines cannot. -/
theorem eq_of_allTerminals_eq : ∀ {lines others : List Line} {behind behind' : List Terminal},
    (∀ line ∈ lines, line.ReadsOnce) → AllAttachNearest lines → AllAttachNearest others →
    AllEnd behind → AllEnd behind' →
    allTerminals lines ++ behind = allTerminals others ++ behind' →
    lines = others ∧ behind = behind' := by
  intro lines
  induction lines with
  | nil =>
      intro others behind behind' _ _ _ hbehind _ heq
      cases others with
      | nil => exact ⟨rfl, heq⟩
      | cons other others =>
          simp only [allTerminals, List.append_assoc, List.nil_append] at heq
          exact absurd heq.symm (other.terminals_ne_of_allEnd hbehind _)
  | cons line lines ih =>
      intro others behind behind' honce hnearest hnearest' hbehind hbehind' heq
      cases others with
      | nil =>
          simp only [allTerminals, List.append_assoc, List.nil_append] at heq
          exact absurd heq (line.terminals_ne_of_allEnd hbehind' _)
      | cons other others =>
          simp only [allTerminals, List.append_assoc] at heq
          obtain ⟨rfl, hrest⟩ := honce line (List.mem_cons_self ..) other hnearest.1 hnearest'.1
            (line.ends_allTerminals lines hbehind) (other.ends_allTerminals others hbehind') heq
          obtain ⟨rfl, rfl⟩ := ih (fun line h => honce line (List.mem_cons_of_mem _ h)) hnearest.2
            hnearest'.2 hbehind hbehind' hrest
          exact ⟨rfl, rfl⟩

/-- A word or a brace that a line starts with starts no phrase. -/
theorem expression_terminals_ne {value : Phrase .relational} {kind : TokenKind}
    (h : (Terminal.fixed kind).startsPhrase = false) (behind rest : List Terminal) :
    (expression value).terminals ++ behind ≠ .fixed kind :: rest := by
  rw [terminals, List.append_assoc]
  exact value.terminals_ne_cons h _ _

/-- A line cannot be confused with another one. -/
theorem readsOnce (line : Line) : line.ReadsOnce := by
  induction line using Line.induct with
  | println argument =>
      intro other behind behind' _ _ _ _ heq
      cases other with
      | println argument' =>
          simp only [terminals, List.cons_append, List.append_assoc, List.cons.injEq,
            true_and] at heq
          obtain ⟨rfl, hrest⟩ := Phrase.eq_of_terminals_eq rfl heq
          exact ⟨rfl, by simpa using hrest⟩
      | expression value => exact absurd heq.symm (expression_terminals_ne rfl _ _)
      | _ => simp [terminals] at heq
  | loop condition body ih =>
      intro other behind behind' hnearest hnearest' hends hends' heq
      cases other with
      | loop condition' body' =>
          simp only [terminals, List.cons_append, List.append_assoc, List.cons.injEq,
            true_and] at heq
          obtain ⟨rfl, hrest⟩ := Phrase.eq_of_terminals_eq rfl heq
          obtain ⟨rfl, rfl⟩ := ih body' hnearest hnearest' hends hends' hrest
          exact ⟨rfl, rfl⟩
      | expression value => exact absurd heq.symm (expression_terminals_ne rfl _ _)
      | _ => simp [terminals] at heq
  | ifThen condition thenBody ih =>
      intro other behind behind' hnearest hnearest' hends hends' heq
      cases other with
      | ifThen condition' thenBody' =>
          simp only [terminals, List.cons_append, List.append_assoc, List.cons.injEq,
            true_and] at heq
          obtain ⟨rfl, hrest⟩ := Phrase.eq_of_terminals_eq rfl heq
          obtain ⟨rfl, rfl⟩ := ih thenBody' hnearest hnearest' (fun _ => hends rfl)
            (fun _ => hends' rfl) hrest
          exact ⟨rfl, rfl⟩
      | ifElse condition' thenBody' elseBody' =>
          simp only [terminals, List.cons_append, List.append_assoc, List.cons.injEq,
            true_and] at heq
          obtain ⟨rfl, hrest⟩ := Phrase.eq_of_terminals_eq rfl heq
          -- The bodies agree, so that an `else` follows this conditional, which would take it.
          obtain ⟨rfl, rfl⟩ := ih thenBody' hnearest hnearest'.2.1 (fun _ => hends rfl)
            (ends_of_endsOpen_eq_false hnearest'.1 _) hrest
          exact absurd rfl (hends rfl)
      | expression value => exact absurd heq.symm (expression_terminals_ne rfl _ _)
      | _ => simp [terminals] at heq
  | ifElse condition thenBody elseBody ih ih' =>
      intro other behind behind' hnearest hnearest' hends hends' heq
      cases other with
      | ifThen condition' thenBody' =>
          simp only [terminals, List.cons_append, List.append_assoc, List.cons.injEq,
            true_and] at heq
          obtain ⟨rfl, hrest⟩ := Phrase.eq_of_terminals_eq rfl heq
          obtain ⟨rfl, rfl⟩ := ih thenBody' hnearest.2.1 hnearest'
            (ends_of_endsOpen_eq_false hnearest.1 _) (fun _ => hends' rfl) hrest
          exact absurd rfl (hends' rfl)
      | ifElse condition' thenBody' elseBody' =>
          simp only [terminals, List.cons_append, List.append_assoc, List.cons.injEq,
            true_and] at heq
          obtain ⟨rfl, hrest⟩ := Phrase.eq_of_terminals_eq rfl heq
          obtain ⟨rfl, helse⟩ := ih thenBody' hnearest.2.1 hnearest'.2.1
            (ends_of_endsOpen_eq_false hnearest.1 _)
            (ends_of_endsOpen_eq_false hnearest'.1 _) hrest
          obtain ⟨rfl, rfl⟩ := ih' elseBody' hnearest.2.2 hnearest'.2.2 hends hends'
            (List.cons.inj helse).2
          exact ⟨rfl, rfl⟩
      | expression value => exact absurd heq.symm (expression_terminals_ne rfl _ _)
      | _ => simp [terminals] at heq
  | counted name start stop body ih =>
      intro other behind behind' hnearest hnearest' hends hends' heq
      cases other with
      | counted name' start' stop' body' =>
          simp only [terminals, List.cons_append, List.append_assoc, List.cons.injEq,
            true_and, Terminal.name.injEq] at heq
          obtain ⟨rfl, heq⟩ := heq
          obtain ⟨rfl, hstop⟩ := Phrase.eq_of_terminals_eq rfl heq
          obtain ⟨rfl, hbody⟩ := Phrase.eq_of_terminals_eq rfl hstop
          obtain ⟨rfl, rfl⟩ := ih body' hnearest hnearest' hends hends' hbody
          exact ⟨rfl, rfl⟩
      | expression value => exact absurd heq.symm (expression_terminals_ne rfl _ _)
      | _ => simp [terminals] at heq
  | block lines ih =>
      intro other behind behind' hnearest hnearest' _ _ heq
      cases other with
      | block lines' =>
          simp only [terminals, List.cons_append, List.append_assoc, List.cons.injEq,
            true_and] at heq
          obtain ⟨rfl, hrest⟩ := eq_of_allTerminals_eq ih hnearest hnearest'
            (.closeCurly _) (.closeCurly _) heq
          exact ⟨rfl, by simpa using hrest⟩
      | expression value => exact absurd heq.symm (expression_terminals_ne rfl _ _)
      | _ => simp [terminals] at heq
  | assign name value =>
      intro other behind behind' _ _ _ _ heq
      cases other with
      | assign name' value' =>
          simp only [terminals, List.cons_append, List.append_assoc, List.cons.injEq,
            true_and, Terminal.name.injEq] at heq
          obtain ⟨rfl, heq⟩ := heq
          obtain ⟨rfl, hrest⟩ := Phrase.eq_of_terminals_eq rfl heq
          exact ⟨rfl, by simpa using hrest⟩
      | expression value' =>
          simp only [terminals, List.cons_append, List.append_assoc] at heq
          exact absurd heq.symm (value'.terminals_ne_assignment (by simp) _ _)
      | _ => simp [terminals] at heq
  | expression value =>
      intro other behind behind' _ _ _ _ heq
      cases other with
      | assign name' value' =>
          simp only [terminals, List.cons_append, List.append_assoc] at heq
          exact absurd heq (value.terminals_ne_assignment (by simp) _ _)
      | expression value' =>
          simp only [terminals, List.append_assoc] at heq
          obtain ⟨rfl, hrest⟩ := Phrase.eq_of_terminals_eq rfl heq
          exact ⟨rfl, by simpa using hrest⟩
      | _ => exact absurd heq (expression_terminals_ne rfl _ _)

/-- Lines that derive the same terminals are the same. -/
theorem allTerminals_injective {lines others : List Line} (hnearest : AllAttachNearest lines)
    (hnearest' : AllAttachNearest others) (heq : allTerminals lines = allTerminals others) :
    lines = others :=
  (eq_of_allTerminals_eq (fun line _ => line.readsOnce) hnearest hnearest' .nil .nil
    (congrArg (· ++ []) heq)).1

end Line

/-! ## Definitions -/

namespace Item

/-- A definition cannot be confused with another one, whatever follows them. -/
theorem eq_of_terminals_eq {item other : Item} {behind behind' : List Terminal}
    (hnearest : item.AttachesNearest) (hnearest' : other.AttachesNearest)
    (heq : item.terminals ++ behind = other.terminals ++ behind') :
    item = other ∧ behind = behind' := by
  cases item with
  | global name value =>
      cases other with
      | global name' value' =>
          simp only [terminals, List.cons_append, List.append_assoc, List.cons.injEq,
            true_and, Terminal.name.injEq] at heq
          obtain ⟨rfl, heq⟩ := heq
          obtain ⟨rfl, hrest⟩ := Phrase.eq_of_terminals_eq rfl heq
          exact ⟨rfl, by simpa using hrest⟩
      | function => simp [terminals] at heq
  | function name parameters body =>
      cases other with
      | global => simp [terminals] at heq
      | function name' parameters' body' =>
          simp only [terminals, List.cons_append, List.append_assoc, List.cons.injEq,
            true_and, Terminal.name.injEq] at heq
          obtain ⟨rfl, heq⟩ := heq
          -- A parameter is a single terminal, so that anything may follow it.
          have hparameter : ∀ parameter ∈ parameters,
              ReadsUniquely (fun text => [Terminal.name text]) (fun _ => True) parameter := by
            intro parameter _ other behind behind' _ _ heq
            simpa using heq
          obtain ⟨rfl, hbody⟩ := eq_of_commaSeparated_eq (fun _ => trivial) (fun _ => trivial)
            (by decide) (by simp) hparameter heq
          obtain ⟨rfl, hrest⟩ := Line.eq_of_allTerminals_eq (fun line _ => line.readsOnce) hnearest
            hnearest' (.closeCurly _) (.closeCurly _) (List.cons.inj hbody).2
          exact ⟨rfl, by simpa using hrest⟩

/-- Definitions that derive the same terminals are the same. -/
theorem allTerminals_injective : ∀ {items others : List Item},
    (∀ item ∈ items, item.AttachesNearest) → (∀ item ∈ others, item.AttachesNearest) →
    allTerminals items = allTerminals others → items = others := by
  intro items
  induction items with
  | nil =>
      intro others _ _ heq
      cases others with
      | nil => rfl
      | cons other others => simp [allTerminals, terminals_ne_nil] at heq
  | cons item items ih =>
      intro others hnearest hnearest' heq
      cases others with
      | nil => simp [allTerminals, terminals_ne_nil] at heq
      | cons other others =>
          simp only [allTerminals, List.flatMap_cons] at heq
          rw [List.forall_mem_cons] at hnearest hnearest'
          obtain ⟨rfl, hrest⟩ := eq_of_terminals_eq hnearest.1 hnearest'.1 heq
          rw [ih hnearest.2 hnearest'.2 hrest]

end Item

end IntScript.Grammar
