import IntScript.Proofs.Grammar.Derivation

/-!
# What starts a derivation, and what may follow it

Every decision between the alternatives of the grammar rests on the next one or two terminals.  The
facts that make the decisions sound are collected here.

* A phrase starts with a bracket, a name or a numeral (`Phrase.exists_head`), a line with one of
  these, a brace or the word of its form (`Line.exists_head`).
* A phrase of a layer is over when what follows it does not go on with it: `Ends layer behind`.
* A name with `=` behind it starts no phrase (`Phrase.terminals_ne_assignment`).
* A line is over unless it ends in a conditional without `else` and an `else` follows:
  `Line.Ends line behind`.
-/

namespace IntScript

namespace Terminal

/-- Whether the terminal, behind a phrase of the layer, is part of that phrase. -/
def continues (layer : Precedence) : Terminal → Bool
  | fixed (.operator op) => layer.rank ≤ op.precedence.rank
  | fixed .openParen | fixed .openBracket => true
  | _ => false

/-- Whether a phrase can start with the terminal. -/
def startsPhrase : Terminal → Bool
  | fixed .openParen | name _ | numeral _ => true
  | _ => false

/-- Whether a line can start with the terminal. -/
def startsLine : Terminal → Bool
  | fixed .openCurly | fixed (.keyword .println) | fixed (.keyword .«while») => true
  | fixed (.keyword .«if») | fixed (.keyword .«for») => true
  | terminal => terminal.startsPhrase

theorem startsLine_of_startsPhrase {terminal : Terminal} (h : terminal.startsPhrase = true) :
    terminal.startsLine = true := by
  unfold startsLine
  split <;> first | rfl | exact h

end Terminal

namespace Grammar

/-- What starts with a terminal of a class does not start with one outside it. -/
theorem append_ne_cons {starts : Terminal → Bool} {terminals : List Terminal}
    (hhead : ∃ first rest, terminals = first :: rest ∧ starts first = true) {terminal : Terminal}
    (h : starts terminal = false) (behind rest : List Terminal) :
    terminals ++ behind ≠ terminal :: rest := by
  obtain ⟨first, others, rfl, hstarts⟩ := hhead
  rw [List.cons_append]
  intro heq
  rw [(List.cons.inj heq).1, h] at hstarts
  exact Bool.false_ne_true hstarts

/-! ## Phrases -/

/-- What follows a phrase of the layer is not part of it. -/
def Ends (layer : Precedence) (behind : List Terminal) : Prop :=
  ∀ terminal ∈ behind.head?, terminal.continues layer = false

@[simp] theorem ends_cons {layer : Precedence} {terminal : Terminal} {behind : List Terminal} :
    Ends layer (terminal :: behind) ↔ terminal.continues layer = false := by
  simp [Ends]

/-- What ends a phrase ends one of a tighter layer. -/
theorem Ends.of_rank_le {layer tighter : Precedence} {behind : List Terminal}
    (h : Ends layer behind) (hle : layer.rank ≤ tighter.rank) : Ends tighter behind := by
  intro terminal hmem
  have hnot := h terminal hmem
  unfold Terminal.continues at hnot ⊢
  split <;> simp_all
  omega

theorem rank_next_le (layer : Precedence) : layer.rank ≤ layer.next.rank := by
  cases layer <;> simp [Precedence.rank, Precedence.next]

theorem rank_lt_next {layer : Precedence} (h : layer ≠ .primary) :
    layer.rank < layer.next.rank := by
  cases layer <;> simp_all [Precedence.rank, Precedence.next]

theorem precedence_ne_primary (op : Operator) : op.precedence ≠ .primary := by
  cases op <;> simp [Operator.precedence]

theorem ends_operator {layer : Precedence} {op : Operator} {behind : List Terminal}
    (hlt : op.precedence.rank < layer.rank) :
    Ends layer (.fixed (.operator op) :: behind) := by
  simpa [Terminal.continues] using hlt

theorem not_ends_operator {op : Operator} {behind : List Terminal} :
    ¬ Ends op.precedence (.fixed (.operator op) :: behind) := by
  simp [Terminal.continues]

/-- An operand is over where the next operator of its chain stands, and where the chain ends. -/
theorem Operands.ends {layer : Precedence} (hlayer : layer ≠ .primary) (others : Operands layer)
    {behind : List Terminal} (hbehind : Ends layer behind) :
    Ends layer.next (others.terminals ++ behind) := by
  cases others with
  | nil => exact hbehind.of_rank_le (rank_next_le layer)
  | cons op hop right others =>
      subst hop
      exact ends_operator (rank_lt_next hlayer)

theorem Phrase.exists_head {layer : Precedence} (phrase : Phrase layer) :
    ∃ first rest, phrase.terminals = first :: rest ∧ first.startsPhrase = true := by
  refine Phrase.induct
    (P := fun _ phrase => ∃ first rest, phrase.terminals = first :: rest ∧
      first.startsPhrase = true)
    (Q := fun _ _ => True)
    ?group ?number ?name ?call ?labelledCall ?chain (fun _ => trivial)
    (fun _ _ _ _ _ _ _ => trivial) phrase
  case group => exact fun inner _ => ⟨_, _, rfl, rfl⟩
  case number => exact fun digits => ⟨_, _, rfl, rfl⟩
  case name => exact fun name => ⟨_, _, rfl, rfl⟩
  case call => exact fun callee arguments _ => ⟨_, _, rfl, rfl⟩
  case labelledCall => exact fun callee arguments _ => ⟨_, _, rfl, rfl⟩
  case chain =>
    rintro layer hlayer first others ⟨head, rest, hhead, hstarts⟩ -
    exact ⟨head, rest ++ others.terminals, by rw [Phrase.terminals, hhead, List.cons_append],
      hstarts⟩

/-- A phrase does not start with a terminal that starts none. -/
theorem Phrase.terminals_ne_cons {layer : Precedence} (phrase : Phrase layer)
    {terminal : Terminal} (h : terminal.startsPhrase = false) (behind rest : List Terminal) :
    phrase.terminals ++ behind ≠ terminal :: rest :=
  append_ne_cons phrase.exists_head h behind rest

/-- An assignment sign does not stand behind the first name of a phrase, unless the name is all of
the phrase and the sign follows it. -/
theorem Phrase.terminals_ne_assignment {layer : Precedence} (phrase : Phrase layer)
    {behind : List Terminal} (hbehind : behind.head? ≠ some (.fixed .assignment))
    (name : String) (rest : List Terminal) :
    phrase.terminals ++ behind ≠ .name name :: .fixed .assignment :: rest := by
  refine Phrase.induct
    (P := fun _ phrase => ∀ behind, behind.head? ≠ some (.fixed .assignment) →
      phrase.terminals ++ behind ≠ .name name :: .fixed .assignment :: rest)
    (Q := fun _ others => ∀ behind, behind.head? ≠ some (.fixed .assignment) →
      (others.terminals ++ behind).head? ≠ some (.fixed .assignment))
    ?group ?number ?name ?call ?labelledCall ?chain ?nil ?cons phrase behind hbehind
  -- Only a phrase that is a single name leaves the second terminal to what follows.
  case group => intro inner _ behind _; simp [Phrase.terminals]
  case number => intro digits behind _; simp [Phrase.terminals]
  case name =>
    intro text behind hbehind heq
    simp only [Phrase.terminals, List.cons_append, List.nil_append, List.cons.injEq] at heq
    exact hbehind (by rw [heq.2, List.head?_cons])
  case call => intro callee arguments _ behind _; simp [Phrase.terminals]
  case labelledCall => intro callee arguments _ behind _; simp [Phrase.terminals]
  case chain =>
    intro layer hlayer first others hfirst hothers behind hbehind
    rw [Phrase.terminals, List.append_assoc]
    exact hfirst _ (hothers behind hbehind)
  case nil => exact fun layer behind hbehind => hbehind
  case cons =>
    intro layer op hop right others _ _ behind _
    simp [Operands.terminals]

/-! ## Lines -/

namespace Line

/-- What follows the line does not belong to it: an `else` would belong to a line that ends in a
conditional without one. -/
def Ends (line : Line) (behind : List Terminal) : Prop :=
  line.endsOpen = true → behind.head? ≠ some (.fixed (.keyword .«else»))

/-- A line that takes no `else` is over whatever follows. -/
theorem ends_of_endsOpen_eq_false {line : Line} (h : line.endsOpen = false)
    (behind : List Terminal) : line.Ends behind :=
  fun hopen => absurd (hopen.symm.trans h) Bool.true_eq_false.mp

theorem exists_head (line : Line) :
    ∃ first rest, line.terminals = first :: rest ∧ first.startsLine = true := by
  cases line with
  | expression value =>
      obtain ⟨first, rest, hfirst, hstarts⟩ := value.exists_head
      exact ⟨first, _, by rw [terminals, hfirst, List.cons_append],
        Terminal.startsLine_of_startsPhrase hstarts⟩
  | _ => exact ⟨_, _, rfl, rfl⟩

theorem terminals_ne_nil (line : Line) : line.terminals ≠ [] := by
  obtain ⟨first, rest, hfirst, -⟩ := line.exists_head
  exact fun hnil => List.cons_ne_nil _ _ (hfirst.symm.trans hnil)

/-- What follows lines is neither a further line nor an `else`. -/
def AllEnd (behind : List Terminal) : Prop :=
  ∀ terminal ∈ behind.head?,
    terminal.startsLine = false ∧ terminal ≠ .fixed (.keyword .«else»)

theorem AllEnd.nil : AllEnd [] := by
  simp [AllEnd]

theorem AllEnd.closeCurly (behind : List Terminal) : AllEnd (.fixed .closeCurly :: behind) := by
  simp [AllEnd, Terminal.startsLine, Terminal.startsPhrase]

theorem AllEnd.ne_else {behind : List Terminal} (h : AllEnd behind) :
    behind.head? ≠ some (.fixed (.keyword .«else»)) :=
  fun heq => (h _ heq).2 rfl

/-- A line is over where another one starts, and where no `else` stands. -/
theorem ends_allTerminals_of_ne_else (line : Line) (others : List Line) {behind : List Terminal}
    (hbehind : behind.head? ≠ some (.fixed (.keyword .«else»))) :
    line.Ends (allTerminals others ++ behind) := by
  intro _
  cases others with
  | nil => exact hbehind
  | cons next others =>
      obtain ⟨first, rest, hfirst, hstarts⟩ := next.exists_head
      rw [allTerminals, hfirst]
      simp only [List.cons_append, List.head?_cons]
      rintro heq
      rw [Option.some.inj heq] at hstarts
      exact Bool.false_ne_true hstarts

/-- A line is over where another one starts, and where all lines are over. -/
theorem ends_allTerminals (line : Line) (others : List Line) {behind : List Terminal}
    (hbehind : AllEnd behind) : line.Ends (allTerminals others ++ behind) :=
  line.ends_allTerminals_of_ne_else others hbehind.ne_else

/-- A line is over where another one starts, and at the end. -/
theorem ends_flatMap (line : Line) (others : List Line) :
    line.Ends (others.flatMap terminals) := by
  rw [← allTerminals_eq_flatMap, ← List.append_nil (allTerminals others)]
  exact line.ends_allTerminals others .nil

/-- No line starts where all lines are over. -/
theorem terminals_ne_of_allEnd (line : Line) {behind : List Terminal} (hbehind : AllEnd behind)
    (rest : List Terminal) : line.terminals ++ rest ≠ behind := by
  rintro rfl
  obtain ⟨first, others, hfirst, hstarts⟩ := line.exists_head
  have hnot := (hbehind first (by rw [hfirst]; rfl)).1
  exact Bool.false_ne_true (hnot.symm.trans hstarts)

end Line

/-! ## Definitions -/

theorem Item.terminals_ne_nil (item : Item) : item.terminals ≠ [] := by
  cases item <;> exact List.cons_ne_nil _ _

end Grammar

end IntScript
