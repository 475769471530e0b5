import IntScript.Expr.Layout
import IntScript.Proofs.Source.SurfaceForm

/-!
# The text of a surface form has a derivation

The text that is written for a tree of surface form scans to the terminals of a derivation whose
tree is that tree.

The derivation depends on the slot that an expression is written into, because the slot decides
about parentheses: a binary expression stands bare in a slot for its own layer or a looser one, and
in parentheses elsewhere.  So for a slot of any layer there is a phrase of that layer
(`Expr.IsOperand.printsPhrase`).  The left operand of an operator is written into a slot for the
operator's own layer and the right one into a slot for the next tighter layer, which is where the
rule for a chain of operators puts them (`Phrase.exists_extended`).

Texts are written with a continuation.  Every statement about a text is for all of them, with no
more than the condition that a word at the end of the text does not run into what follows.
-/

namespace IntScript

open Grammar

/-! ## Texts in pieces -/

/-- The characters of a text in pieces. -/
def text (pieces : List String) : List Char :=
  pieces.flatMap String.toList

@[simp] theorem text_nil : text [] = [] := rfl

@[simp] theorem text_cons (piece : String) (pieces : List String) :
    text (piece :: pieces) = piece.toList ++ text pieces := rfl

theorem toList_join (pieces : List String) : (String.join pieces).toList = text pieces :=
  String.toList_join

theorem separated_cons {c : Char} {rest : List Char} (h : isWordChar c = false) :
    Scans.Separated (c :: rest) := by
  intro first hfirst
  rw [List.head?_cons, Option.mem_some_iff] at hfirst
  rwa [← hfirst]

namespace Scans

variable {rest : List Char}

theorem openParen : Scans ('(' :: rest) [.fixed .openParen] rest :=
  single rfl rfl (by simp)

theorem closeParen : Scans (')' :: rest) [.fixed .closeParen] rest :=
  single rfl rfl (by simp)

theorem openBracket : Scans ('[' :: rest) [.fixed .openBracket] rest :=
  single rfl rfl (by simp)

theorem closeBracket : Scans (']' :: rest) [.fixed .closeBracket] rest :=
  single rfl rfl (by simp)

theorem openCurly : Scans ('\x7b' :: rest) [.fixed .openCurly] rest :=
  single rfl rfl (by simp)

theorem closeCurly : Scans ('\x7d' :: rest) [.fixed .closeCurly] rest :=
  single rfl rfl (by simp)

theorem semicolon : Scans (';' :: rest) [.fixed .semicolon] rest :=
  single rfl rfl (by simp)

theorem space : Scans (' ' :: rest) [] rest :=
  .blank (by decide) (.nil rest)

theorem lineBreak : Scans ('\n' :: rest) [] rest :=
  .blank (by decide) (.nil rest)

/-- A comma and the blank behind it. -/
theorem commaSpace : Scans (',' :: ' ' :: rest) [.fixed .comma] rest := by
  have hcomma : Scans (',' :: ' ' :: rest) [.fixed .comma] (' ' :: rest) :=
    single rfl rfl (by simp)
  exact hcomma.trans space

/-- An assignment sign between blanks. -/
theorem assignment : Scans (' ' :: '=' :: ' ' :: rest) [.fixed .assignment] rest := by
  have hsign : Scans ('=' :: ' ' :: rest) [.fixed .assignment] (' ' :: rest) :=
    single rfl rfl (by simp)
  exact space.trans (hsign.trans space)

end Scans

/-! ## Operands -/

namespace Slot

/-- The layer of the expressions that stand bare in the slot. -/
def layer : Slot → Precedence
  | line _ | operand .lowest => .relational
  | operand layer => layer

/-- An operator stands bare in a slot unless it is looser than the layer of the slot. -/
theorem rank_lt_least_iff (op : Operator) (slot : Slot) :
    op.precedence.rank < slot.least.rank ↔ op.precedence.rank < slot.layer.rank := by
  have hpos : 1 ≤ op.precedence.rank := by cases op <;> decide
  -- No operator is looser than either of the two loosest layers.
  have hlowest : op.precedence.rank < 0 ↔ op.precedence.rank < 1 :=
    ⟨fun h => absurd h (Nat.not_lt_zero _), fun h => absurd h (Nat.not_lt_of_le hpos)⟩
  cases slot with
  | line depth => exact hlowest
  | operand least =>
      cases least with
      | lowest => exact hlowest
      | _ => exact Iff.rfl

end Slot

namespace Grammar

/-- A phrase is a phrase of every looser layer. -/
theorem exists_loosened {tight : Precedence} (phrase : Phrase tight) :
    ∀ {layer : Precedence}, layer.rank ≤ tight.rank →
      ∃ looser : Phrase layer, looser.tree = phrase.tree ∧ looser.terminals = phrase.terminals := by
  -- One chain without operators for each layer in between.
  suffices ∀ gap (layer : Precedence), tight.rank = layer.rank + gap →
      ∃ looser : Phrase layer, looser.tree = phrase.tree ∧
        looser.terminals = phrase.terminals from
    fun {layer} h => this _ layer (Nat.add_sub_cancel' h).symm
  intro gap
  induction gap with
  | zero =>
      intro layer hrank
      obtain rfl : tight = layer := by cases tight <;> cases layer <;> first | rfl | cases hrank
      exact ⟨phrase, rfl, rfl⟩
  | succ gap ih =>
      intro layer hrank
      have hlayer : layer ≠ .primary := by
        rintro rfl
        cases tight <;> simp only [Precedence.rank] at hrank <;> omega
      have hnext : layer.next.rank = layer.rank + 1 := by
        cases layer <;> first | rfl | exact absurd rfl hlayer
      obtain ⟨looser, htree, hterminals⟩ := ih layer.next (by omega)
      refine ⟨.chain hlayer looser .nil, htree, ?_⟩
      rw [Phrase.terminals, Operands.terminals, List.append_nil, hterminals]

/-- An operator and its right operand extend operators and operands at their end. -/
theorem Operands.exists_extended {layer : Precedence} {op : Operator}
    (hop : op.precedence = layer) (right : Phrase layer.next) :
    ∀ others : Operands layer, ∃ extended : Operands layer,
      (∀ first, extended.fold first = .binary op (others.fold first) right.tree) ∧
        extended.terminals = others.terminals ++ .fixed (.operator op) :: right.terminals
  | .nil => ⟨.cons op hop right .nil, fun _ => rfl, by simp [Operands.terminals]⟩
  | .cons op' hop' right' others => by
      obtain ⟨extended, htree, hterminals⟩ := exists_extended hop right others
      refine ⟨.cons op' hop' right' extended, fun first => htree _, ?_⟩
      rw [Operands.terminals, hterminals, Operands.terminals, List.cons_append, List.append_assoc]

/-- An operator and its right operand extend a chain at its end. -/
theorem Phrase.exists_extended {layer : Precedence} (phrase : Phrase layer) {op : Operator}
    (hop : op.precedence = layer) (right : Phrase layer.next) :
    ∃ extended : Phrase layer, extended.tree = .binary op phrase.tree right.tree ∧
      extended.terminals = phrase.terminals ++ .fixed (.operator op) :: right.terminals := by
  cases phrase with
  | chain hlayer first others =>
      obtain ⟨extended, htree, hterminals⟩ := others.exists_extended hop right
      refine ⟨.chain hlayer first extended, htree _, ?_⟩
      rw [Phrase.terminals, hterminals, Phrase.terminals, List.append_assoc]
  | _ => exact absurd hop (precedence_ne_primary op)

end Grammar

/-! ## Lists with commas -/

/-- The pieces of items with a comma and a blank between any two. -/
def layoutSeparated {α : Type} (layout : α → List String → List String) (items : List α)
    (rest : List String) : List String :=
  match items with
  | [] => rest
  | [item] => layout item rest
  | item :: next :: others => layout item (", " :: layoutSeparated layout (next :: others) rest)

/-- The pieces, with any others behind them that do not go on with the last word, scan to the
terminals. -/
def WritesAs (layout : List String → List String) (terminals : List Terminal) : Prop :=
  (∀ terminal ∈ terminals, terminal.Fits) ∧
    ∀ rest, Scans.Separated (text rest) → Scans (text (layout rest)) terminals (text rest)

/-- Items that are written as derivations of them are so with commas between them. -/
theorem exists_writesAs_separated {α δ : Type} {layout : α → List String → List String}
    {tree : δ → α} {terminals : δ → List Terminal} : ∀ {items : List α},
    (∀ item ∈ items, ∃ derivation, tree derivation = item ∧
      WritesAs (layout item) (terminals derivation)) →
    ∃ derivations : List δ, derivations.map tree = items ∧
      WritesAs (layoutSeparated layout items) (commaSeparated (derivations.map terminals)) := by
  intro items
  induction items with
  | nil => exact fun _ => ⟨[], rfl, by simp [commaSeparated], fun rest _ => .nil _⟩
  | cons item others ih =>
      intro hitems
      rw [List.forall_mem_cons] at hitems
      obtain ⟨first, rfl, hfits, hscans⟩ := hitems.1
      obtain ⟨derivations, htrees, hfits', hscans'⟩ := ih hitems.2
      cases others with
      | nil => exact ⟨[first], rfl, hfits, hscans⟩
      | cons second others =>
          -- There is a derivation for the second item, and so a comma between it and the first.
          obtain ⟨follower, derivations, rfl⟩ :
              ∃ follower others, derivations = follower :: others := by
            cases derivations with
            | nil => cases htrees
            | cons follower others => exact ⟨follower, others, rfl⟩
          refine ⟨first :: follower :: derivations, by rw [List.map_cons, htrees], ?_,
            fun rest hrest => ?_⟩
          · simp only [List.map_cons, commaSeparated, List.forall_mem_append, List.forall_mem_cons]
            exact ⟨hfits, trivial, hfits'⟩
          · simp only [layoutSeparated, List.map_cons, commaSeparated]
            refine (hscans _ ?_).trans (Scans.commaSpace.trans (hscans' rest hrest))
            exact separated_cons (by decide)

/-! ## Expressions -/

theorem toList_decimal {value : Int64} (h : 0 ≤ value) :
    (Text.decimal value).toList = Nat.toDigits 10 value.toNatClampNeg := by
  have hcast : value.toInt = value.toNatClampNeg := (Int64.cast_toNatClampNeg value h).symm
  have hnonneg : ¬ value.toInt < 0 := by omega
  rw [Text.decimal, if_neg hnonneg, Text.decimalNat, String.toList_ofList, hcast,
    Int.natAbs_natCast]

/-- The decimal form of a number that is not negative is a numeral of that number. -/
theorem fits_decimal {value : Int64} (h : 0 ≤ value) :
    (Terminal.numeral (Text.decimal value)).Fits ∧
      Int64.ofNat (decimalValue (Text.decimal value)) = value := by
  have hdigits : decimalValue (Text.decimal value) = value.toNatClampNeg := by
    rw [decimalValue, toList_decimal h, Nat.ofDigitChars_ten_toDigits]
  refine ⟨⟨?_, ?_, ?_⟩, ?_⟩
  · rw [toList_decimal h]
    exact Nat.toDigits_ne_nil
  · rw [toList_decimal h]
    exact fun c hmem => Nat.isDigit_of_mem_toDigits (by decide) (by decide) hmem
  · rw [hdigits]
    exact Nat.le_of_lt_succ value.toNatClampNeg_lt
  · rw [hdigits, Int64.ofNat_toNatClampNeg value h]

namespace Expr

/-- In the slot the expression is written as a phrase of the layer of the slot. -/
def PrintsPhrase (expr : Expr) (slot : Slot) : Prop :=
  ∃ phrase : Phrase slot.layer, phrase.tree = expr ∧
    (∀ terminal ∈ phrase.terminals, terminal.Fits) ∧
    ∀ rest, Scans.Separated (slot.ending.toList ++ text rest) →
      Scans (text (expr.layout slot rest)) phrase.terminals (slot.ending.toList ++ text rest)

/-- What is written as one of the tightest phrases is written as a phrase of every layer. -/
theorem PrintsPhrase.of_primary {expr : Expr} {slot : Slot} (phrase : Phrase .primary)
    (htree : phrase.tree = expr) (hfits : ∀ terminal ∈ phrase.terminals, terminal.Fits)
    (hscans : ∀ rest, Scans.Separated (slot.ending.toList ++ text rest) →
      Scans (text (expr.layout slot rest)) phrase.terminals (slot.ending.toList ++ text rest)) :
    expr.PrintsPhrase slot := by
  have hrank : slot.layer.rank ≤ Precedence.primary.rank := by
    cases slot.layer <;> decide
  obtain ⟨looser, hlooser, hterminals⟩ := exists_loosened phrase hrank
  refine ⟨looser, hlooser.trans htree, ?_, ?_⟩ <;> rw [hterminals]
  · exact hfits
  · exact hscans

theorem printsPhrase_number {value : Int64} (h : 0 ≤ value) (slot : Slot) :
    (number value).PrintsPhrase slot := by
  obtain ⟨hfits, hvalue⟩ := fits_decimal h
  refine .of_primary (.number (Text.decimal value)) ?_ ?_ ?_
  · rw [Phrase.tree, hvalue]
  · simpa [Phrase.terminals] using hfits
  · intro rest hrest
    simp only [layout, text_cons]
    exact .numeral hfits.1 hfits.2.1 hrest

theorem printsPhrase_symbol {name : String} (h : IsName name) (slot : Slot) :
    (symbol name).PrintsPhrase slot := by
  refine .of_primary (.name name) rfl ?_ ?_
  · simp [Phrase.terminals, Terminal.Fits]
  · intro rest hrest
    simp only [layout, text_cons]
    exact .name h hrest

/-- An operand has no ending, so that the text goes on behind the phrase. -/
theorem PrintsPhrase.operand {expr : Expr} {layer : Precedence} (hlayer : layer ≠ .lowest)
    (h : expr.PrintsPhrase (.operand layer)) :
    ∃ phrase : Phrase layer, phrase.tree = expr ∧
      WritesAs (expr.layout (.operand layer)) phrase.terminals := by
  cases layer with
  | lowest => exact absurd rfl hlayer
  | _ => exact h

theorem PrintsPhrase.operand_lowest {expr : Expr} (h : expr.PrintsPhrase (.operand .lowest)) :
    ∃ phrase : Phrase .relational, phrase.tree = expr ∧
      WritesAs (expr.layout (.operand .lowest)) phrase.terminals :=
  h

/-- Operands with their operator between them, written bare. -/
theorem exists_phrase_operands {op : Operator} {left right : Expr}
    (hleft : ∀ slot, left.PrintsPhrase slot) (hright : ∀ slot, right.PrintsPhrase slot) :
    ∃ phrase : Phrase op.precedence, phrase.tree = .binary op left right ∧
      WritesAs (fun rest => left.layout (.operand op.precedence)
        (" " :: op.symbol :: " " :: right.layout (.operand op.precedence.next) rest))
        phrase.terminals := by
  have hlayer : op.precedence ≠ .lowest ∧ op.precedence.next ≠ .lowest := by
    cases op <;> exact ⟨nofun, nofun⟩
  obtain ⟨first, rfl, hfits, hscans⟩ := (hleft _).operand hlayer.1
  obtain ⟨second, rfl, hfits', hscans'⟩ := (hright _).operand hlayer.2
  obtain ⟨phrase, htree, hterminals⟩ := first.exists_extended rfl second
  refine ⟨phrase, htree, ?_, fun rest hrest => ?_⟩
  · rw [hterminals, List.forall_mem_append, List.forall_mem_cons]
    exact ⟨hfits, trivial, hfits'⟩
  · rw [hterminals]
    refine (hscans _ ?_).trans
      (Scans.space.trans ((Scans.operator op _).trans (Scans.space.trans (hscans' rest hrest))))
    exact separated_cons (by decide)

/-- A binary expression is written bare, or in parentheses where it is too loose for the slot. -/
theorem printsPhrase_binary {op : Operator} {left right : Expr}
    (hleft : ∀ slot, left.PrintsPhrase slot) (hright : ∀ slot, right.PrintsPhrase slot)
    (slot : Slot) : (binary op left right).PrintsPhrase slot := by
  obtain ⟨phrase, htree, hfits, hscans⟩ := exists_phrase_operands hleft hright
  by_cases hloose : op.precedence.rank < slot.least.rank
  · have hrank : Precedence.relational.rank ≤ op.precedence.rank := by cases op <;> decide
    -- Between parentheses any expression may stand, and a group may stand in any slot.
    obtain ⟨looser, hlooser, hterminals⟩ := exists_loosened phrase hrank
    refine .of_primary (.group looser) (hlooser.trans htree) ?_ ?_
    · rw [Phrase.terminals, hterminals]
      simp only [List.forall_mem_cons, List.forall_mem_append]
      exact ⟨trivial, hfits, trivial, by simp⟩
    · intro rest _
      simp only [layout, if_pos hloose]
      rw [Phrase.terminals, hterminals]
      exact Scans.openParen.trans
        ((hscans (")" :: slot.ending :: rest) (separated_cons (by decide))).trans Scans.closeParen)
  · have hrank : slot.layer.rank ≤ op.precedence.rank :=
      Nat.le_of_not_lt fun hlt => hloose ((Slot.rank_lt_least_iff op slot).mpr hlt)
    obtain ⟨looser, hlooser, hterminals⟩ := exists_loosened phrase hrank
    refine ⟨looser, hlooser.trans htree, by rwa [hterminals], fun rest hrest => ?_⟩
    simp only [layout, if_neg hloose]
    rw [hterminals]
    exact hscans (slot.ending :: rest) hrest

theorem layoutArguments_eq : ∀ (arguments : List Expr) (rest : List String),
    layoutArguments arguments rest =
      layoutSeparated (fun argument => argument.layout (.operand .lowest)) arguments rest
  | [], rest => rfl
  | [argument], rest => rfl
  | argument :: second :: others, rest => by
      rw [layoutArguments, layoutArguments_eq, layoutSeparated]

theorem layoutLabelled_eq : ∀ (arguments : List (String × Expr)) (rest : List String),
    layoutLabelled arguments rest =
      layoutSeparated (fun argument rest =>
        argument.1 :: " = " :: argument.2.layout (.operand .lowest) rest) arguments rest
  | [], rest => rfl
  | [(label, argument)], rest => rfl
  | (label, argument) :: second :: others, rest => by
      rw [layoutLabelled, layoutLabelled_eq, layoutSeparated]

theorem printsPhrase_call {callee : String} {arguments : List Expr} (hcallee : IsName callee)
    (harguments : ∀ argument ∈ arguments, ∀ slot, argument.PrintsPhrase slot) (slot : Slot) :
    (call callee arguments).PrintsPhrase slot := by
  obtain ⟨phrases, rfl, hfits, hscans⟩ := exists_writesAs_separated fun argument hmem =>
    (harguments argument hmem _).operand_lowest
  refine .of_primary (.call callee phrases) (by rw [Phrase.tree, argumentTrees_eq_map]) ?_ ?_
  · rw [Phrase.terminals, argumentTerminals_eq_map]
    simp only [List.forall_mem_cons, List.forall_mem_append]
    exact ⟨trivial, trivial, hfits, trivial, by simp⟩
  · intro rest _
    simp only [layout, layoutArguments_eq]
    rw [Phrase.terminals, argumentTerminals_eq_map]
    refine (Scans.name hcallee (separated_cons (by decide))).trans (Scans.openParen.trans ?_)
    exact (hscans (")" :: slot.ending :: rest) (separated_cons (by decide))).trans Scans.closeParen

theorem printsPhrase_labelledCall {callee : String} {arguments : List (String × Expr)}
    (hcallee : IsName callee) (hlabels : ∀ argument ∈ arguments, IsName argument.1)
    (harguments : ∀ argument ∈ arguments, ∀ slot, argument.2.PrintsPhrase slot) (slot : Slot) :
    (labelledCall callee arguments).PrintsPhrase slot := by
  have hargument : ∀ argument ∈ arguments, ∃ derivation : String × Phrase .relational,
      (derivation.1, derivation.2.tree) = argument ∧
        WritesAs (fun rest => argument.1 :: " = " :: argument.2.layout (.operand .lowest) rest)
          (.name derivation.1 :: .fixed .assignment :: derivation.2.terminals) := by
    rintro ⟨label, argument⟩ hmem
    obtain ⟨phrase, rfl, hfits, hscans⟩ := (harguments _ hmem _).operand_lowest
    refine ⟨(label, phrase), rfl, ?_, fun rest hrest => ?_⟩
    · simp only [List.forall_mem_cons]
      exact ⟨trivial, trivial, hfits⟩
    · refine (Scans.name (hlabels _ hmem) (separated_cons (by decide))).trans ?_
      exact Scans.assignment.trans (hscans rest hrest)
  obtain ⟨labelled, rfl, hfits, hscans⟩ := exists_writesAs_separated hargument
  refine .of_primary (.labelledCall callee labelled) (by rw [Phrase.tree, labelledTrees_eq_map])
    ?_ ?_
  · rw [Phrase.terminals, labelledTerminals_eq_map]
    simp only [List.forall_mem_cons, List.forall_mem_append]
    exact ⟨trivial, trivial, hfits, trivial, by simp⟩
  · intro rest _
    simp only [layout, layoutLabelled_eq]
    rw [Phrase.terminals, labelledTerminals_eq_map]
    refine (Scans.name hcallee (separated_cons (by decide))).trans (Scans.openBracket.trans ?_)
    exact (hscans ("]" :: slot.ending :: rest) (separated_cons (by decide))).trans
      Scans.closeBracket

/-- A proper expression is written as a phrase of the layer of its slot. -/
theorem IsOperand.printsPhrase {expr : Expr} (h : expr.IsOperand) (slot : Slot) :
    expr.PrintsPhrase slot := by
  induction h generalizing slot with
  | number hvalue => exact printsPhrase_number hvalue slot
  | symbol hname => exact printsPhrase_symbol hname slot
  | binary _ _ hleft hright => exact printsPhrase_binary hleft hright slot
  | call hcallee _ ih => exact printsPhrase_call hcallee ih slot
  | labelledCall hcallee hlabels _ ih => exact printsPhrase_labelledCall hcallee hlabels ih slot

/-! ## Lines -/

/-- However deep it is indented, the line is written as a derivation of one, in which every `else`
belongs to the nearest conditional and which ends open exactly if the line does. -/
def PrintsLine (expr : Expr) : Prop :=
  ∀ depth, ∃ line : Line, line.tree = expr ∧ line.AttachesNearest ∧
    line.endsOpen = expr.endsInOpenIf ∧ (∀ terminal ∈ line.terminals, terminal.Fits) ∧
    ∀ rest, Scans (text (expr.layout (.line depth) rest)) line.terminals (text rest)

/-- A reserved word with an opening bracket behind it. -/
theorem scans_wordParen {piece : String} (keyword : Keyword) (h : piece = keyword.word ++ "(")
    (rest : List String) : Scans (text (piece :: rest))
      [.fixed (.keyword keyword), .fixed .openParen] (text rest) := by
  rw [h, text_cons, String.toList_append, List.append_assoc]
  exact (Scans.keyword keyword (separated_cons (by decide))).trans Scans.openParen

theorem scans_closeParenSpace (rest : List String) :
    Scans (text (") " :: rest)) [.fixed .closeParen] (text rest) :=
  Scans.closeParen.trans Scans.space

/-- What stands in brackets behind a word, with the word. -/
theorem exists_writesAs_condition {expr : Expr} (h : expr.IsOperand) (keyword : Keyword)
    (piece : String) (hpiece : piece = keyword.word ++ "(") :
    ∃ phrase : Phrase .relational, phrase.tree = expr ∧
      (∀ terminal ∈ phrase.terminals, terminal.Fits) ∧
      ∀ rest, Scans (text (piece :: expr.layout (.operand .lowest) (") " :: rest)))
        (.fixed (.keyword keyword) :: .fixed .openParen ::
          (phrase.terminals ++ [.fixed .closeParen])) (text rest) := by
  obtain ⟨phrase, htree, hfits, hscans⟩ := (h.printsPhrase _).operand_lowest
  refine ⟨phrase, htree, hfits, fun rest => (scans_wordParen keyword hpiece _).trans ?_⟩
  exact (hscans (") " :: rest) (separated_cons (by decide))).trans (scans_closeParenSpace rest)

theorem printsLine_expression {expr : Expr} (h : expr.IsOperand) : expr.PrintsLine := by
  intro depth
  obtain ⟨phrase, htree, hfits, hscans⟩ := h.printsPhrase (.line depth)
  refine ⟨.expression phrase, htree, trivial, h.endsInOpenIf.symm, ?_, fun rest => ?_⟩
  · simp only [Line.terminals, List.forall_mem_append]
    exact ⟨hfits, by simp [Terminal.Fits]⟩
  · simp only [Slot.ending] at hscans
    exact (hscans rest (separated_cons (by decide))).trans Scans.semicolon

theorem printsLine_assign {name : String} {value : Expr} (hname : IsName name)
    (hvalue : value.IsOperand) : (assign name value).PrintsLine := by
  intro depth
  obtain ⟨phrase, rfl, hfits, hscans⟩ := (hvalue.printsPhrase _).operand_lowest
  refine ⟨.assign name phrase, rfl, trivial, rfl, ?_, fun rest => ?_⟩
  · simp only [Line.terminals, List.forall_mem_cons, List.forall_mem_append]
    exact ⟨trivial, trivial, hfits, trivial, by simp⟩
  · simp only [layout]
    refine (Scans.name hname (separated_cons (by decide))).trans (Scans.assignment.trans ?_)
    exact (hscans (";" :: rest) (separated_cons (by decide))).trans Scans.semicolon

theorem printsLine_println {argument : Expr} (h : argument.IsOperand) :
    (println argument).PrintsLine := by
  intro depth
  obtain ⟨phrase, rfl, hfits, hscans⟩ := (h.printsPhrase _).operand_lowest
  refine ⟨.println phrase, rfl, trivial, rfl, ?_, fun rest => ?_⟩
  · simp only [Line.terminals, List.forall_mem_cons, List.forall_mem_append]
    exact ⟨trivial, trivial, hfits, trivial, trivial, by simp⟩
  · simp only [layout]
    refine (scans_wordParen .println (by decide) _).trans ?_
    refine (hscans (");" :: rest) (separated_cons (by decide))).trans ?_
    exact Scans.closeParen.trans Scans.semicolon

theorem printsLine_loop {condition body : Expr} (hcondition : condition.IsOperand)
    (hbody : body.PrintsLine) : (loop condition body).PrintsLine := by
  intro depth
  obtain ⟨phrase, rfl, hfits, hscans⟩ :=
    exists_writesAs_condition hcondition .«while» "while(" (by decide)
  obtain ⟨line, rfl, hnearest, hopen, hfits', hscans'⟩ := hbody depth
  refine ⟨.loop phrase line, rfl, hnearest, hopen, ?_, fun rest => ?_⟩
  · simp only [Line.terminals, List.forall_mem_cons, List.forall_mem_append]
    exact ⟨trivial, trivial, hfits, trivial, hfits'⟩
  · simpa [Line.terminals, layout, Slot.depth] using (hscans _).trans (hscans' rest)

theorem printsLine_ifThen {condition thenBody : Expr} (hcondition : condition.IsOperand)
    (hthen : thenBody.PrintsLine) : (ifThen condition thenBody).PrintsLine := by
  intro depth
  obtain ⟨phrase, rfl, hfits, hscans⟩ :=
    exists_writesAs_condition hcondition .«if» "if(" (by decide)
  obtain ⟨line, rfl, hnearest, -, hfits', hscans'⟩ := hthen depth
  refine ⟨.ifThen phrase line, rfl, hnearest, rfl, ?_, fun rest => ?_⟩
  · simp only [Line.terminals, List.forall_mem_cons, List.forall_mem_append]
    exact ⟨trivial, trivial, hfits, trivial, hfits'⟩
  · simpa [Line.terminals, layout, Slot.depth] using (hscans _).trans (hscans' rest)

/-- The line before the `else` does not end open, so that the `else` belongs to this
conditional. -/
theorem printsLine_ifElse {condition thenBody elseBody : Expr} (hcondition : condition.IsOperand)
    (hthen : thenBody.PrintsLine) (helse : elseBody.PrintsLine)
    (hclosed : thenBody.endsInOpenIf = false) :
    (ifElse condition thenBody elseBody).PrintsLine := by
  intro depth
  obtain ⟨phrase, rfl, hfits, hscans⟩ :=
    exists_writesAs_condition hcondition .«if» "if(" (by decide)
  obtain ⟨first, rfl, hnearest, hopen, hfits', hscans'⟩ := hthen depth
  obtain ⟨second, rfl, hnearest', hopen', hfits'', hscans''⟩ := helse depth
  refine ⟨.ifElse phrase first second, rfl, ⟨hopen.trans hclosed, hnearest, hnearest'⟩, hopen', ?_,
    fun rest => ?_⟩
  · simp only [Line.terminals, List.forall_mem_cons, List.forall_mem_append]
    exact ⟨trivial, trivial, hfits, trivial, hfits', trivial, hfits''⟩
  · have hword : ∀ others : List Char, Scans (" else ".toList ++ others)
        [.fixed (.keyword .«else»)] others := by
      intro others
      have hseparated : Scans.Separated (' ' :: others) := separated_cons (by decide)
      exact Scans.space.trans ((Scans.keyword .«else» hseparated).trans Scans.space)
    have helse := (hscans' (" else " :: second.tree.layout (.line depth) rest)).trans
      ((hword _).trans (hscans'' rest))
    simpa [Line.terminals, layout, Slot.depth] using (hscans _).trans helse

/-- The lines inside a block, each with a line of its own. -/
theorem exists_lines {depth : Nat} : ∀ {body : List Expr}, (∀ line ∈ body, line.PrintsLine) →
    ∃ lines : List Line, lines.map Line.tree = body ∧ Line.AllAttachNearest lines ∧
      (∀ terminal ∈ Line.allTerminals lines, terminal.Fits) ∧
      ∀ rest, Scans (text (layoutLines depth body rest)) (Line.allTerminals lines)
        (text rest) := by
  intro body
  induction body with
  | nil => exact fun _ => ⟨[], rfl, trivial, by simp [Line.allTerminals], fun rest => .nil _⟩
  | cons line others ih =>
      intro hbody
      rw [List.forall_mem_cons] at hbody
      obtain ⟨first, rfl, hnearest, -, hfits, hscans⟩ := hbody.1 depth
      obtain ⟨lines, rfl, hnearest', hfits', hscans'⟩ := ih hbody.2
      refine ⟨first :: lines, rfl, ⟨hnearest, hnearest'⟩, ?_, fun rest => ?_⟩
      · rw [Line.allTerminals, List.forall_mem_append]
        exact ⟨hfits, hfits'⟩
      · simp only [layoutLines, text_cons, toList_indentation]
        exact (Scans.spaces _ _).trans ((hscans _).trans (Scans.lineBreak.trans (hscans' rest)))

theorem exists_block {body : List Expr} (hbody : ∀ line ∈ body, line.PrintsLine) (depth : Nat) :
    ∃ lines : List Line, lines.map Line.tree = body ∧ Line.AllAttachNearest lines ∧
      (∀ terminal ∈ Line.allTerminals lines, terminal.Fits) ∧
      ∀ rest, Scans (text ((block body).layout (.line depth) rest))
        (.fixed .openCurly :: (Line.allTerminals lines ++ [.fixed .closeCurly])) (text rest) := by
  obtain ⟨lines, rfl, hnearest, hfits, hscans⟩ := @exists_lines (depth + 1) body hbody
  refine ⟨lines, rfl, hnearest, hfits, fun rest => ?_⟩
  cases lines with
  | nil =>
      simp only [List.map_nil, layout]
      exact Scans.openCurly.trans Scans.closeCurly
  | cons first others =>
      -- The lines are indented by one step more than the closing brace.
      simp only [List.map_cons, layout]
      refine Scans.openCurly.trans (Scans.lineBreak.trans ((hscans _).trans ?_))
      rw [text_cons, toList_indentation]
      exact (Scans.spaces _ _).trans Scans.closeCurly

theorem printsLine_block {body : List Expr} (hbody : ∀ line ∈ body, line.PrintsLine) :
    (block body).PrintsLine := by
  intro depth
  obtain ⟨lines, rfl, hnearest, hfits, hscans⟩ := exists_block hbody depth
  refine ⟨.block lines, by rw [Line.tree, Line.allTrees_eq_map], hnearest, rfl, ?_, hscans⟩
  simp only [Line.terminals, List.forall_mem_cons, List.forall_mem_append]
  exact ⟨trivial, hfits, trivial, by simp⟩

/-- A line is written as a derivation of one. -/
theorem IsLine.printsLine {expr : Expr} (h : expr.IsLine) : expr.PrintsLine := by
  induction h with
  | expression hvalue => exact printsLine_expression hvalue
  | assign hname hvalue => exact printsLine_assign hname hvalue
  | println hargument => exact printsLine_println hargument
  | loop hcondition _ ih => exact printsLine_loop hcondition ih
  | ifThen hcondition _ ih => exact printsLine_ifThen hcondition ih
  | ifElse hcondition _ _ hclosed ih ih' => exact printsLine_ifElse hcondition ih ih' hclosed
  | block _ ih => exact printsLine_block ih

end Expr

/-! ## Definitions -/

/-- A reserved word with a blank behind it. -/
theorem scans_wordSpace {piece : String} (keyword : Keyword) (h : piece = keyword.word ++ " ")
    (rest : List String) :
    Scans (text (piece :: rest)) [.fixed (.keyword keyword)] (text rest) := by
  rw [h, text_cons, String.toList_append, List.append_assoc]
  exact (Scans.keyword keyword (separated_cons (by decide))).trans Scans.space

theorem text_intercalate : ∀ (parameters : List String) (rest : List String),
    text (String.intercalate ", " parameters :: rest) =
      text (layoutSeparated List.cons parameters rest)
  | [], rest => by simp [layoutSeparated]
  | [parameter], rest => by simp [layoutSeparated]
  | parameter :: second :: others, rest => by
      have ih := text_intercalate (second :: others) rest
      simp only [text_cons, String.toList_intercalate, List.map_cons,
        List.intercalate_cons_cons] at ih ⊢
      rw [layoutSeparated, text_cons, text_cons, ← ih]
      simp only [List.append_assoc]

theorem exists_parameters {parameters : List String}
    (h : ∀ parameter ∈ parameters, IsName parameter) :
    WritesAs (layoutSeparated List.cons parameters)
      (commaSeparated (parameters.map fun parameter => [.name parameter])) := by
  have hwrite : ∀ parameter ∈ parameters, ∃ name, id name = parameter ∧
      WritesAs (List.cons parameter) [Terminal.name name] := by
    intro parameter hmem
    refine ⟨parameter, rfl, by simp [Terminal.Fits], fun rest hrest => ?_⟩
    exact .name (h parameter hmem) hrest
  obtain ⟨names, hparameters, hwrites⟩ := exists_writesAs_separated hwrite
  rw [List.map_id] at hparameters
  rwa [hparameters] at hwrites

/-- A definition is written as a derivation of one. -/
theorem Definition.IsSurface.exists_item {definition : Definition} (h : definition.IsSurface) :
    ∃ item : Item, item.tree = definition ∧ item.AttachesNearest ∧
      (∀ terminal ∈ item.terminals, terminal.Fits) ∧
      ∀ rest, Scans (text (definition.layout rest)) item.terminals (text rest) := by
  cases h with
  | @global name value hname hvalue =>
      obtain ⟨phrase, rfl, hfits, hscans⟩ := (hvalue.printsPhrase _).operand_lowest
      refine ⟨.global name phrase, rfl, trivial, ?_, fun rest => ?_⟩
      · simp only [Item.terminals, List.forall_mem_cons, List.forall_mem_append]
        exact ⟨trivial, trivial, trivial, hfits, trivial, by simp⟩
      · refine (scans_wordSpace .global (by decide) _).trans ?_
        refine (Scans.name hname (separated_cons (by decide))).trans (Scans.assignment.trans ?_)
        exact (hscans (";" :: rest) (separated_cons (by decide))).trans Scans.semicolon
  | @function name parameters body hname hparameters hbody =>
      obtain ⟨hfits, hscans⟩ := exists_parameters hparameters
      obtain ⟨lines, rfl, hnearest, hfits', hscans'⟩ :=
        Expr.exists_block (fun line hmem => (hbody line hmem).printsLine) 0
      refine ⟨.function name parameters lines, ?_, hnearest, ?_, fun rest => ?_⟩
      · rw [Item.tree, Line.allTrees_eq_map]
      · simp only [Item.terminals, List.forall_mem_cons, List.forall_mem_append]
        exact ⟨trivial, trivial, trivial, hfits, trivial, trivial, hfits', trivial, by simp⟩
      · refine (scans_wordSpace .define (by decide) _).trans ?_
        refine (Scans.name hname (separated_cons (by decide))).trans (Scans.openParen.trans ?_)
        have hlist := hscans (") " :: (Expr.block (lines.map Line.tree)).layout (.line 0) rest)
          (separated_cons (by decide))
        rw [← text_intercalate] at hlist
        exact hlist.trans ((Expr.scans_closeParenSpace _).trans (hscans' rest))

/-! ## Whole sources -/

namespace Expr

mutual

theorem layout_append (slot : Slot) (expr : Expr) (rest more : List String) :
    expr.layout slot (rest ++ more) = expr.layout slot rest ++ more := by
  cases expr with
  | number | symbol => rfl
  | binary op left right =>
      simp only [layout]
      split <;> simp only [List.cons_append, ← layout_append _ left, ← layout_append _ right]
  | call callee arguments =>
      simp only [layout, List.cons_append, ← layoutArguments_append arguments]
  | labelledCall callee arguments =>
      simp only [layout, List.cons_append, ← layoutLabelled_append arguments]
  | assign name value => simp only [layout, List.cons_append, ← layout_append _ value]
  | println argument => simp only [layout, List.cons_append, ← layout_append _ argument]
  | loop condition body =>
      simp only [layout, List.cons_append, ← layout_append _ condition, ← layout_append _ body]
  | ifThen condition thenBody =>
      simp only [layout, List.cons_append, ← layout_append _ condition, ← layout_append _ thenBody]
  | ifElse condition thenBody elseBody =>
      simp only [layout, List.cons_append, ← layout_append _ condition, ← layout_append _ thenBody,
        ← layout_append _ elseBody]
  | block body =>
      cases body with
      | nil => rfl
      | cons first others =>
          simp only [layout, List.cons_append, ← layoutLines_append _ (first :: others)]

theorem layoutArguments_append (arguments : List Expr) (rest more : List String) :
    layoutArguments arguments (rest ++ more) = layoutArguments arguments rest ++ more := by
  match arguments with
  | [] => rfl
  | [argument] => simp only [layoutArguments, layout_append _ argument]
  | argument :: second :: others =>
      simp only [layoutArguments, ← layout_append _ argument, List.cons_append,
        ← layoutArguments_append (second :: others)]

theorem layoutLabelled_append (arguments : List (String × Expr)) (rest more : List String) :
    layoutLabelled arguments (rest ++ more) = layoutLabelled arguments rest ++ more := by
  match arguments with
  | [] => rfl
  | [(label, argument)] => simp only [layoutLabelled, layout_append _ argument, List.cons_append]
  | (label, argument) :: second :: others =>
      simp only [layoutLabelled, ← layout_append _ argument, List.cons_append,
        ← layoutLabelled_append (second :: others)]

theorem layoutLines_append (depth : Nat) (lines : List Expr) (rest more : List String) :
    layoutLines depth lines (rest ++ more) = layoutLines depth lines rest ++ more := by
  match lines with
  | [] => rfl
  | line :: others =>
      simp only [layoutLines, List.cons_append, ← layout_append _ line,
        ← layoutLines_append depth others]

end

end Expr

/-- A line whose text is put in front of others. -/
theorem text_layout_line (expr : Expr) (others : List Char) :
    text (expr.layout (.line 0) [String.ofList others]) = expr.toSource.toList ++ others := by
  calc text (expr.layout (.line 0) [String.ofList others])
      = text (expr.layout (.line 0) [] ++ [String.ofList others]) := by
        rw [← Expr.layout_append, List.nil_append]
    _ = text (expr.layout (.line 0) []) ++ text [String.ofList others] := List.flatMap_append
    _ = expr.toSource.toList ++ others := by
        rw [Expr.toSource, toList_join, text_cons, text_nil, String.toList_ofList, List.append_nil]

/-- Lines, each on a line of its own. -/
theorem exists_allTerminals : ∀ {lines : List Expr}, (∀ line ∈ lines, line.IsLine) →
    ∃ derivations : List Line, derivations.map Line.tree = lines ∧
      Line.AllAttachNearest derivations ∧
      (∀ terminal ∈ Line.allTerminals derivations, terminal.Fits) ∧
      Scans ("\n".intercalate (lines.map Expr.toSource)).toList (Line.allTerminals derivations)
        [] := by
  intro lines
  rw [String.toList_intercalate]
  induction lines with
  | nil => exact fun _ => ⟨[], rfl, trivial, by simp [Line.allTerminals], .nil _⟩
  | cons line others ih =>
      intro hlines
      rw [List.forall_mem_cons] at hlines
      obtain ⟨first, rfl, hnearest, -, hfits, hscans⟩ := hlines.1.printsLine 0
      obtain ⟨derivations, rfl, hnearest', hfits', hscans'⟩ := ih hlines.2
      refine ⟨first :: derivations, rfl, ⟨hnearest, hnearest'⟩, ?_, ?_⟩
      · rw [Line.allTerminals, List.forall_mem_append]
        exact ⟨hfits, hfits'⟩
      · have hfirst : ∀ others : List Char,
            Scans (first.tree.toSource.toList ++ others) first.terminals others := by
          intro others
          have hline := hscans [String.ofList others]
          rwa [text_layout_line, text_cons, text_nil, List.append_nil, String.toList_ofList]
            at hline
        -- A line break stands between two lines only, not behind the last one.
        cases derivations with
        | nil =>
            have honly := hfirst []
            rw [List.append_nil] at honly
            simpa [Line.allTerminals] using honly
        | cons second others =>
            simp only [List.map_cons, List.intercalate_cons_cons, List.append_assoc]
            exact (hfirst _).trans (Scans.lineBreak.trans hscans')

/-- Definitions with an empty line between any two. -/
theorem exists_allTerminals_program : ∀ {program : Program},
    (∀ definition ∈ program, definition.IsSurface) →
    ∃ items : List Item, items.map Item.tree = program ∧
      (∀ item ∈ items, item.AttachesNearest) ∧
      (∀ terminal ∈ Item.allTerminals items, terminal.Fits) ∧
      Scans program.toSource.toList (Item.allTerminals items) [] := by
  intro program
  rw [Program.toSource, toList_join]
  induction program with
  | nil => exact fun _ => ⟨[], rfl, by simp, by simp [Item.allTerminals], .nil _⟩
  | cons definition others ih =>
      intro hprogram
      rw [List.forall_mem_cons] at hprogram
      obtain ⟨first, rfl, hnearest, hfits, hscans⟩ := hprogram.1.exists_item
      obtain ⟨items, rfl, hnearest', hfits', hscans'⟩ := ih hprogram.2
      refine ⟨first :: items, rfl, List.forall_mem_cons.mpr ⟨hnearest, hnearest'⟩, ?_, ?_⟩
      · rw [Item.allTerminals, List.flatMap_cons, List.forall_mem_append]
        exact ⟨hfits, hfits'⟩
      · rw [Item.allTerminals, List.flatMap_cons]
        cases items with
        | nil => exact (hscans ["\n"]).trans Scans.lineBreak
        | cons second others =>
            rw [List.map_cons, Program.layout]
            exact (hscans _).trans (Scans.lineBreak.trans (Scans.lineBreak.trans hscans'))

end IntScript
