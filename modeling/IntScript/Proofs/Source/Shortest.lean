import Mathlib
import IntScript.Proofs.Source.RoundTrip
import IntScript.Proofs.Token.Munch

/-!
# No needless parentheses

Two texts of one expression differ in their parentheses only, apart from blanks, comments and the
way numbers are written.  The tokens that none of them can do without are counted on the tree
(`Expr.leastWeight`): an operand needs parentheses exactly if its operator binds looser than its
place demands.

* `Phrase.exceeds` : a derivation has the tokens that its tree needs and a number of pairs of
  parentheses, and no others, by induction on the derivation.
* `Expr.IsOperand.opensAsNeeded` : the text that is written has no more opening parentheses than the
  tree needs, by induction on the tree.
* `toSource_is_shortest` : the main result.

Tokens are counted with weights, so that one induction does for the tokens of all kinds and for the
opening parentheses among them.
-/

namespace IntScript

open Grammar

/-! ## Weights -/

/-- The number of terminals, each counted with the weight of its kind. -/
def weigh (weight : TokenKind → Nat) (terminals : List Terminal) : Nat :=
  (terminals.map fun terminal => weight terminal.kind).sum

section

variable (weight : TokenKind → Nat)

@[simp] theorem weigh_nil : weigh weight [] = 0 := rfl

@[simp] theorem weigh_cons (terminal : Terminal) (terminals : List Terminal) :
    weigh weight (terminal :: terminals) = weight terminal.kind + weigh weight terminals :=
  List.sum_cons

@[simp] theorem weigh_append (first second : List Terminal) :
    weigh weight (first ++ second) = weigh weight first + weigh weight second := by
  rw [weigh, List.map_append, List.sum_append]
  rfl

theorem weigh_one (terminals : List Terminal) :
    weigh (fun _ => 1) terminals = terminals.length := by
  simp [weigh]

theorem weigh_commaSeparated (items : List (List Terminal)) :
    weigh weight (commaSeparated items) =
      weigh weight items.flatten + (items.length - 1) * weight .comma := by
  induction items with
  | nil => simp [commaSeparated]
  | cons item others ih =>
      cases others with
      | nil => simp [commaSeparated]
      | cons next others =>
          have hflatten : weigh weight (item :: next :: others).flatten =
              weigh weight item + weigh weight (next :: others).flatten := by
            rw [List.flatten_cons, weigh_append]
          rw [commaSeparated, weigh_append, weigh_cons, ih, hflatten]
          simp only [List.length_cons, Nat.add_sub_cancel, Terminal.kind]
          ring

end

/-- The weight of a pair of parentheses. -/
def pairWeight (weight : TokenKind → Nat) : Nat :=
  weight .openParen + weight .closeParen

namespace Expr

mutual

/-- The weight of the tokens that the expression needs in a place for a layer. -/
def leastWeight (expr : Expr) (least : Precedence) (weight : TokenKind → Nat) : Nat :=
  match expr with
  | number _ => weight .number
  | symbol _ => weight .identifier
  | binary op left right =>
    left.leastWeight op.precedence weight + weight (.operator op) +
      right.leastWeight op.precedence.next weight +
      if op.precedence.rank < least.rank then pairWeight weight else 0
  | call _ arguments =>
    weight .identifier + pairWeight weight + argumentsWeight arguments weight +
      (arguments.length - 1) * weight .comma
  | labelledCall _ arguments =>
    weight .identifier + (weight .openBracket + weight .closeBracket) +
      labelledWeight arguments weight + (arguments.length - 1) * weight .comma
  | _ => 0

/-- The weight of the tokens that arguments need, apart from the commas. -/
def argumentsWeight (arguments : List Expr) (weight : TokenKind → Nat) : Nat :=
  match arguments with
  | [] => 0
  | argument :: others =>
    argument.leastWeight .relational weight + argumentsWeight others weight

/-- The weight of the tokens that labelled arguments need, apart from the commas. -/
def labelledWeight (arguments : List (String × Expr)) (weight : TokenKind → Nat) : Nat :=
  match arguments with
  | [] => 0
  | (_, argument) :: others =>
    weight .identifier + weight .assignment + argument.leastWeight .relational weight +
      labelledWeight others weight

end

theorem argumentsWeight_eq_sum (arguments : List Expr) (weight : TokenKind → Nat) :
    argumentsWeight arguments weight =
      (arguments.map fun argument => argument.leastWeight .relational weight).sum := by
  induction arguments with
  | nil => rfl
  | cons argument others ih => rw [argumentsWeight, ih, List.map_cons, List.sum_cons]

theorem labelledWeight_eq_sum (arguments : List (String × Expr)) (weight : TokenKind → Nat) :
    labelledWeight arguments weight =
      (arguments.map fun argument => weight .identifier + weight .assignment +
        argument.2.leastWeight .relational weight).sum := by
  induction arguments with
  | nil => rfl
  | cons argument others ih => rw [labelledWeight, ih, List.map_cons, List.sum_cons]

/-- In a tighter place an expression needs one more pair of parentheses at most. -/
theorem exists_leastWeight_eq (expr : Expr) {loose tight : Precedence}
    (h : loose.rank ≤ tight.rank) : ∃ pairs ≤ 1, ∀ weight,
      expr.leastWeight tight weight =
        expr.leastWeight loose weight + pairs * pairWeight weight := by
  cases expr with
  | binary op left right =>
      by_cases hloose : op.precedence.rank < loose.rank
      · refine ⟨0, Nat.zero_le 1, fun weight => ?_⟩
        rw [leastWeight, leastWeight, if_pos hloose, if_pos (Nat.lt_of_lt_of_le hloose h)]
        omega
      · by_cases htight : op.precedence.rank < tight.rank
        · refine ⟨1, Nat.le_refl 1, fun weight => ?_⟩
          rw [leastWeight, leastWeight, if_neg hloose, if_pos htight]
          omega
        · refine ⟨0, Nat.zero_le 1, fun weight => ?_⟩
          rw [leastWeight, leastWeight, if_neg hloose, if_neg htight]
          omega
  | _ => exact ⟨0, Nat.zero_le 1, fun weight => by simp [leastWeight]⟩

/-- No operator is looser than either of the two loosest layers. -/
theorem leastWeight_lowest (expr : Expr) :
    expr.leastWeight .lowest = expr.leastWeight .relational := by
  funext weight
  cases expr with
  | binary op left right =>
      have hlowest : ¬ op.precedence.rank < Precedence.lowest.rank := Nat.not_lt_zero _
      have hrelational : ¬ op.precedence.rank < Precedence.relational.rank := by
        cases op <;> decide
      rw [leastWeight, leastWeight, if_neg hlowest, if_neg hrelational]
  | _ => rfl

end Expr

/-! ## Derivations -/

namespace Grammar

/-- The terminals weigh that much and a number of pairs of parentheses more, whatever the weights
are. -/
def Exceeds (terminals : List Terminal) (least : (TokenKind → Nat) → Nat) : Prop :=
  ∃ pairs, ∀ weight, weigh weight terminals = least weight + pairs * pairWeight weight

namespace Exceeds

variable {first second : List Terminal} {least other : (TokenKind → Nat) → Nat}

theorem of_eq (h : ∀ weight, weigh weight first = least weight) : Exceeds first least :=
  ⟨0, fun weight => by rw [h, Nat.zero_mul, Nat.add_zero]⟩

theorem congr (h : Exceeds first least) (heq : ∀ weight, least weight = other weight) :
    Exceeds first other := by
  obtain ⟨pairs, hpairs⟩ := h
  exact ⟨pairs, fun weight => by rw [hpairs, heq]⟩

theorem append (h : Exceeds first least) (h' : Exceeds second other) :
    Exceeds (first ++ second) fun weight => least weight + other weight := by
  obtain ⟨pairs, hpairs⟩ := h
  obtain ⟨pairs', hpairs'⟩ := h'
  refine ⟨pairs + pairs', fun weight => ?_⟩
  rw [weigh_append, hpairs, hpairs']
  ring

theorem commaSeparated {δ : Type} {items : List δ} {terminals : δ → List Terminal}
    {least : δ → (TokenKind → Nat) → Nat}
    (h : ∀ item ∈ items, Exceeds (terminals item) (least item)) :
    Exceeds (commaSeparated (items.map terminals)) fun weight =>
      (items.map fun item => least item weight).sum + (items.length - 1) * weight .comma := by
  have hflatten : Exceeds (items.map terminals).flatten fun weight =>
      (items.map fun item => least item weight).sum := by
    induction items with
    | nil => exact .of_eq fun weight => rfl
    | cons item others ih =>
        rw [List.forall_mem_cons] at h
        exact (h.1.append (ih h.2)).congr fun weight => List.sum_cons.symm
  obtain ⟨pairs, hpairs⟩ := hflatten
  refine ⟨pairs, fun weight => ?_⟩
  rw [weigh_commaSeparated, hpairs, List.length_map]
  ring

/-- What is in excess in a tight place is so in a looser one. -/
theorem loosen {expr : Expr} {loose tight : Precedence} (hle : loose.rank ≤ tight.rank)
    (h : Exceeds first (expr.leastWeight tight)) : Exceeds first (expr.leastWeight loose) := by
  obtain ⟨pairs, hpairs⟩ := h
  obtain ⟨more, -, hmore⟩ := expr.exists_leastWeight_eq hle
  refine ⟨more + pairs, fun weight => ?_⟩
  rw [hpairs, hmore]
  ring

/-- Parentheses around an expression are needed in a tight place, or else they are in excess. -/
theorem group {expr : Expr} (h : Exceeds first (expr.leastWeight .relational)) :
    Exceeds (.fixed .openParen :: (first ++ [.fixed .closeParen]))
      (expr.leastWeight .primary) := by
  obtain ⟨pairs, hpairs⟩ := h
  have hlayers : Precedence.relational.rank ≤ Precedence.primary.rank := by decide
  obtain ⟨more, hle, hmore⟩ := expr.exists_leastWeight_eq hlayers
  obtain ⟨excess, hexcess⟩ : ∃ excess, pairs + 1 = more + excess :=
    Nat.exists_eq_add_of_le (Nat.le_add_left_of_le hle)
  refine ⟨excess, fun weight => ?_⟩
  calc weigh weight (.fixed .openParen :: (first ++ [.fixed .closeParen]))
      = weigh weight first + pairWeight weight := by
        simp only [weigh_cons, weigh_append, weigh_nil, Terminal.kind, pairWeight]
        ring
    _ = expr.leastWeight .relational weight + (pairs + 1) * pairWeight weight := by
        rw [hpairs]
        ring
    _ = expr.leastWeight .primary weight + excess * pairWeight weight := by
        rw [hmore, hexcess]
        ring

end Exceeds

/-- A derivation has the tokens that its tree needs and a number of pairs of parentheses. -/
theorem Phrase.exceeds {layer : Precedence} (phrase : Phrase layer) :
    Exceeds phrase.terminals (phrase.tree.leastWeight layer) := by
  -- Operators and their right operands extend a text and a tree that are given.
  refine Phrase.induct
    (P := fun layer phrase => Exceeds phrase.terminals (phrase.tree.leastWeight layer))
    (Q := fun layer others => ∀ (before : List Terminal) (left : Expr),
      Exceeds before (left.leastWeight layer) →
      Exceeds (before ++ others.terminals) ((others.fold left).leastWeight layer))
    ?group ?number ?name ?call ?labelledCall ?chain ?nil ?cons phrase
  case group =>
    intro inner ih
    rw [Phrase.terminals, Phrase.tree]
    exact ih.group
  case number => exact fun digits => .of_eq fun weight => rfl
  case name => exact fun name => .of_eq fun weight => rfl
  case call =>
    intro callee arguments ih
    rw [Phrase.terminals, Phrase.tree, argumentTerminals_eq_map, argumentTrees_eq_map]
    obtain ⟨pairs, hpairs⟩ := Exceeds.commaSeparated ih
    refine ⟨pairs, fun weight => ?_⟩
    simp only [weigh_cons, weigh_append, weigh_nil, hpairs, Expr.leastWeight,
      Expr.argumentsWeight_eq_sum, List.map_map, List.length_map, Terminal.kind, pairWeight,
      Function.comp_def]
    ring
  case labelledCall =>
    intro callee arguments ih
    rw [Phrase.terminals, Phrase.tree, labelledTerminals_eq_map, labelledTrees_eq_map]
    have hlabelled : ∀ argument ∈ arguments,
        Exceeds (.name argument.1 :: .fixed .assignment :: argument.2.terminals) fun weight =>
          weight .identifier + weight .assignment +
            argument.2.tree.leastWeight .relational weight := by
      intro argument hmem
      have hlabel : Exceeds [.name argument.1, .fixed .assignment] fun weight =>
          weight .identifier + weight .assignment := .of_eq fun weight => rfl
      exact hlabel.append (ih argument hmem)
    obtain ⟨pairs, hpairs⟩ := Exceeds.commaSeparated hlabelled
    refine ⟨pairs, fun weight => ?_⟩
    simp only [weigh_cons, weigh_append, weigh_nil, hpairs, Expr.leastWeight,
      Expr.labelledWeight_eq_sum, List.map_map, List.length_map, Terminal.kind,
      Function.comp_def]
    ring
  case chain =>
    intro layer hlayer first others hfirst hothers
    rw [Phrase.terminals, Phrase.tree]
    exact hothers _ _ (hfirst.loosen (rank_next_le layer))
  case nil =>
    intro layer before left hbefore
    rwa [Operands.terminals, List.append_nil]
  case cons =>
    intro layer op hop right others hright hothers before left hbefore
    subst hop
    have hoperator : Exceeds [.fixed (.operator op)] fun weight => weight (.operator op) :=
      .of_eq fun weight => rfl
    have hbinary : Exceeds (before ++ [.fixed (.operator op)] ++ right.terminals)
        ((Expr.binary op left right.tree).leastWeight op.precedence) := by
      refine ((hbefore.append hoperator).append hright).congr fun weight => ?_
      rw [Expr.leastWeight, if_neg (Nat.lt_irrefl _), Nat.add_zero]
    have hextended := hothers _ _ hbinary
    rw [Operands.terminals, Operands.fold]
    simpa using hextended

end Grammar

/-! ## Opening parentheses -/

/-- The weight of opening parentheses alone. -/
def openingWeight (kind : TokenKind) : Nat :=
  if kind = .openParen then 1 else 0

/-- The number of opening parentheses in a text. -/
def countOpening (chars : List Char) : Nat :=
  chars.count '('

@[simp] theorem countOpening_append (first second : List Char) :
    countOpening (first ++ second) = countOpening first + countOpening second :=
  List.count_append

theorem countOpening_eq_zero {chars : List Char} (h : ∀ c ∈ chars, isWordChar c = true) :
    countOpening chars = 0 := by
  refine List.count_eq_zero.mpr fun hmem => ?_
  cases h '(' hmem

@[simp] theorem Slot.countOpening_ending (slot : Slot) : countOpening slot.ending.toList = 0 := by
  cases slot with
  | line depth =>
      show countOpening ";".toList = 0
      rfl
  | operand least => rfl

@[simp] theorem Operator.countOpening_symbol (op : Operator) :
    countOpening op.symbol.toList = 0 := by
  cases op <;> rfl

@[simp] theorem countOpening_openParen : countOpening "(".toList = 1 := rfl

@[simp] theorem countOpening_closeParen : countOpening ")".toList = 0 := rfl

@[simp] theorem pairWeight_openingWeight : pairWeight openingWeight = 1 := rfl

/-- Items are separated without parentheses. -/
theorem countOpening_layoutSeparated {α : Type} {layout : α → List String → List String}
    {needed : α → Nat} {items : List α}
    (h : ∀ item ∈ items, ∀ rest,
      countOpening (text (layout item rest)) = needed item + countOpening (text rest))
    (rest : List String) : countOpening (text (layoutSeparated layout items rest)) =
      (items.map needed).sum + countOpening (text rest) := by
  induction items with
  | nil => simp [layoutSeparated]
  | cons item others ih =>
      rw [List.forall_mem_cons] at h
      cases others with
      | nil => simpa [layoutSeparated] using h.1 rest
      | cons next others =>
          have hcomma : countOpening ", ".toList = 0 := rfl
          rw [layoutSeparated, h.1, text_cons, countOpening_append, hcomma, ih h.2]
          simp only [List.map_cons, List.sum_cons]
          omega

namespace Expr

/-- In every slot the expression is written with the opening parentheses that it needs there. -/
def OpensAsNeeded (expr : Expr) : Prop :=
  ∀ slot rest, countOpening (text (expr.layout slot rest)) =
    expr.leastWeight slot.least openingWeight + countOpening (text rest)

theorem opensAsNeeded_binary {op : Operator} {left right : Expr} (hleft : left.OpensAsNeeded)
    (hright : right.OpensAsNeeded) : (binary op left right).OpensAsNeeded := by
  intro slot rest
  have hspace : countOpening " ".toList = 0 := rfl
  have hoperator : openingWeight (.operator op) = 0 := rfl
  have hoperands : ∀ rest, countOpening (text (left.layout (.operand op.precedence)
      (" " :: op.symbol :: " " :: right.layout (.operand op.precedence.next) rest))) =
        left.leastWeight op.precedence openingWeight +
          right.leastWeight op.precedence.next openingWeight + countOpening (text rest) := by
    intro rest
    have hsecond := hright (.operand op.precedence.next) rest
    rw [hleft]
    simp only [text_cons, countOpening_append, hspace, Operator.countOpening_symbol, hsecond,
      Slot.least]
    omega
  by_cases hloose : op.precedence.rank < slot.least.rank
  · simp only [layout, if_pos hloose, text_cons, countOpening_append, countOpening_openParen,
      hoperands, countOpening_closeParen, Slot.countOpening_ending, leastWeight, hoperator,
      pairWeight_openingWeight]
    omega
  · simp only [layout, if_neg hloose, hoperands, text_cons, countOpening_append,
      Slot.countOpening_ending, leastWeight, hoperator]
    omega

theorem opensAsNeeded_call {callee : String} {arguments : List Expr} (hcallee : IsName callee)
    (harguments : ∀ argument ∈ arguments, argument.OpensAsNeeded) :
    (call callee arguments).OpensAsNeeded := by
  intro slot rest
  have hname : openingWeight .identifier = 0 := rfl
  have hcomma : openingWeight .comma = 0 := rfl
  have hinside := countOpening_layoutSeparated
    (fun argument hmem => harguments argument hmem (.operand .lowest)) (")" :: slot.ending :: rest)
  simp only [layout, layoutArguments_eq, text_cons, countOpening_append, hinside,
    countOpening_openParen, countOpening_closeParen, countOpening_eq_zero hcallee.isWordChar,
    Slot.countOpening_ending, leastWeight, argumentsWeight_eq_sum, Slot.least, leastWeight_lowest,
    hname, hcomma, pairWeight_openingWeight, Nat.mul_zero]
  omega

theorem opensAsNeeded_labelledCall {callee : String} {arguments : List (String × Expr)}
    (hcallee : IsName callee) (hlabels : ∀ argument ∈ arguments, IsName argument.1)
    (harguments : ∀ argument ∈ arguments, argument.2.OpensAsNeeded) :
    (labelledCall callee arguments).OpensAsNeeded := by
  intro slot rest
  have hopen : countOpening "[".toList = 0 := rfl
  have hclose : countOpening "]".toList = 0 := rfl
  have hsign : countOpening " = ".toList = 0 := rfl
  have hname : openingWeight .identifier = 0 := rfl
  have hassignment : openingWeight .assignment = 0 := rfl
  have hcomma : openingWeight .comma = 0 := rfl
  have hbrackets : openingWeight .openBracket + openingWeight .closeBracket = 0 := rfl
  have hlabelled : ∀ argument ∈ arguments, ∀ rest,
      countOpening (text (argument.1 :: " = " :: argument.2.layout (.operand .lowest) rest)) =
        argument.2.leastWeight .relational openingWeight + countOpening (text rest) := by
    intro argument hmem rest
    have hlabel := countOpening_eq_zero (hlabels argument hmem).isWordChar
    have hargument := harguments argument hmem (.operand .lowest) rest
    simp only [text_cons, countOpening_append, hlabel, hsign, hargument, Slot.least,
      leastWeight_lowest, Nat.zero_add]
  have hinside := countOpening_layoutSeparated hlabelled ("]" :: slot.ending :: rest)
  simp only [layout, layoutLabelled_eq, text_cons, countOpening_append, hinside, hopen, hclose,
    countOpening_eq_zero hcallee.isWordChar, Slot.countOpening_ending, leastWeight,
    labelledWeight_eq_sum, hname, hassignment, hcomma, hbrackets, Nat.mul_zero, Nat.zero_add,
    Nat.add_zero]

theorem IsOperand.opensAsNeeded {expr : Expr} (h : expr.IsOperand) : expr.OpensAsNeeded := by
  induction h with
  | @number value hvalue =>
      intro slot rest
      have hdigits : countOpening (Text.decimal value).toList = 0 :=
        countOpening_eq_zero fun c hmem =>
          Lexeme.isWordChar_of_isDigit ((fits_decimal hvalue).1.2.1 c hmem)
      simp [layout, hdigits, leastWeight, openingWeight]
  | symbol hname =>
      intro slot rest
      simp [layout, countOpening_eq_zero hname.isWordChar, leastWeight, openingWeight]
  | binary _ _ hleft hright => exact opensAsNeeded_binary hleft hright
  | call hcallee _ ih => exact opensAsNeeded_call hcallee ih
  | labelledCall hcallee hlabels _ ih => exact opensAsNeeded_labelledCall hcallee hlabels ih

end Expr

/-! ## Tokens and characters -/

theorem IsLexeme.openingWeight_le {kind : TokenKind} {text : List Char} (h : IsLexeme kind text) :
    openingWeight kind ≤ countOpening text := by
  by_cases hkind : kind = .openParen
  · subst hkind
    cases h with
    | fixed hmem =>
        have hspelling : ∀ spelling ∈ fixedSpellings, spelling.2 = .openParen →
            spelling.1 = ['('] := by
          decide
        obtain rfl : text = ['('] := hspelling _ hmem rfl
        exact Nat.le_refl 1
  · rw [openingWeight, if_neg hkind]
    exact Nat.zero_le _

namespace Cursor

theorem countOpening_skipTrivia_le (offset : Nat) (chars : List Char) :
    countOpening (skipTrivia ⟨offset, chars⟩).rest ≤ countOpening chars := by
  obtain ⟨piece, rest, hsplit, -, hskip⟩ := skipTriviaFrom_longest false offset chars
  rw [skipTrivia, hskip, hsplit, countOpening_append]
  exact Nat.le_add_left _ _

/-- No text has more tokens that open parentheses than it has opening parentheses. -/
theorem weigh_reading_le (cursor : Cursor) :
    weigh openingWeight cursor.reading.1 ≤ countOpening cursor.rest := by
  induction cursor using induct with
  | none cursor hnext =>
      rw [reading_of_none hnext]
      exact Nat.zero_le _
  | some cursor token behind hnext ih =>
      obtain ⟨lexeme, hlexeme, hterminal, rfl⟩ := terminal_of_next? hnext
      have hkind : token.terminal.kind = lexeme.kind := by
        rw [hterminal]
        exact Terminal.kind_ofKind _ _
      have hfirst := (Lexeme.longest_of_ofText? hlexeme).1.openingWeight_le
      have hbehind := countOpening_skipTrivia_le
        (cursor.offset + Text.byteLength lexeme.text) lexeme.rest
      have hsplit : lexeme.text ++ lexeme.rest = cursor.rest := Lexeme.text_append_rest hlexeme
      rw [reading_of_some hnext, weigh_cons, hkind, ← hsplit, countOpening_append]
      omega

end Cursor

/-! ## Sources -/

section

variable {source file : String} {expr : Expr}

/-- A source is read as an expression only if its tokens are a derivation of it and a semicolon. -/
theorem exists_phrase_of_parse (h : expr.IsOperand)
    (hparse : parseStatements source file = .ok [expr]) :
    ∃ phrase : Phrase .relational, phrase.tree = expr ∧
      (Tokens.ofSource source file).Shows (phrase.terminals ++ [.fixed .semicolon]) := by
  obtain ⟨lines, hshows, -, -, htrees⟩ := parseStatements_eq_ok_iff_shows.mp hparse
  obtain ⟨line, rfl, htree⟩ := List.map_eq_singleton_iff.mp htrees
  rw [Line.allTerminals, Line.allTerminals, List.append_nil] at hshows
  cases line with
  | expression value => exact ⟨value, htree, hshows⟩
  | _ => rw [← htree, Line.tree] at h; cases h

/-- The tokens of a source that is read as an expression are those that the expression needs, a
number of pairs of parentheses and a semicolon. -/
theorem exceeds_of_parse (h : expr.IsOperand)
    (hparse : parseStatements source file = .ok [expr]) :
    ∃ pairs, ∀ weight, weigh weight (Cursor.ofSource source).reading.1 =
      expr.leastWeight .relational weight + pairs * pairWeight weight + weight .semicolon := by
  obtain ⟨phrase, rfl, hshows⟩ := exists_phrase_of_parse h hparse
  obtain ⟨pairs, hpairs⟩ := phrase.exceeds
  refine ⟨pairs, fun weight => ?_⟩
  have hterminals : (Cursor.ofSource source).reading.1 =
      phrase.terminals ++ [.fixed .semicolon] := hshows.terminals_eq
  rw [hterminals, weigh_append, hpairs]
  rfl

/-- A source that is read as an expression has the opening parentheses that it needs. -/
theorem leastWeight_le_countOpening (h : expr.IsOperand)
    (hparse : parseStatements source file = .ok [expr]) :
    expr.leastWeight .relational openingWeight ≤ countOpening source.toList := by
  obtain ⟨pairs, hpairs⟩ := exceeds_of_parse h hparse
  have hreading := (Cursor.ofSource source).weigh_reading_le
  have hskip : countOpening (Cursor.ofSource source).rest ≤ countOpening source.toList :=
    Cursor.countOpening_skipTrivia_le 0 source.toList
  rw [hpairs] at hreading
  omega

theorem countOpening_toSource (h : expr.IsOperand) :
    countOpening expr.toSource.toList = expr.leastWeight .relational openingWeight := by
  rw [Expr.toSource, toList_join, h.opensAsNeeded (.line 0) [], Slot.least,
    Expr.leastWeight_lowest]
  rfl

/-- What is read as statements is read into tokens, the last of which is the end of the source. -/
theorem exists_tokenize_of_parse {body : List Expr}
    (hparse : parseStatements source file = .ok body) :
    ∃ tokens, tokenize source file = .ok tokens ∧
      tokens.length = weigh (fun _ => 1) (Cursor.ofSource source).reading.1 + 1 := by
  obtain ⟨lines, hshows, -⟩ := parseStatements_eq_ok_iff_shows.mp hparse
  refine ⟨_, tokenize_eq_ok_iff.mpr ⟨rfl, hshows.stop_rest, rfl⟩, ?_⟩
  rw [weigh_one, Cursor.reading, List.length_map, List.length_append]
  rfl

theorem parseStatements_toSource_of_isOperand (h : expr.IsOperand) (file : String) :
    parseStatements expr.toSource file = .ok [expr] := by
  have hline : ∀ line ∈ [expr], line.IsLine := List.forall_mem_singleton.mpr (.expression h)
  simpa using parseStatements_toSource hline file

/-- The text that is written for an expression has no pair of parentheses in excess. -/
theorem weigh_reading_toSource (h : expr.IsOperand) (weight : TokenKind → Nat) :
    weigh weight (Cursor.ofSource expr.toSource).reading.1 =
      expr.leastWeight .relational weight + weight .semicolon := by
  obtain ⟨pairs, hpairs⟩ := exceeds_of_parse h (parseStatements_toSource_of_isOperand h "")
  have hreading : weigh openingWeight (Cursor.ofSource expr.toSource).reading.1 ≤
      countOpening expr.toSource.toList :=
    (Cursor.ofSource expr.toSource).weigh_reading_le.trans
      (Cursor.countOpening_skipTrivia_le 0 expr.toSource.toList)
  -- Each pair in excess would be one opening parenthesis more than is written.
  obtain rfl : pairs = 0 := by
    rw [hpairs, countOpening_toSource h, pairWeight_openingWeight] at hreading
    omega
  rw [hpairs, Nat.zero_mul, Nat.add_zero]

end

/-- The text that is written for an expression is read as the expression, and no source that is read
as the expression has fewer tokens.  Without an opening parenthesis and a closing one behind it the
text is not read as the expression any more. -/
theorem toSource_is_shortest (expr : Expr) (h : expr.IsOperand) (file : String) :
    parseStatements expr.toSource file = .ok [expr] ∧
    (∀ source, parseStatements source file = .ok [expr] →
      ∃ tokens others, tokenize expr.toSource file = .ok tokens ∧
        tokenize source file = .ok others ∧ tokens.length ≤ others.length) ∧
    ∀ before inner behind, expr.toSource.toList = before ++ '(' :: (inner ++ ')' :: behind) →
      parseStatements (String.ofList (before ++ (inner ++ behind))) file ≠ .ok [expr] := by
  have hwritten := parseStatements_toSource_of_isOperand h file
  refine ⟨hwritten, fun source hparse => ?_, fun before inner behind hsplit hparse => ?_⟩
  · obtain ⟨tokens, htokens, hlength⟩ := exists_tokenize_of_parse hwritten
    obtain ⟨others, hothers, hlength'⟩ := exists_tokenize_of_parse hparse
    obtain ⟨pairs, hpairs⟩ := exceeds_of_parse h hparse
    refine ⟨tokens, others, htokens, hothers, ?_⟩
    rw [hlength, hlength', weigh_reading_toSource h, hpairs]
    omega
  · have hneeded := leastWeight_le_countOpening h hparse
    have hcount := countOpening_toSource h
    have hopen : countOpening ('(' :: (inner ++ ')' :: behind)) =
        countOpening (inner ++ ')' :: behind) + 1 := List.count_cons_self
    rw [hsplit, countOpening_append, hopen, countOpening_append] at hcount
    rw [String.toList_ofList, countOpening_append, countOpening_append] at hneeded
    have hbehind : countOpening behind ≤ countOpening (')' :: behind) := List.count_le_count_cons
    omega

/-- Of `(1) - ((2) - (x));` the pair around the second difference is kept, and `1 - 2 - x;` is
another expression. -/
theorem toSource_is_shortest_of_nested_difference :
    (∃ tokens others, tokenize "1 - (2 - x);" "shell" = .ok tokens ∧
      tokenize "(1) - ((2) - (x));" "shell" = .ok others ∧ tokens.length ≤ others.length) ∧
    parseStatements "1 - 2 - x;" "shell" ≠
      .ok [.binary .subtract (.number 1) (.binary .subtract (.number 2) (.symbol "x"))] := by
  have hx : IsName "x" := ⟨⟨'x', [], rfl, rfl⟩, List.all_eq_true.mp rfl, rfl⟩
  have h : (Expr.binary .subtract (.number 1)
      (.binary .subtract (.number 2) (.symbol "x"))).IsOperand :=
    .binary (.number (by decide)) (.binary (.number (by decide)) (.symbol hx))
  have hsource : (Expr.binary .subtract (.number 1)
      (.binary .subtract (.number 2) (.symbol "x"))).toSource = "1 - (2 - x);" := by
    cbv
  have hparse : parseStatements "(1) - ((2) - (x));" "shell" =
      .ok [.binary .subtract (.number 1) (.binary .subtract (.number 2) (.symbol "x"))] := by
    cbv
  obtain ⟨-, hfewest, hneeded⟩ := toSource_is_shortest _ h "shell"
  rw [hsource] at hfewest hneeded
  exact ⟨hfewest _ hparse, hneeded "1 - ".toList "2 - x".toList ";".toList rfl⟩

end IntScript
