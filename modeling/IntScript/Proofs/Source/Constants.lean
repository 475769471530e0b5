import IntScript.Proofs.Source.RoundTrip
import IntScript.Proofs.Evaluation.Wrapping

/-!
# Computations with constants

The language has numerals for the constants that are not negative only.  The others are written as
differences, and the least one, whose absolute value has no numeral either, is written with two of
them.  What is read is another tree then, and it comes to the same.

* `Computation` : a tree of operators over arbitrary constants, with its text
  (`Computation.spelling`) and what it comes to (`Computation.value`).
* `Spells` : a text is that of a phrase which may stand anywhere.  Numerals and differences in
  parentheses are spelled as they are printed; an operator in parentheses spells the operator of
  what its operands spell (`Spells.binary`).
* `Expr.ComesTo` : an expression comes to the same in every session and leaves it alone.
* `statement_expresses_computation` : the main result.
-/

namespace IntScript

open Grammar

/-- A tree of operators over constants. -/
inductive Computation where
  | constant (value : Int64)
  | binary (op : Operator) (left right : Computation)
  deriving Repr

/-- The text of a constant: a numeral, or a difference in parentheses if it is negative. -/
def constantSpelling (value : Int64) : String :=
  if 0 ≤ value then Text.decimal value
  else if value = Int64.minValue then "(0 - 9223372036854775807 - 1)"
  else "(0 - " ++ Text.decimalNat value.toInt.natAbs ++ ")"

namespace Computation

/-- The computation as an expression, in which constants may be negative. -/
def expr : Computation → Expr
  | constant value => .number value
  | binary op left right => .binary op left.expr right.expr

/-- The text of a computation, with every operator and its operands in parentheses. -/
def spelling : Computation → String
  | constant value => constantSpelling value
  | binary op left right =>
    "(" ++ left.spelling ++ " " ++ op.symbol ++ " " ++ right.spelling ++ ")"

example : (binary .divide (constant Int64.minValue)
      (binary .less (constant (-1)) (constant 7))).spelling =
    "((0 - 9223372036854775807 - 1) / ((0 - 1) < 7))" := by
  decide

/-- What a computation comes to: the operators are applied from the leaves upwards, until one of
them fails. -/
def value : Computation → Except RunFault Int64
  | constant value => .ok value
  | binary op left right => do
    let first ← left.value
    let second ← right.value
    op.apply first second

/-- Nothing but a division by zero fails. -/
theorem error_eq_divisionByZero (computation : Computation) {fault : RunFault}
    (h : computation.value = .error fault) : fault = .divisionByZero := by
  induction computation with
  | constant value => cases h
  | binary op left right ihLeft ihRight =>
      rw [value] at h
      cases hleft : left.value with
      | error other =>
          rw [hleft] at h
          cases h
          exact ihLeft hleft
      | ok first =>
          cases hright : right.value with
          | error other =>
              rw [hleft, hright] at h
              cases h
              exact ihRight hright
          | ok second =>
              rw [hleft, hright] at h
              have happly : op.apply first second = .error fault := h
              cases op with
              | divide =>
                  simp only [Operator.apply] at happly
                  split at happly <;> cases happly
                  rfl
              | _ => cases happly

end Computation

/-! ## Texts of phrases -/

/-- Two phrases that may stand anywhere, with an operator between them and in parentheses. -/
theorem exists_group (op : Operator) (left right : Phrase .primary) :
    ∃ group : Phrase .primary, group.tree = .binary op left.tree right.tree ∧
      group.terminals = .fixed .openParen :: (left.terminals ++
        .fixed (.operator op) :: (right.terminals ++ [.fixed .closeParen])) := by
  have hleft : op.precedence.rank ≤ Precedence.primary.rank := by cases op <;> decide
  have hright : op.precedence.next.rank ≤ Precedence.primary.rank := by cases op <;> decide
  have hinside : Precedence.relational.rank ≤ op.precedence.rank := by cases op <;> decide
  obtain ⟨first, htree, hterminals⟩ := exists_loosened left hleft
  obtain ⟨second, htree', hterminals'⟩ := exists_loosened right hright
  obtain ⟨chain, hchain, hall⟩ := first.exists_extended rfl second
  obtain ⟨inner, hinner, hall'⟩ := exists_loosened chain hinside
  refine ⟨.group inner, ?_, ?_⟩
  · rw [Phrase.tree, hinner, hchain, htree, htree']
  · rw [Phrase.terminals, hall', hall, hterminals, hterminals', List.append_assoc, List.cons_append]

/-- The text is that of a phrase for the expression that may stand anywhere. -/
def Spells (spelling : String) (expr : Expr) : Prop :=
  ∃ phrase : Phrase .primary, phrase.tree = expr ∧ WritesAs (spelling :: ·) phrase.terminals

namespace Spells

/-- A proper expression is spelled as it is printed for a slot in which no operator is bare. -/
theorem of_layout {spelling : String} {expr : Expr} (h : expr.IsOperand)
    (hlayout : ∀ rest, text (expr.layout (.operand .primary) rest) = text (spelling :: rest)) :
    Spells spelling expr := by
  have hslot : Precedence.primary ≠ .lowest := nofun
  obtain ⟨phrase, htree, hfits, hscans⟩ := (h.printsPhrase (.operand .primary)).operand hslot
  refine ⟨phrase, htree, hfits, fun rest hrest => ?_⟩
  rw [← hlayout]
  exact hscans rest hrest

/-- An operator between spelled operands in parentheses is spelled. -/
theorem binary {op : Operator} {left right : String} {first second : Expr}
    (hleft : Spells left first) (hright : Spells right second) :
    Spells ("(" ++ left ++ " " ++ op.symbol ++ " " ++ right ++ ")") (.binary op first second) := by
  obtain ⟨leftPhrase, rfl, hfits, hscans⟩ := hleft
  obtain ⟨rightPhrase, rfl, hfits', hscans'⟩ := hright
  obtain ⟨group, htree, hterminals⟩ := exists_group op leftPhrase rightPhrase
  refine ⟨group, htree, ?_, fun rest _ => ?_⟩
  · rw [hterminals]
    simp only [List.forall_mem_cons, List.forall_mem_append]
    exact ⟨trivial, hfits, trivial, hfits', trivial, by simp⟩
  · have htext : text (("(" ++ left ++ " " ++ op.symbol ++ " " ++ right ++ ")") :: rest) =
        text ("(" :: left :: " " :: op.symbol :: " " :: right :: ")" :: rest) := by
      simp [String.toList_append]
    have hbehind := Scans.space.trans ((Scans.operator op _).trans (Scans.space.trans
      ((hscans' (")" :: rest) (separated_cons (by decide))).trans Scans.closeParen)))
    have hfirst := hscans (" " :: op.symbol :: " " :: right :: ")" :: rest)
      (separated_cons (by decide))
    rw [htext, hterminals]
    exact Scans.openParen.trans (hfirst.trans hbehind)

/-- A spelled expression with a semicolon behind it is read as a line. -/
theorem parseStatements {spelling : String} {expr : Expr} (h : Spells spelling expr)
    (file : String) : IntScript.parseStatements (spelling ++ ";") file = .ok [expr] := by
  obtain ⟨phrase, rfl, hfits, hscans⟩ := h
  have hrank : Precedence.relational.rank ≤ Precedence.primary.rank := by decide
  obtain ⟨looser, htree, hterminals⟩ := exists_loosened phrase hrank
  have hline : Line.allTerminals [.expression looser] =
      phrase.terminals ++ [.fixed .semicolon] := by
    rw [Line.allTerminals, Line.allTerminals, Line.terminals, hterminals, List.append_nil]
  have hsource : Scans (spelling ++ ";").toList (Line.allTerminals [.expression looser]) [] := by
    rw [hline, String.toList_append]
    exact (hscans [";"] (separated_cons (by decide))).trans Scans.semicolon
  refine parseStatements_eq_ok_iff_shows.mpr
    ⟨[.expression looser], hsource.shows file, ?_, ⟨trivial, trivial⟩, ?_⟩
  · rw [hline, List.forall_mem_append]
    exact ⟨hfits, List.forall_mem_singleton.mpr trivial⟩
  · rw [List.map_singleton, Line.tree, htree]

end Spells

/-! ## The same in every session -/

/-- In every session the expression comes to the result and leaves the session alone. -/
def Expr.ComesTo (expr : Expr) (result : Except RunFault Int64) : Prop :=
  ∀ session, Machine.EndsWith ⟨.evaluate expr, [], session⟩ result session

namespace Expr.ComesTo

theorem number (value : Int64) : (Expr.number value).ComesTo (.ok value) :=
  fun _ => Machine.endsWith_number_iff.mpr ⟨rfl, rfl⟩

theorem binary {op : Operator} {left right : Expr} {first second : Except RunFault Int64}
    (hleft : left.ComesTo first) (hright : right.ComesTo second) :
    (Expr.binary op left right).ComesTo (do
      let first ← first
      let second ← second
      op.apply first second) := by
  intro session
  rw [Machine.endsWith_binary_iff]
  cases first with
  | error fault => exact .inl ⟨fault, hleft session, rfl⟩
  | ok first =>
      refine .inr ⟨first, session, hleft session, ?_⟩
      cases second with
      | error fault => exact .inl ⟨fault, hright session, rfl⟩
      | ok second => exact .inr ⟨second, hright session, rfl⟩

/-- What two expressions both come to, they do so with the same fuel. -/
theorem exists_fuel {expr other : Expr} {result : Except RunFault Int64}
    (h : expr.ComesTo result) (h' : other.ComesTo result) (session : Session) :
    ∃ fuel, Session.evaluate fuel expr session = some (result, session) ∧
      Session.evaluate fuel other session = some (result, session) := by
  obtain ⟨fuel, hrun⟩ := Machine.exists_run_eq_some_iff.mpr (h session)
  obtain ⟨fuel', hrun'⟩ := Machine.exists_run_eq_some_iff.mpr (h' session)
  exact ⟨max fuel fuel', Machine.run_mono (Nat.le_max_left fuel fuel') hrun,
    Machine.run_mono (Nat.le_max_right fuel fuel') hrun'⟩

end Expr.ComesTo

/-! ## Constants -/

/-- A negative constant, unless it is the least one, is the opposite of one that has a numeral. -/
theorem neg_of_negative {value : Int64} (hneg : ¬ 0 ≤ value) (hmin : value ≠ Int64.minValue) :
    0 ≤ -value ∧ Text.decimal (-value) = Text.decimalNat value.toInt.natAbs := by
  have hlow : -2 ^ 63 < value.toInt := by
    have hne : value.toInt ≠ -2 ^ 63 := fun h => hmin (Int64.toInt_inj.mp h)
    have hle := value.le_toInt
    omega
  have hlt : value.toInt < 0 := by
    rw [Int64.le_iff_toInt_le] at hneg
    exact Int.not_le.mp hneg
  have hopposite : (-value).toInt = -value.toInt := by
    rw [Int64.toInt_neg]
    exact Int.bmod_eq_of_le (by omega) (by omega)
  have hnonneg : ¬ (-value).toInt < 0 := by omega
  refine ⟨?_, ?_⟩
  · rw [Int64.le_iff_toInt_le, hopposite]
    exact Int.le_of_lt (Int.neg_pos_of_neg hlt)
  · rw [Text.decimal, if_neg hnonneg, hopposite, Int.natAbs_neg]

/-- The decimal form of a constant that is not negative spells it. -/
theorem Spells.number {value : Int64} (h : 0 ≤ value) :
    Spells (Text.decimal value) (.number value) :=
  .of_layout (.number h) fun _ => rfl

/-- The text of a constant spells an expression that comes to it. -/
theorem exists_spells_constant (value : Int64) :
    ∃ expr, Spells (constantSpelling value) expr ∧ expr.ComesTo (.ok value) := by
  unfold constantSpelling
  split
  next hnonneg => exact ⟨.number value, .number hnonneg, .number value⟩
  next hneg =>
    split
    next hmin =>
      subst hmin
      refine ⟨.binary .subtract (.binary .subtract (.number 0) (.number Int64.maxValue))
        (.number 1), .of_layout ?_ fun _ => rfl, ?_⟩
      · exact .binary (.binary (.number (by decide)) (.number (by decide))) (.number (by decide))
      · exact .binary (.binary (.number 0) (.number Int64.maxValue)) (.number 1)
    next hmin =>
      obtain ⟨hopposite, hdecimal⟩ := neg_of_negative hneg hmin
      have hstart : "(" ++ Text.decimal 0 ++ " " ++ Operator.subtract.symbol ++ " " = "(0 - " := by
        decide
      have hzero : (0 : Int64) ≤ 0 := by decide
      have hspells : Spells ("(" ++ Text.decimal 0 ++ " " ++ Operator.subtract.symbol ++ " " ++
          Text.decimal (-value) ++ ")") (.binary .subtract (.number 0) (.number (-value))) :=
        .binary (.number hzero) (.number hopposite)
      rw [hstart, hdecimal] at hspells
      have hcomes : (Expr.binary .subtract (.number 0) (.number (-value))).ComesTo
          (.ok (0 - -value)) := .binary (.number 0) (.number (-value))
      rw [Int64.zero_sub, Int64.neg_neg] at hcomes
      exact ⟨_, hspells, hcomes⟩

/-- The text of a computation spells an expression that comes to the same. -/
theorem Computation.exists_spells (computation : Computation) :
    ∃ expr, Spells computation.spelling expr ∧ expr.ComesTo computation.value := by
  induction computation with
  | constant value => exact exists_spells_constant value
  | binary op left right ihLeft ihRight =>
      obtain ⟨first, hspells, hcomes⟩ := ihLeft
      obtain ⟨second, hspells', hcomes'⟩ := ihRight
      exact ⟨.binary op first second, hspells.binary hspells', hcomes.binary hcomes'⟩

theorem Computation.comesTo_expr (computation : Computation) :
    computation.expr.ComesTo computation.value := by
  induction computation with
  | constant value => exact .number value
  | binary op left right ihLeft ihRight => exact ihLeft.binary ihRight

/-- The text of a computation with a semicolon behind it is read as one line, and this line comes to
what the computation does as an expression, in every session: to a value or to the fault of a
division by zero. -/
theorem statement_expresses_computation (computation : Computation) (file : String) :
    ∃ line, parseStatements (computation.spelling ++ ";") file = .ok [line] ∧
      ∀ session, ∃ fuel result,
        Session.evaluate fuel line session = some (result, session) ∧
        Session.evaluate fuel computation.expr session = some (result, session) ∧
        ((∃ value, result = .ok value) ∨ result = .error .divisionByZero) := by
  obtain ⟨line, hspells, hcomes⟩ := computation.exists_spells
  refine ⟨line, hspells.parseStatements file, fun session => ?_⟩
  obtain ⟨fuel, hline, hexpr⟩ := hcomes.exists_fuel computation.comesTo_expr session
  refine ⟨fuel, computation.value, hline, hexpr, ?_⟩
  cases hvalue : computation.value with
  | ok value => exact .inl ⟨value, rfl⟩
  | error fault => exact .inr (by rw [computation.error_eq_divisionByZero hvalue])

end IntScript
