import Mathlib.Data.Int.ModEq
import IntScript.Proofs.Evaluation.Composition

/-!
# Arithmetic modulo `2 ^ 64`

Sums, differences and products wrap around at every operator.  It makes no difference: to take
residues modulo `2 ^ 64` is a homomorphism of rings, so that what an expression comes to is the
residue of what it would come to over the unbounded integers, however often it wraps on the way.
Division is no such operation, and is exact for each pair of operands only.

* `Machine.endsWith_binary_iff` : the operands are evaluated one after the other, and then the
  operator is applied.
* `Expr.unbounded?` : the value of an expression over the unbounded integers.
* `IsResidue` : a value is the only one that is congruent to an integer.  The operators respect it
  (`Operator.isResidue_unbounded`), and so does evaluation, by induction on the expression
  (`Expr.IsPolynomial.exists_isResidue`).
* `arithmetic_is_exact_modulo` : the main result.
-/

namespace IntScript

/-! ## Operands and operators -/

/-- The value that a variable has as seen from the current frame. -/
def Session.visible? (session : Session) (name : String) : Option Int64 :=
  match session.environment.lookup name with
  | .found value => some value
  | .unbound | .astray => none

namespace Machine

variable {session after : Session} {result : Except RunFault Int64}

theorem endsWith_number_iff {value : Int64} :
    EndsWith ⟨.evaluate (.number value), [], session⟩ result after ↔
      result = .ok value ∧ after = session :=
  endsWith_step_iff.symm.trans endsWith_outcome_iff

/-- A variable that has a value is the only one to come to a value. -/
theorem endsWith_symbol_ok_iff {name : String} {value : Int64} :
    EndsWith ⟨.evaluate (.symbol name), [], session⟩ (.ok value) after ↔
      session.visible? name = some value ∧ after = session := by
  have hstep : Machine.step ⟨.evaluate (.symbol name), [], session⟩ =
      descend (.symbol name) [] session := rfl
  rw [← endsWith_step_iff, hstep, descend, Session.visible?]
  cases session.environment.lookup name with
  | found other =>
      rw [endsWith_outcome_iff]
      simp [eq_comm]
  | unbound =>
      rw [endsWith_outcome_iff]
      simp
  | astray =>
      simp only [reduceCtorEq, false_and, iff_false]
      rintro ⟨steps, hend⟩
      rw [afterSteps_stuck] at hend
      cases hend

/-- The right operand is evaluated, and then the operator is applied unless that fails. -/
theorem endsWith_rightOperand_iff {op : Operator} {right : Expr} {first : Int64} :
    EndsWith ⟨.outcome (.ok first), [.rightOperand op right], session⟩ result after ↔
      (∃ fault, EndsWith ⟨.evaluate right, [], session⟩ (.error fault) after ∧
        result = .error fault) ∨
      ∃ second, EndsWith ⟨.evaluate right, [], session⟩ (.ok second) after ∧
        result = op.apply first second := by
  have hstep : Machine.step ⟨.outcome (.ok first), [.rightOperand op right], session⟩ =
      under ⟨.evaluate right, [], session⟩ [.apply op first] := rfl
  have hfault : ∀ fault mid, EndsWith ⟨.outcome (.error fault), [.apply op first], mid⟩
      result after ↔ result = .error fault ∧ after = mid :=
    fun _ _ => endsWith_step_iff.symm.trans endsWith_outcome_iff
  have happly : ∀ second mid, EndsWith ⟨.outcome (.ok second), [.apply op first], mid⟩
      result after ↔ result = op.apply first second ∧ after = mid :=
    fun _ _ => endsWith_step_iff.symm.trans endsWith_outcome_iff
  rw [← endsWith_step_iff, hstep, endsWith_under_iff]
  constructor
  · rintro ⟨other, mid, hright, hrest⟩
    cases other with
    | error fault =>
        obtain ⟨rfl, rfl⟩ := (hfault fault mid).mp hrest
        exact .inl ⟨fault, hright, rfl⟩
    | ok second =>
        obtain ⟨rfl, rfl⟩ := (happly second mid).mp hrest
        exact .inr ⟨second, hright, rfl⟩
  · rintro (⟨fault, hright, rfl⟩ | ⟨second, hright, rfl⟩)
    · exact ⟨.error fault, after, hright, (hfault fault after).mpr ⟨rfl, rfl⟩⟩
    · exact ⟨.ok second, after, hright, (happly second after).mpr ⟨rfl, rfl⟩⟩

/-- An operator fails with the first of its operands that does, and otherwise it is applied. -/
theorem endsWith_binary_iff {op : Operator} {left right : Expr} :
    EndsWith ⟨.evaluate (.binary op left right), [], session⟩ result after ↔
      (∃ fault, EndsWith ⟨.evaluate left, [], session⟩ (.error fault) after ∧
        result = .error fault) ∨
      ∃ first mid, EndsWith ⟨.evaluate left, [], session⟩ (.ok first) mid ∧
        ((∃ fault, EndsWith ⟨.evaluate right, [], mid⟩ (.error fault) after ∧
          result = .error fault) ∨
        ∃ second, EndsWith ⟨.evaluate right, [], mid⟩ (.ok second) after ∧
          result = op.apply first second) := by
  have hstep : Machine.step ⟨.evaluate (.binary op left right), [], session⟩ =
      under ⟨.evaluate left, [], session⟩ [.rightOperand op right] := rfl
  have hfault : ∀ fault mid, EndsWith ⟨.outcome (.error fault), [.rightOperand op right], mid⟩
      result after ↔ result = .error fault ∧ after = mid :=
    fun _ _ => endsWith_step_iff.symm.trans endsWith_outcome_iff
  rw [← endsWith_step_iff, hstep, endsWith_under_iff]
  constructor
  · rintro ⟨other, mid, hleft, hrest⟩
    cases other with
    | error fault =>
        obtain ⟨rfl, rfl⟩ := (hfault fault mid).mp hrest
        exact .inl ⟨fault, hleft, rfl⟩
    | ok first => exact .inr ⟨first, mid, hleft, endsWith_rightOperand_iff.mp hrest⟩
  · rintro (⟨fault, hleft, rfl⟩ | ⟨first, mid, hleft, hrest⟩)
    · exact ⟨.error fault, after, hleft, (hfault fault after).mpr ⟨rfl, rfl⟩⟩
    · exact ⟨.ok first, mid, hleft, endsWith_rightOperand_iff.mpr hrest⟩

end Machine

/-! ## Residues -/

/-- The value, and no other, is congruent to the integer modulo `2 ^ 64`. -/
def IsResidue (n : Int) (value : Int64) : Prop :=
  ∀ other : Int64, other.toInt ≡ n [ZMOD 2 ^ 64] ↔ other = value

/-- No two values are congruent. -/
theorem isResidue_iff_modEq {n : Int} {value : Int64} :
    IsResidue n value ↔ value.toInt ≡ n [ZMOD 2 ^ 64] := by
  constructor
  · exact fun h => (h value).mpr rfl
  · intro h other
    constructor
    · intro hother
      have hmod : other.toInt % 2 ^ 64 = value.toInt % 2 ^ 64 := hother.trans h.symm
      have hlow := other.le_toInt
      have hhigh := other.toInt_lt
      have hlow' := value.le_toInt
      have hhigh' := value.toInt_lt
      exact Int64.toInt_inj.mp (by omega)
    · rintro rfl
      exact h

/-- The wrapped value of an integer is congruent to it. -/
theorem bmod_modEq (n : Int) : n.bmod (2 ^ 64) ≡ n [ZMOD 2 ^ 64] :=
  Int.bmod_emod

/-! ## Sums, differences and products -/

/-- The value of an operator over the unbounded integers, unless the operator is a division or a
comparison. -/
def Operator.unbounded? (op : Operator) (left right : Int) : Option Int :=
  match op with
  | add => some (left + right)
  | subtract => some (left - right)
  | multiply => some (left * right)
  | divide | less | lessEquals | greater | greaterEquals | equals | notEquals => none

/-- The operator is a sum, a difference or a product. -/
inductive Operator.IsRing : Operator → Prop where
  | add : IsRing .add
  | subtract : IsRing .subtract
  | multiply : IsRing .multiply

/-- Sums, differences and products of residues are residues, and there is no fault. -/
theorem Operator.isResidue_unbounded {op : Operator} (hop : op.IsRing) {first second : Int64}
    {m n : Int} (hfirst : IsResidue m first) (hsecond : IsResidue n second) :
    ∃ value whole, op.apply first second = .ok value ∧ op.unbounded? m n = some whole ∧
      IsResidue whole value := by
  rw [isResidue_iff_modEq] at hfirst hsecond
  simp only [isResidue_iff_modEq]
  cases hop with
  | add =>
      refine ⟨_, _, rfl, rfl, ?_⟩
      rw [Int64.toInt_add]
      exact (bmod_modEq _).trans (hfirst.add hsecond)
  | subtract =>
      refine ⟨_, _, rfl, rfl, ?_⟩
      rw [Int64.toInt_sub]
      exact (bmod_modEq _).trans (hfirst.sub hsecond)
  | multiply =>
      refine ⟨_, _, rfl, rfl, ?_⟩
      rw [Int64.toInt_mul]
      exact (bmod_modEq _).trans (hfirst.mul hsecond)

namespace Expr

/-- An expression made of literals, variables, sums, differences and products. -/
inductive IsPolynomial : Expr → Prop where
  | number (value : Int64) : IsPolynomial (.number value)
  | symbol (name : String) : IsPolynomial (.symbol name)
  | binary {op : Operator} {left right : Expr} (hop : op.IsRing) (hleft : IsPolynomial left)
      (hright : IsPolynomial right) : IsPolynomial (.binary op left right)

/-- The value of an expression over the unbounded integers, if it is made of literals, variables
that have values, sums, differences and products. -/
def unbounded? (valuation : String → Option Int) : Expr → Option Int
  | number value => some value.toInt
  | symbol name => valuation name
  | binary op left right =>
    (left.unbounded? valuation).bind fun m =>
      (right.unbounded? valuation).bind fun n => op.unbounded? m n
  | _ => none

/-- The evaluation of such an expression changes nothing, and its value is the residue of the exact
one. -/
theorem IsPolynomial.exists_isResidue {expr : Expr} (h : expr.IsPolynomial)
    {session after : Session} {value : Int64}
    (hend : Machine.EndsWith ⟨.evaluate expr, [], session⟩ (.ok value) after) :
    after = session ∧
      ∃ n, expr.unbounded? (fun name => (session.visible? name).map Int64.toInt) = some n ∧
        IsResidue n value := by
  induction h generalizing value after with
  | number literal =>
      obtain ⟨hvalue, rfl⟩ := Machine.endsWith_number_iff.mp hend
      obtain rfl := Except.ok.inj hvalue
      exact ⟨rfl, _, rfl, isResidue_iff_modEq.mpr rfl⟩
  | symbol name =>
      obtain ⟨hvisible, rfl⟩ := Machine.endsWith_symbol_ok_iff.mp hend
      refine ⟨rfl, value.toInt, ?_, isResidue_iff_modEq.mpr rfl⟩
      rw [unbounded?, hvisible, Option.map_some]
  | binary hop _ _ ihLeft ihRight =>
      rcases Machine.endsWith_binary_iff.mp hend with
        ⟨fault, -, hresult⟩ | ⟨first, mid, hfirst, ⟨fault, -, hresult⟩ | ⟨second, hsecond, hresult⟩⟩
      · cases hresult
      · cases hresult
      · obtain ⟨rfl, m, hm, hfirst'⟩ := ihLeft hfirst
        obtain ⟨rfl, n, hn, hsecond'⟩ := ihRight hsecond
        obtain ⟨value', whole, happly, hwhole, hresidue⟩ :=
          Operator.isResidue_unbounded hop hfirst' hsecond'
        rw [happly] at hresult
        obtain rfl := Except.ok.inj hresult
        refine ⟨rfl, whole, ?_, hresidue⟩
        rw [unbounded?, hm, Option.bind_some, hn, Option.bind_some, hwhole]

end Expr

/-! ## Quotients -/

/-- A quotient is rounded toward zero and wraps around, and there is none by zero. -/
theorem Operator.divide_apply (first second : Int64) :
    (second = 0 ∧ divide.apply first second = .error .divisionByZero) ∨
      (second ≠ 0 ∧ ∃ value, divide.apply first second = .ok value ∧
        IsResidue (first.toInt.tdiv second.toInt) value) := by
  by_cases hzero : second = 0
  · exact .inl ⟨hzero, if_pos hzero⟩
  · refine .inr ⟨hzero, first / second, if_neg hzero, isResidue_iff_modEq.mpr ?_⟩
    rw [Int64.toInt_div]
    exact bmod_modEq _

open Machine (EndsWith endsWith_binary_iff exists_run_eq_some_iff)

/-- An expression made of literals, variables, sums, differences and products has the one value that
is congruent modulo `2 ^ 64` to its value over the unbounded integers, if it has a value.  A
quotient of any two operands has the one value that is congruent to their quotient rounded toward
zero, unless the divisor is zero; and a division fails in no other case, or because an operand
fails. -/
theorem arithmetic_is_exact_modulo :
    (∀ (session after : Session) (expr : Expr) (value : Int64), expr.IsPolynomial →
      (∃ fuel, Session.evaluate fuel expr session = some (.ok value, after)) →
      ∃ n, expr.unbounded? (fun name => (session.visible? name).map Int64.toInt) = some n ∧
        ∀ other : Int64, other.toInt ≡ n [ZMOD 2 ^ 64] ↔ other = value) ∧
    (∀ (session mid after : Session) (left right : Expr) (a b : Int64),
      (∃ fuel, Session.evaluate fuel left session = some (.ok a, mid)) →
      (∃ fuel, Session.evaluate fuel right mid = some (.ok b, after)) →
      b ≠ 0 → ∃ fuel quotient,
        Session.evaluate fuel (.binary .divide left right) session = some (.ok quotient, after) ∧
        ∀ other : Int64, other.toInt ≡ a.toInt.tdiv b.toInt [ZMOD 2 ^ 64] ↔ other = quotient) ∧
    (∀ (session after : Session) (left right : Expr) (fault : RunFault),
      (∃ fuel, Session.evaluate fuel (.binary .divide left right) session =
        some (.error fault, after)) ↔
      (∃ fuel, Session.evaluate fuel left session = some (.error fault, after)) ∨
      ∃ a mid, (∃ fuel, Session.evaluate fuel left session = some (.ok a, mid)) ∧
        ((∃ fuel, Session.evaluate fuel right mid = some (.error fault, after)) ∨
          (∃ fuel, Session.evaluate fuel right mid = some (.ok 0, after)) ∧
            fault = .divisionByZero)) := by
  have hruns : ∀ session after expr result,
      (∃ fuel, Session.evaluate fuel expr session = some (result, after)) ↔
        EndsWith ⟨.evaluate expr, [], session⟩ result after :=
    fun _ _ _ _ => exists_run_eq_some_iff
  refine ⟨?_, ?_, ?_⟩
  · intro session after expr value hexpr hrun
    exact (hexpr.exists_isResidue ((hruns ..).mp hrun)).2
  · intro session mid after left right a b hleft hright hb
    rw [hruns] at hleft hright
    rcases Operator.divide_apply a b with ⟨hzero, -⟩ | ⟨-, quotient, happly, hresidue⟩
    · exact absurd hzero hb
    · obtain ⟨fuel, hrun⟩ := (hruns ..).mpr
        (endsWith_binary_iff.mpr (.inr ⟨a, mid, hleft, .inr ⟨b, hright, happly.symm⟩⟩))
      exact ⟨fuel, quotient, hrun, hresidue⟩
  · intro session after left right fault
    simp only [hruns]
    rw [endsWith_binary_iff]
    constructor
    · rintro (⟨fault', hleft, hfault⟩ |
        ⟨a, mid, hleft, ⟨fault', hright, hfault⟩ | ⟨b, hright, hresult⟩⟩)
      · cases hfault
        exact .inl hleft
      · cases hfault
        exact .inr ⟨a, mid, hleft, .inl hright⟩
      · rcases Operator.divide_apply a b with ⟨rfl, happly⟩ | ⟨-, quotient, happly, -⟩
        · cases hresult.trans happly
          exact .inr ⟨a, mid, hleft, .inr ⟨hright, rfl⟩⟩
        · cases hresult.trans happly
    · rintro (hleft | ⟨a, mid, hleft, hright | ⟨hright, rfl⟩⟩)
      · exact .inl ⟨fault, hleft, rfl⟩
      · exact .inr ⟨a, mid, hleft, .inl ⟨fault, hright, rfl⟩⟩
      · exact .inr ⟨a, mid, hleft, .inr ⟨0, hright, rfl⟩⟩

/-- With the least value in `x`, the product `x * (x - 1)` wraps twice, and the quotient `x / -1` is
the one that does not fit. -/
theorem arithmetic_is_exact_modulo_at_least_value : ∃ session : Session,
    session.visible? "x" = some Int64.minValue ∧
    (Expr.binary .multiply (.symbol "x")
      (.binary .subtract (.symbol "x") (.number 1))).IsPolynomial ∧
    Session.evaluate 20 (.binary .multiply (.symbol "x")
      (.binary .subtract (.symbol "x") (.number 1))) session =
        some (.ok Int64.minValue, session) ∧
    (∀ other : Int64, other.toInt ≡ 2 ^ 63 * (2 ^ 63 + 1) [ZMOD 2 ^ 64] ↔
      other = Int64.minValue) ∧
    ∃ fuel, Session.evaluate fuel (.binary .divide (.symbol "x") (.number (-1))) session =
      some (.ok Int64.minValue, session) := by
  have hpolynomial : (Expr.binary .multiply (.symbol "x")
      (.binary .subtract (.symbol "x") (.number 1))).IsPolynomial :=
    .binary .multiply (.symbol "x") (.binary .subtract (.symbol "x") (.number 1))
  obtain ⟨session, hsession⟩ : ∃ session,
      session = (Session.initial 1 .silent).defineGlobal "x" Int64.minValue := ⟨_, rfl⟩
  have hproduct : Session.evaluate 20 (.binary .multiply (.symbol "x")
      (.binary .subtract (.symbol "x") (.number 1))) session =
        some (.ok Int64.minValue, session) := by
    rw [hsession]
    rfl
  obtain ⟨n, hn, hresidue⟩ := arithmetic_is_exact_modulo.1 session session _ _ hpolynomial
    ⟨20, hproduct⟩
  obtain ⟨fuel, quotient, hquotient, hresidue'⟩ := arithmetic_is_exact_modulo.2.1 session session
    session (.symbol "x") (.number (-1)) Int64.minValue (-1) ⟨5, by rw [hsession]; rfl⟩
    ⟨5, rfl⟩ (by decide)
  obtain rfl := (hresidue' Int64.minValue).mp (by decide)
  refine ⟨session, by rw [hsession]; rfl, hpolynomial, hproduct, ?_, fuel, hquotient⟩
  rw [hsession] at hn
  cases hn
  exact hresidue

end IntScript
