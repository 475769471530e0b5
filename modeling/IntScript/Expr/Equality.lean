import IntScript.Expr

/-!
# Equality of expressions

Structural equality, decided by `Expr.beq`, which descends through the lists of arguments.
-/

namespace IntScript

namespace Expr


mutual

/-- Whether two expressions are equal. -/
def beq : Expr → Expr → Bool
  | number a, number b => a == b
  | symbol a, symbol b => a == b
  | assign a x, assign b y => a == b && beq x y
  | binary o a b, binary p x y => o == p && beq a x && beq b y
  | block a, block b => beqAll a b
  | ifThen a b, ifThen x y => beq a x && beq b y
  | ifElse a b c, ifElse x y z => beq a x && beq b y && beq c z
  | loop a b, loop x y => beq a x && beq b y
  | call a x, call b y => a == b && beqAll x y
  | labelledCall a x, labelledCall b y => a == b && beqLabelled x y
  | println a, println b => beq a b
  | _, _ => false

/-- Whether two lists of expressions are equal. -/
def beqAll : List Expr → List Expr → Bool
  | [], [] => true
  | a :: as, b :: bs => beq a b && beqAll as bs
  | _, _ => false

/-- Whether two lists of labelled expressions are equal. -/
def beqLabelled : List (String × Expr) → List (String × Expr) → Bool
  | [], [] => true
  | (k, a) :: as, (l, b) :: bs => k == l && beq a b && beqLabelled as bs
  | _, _ => false

end

mutual

theorem eq_of_beq_true : ∀ {a b : Expr}, beq a b = true → a = b
  | number _, b, h => by cases b <;> simp_all [beq]
  | symbol _, b, h => by cases b <;> simp_all [beq]
  | assign _ x, b, h => by
    cases b <;> simp_all only [beq, Bool.and_eq_true, beq_iff_eq, Bool.false_eq_true]
    exact eq_of_beq_true h.2 ▸ rfl
  | binary _ l r, b, h => by
    cases b <;> simp_all only [beq, Bool.and_eq_true, beq_iff_eq, Bool.false_eq_true]
    rw [eq_of_beq_true h.1.2, eq_of_beq_true h.2]
  | block _, b, h => by
    cases b <;> simp_all only [beq, Bool.false_eq_true]
    rw [eq_of_beqAll h]
  | ifThen _ _, b, h => by
    cases b <;> simp_all only [beq, Bool.and_eq_true, Bool.false_eq_true]
    rw [eq_of_beq_true h.1, eq_of_beq_true h.2]
  | ifElse _ _ _, b, h => by
    cases b <;> simp_all only [beq, Bool.and_eq_true, Bool.false_eq_true]
    rw [eq_of_beq_true h.1.1, eq_of_beq_true h.1.2, eq_of_beq_true h.2]
  | loop _ _, b, h => by
    cases b <;> simp_all only [beq, Bool.and_eq_true, Bool.false_eq_true]
    rw [eq_of_beq_true h.1, eq_of_beq_true h.2]
  | call _ _, b, h => by
    cases b <;> simp_all only [beq, Bool.and_eq_true, beq_iff_eq, Bool.false_eq_true]
    rw [eq_of_beqAll h.2]
  | labelledCall _ _, b, h => by
    cases b <;> simp_all only [beq, Bool.and_eq_true, beq_iff_eq, Bool.false_eq_true]
    rw [eq_of_beqLabelled h.2]
  | println _, b, h => by
    cases b <;> simp_all only [beq, Bool.false_eq_true]
    rw [eq_of_beq_true h]

theorem eq_of_beqAll : ∀ {as bs : List Expr}, beqAll as bs = true → as = bs
  | [], bs, h => by cases bs <;> simp_all [beqAll]
  | a :: as, bs, h => by
    cases bs <;> simp_all only [beqAll, Bool.and_eq_true, Bool.false_eq_true]
    rw [eq_of_beq_true h.1, eq_of_beqAll h.2]

theorem eq_of_beqLabelled : ∀ {as bs : List (String × Expr)}, beqLabelled as bs = true → as = bs
  | [], bs, h => by cases bs <;> simp_all [beqLabelled]
  | (k, a) :: as, bs, h => by
    cases bs <;> simp_all only [beqLabelled, Bool.and_eq_true, beq_iff_eq, Bool.false_eq_true]
    rw [eq_of_beq_true h.1.2, eq_of_beqLabelled h.2]

end

mutual

theorem beq_self : ∀ a : Expr, beq a a = true
  | number _ => by simp [beq]
  | symbol _ => by simp [beq]
  | assign _ x => by simp [beq, beq_self x]
  | binary _ l r => by simp [beq, beq_self l, beq_self r]
  | block body => by simp [beq, beqAll_self body]
  | ifThen c t => by simp [beq, beq_self c, beq_self t]
  | ifElse c t e => by simp [beq, beq_self c, beq_self t, beq_self e]
  | loop c b => by simp [beq, beq_self c, beq_self b]
  | call _ arguments => by simp [beq, beqAll_self arguments]
  | labelledCall _ arguments => by simp [beq, beqLabelled_self arguments]
  | println x => by simp [beq, beq_self x]

theorem beqAll_self : ∀ as : List Expr, beqAll as as = true
  | [] => rfl
  | a :: as => by simp [beqAll, beq_self a, beqAll_self as]

theorem beqLabelled_self : ∀ as : List (String × Expr), beqLabelled as as = true
  | [] => rfl
  | (_, a) :: as => by simp [beqLabelled, beq_self a, beqLabelled_self as]

end

instance : BEq Expr := ⟨beq⟩

instance : LawfulBEq Expr where
  eq_of_beq := eq_of_beq_true
  rfl := beq_self _

instance : DecidableEq Expr := fun a b =>
  decidable_of_iff (beq a b = true) ⟨eq_of_beq_true, fun h => h ▸ beq_self a⟩

end Expr

end IntScript
