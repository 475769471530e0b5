import IntScript.Program
import IntScript.Token

/-!
# Derivations

The grammar of the language as a type of derivations, said without any reader.

    definition      := "global" NAME "=" expression ";"
                     | "define" NAME "(" (NAME ("," NAME)*)? ")" "{" line* "}"
    line            := "println" "(" expression ")" ";"
                     | "while" "(" expression ")" line
                     | "if" "(" expression ")" line ("else" line)?
                     | "for" "(" NAME "in" expression "to" expression ")" line
                     | "{" line* "}"
                     | NAME "=" expression ";"
                     | expression ";"
    expression      := relational
    relational      := additive (("<" | "<=" | ">" | ">=" | "==" | "!=") additive)*
    additive        := multiplicative (("+" | "-") multiplicative)*
    multiplicative  := primary (("*" | "/") primary)*
    primary         := "(" expression ")" | NUMBER | NAME
                     | NAME "(" (expression ("," expression)*)? ")"
                     | NAME "[" (NAME "=" expression ("," NAME "=" expression)*)? "]"

A value of `Phrase layer`, `Line` or `Item` is a derivation from one of the symbols on the left,
with one constructor for each alternative.  Two functions read a derivation: `terminals` is the
sequence of tokens it derives, and `tree` is the tree it stands for.  The three layers of operators
have one rule, `Phrase.chain`, with the layer as its parameter.

The rule for `if` is ambiguous: an `else` may belong to any of several conditionals that end just
before it.  `Line.AttachesNearest` singles out the derivations in which every `else` belongs to the
nearest one, that is, in which no line between a condition and its `else` ends in a conditional that
has none (`Line.endsOpen`).
-/

namespace IntScript

/-! ## Terminals -/

/-- What the grammar sees of a token: its kind, and the text of a name or a numeral. -/
inductive Terminal where
  | fixed (kind : TokenKind)
  | name (text : String)
  | numeral (digits : String)
  deriving DecidableEq, Repr

namespace Terminal

/-- The kind of token that a terminal is seen of. -/
def kind : Terminal → TokenKind
  | fixed kind => kind
  | name _ => .identifier
  | numeral _ => .number

/-- What the grammar sees of a token of the kind with the text. -/
def ofKind (kind : TokenKind) (text : String) : Terminal :=
  match kind with
  | .identifier => name text
  | .number => numeral text
  | kind => fixed kind

@[simp] theorem kind_ofKind (kind : TokenKind) (text : String) :
    (ofKind kind text).kind = kind := by
  unfold ofKind
  split <;> rfl

end Terminal

/-- What the grammar sees of the token. -/
def Token.terminal (token : Token) : Terminal :=
  .ofKind token.kind token.text

@[simp] theorem Token.kind_terminal (token : Token) : token.terminal.kind = token.kind :=
  Terminal.kind_ofKind token.kind token.text

/-- The number that a run of decimal digits stands for. -/
def decimalValue (digits : String) : Nat :=
  Nat.ofDigitChars 10 digits.toList 0

/-- The largest number that has a numeral, `2 ^ 63 - 1`. -/
def largestNumeral : Nat := 9223372036854775807

namespace Grammar

/-- Items with a comma between any two. -/
def commaSeparated : List (List Terminal) → List Terminal
  | [] => []
  | [item] => item
  | item :: next :: others => item ++ .fixed .comma :: commaSeparated (next :: others)

/-! ## Expressions -/

mutual

/-- A derivation of an expression from a layer of precedence. -/
inductive Phrase : Precedence → Type where
  | group (inner : Phrase .relational) : Phrase .primary
  | number (digits : String) : Phrase .primary
  | name (name : String) : Phrase .primary
  | call (callee : String) (arguments : List (Phrase .relational)) : Phrase .primary
  | labelledCall (callee : String) (arguments : List (String × Phrase .relational)) :
      Phrase .primary
  /-- An operand of the next tighter layer, and further ones behind operators of this layer. -/
  | chain {layer : Precedence} (hlayer : layer ≠ .primary) (first : Phrase layer.next)
      (others : Operands layer) : Phrase layer

/-- Operators of a layer, each with its right operand. -/
inductive Operands : Precedence → Type where
  | nil {layer : Precedence} : Operands layer
  | cons {layer : Precedence} (op : Operator) (hop : op.precedence = layer)
      (right : Phrase layer.next) (others : Operands layer) : Operands layer

end

/-- Induction over a phrase and all that it is made of. -/
theorem Phrase.induct {P : ∀ layer, Phrase layer → Prop} {Q : ∀ layer, Operands layer → Prop}
    (group : ∀ inner, P .relational inner → P .primary (.group inner))
    (number : ∀ digits, P .primary (.number digits))
    (name : ∀ name, P .primary (.name name))
    (call : ∀ callee arguments, (∀ argument ∈ arguments, P .relational argument) →
      P .primary (.call callee arguments))
    (labelledCall : ∀ callee arguments, (∀ argument ∈ arguments, P .relational argument.2) →
      P .primary (.labelledCall callee arguments))
    (chain : ∀ layer (hlayer : layer ≠ .primary) first others, P layer.next first →
      Q layer others → P layer (.chain hlayer first others))
    (nil : ∀ layer, Q layer .nil)
    (cons : ∀ layer op (hop : op.precedence = layer) right others, P layer.next right →
      Q layer others → Q layer (.cons op hop right others))
    {layer : Precedence} (phrase : Phrase layer) : P layer phrase :=
  @Phrase.rec P Q
    (fun arguments => ∀ argument ∈ arguments, P .relational argument)
    (fun arguments => ∀ argument ∈ arguments, P .relational argument.2)
    (fun argument => P .relational argument.2)
    group number name call labelledCall (chain _) (nil _) (cons _)
    (fun _ h => absurd h List.not_mem_nil)
    (fun _ _ hfirst hothers => List.forall_mem_cons.mpr ⟨hfirst, hothers⟩)
    (fun _ h => absurd h List.not_mem_nil)
    (fun _ _ hfirst hothers => List.forall_mem_cons.mpr ⟨hfirst, hothers⟩)
    (fun _ _ h => h) layer phrase

mutual

/-- The terminals that a phrase derives. -/
def Phrase.terminals {layer : Precedence} : Phrase layer → List Terminal
  | .group inner => .fixed .openParen :: (inner.terminals ++ [.fixed .closeParen])
  | .number digits => [.numeral digits]
  | .name name => [.name name]
  | .call callee arguments =>
    .name callee :: .fixed .openParen ::
      (commaSeparated (argumentTerminals arguments) ++ [.fixed .closeParen])
  | .labelledCall callee arguments =>
    .name callee :: .fixed .openBracket ::
      (commaSeparated (labelledTerminals arguments) ++ [.fixed .closeBracket])
  | .chain _ first others => first.terminals ++ others.terminals

/-- The terminals of operators and their right operands. -/
def Operands.terminals {layer : Precedence} : Operands layer → List Terminal
  | .nil => []
  | .cons op _ right others => .fixed (.operator op) :: (right.terminals ++ others.terminals)

/-- The terminals of each argument. -/
def argumentTerminals : List (Phrase .relational) → List (List Terminal)
  | [] => []
  | argument :: others => argument.terminals :: argumentTerminals others

/-- The terminals of each labelled argument. -/
def labelledTerminals : List (String × Phrase .relational) → List (List Terminal)
  | [] => []
  | (label, argument) :: others =>
    (.name label :: .fixed .assignment :: argument.terminals) :: labelledTerminals others

end

mutual

/-- The expression that a phrase stands for. -/
def Phrase.tree {layer : Precedence} : Phrase layer → Expr
  | .group inner => inner.tree
  | .number digits => .number (.ofNat (decimalValue digits))
  | .name name => .symbol name
  | .call callee arguments => .call callee (argumentTrees arguments)
  | .labelledCall callee arguments => .labelledCall callee (labelledTrees arguments)
  | .chain _ first others => others.fold first.tree

/-- The operators applied from left to right, the first of them to `left`. -/
def Operands.fold {layer : Precedence} (left : Expr) : Operands layer → Expr
  | .nil => left
  | .cons op _ right others => others.fold (.binary op left right.tree)

/-- The expressions that arguments stand for. -/
def argumentTrees : List (Phrase .relational) → List Expr
  | [] => []
  | argument :: others => argument.tree :: argumentTrees others

/-- The labelled expressions that labelled arguments stand for. -/
def labelledTrees : List (String × Phrase .relational) → List (String × Expr)
  | [] => []
  | (label, argument) :: others => (label, argument.tree) :: labelledTrees others

end

theorem argumentTerminals_eq_map (arguments : List (Phrase .relational)) :
    argumentTerminals arguments = arguments.map Phrase.terminals := by
  induction arguments with
  | nil => rfl
  | cons argument others ih => rw [argumentTerminals, ih, List.map_cons]

theorem argumentTrees_eq_map (arguments : List (Phrase .relational)) :
    argumentTrees arguments = arguments.map Phrase.tree := by
  induction arguments with
  | nil => rfl
  | cons argument others ih => rw [argumentTrees, ih, List.map_cons]

theorem labelledTerminals_eq_map (arguments : List (String × Phrase .relational)) :
    labelledTerminals arguments = arguments.map fun argument =>
      .name argument.1 :: .fixed .assignment :: argument.2.terminals := by
  induction arguments with
  | nil => rfl
  | cons argument others ih => rw [labelledTerminals, ih, List.map_cons]

theorem labelledTrees_eq_map (arguments : List (String × Phrase .relational)) :
    labelledTrees arguments = arguments.map fun argument => (argument.1, argument.2.tree) := by
  induction arguments with
  | nil => rfl
  | cons argument others ih => rw [labelledTrees, ih, List.map_cons]

/-! ## Lines -/

/-- A derivation of a line. -/
inductive Line where
  | println (argument : Phrase .relational)
  | loop (condition : Phrase .relational) (body : Line)
  | ifThen (condition : Phrase .relational) (thenBody : Line)
  | ifElse (condition : Phrase .relational) (thenBody elseBody : Line)
  | counted (name : String) (start stop : Phrase .relational) (body : Line)
  | block (lines : List Line)
  | assign (name : String) (value : Phrase .relational)
  | expression (value : Phrase .relational)

namespace Line

/-- Induction over a line and the lines inside it. -/
theorem induct {P : Line → Prop} (println : ∀ argument, P (.println argument))
    (loop : ∀ condition body, P body → P (.loop condition body))
    (ifThen : ∀ condition thenBody, P thenBody → P (.ifThen condition thenBody))
    (ifElse : ∀ condition thenBody elseBody, P thenBody → P elseBody →
      P (.ifElse condition thenBody elseBody))
    (counted : ∀ name start stop body, P body → P (.counted name start stop body))
    (block : ∀ lines, (∀ line ∈ lines, P line) → P (.block lines))
    (assign : ∀ name value, P (.assign name value))
    (expression : ∀ value, P (.expression value)) (line : Line) : P line :=
  @Line.rec P (fun lines => ∀ line ∈ lines, P line)
    println loop ifThen ifElse counted block assign expression
    (fun _ h => absurd h List.not_mem_nil)
    (fun _ _ hfirst hothers => List.forall_mem_cons.mpr ⟨hfirst, hothers⟩) line

mutual

/-- The terminals that a line derives. -/
def terminals : Line → List Terminal
  | println argument =>
    .fixed (.keyword .println) :: .fixed .openParen ::
      (argument.terminals ++ [.fixed .closeParen, .fixed .semicolon])
  | loop condition body =>
    .fixed (.keyword .«while») :: .fixed .openParen ::
      (condition.terminals ++ .fixed .closeParen :: body.terminals)
  | ifThen condition thenBody =>
    .fixed (.keyword .«if») :: .fixed .openParen ::
      (condition.terminals ++ .fixed .closeParen :: thenBody.terminals)
  | ifElse condition thenBody elseBody =>
    .fixed (.keyword .«if») :: .fixed .openParen ::
      (condition.terminals ++ .fixed .closeParen ::
        (thenBody.terminals ++ .fixed (.keyword .«else») :: elseBody.terminals))
  | counted name start stop body =>
    .fixed (.keyword .«for») :: .fixed .openParen :: .name name :: .fixed (.keyword .«in») ::
      (start.terminals ++ .fixed (.keyword .«to») ::
        (stop.terminals ++ .fixed .closeParen :: body.terminals))
  | block lines => .fixed .openCurly :: (allTerminals lines ++ [.fixed .closeCurly])
  | assign name value =>
    .name name :: .fixed .assignment :: (value.terminals ++ [.fixed .semicolon])
  | expression value => value.terminals ++ [.fixed .semicolon]

/-- The terminals of lines one after the other. -/
def allTerminals : List Line → List Terminal
  | [] => []
  | line :: others => line.terminals ++ allTerminals others

end

mutual

/-- The expression that a line stands for.  A line with `for` stands for an assignment to its
variable and a loop that counts it up to the value of `stop`. -/
def tree : Line → Expr
  | println argument => .println argument.tree
  | loop condition body => .loop condition.tree body.tree
  | ifThen condition thenBody => .ifThen condition.tree thenBody.tree
  | ifElse condition thenBody elseBody => .ifElse condition.tree thenBody.tree elseBody.tree
  | counted name start stop body =>
    .block [
      .assign name start.tree,
      .loop (.binary .less (.symbol name) stop.tree)
        (.block [body.tree, .assign name (.binary .add (.symbol name) (.number 1))])]
  | block lines => .block (allTrees lines)
  | assign name value => .assign name value.tree
  | expression value => value.tree

/-- The expressions that lines stand for. -/
def allTrees : List Line → List Expr
  | [] => []
  | line :: others => line.tree :: allTrees others

end

/-- Whether a line ends in a conditional that has no `else`, and to which an `else` behind the line
could belong. -/
def endsOpen : Line → Bool
  | ifThen _ _ => true
  | ifElse _ _ elseBody => elseBody.endsOpen
  | loop _ body => body.endsOpen
  | counted _ _ _ body => body.endsOpen
  | println _ | block _ | assign _ _ | expression _ => false

mutual

/-- Every `else` in the line belongs to the nearest conditional before it that has no other. -/
def AttachesNearest : Line → Prop
  | ifElse _ thenBody elseBody =>
    thenBody.endsOpen = false ∧ thenBody.AttachesNearest ∧ elseBody.AttachesNearest
  | ifThen _ thenBody => thenBody.AttachesNearest
  | loop _ body => body.AttachesNearest
  | counted _ _ _ body => body.AttachesNearest
  | block lines => AllAttachNearest lines
  | println _ | assign _ _ | expression _ => True

/-- Every `else` in the lines belongs to the nearest conditional before it that has no other. -/
def AllAttachNearest : List Line → Prop
  | [] => True
  | line :: others => line.AttachesNearest ∧ AllAttachNearest others

end

theorem allTrees_eq_map (lines : List Line) : allTrees lines = lines.map tree := by
  induction lines with
  | nil => rfl
  | cons line others ih => rw [allTrees, ih, List.map_cons]

theorem allTerminals_eq_flatMap (lines : List Line) :
    allTerminals lines = lines.flatMap terminals := by
  induction lines with
  | nil => rfl
  | cons line others ih => rw [allTerminals, ih, List.flatMap_cons]

theorem mem_allTerminals {lines : List Line} {line : Line} {terminal : Terminal}
    (hline : line ∈ lines) (hmem : terminal ∈ line.terminals) : terminal ∈ allTerminals lines := by
  rw [allTerminals_eq_flatMap]
  exact List.mem_flatMap.mpr ⟨line, hline, hmem⟩

theorem allAttachNearest_iff {lines : List Line} :
    AllAttachNearest lines ↔ ∀ line ∈ lines, line.AttachesNearest := by
  induction lines with
  | nil => simp [AllAttachNearest]
  | cons line others ih => rw [AllAttachNearest, ih, List.forall_mem_cons]

end Line

/-! ## Definitions -/

/-- A derivation of a definition. -/
inductive Item where
  | global (name : String) (value : Phrase .relational)
  | function (name : String) (parameters : List String) (body : List Line)

namespace Item

/-- The terminals that a definition derives. -/
def terminals : Item → List Terminal
  | global name value =>
    .fixed (.keyword .global) :: .name name :: .fixed .assignment ::
      (value.terminals ++ [.fixed .semicolon])
  | function name parameters body =>
    .fixed (.keyword .define) :: .name name :: .fixed .openParen ::
      (commaSeparated (parameters.map fun parameter => [.name parameter]) ++
        .fixed .closeParen :: .fixed .openCurly ::
          (Line.allTerminals body ++ [.fixed .closeCurly]))

/-- The definition that a derivation of one stands for. -/
def tree : Item → Definition
  | global name value => .global name value.tree
  | function name parameters body => .function ⟨name, parameters, .block (Line.allTrees body)⟩

/-- The terminals of definitions one after the other. -/
def allTerminals (items : List Item) : List Terminal :=
  items.flatMap terminals

/-- Every `else` in the definition belongs to the nearest conditional before it that has no
other. -/
def AttachesNearest : Item → Prop
  | global _ _ => True
  | function _ _ body => Line.AllAttachNearest body

end Item

end Grammar

end IntScript
