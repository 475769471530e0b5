import IntScript.Proofs.Grammar.Acceptance

/-!
# Surface forms

The trees that source text can stand for.  In an arbitrary tree anything can be anywhere: a loop as
an operand, a negative number, a name with a space in it.  A tree has *surface form* if it is put
together as source text is.

* `Expr.IsOperand`, `Expr.IsLine`, `Definition.IsSurface` : the forms of operands, of lines and of
  definitions.  The only condition that is not local concerns the line between a condition and its
  `else`, which must not end in a conditional that has none (`Expr.endsInOpenIf`).
* `Phrase.isOperand_tree`, `Line.isLine_tree`, `Item.isSurface_tree` : what is derived has surface
  form.

A line with `for` stands for a block, so that it never ends in an open conditional as a tree, even
where its derivation does: `Line.endsOpen_of_endsInOpenIf` is an implication only.
-/

namespace IntScript

open Grammar

namespace Expr

/-- An expression in the proper sense, made of numbers that are not negative, variables, operators
and calls. -/
inductive IsOperand : Expr → Prop where
  | number {value : Int64} (hvalue : 0 ≤ value) : IsOperand (.number value)
  | symbol {name : String} (hname : IsName name) : IsOperand (.symbol name)
  | binary {op : Operator} {left right : Expr} (hleft : IsOperand left)
      (hright : IsOperand right) : IsOperand (.binary op left right)
  | call {callee : String} {arguments : List Expr} (hcallee : IsName callee)
      (harguments : ∀ argument ∈ arguments, IsOperand argument) :
      IsOperand (.call callee arguments)
  | labelledCall {callee : String} {arguments : List (String × Expr)} (hcallee : IsName callee)
      (hlabels : ∀ argument ∈ arguments, IsName argument.1)
      (harguments : ∀ argument ∈ arguments, IsOperand argument.2) :
      IsOperand (.labelledCall callee arguments)

/-- Whether an `else` behind the line would belong to a conditional inside it. -/
def endsInOpenIf : Expr → Bool
  | ifThen _ _ => true
  | ifElse _ _ elseBody => elseBody.endsInOpenIf
  | loop _ body => body.endsInOpenIf
  | _ => false

/-- A line. -/
inductive IsLine : Expr → Prop where
  | expression {value : Expr} (hvalue : IsOperand value) : IsLine value
  | assign {name : String} {value : Expr} (hname : IsName name) (hvalue : IsOperand value) :
      IsLine (.assign name value)
  | println {argument : Expr} (hargument : IsOperand argument) : IsLine (.println argument)
  | loop {condition body : Expr} (hcondition : IsOperand condition) (hbody : IsLine body) :
      IsLine (.loop condition body)
  | ifThen {condition thenBody : Expr} (hcondition : IsOperand condition)
      (hthen : IsLine thenBody) : IsLine (.ifThen condition thenBody)
  | ifElse {condition thenBody elseBody : Expr} (hcondition : IsOperand condition)
      (hthen : IsLine thenBody) (helse : IsLine elseBody)
      (hclosed : thenBody.endsInOpenIf = false) : IsLine (.ifElse condition thenBody elseBody)
  | block {body : List Expr} (hbody : ∀ line ∈ body, IsLine line) : IsLine (.block body)

theorem IsOperand.endsInOpenIf {expr : Expr} (h : expr.IsOperand) :
    expr.endsInOpenIf = false := by
  cases h <;> rfl

end Expr

/-- A definition with proper names, of a proper expression or of a function whose body is a block of
lines. -/
inductive Definition.IsSurface : Definition → Prop where
  | global {name : String} {value : Expr} (hname : IsName name) (hvalue : value.IsOperand) :
      IsSurface (.global name value)
  | function {name : String} {parameters : List String} {body : List Expr} (hname : IsName name)
      (hparameters : ∀ parameter ∈ parameters, IsName parameter)
      (hbody : ∀ line ∈ body, line.IsLine) :
      IsSurface (.function ⟨name, parameters, .block body⟩)

/-! ## What is derived has surface form -/

/-- A terminal that is spelled as its kind is, and that is no numeral of too large a number. -/
def Terminal.Proper (terminal : Terminal) : Prop :=
  terminal.WellSpelled ∧ terminal.Fits

namespace Grammar

theorem mem_commaSeparated {α : Type} (terminals : α → List Terminal) {items : List α} {item : α}
    {terminal : Terminal} (hitem : item ∈ items) (hmem : terminal ∈ terminals item) :
    terminal ∈ commaSeparated (items.map terminals) := by
  induction items with
  | nil => exact absurd hitem List.not_mem_nil
  | cons first others ih =>
      cases others with
      | nil =>
          obtain rfl := List.mem_singleton.mp hitem
          exact hmem
      | cons second others =>
          rw [List.map_cons, List.map_cons, commaSeparated, ← List.map_cons]
          rcases List.mem_cons.mp hitem with rfl | hitem
          · exact List.mem_append_left _ hmem
          · exact List.mem_append_right _ (List.mem_cons_of_mem _ (ih hitem))

theorem zero_le_ofNat_decimalValue {digits : String} (h : (Terminal.numeral digits).Fits) :
    (0 : Int64) ≤ .ofNat (decimalValue digits) := by
  have hlt : decimalValue digits < 2 ^ 63 := Nat.lt_of_le_of_lt h.2.2 (by decide)
  rw [Int64.le_iff_toInt_le, Int64.toInt_ofNat_of_lt hlt]
  exact Int.natCast_nonneg _

/-- A phrase stands for a proper expression. -/
theorem Phrase.isOperand_tree {layer : Precedence} (phrase : Phrase layer)
    (hproper : ∀ terminal ∈ phrase.terminals, terminal.Proper) : phrase.tree.IsOperand := by
  refine Phrase.induct
    (P := fun _ phrase => (∀ terminal ∈ phrase.terminals, terminal.Proper) →
      phrase.tree.IsOperand)
    (Q := fun _ others => ∀ first : Expr, first.IsOperand →
      (∀ terminal ∈ others.terminals, terminal.Proper) → (others.fold first).IsOperand)
    ?group ?number ?name ?call ?labelledCall ?chain ?nil ?cons phrase hproper
  case group =>
    intro inner ih hproper
    exact ih fun terminal hmem => hproper terminal (by simp [Phrase.terminals, hmem])
  case number =>
    intro digits hproper
    have hdigits := hproper (.numeral digits) (by simp [Phrase.terminals])
    exact .number (zero_le_ofNat_decimalValue hdigits.2)
  case name =>
    intro name hproper
    exact .symbol (hproper (.name name) (by simp [Phrase.terminals])).1
  case call =>
    intro callee arguments ih hproper
    rw [Phrase.terminals, argumentTerminals_eq_map] at hproper
    rw [Phrase.tree, argumentTrees_eq_map]
    refine .call (hproper (.name callee) (by simp)).1 ?_
    intro tree htree
    obtain ⟨argument, hargument, rfl⟩ := List.mem_map.mp htree
    refine ih argument hargument fun terminal hmem => hproper terminal ?_
    simp [mem_commaSeparated Phrase.terminals hargument hmem]
  case labelledCall =>
    intro callee arguments ih hproper
    rw [Phrase.terminals, labelledTerminals_eq_map] at hproper
    rw [Phrase.tree, labelledTrees_eq_map]
    have hargument : ∀ argument ∈ arguments, ∀ terminal,
        terminal ∈ (.name argument.1 :: .fixed .assignment :: argument.2.terminals) →
          terminal.Proper := by
      intro argument hargument terminal hmem
      have hlist := mem_commaSeparated (fun argument : String × Phrase .relational =>
        .name argument.1 :: .fixed .assignment :: argument.2.terminals) hargument hmem
      exact hproper terminal (by simp [hlist])
    refine .labelledCall (hproper (.name callee) (by simp)).1 ?_ ?_
    · intro tree htree
      obtain ⟨argument, hmem, rfl⟩ := List.mem_map.mp htree
      exact (hargument argument hmem (.name argument.1) (by simp)).1
    · intro tree htree
      obtain ⟨argument, hmem, rfl⟩ := List.mem_map.mp htree
      exact ih argument hmem fun terminal h => hargument argument hmem terminal (by simp [h])
  case chain =>
    intro layer hlayer first others hfirst hothers hproper
    rw [Phrase.terminals, List.forall_mem_append] at hproper
    exact hothers first.tree (hfirst hproper.1) hproper.2
  case nil => exact fun layer first hfirst _ => hfirst
  case cons =>
    intro layer op hop right others hright hothers first hfirst hproper
    rw [Operands.terminals, List.forall_mem_cons, List.forall_mem_append] at hproper
    exact hothers _ (.binary hfirst (hright hproper.2.1)) hproper.2.2

namespace Line

/-- A line whose tree ends in an open conditional does so itself. -/
theorem endsOpen_of_endsInOpenIf : ∀ {line : Line},
    (∀ terminal ∈ line.terminals, terminal.Proper) → line.tree.endsInOpenIf = true →
      line.endsOpen = true := by
  intro line
  induction line using Line.induct with
  | ifThen => exact fun _ _ => rfl
  | loop condition body ih =>
      intro hproper h
      exact ih (fun terminal hmem => hproper terminal (by simp [terminals, hmem])) h
  | ifElse condition thenBody elseBody _ ih =>
      intro hproper h
      exact ih (fun terminal hmem => hproper terminal (by simp [terminals, hmem])) h
  | expression value =>
      intro hproper h
      rw [terminals, List.forall_mem_append] at hproper
      -- The tree of an expression is no conditional at all.
      have hclosed : value.tree.endsInOpenIf = false :=
        (value.isOperand_tree hproper.1).endsInOpenIf
      exact absurd (hclosed.symm.trans h) Bool.false_ne_true
  | _ => exact fun _ h => absurd h Bool.false_ne_true

/-- The variable of a counted line, its bounds and its body make up the block it stands for. -/
theorem isLine_forIn {name : String} {start stop body : Expr} (hname : IsName name)
    (hstart : start.IsOperand) (hstop : stop.IsOperand) (hbody : body.IsLine) :
    (Expr.forIn name start stop body).IsLine := by
  have hstep : Expr.IsLine (.assign name (.binary .add (.symbol name) (.number 1))) :=
    .assign hname (.binary (.symbol hname) (.number (by decide)))
  have hloop : Expr.IsLine (.loop (.binary .less (.symbol name) stop)
      (.block [body, .assign name (.binary .add (.symbol name) (.number 1))])) :=
    .loop (.binary (.symbol hname) hstop) (.block (by simp [hbody, hstep]))
  exact .block (by simp [hloop, Expr.IsLine.assign hname hstart])

/-- A line in which every `else` belongs to the nearest conditional stands for a tree of surface
form. -/
theorem isLine_tree (line : Line) : (∀ terminal ∈ line.terminals, terminal.Proper) →
    line.AttachesNearest → line.tree.IsLine := by
  induction line using Line.induct with
  | println argument =>
      intro hproper _
      refine .println (argument.isOperand_tree fun terminal hmem => hproper terminal ?_)
      simp [terminals, hmem]
  | loop condition body ih =>
      intro hproper hnearest
      refine .loop (condition.isOperand_tree fun terminal hmem => hproper terminal ?_)
        (ih (fun terminal hmem => hproper terminal ?_) hnearest)
      all_goals simp [terminals, hmem]
  | ifThen condition thenBody ih =>
      intro hproper hnearest
      refine .ifThen (condition.isOperand_tree fun terminal hmem => hproper terminal ?_)
        (ih (fun terminal hmem => hproper terminal ?_) hnearest)
      all_goals simp [terminals, hmem]
  | ifElse condition thenBody elseBody ih ih' =>
      intro hproper hnearest
      have hthen : ∀ terminal ∈ thenBody.terminals, terminal.Proper :=
        fun terminal hmem => hproper terminal (by simp [terminals, hmem])
      refine .ifElse (condition.isOperand_tree fun terminal hmem => hproper terminal ?_)
        (ih hthen hnearest.2.1) (ih' (fun terminal hmem => hproper terminal ?_) hnearest.2.2) ?_
      · simp [terminals, hmem]
      · simp [terminals, hmem]
      · rw [← Bool.not_eq_true]
        intro hopen
        exact Bool.false_ne_true (hnearest.1.symm.trans (endsOpen_of_endsInOpenIf hthen hopen))
  | counted name start stop body ih =>
      intro hproper hnearest
      have hname := (hproper (.name name) (by simp [terminals])).1
      refine isLine_forIn hname (start.isOperand_tree fun terminal hmem => hproper terminal ?_)
        (stop.isOperand_tree fun terminal hmem => hproper terminal ?_)
        (ih (fun terminal hmem => hproper terminal ?_) hnearest)
      all_goals simp [terminals, hmem]
  | block lines ih =>
      intro hproper hnearest
      rw [tree, allTrees_eq_map]
      refine .block fun tree htree => ?_
      obtain ⟨line, hline, rfl⟩ := List.mem_map.mp htree
      refine ih line hline (fun terminal hmem => hproper terminal ?_)
        (allAttachNearest_iff.mp hnearest line hline)
      simp [terminals, mem_allTerminals hline hmem]
  | assign name value =>
      intro hproper _
      refine .assign (hproper (.name name) (by simp [terminals])).1
        (value.isOperand_tree fun terminal hmem => hproper terminal ?_)
      simp [terminals, hmem]
  | expression value =>
      intro hproper _
      refine .expression (value.isOperand_tree fun terminal hmem => hproper terminal ?_)
      simp [terminals, hmem]

/-- Lines in which every `else` belongs to the nearest conditional stand for lines of surface
form. -/
theorem isLine_of_mem_trees {lines : List Line}
    (hproper : ∀ terminal ∈ allTerminals lines, terminal.Proper)
    (hnearest : AllAttachNearest lines) : ∀ expr ∈ lines.map tree, expr.IsLine := by
  intro expr hexpr
  obtain ⟨line, hline, rfl⟩ := List.mem_map.mp hexpr
  exact line.isLine_tree (fun terminal hmem => hproper terminal (mem_allTerminals hline hmem))
    (allAttachNearest_iff.mp hnearest line hline)

end Line

/-- A definition in which every `else` belongs to the nearest conditional has surface form. -/
theorem Item.isSurface_tree (item : Item)
    (hproper : ∀ terminal ∈ item.terminals, terminal.Proper) (hnearest : item.AttachesNearest) :
    item.tree.IsSurface := by
  cases item with
  | global name value =>
      refine .global (hproper (.name name) (by simp [terminals])).1
        (value.isOperand_tree fun terminal hmem => hproper terminal ?_)
      simp [terminals, hmem]
  | function name parameters body =>
      rw [tree, Line.allTrees_eq_map]
      refine .function (hproper (.name name) (by simp [terminals])).1 ?_ ?_
      · intro parameter hparameter
        have hlist := mem_commaSeparated (fun parameter => [Terminal.name parameter]) hparameter
          (List.mem_singleton.mpr rfl)
        exact (hproper (.name parameter) (by simp [terminals, hlist])).1
      · refine Line.isLine_of_mem_trees (fun terminal hmem => hproper terminal ?_) hnearest
        simp [terminals, hmem]

end Grammar

/-! ## What is read has surface form -/

theorem proper_of_shows {source file : String} {terminals : List Terminal}
    (h : (Tokens.ofSource source file).Shows terminals)
    (hfits : ∀ terminal ∈ terminals, terminal.Fits) :
    ∀ terminal ∈ terminals, terminal.Proper := by
  intro terminal hmem
  refine ⟨?_, hfits terminal hmem⟩
  rw [← h.terminals_eq, Tokens.terminals] at hmem
  obtain ⟨token, htoken, rfl⟩ := List.mem_map.mp hmem
  exact wellSpelled_of_mem_pending token htoken

theorem isLine_of_parseStatements {source file : String} {body : List Expr}
    (h : parseStatements source file = .ok body) : ∀ line ∈ body, line.IsLine := by
  obtain ⟨lines, hshows, hfits, hnearest, rfl⟩ := parseStatements_eq_ok_iff_shows.mp h
  exact Line.isLine_of_mem_trees (proper_of_shows hshows hfits) hnearest

theorem isSurface_of_parseProgram {source file : String} {program : Program}
    (h : parseProgram source file = .ok program) :
    ∀ definition ∈ program, definition.IsSurface := by
  obtain ⟨items, hshows, hfits, hnearest, rfl⟩ := parseProgram_eq_ok_iff_shows.mp h
  have hproper := proper_of_shows hshows hfits
  intro tree htree
  obtain ⟨item, hitem, rfl⟩ := List.mem_map.mp htree
  refine item.isSurface_tree (fun terminal hmem => hproper terminal ?_) (hnearest item hitem)
  exact List.mem_flatMap.mpr ⟨item, hitem, hmem⟩

end IntScript
