import Mathlib.Data.List.Forall2
import Mathlib.Data.List.Nodup
import Mathlib.Data.List.Perm.Subperm
import IntScript.Evaluation.Call

/-!
# Labels

Labelled arguments are matched in two passes: one over the labels, each of which must name a
parameter and differ from those before it, and one over the parameters, each of which looks its
argument up.  Both passes go from left to right and stop at the first that is wrong.

* `Function.checkLabels_eq_ok_iff`, `Function.checkLabels_eq_error_iff` : what the first pass
  accepts, and what it stops at.
* `Function.orderLabels_eq_ok_iff`, `Function.orderLabels_eq_error_iff` : the same for the second.
* `Function.matchLabels_eq_ok_iff`, `Function.matchLabels_eq_error_iff` : both together.
-/

namespace IntScript

section

variable {α β : Type} {check : Except RunFault α} {next : α → Except RunFault β}

theorem exceptBind_eq_ok_iff {value : β} : check >>= next = .ok value ↔
    ∃ found, check = .ok found ∧ next found = .ok value := by
  cases check <;> simp [Bind.bind, Except.bind]

theorem exceptBind_eq_error_iff {fault : RunFault} : check >>= next = .error fault ↔
    check = .error fault ∨ ∃ found, check = .ok found ∧ next found = .error fault := by
  cases check <;> simp [Bind.bind, Except.bind]

end

namespace Arguments

variable {arguments : Arguments} {label : String} {argument : Expr}

/-- Under distinct labels, an argument is found as soon as it is there. -/
theorem lookup_eq_some_iff (hnodup : (arguments.map Prod.fst).Nodup) :
    arguments.lookup label = some argument ↔ (label, argument) ∈ arguments := by
  induction arguments with
  | nil => simp
  | cons entry rest ih =>
      obtain ⟨key, value⟩ := entry
      obtain ⟨hfresh, hrest⟩ := List.nodup_cons.mp hnodup
      rw [List.lookup_cons, List.mem_cons, Prod.mk.injEq]
      by_cases hlabel : label = key
      · subst hlabel
        have hnot : (label, argument) ∉ rest := fun hmem =>
          hfresh (List.mem_map.mpr ⟨(label, argument), hmem, rfl⟩)
        simp [hnot, eq_comm]
      · have hne : (label == key) = false := beq_false_of_ne hlabel
        simp [hne, hlabel, ih hrest]

theorem lookup_eq_none_iff : arguments.lookup label = none ↔ label ∉ arguments.map Prod.fst := by
  rw [List.lookup_eq_none_iff]
  simp only [bne_iff_ne, List.mem_map, not_exists, not_and]
  exact forall₂_congr fun _ _ => ne_comm

end Arguments

namespace Function

variable {function : Function} {arguments before behind ordered : Arguments}
  {seen parameters : List String} {label : String} {argument : Expr} {fault : RunFault}

/-- The labels are distinct and name parameters. -/
structure Allows (function : Function) (labels : List String) : Prop where
  nodup : labels.Nodup
  mem_parameters : ∀ label ∈ labels, label ∈ function.parameters

/-- The labels are distinct and name all parameters. -/
structure Matches (function : Function) (labels : List String) : Prop where
  nodup : labels.Nodup
  mem_iff : ∀ label, label ∈ labels ↔ label ∈ function.parameters

theorem matches_iff {labels : List String} : function.Matches labels ↔
    function.Allows labels ∧ ∀ parameter ∈ function.parameters, parameter ∈ labels := by
  constructor
  · rintro ⟨hnodup, hmem⟩
    exact ⟨⟨hnodup, fun label => (hmem label).mp⟩, fun parameter => (hmem parameter).mpr⟩
  · rintro ⟨⟨hnodup, hallowed⟩, hgiven⟩
    exact ⟨hnodup, fun label => ⟨hallowed label, hgiven label⟩⟩

/-! ## The pass over the labels -/

theorem checkLabels_cons_eq_ok_iff :
    function.checkLabels seen ((label, argument) :: behind) = .ok () ↔
      label ∈ function.parameters ∧ label ∉ seen ∧
        function.checkLabels (label :: seen) behind = .ok () := by
  rw [checkLabels]
  split
  next hunknown => simp [hunknown]
  next hknown =>
    split
    next hseen => simp [hseen]
    next hnew => simp [not_not.mp hknown, hnew]

theorem checkLabels_eq_ok_iff : function.checkLabels seen arguments = .ok () ↔
    function.Allows (arguments.map Prod.fst) ∧ ∀ label ∈ arguments.map Prod.fst, label ∉ seen := by
  induction arguments generalizing seen with
  | nil => exact ⟨fun _ => ⟨⟨List.nodup_nil, nofun⟩, nofun⟩, fun _ => rfl⟩
  | cons entry rest ih =>
      obtain ⟨label, argument⟩ := entry
      rw [checkLabels_cons_eq_ok_iff, ih, List.map_cons]
      constructor
      · rintro ⟨hparameter, hnew, ⟨hnodup, hmem⟩, hrest⟩
        have hfresh : label ∉ rest.map Prod.fst := fun h => hrest label h (List.mem_cons_self ..)
        exact ⟨⟨List.nodup_cons.mpr ⟨hfresh, hnodup⟩, List.forall_mem_cons.mpr ⟨hparameter, hmem⟩⟩,
          List.forall_mem_cons.mpr ⟨hnew, fun other h hseen =>
            hrest other h (List.mem_cons_of_mem label hseen)⟩⟩
      · rintro ⟨⟨hnodup, hmem⟩, hnew⟩
        obtain ⟨hfresh, hnodup⟩ := List.nodup_cons.mp hnodup
        rw [List.forall_mem_cons] at hmem hnew
        refine ⟨hmem.1, hnew.1, ⟨hnodup, hmem.2⟩, fun other h hseen => ?_⟩
        rcases List.mem_cons.mp hseen with rfl | hseen
        · exact hfresh h
        · exact hnew.2 other h hseen

/-- What is wrong with a label behind those in `earlier`. -/
inductive LabelFault (function : Function) (earlier : List String) (label : String) :
    RunFault → Prop where
  | unknown : label ∉ function.parameters →
      LabelFault function earlier label (.unknownLabel function.name label)
  | duplicate : label ∈ function.parameters → label ∈ earlier →
      LabelFault function earlier label (.duplicateLabel function.name label)

theorem labelFault_iff : function.LabelFault seen label fault ↔
    (label ∉ function.parameters ∧ fault = .unknownLabel function.name label) ∨
      (label ∈ function.parameters ∧ label ∈ seen ∧
        fault = .duplicateLabel function.name label) := by
  constructor
  · rintro (hunknown | ⟨hknown, hseen⟩)
    · exact .inl ⟨hunknown, rfl⟩
    · exact .inr ⟨hknown, hseen, rfl⟩
  · rintro (⟨hunknown, rfl⟩ | ⟨hknown, hseen, rfl⟩)
    · exact .unknown hunknown
    · exact .duplicate hknown hseen

theorem checkLabels_cons_eq_error_iff :
    function.checkLabels seen ((label, argument) :: behind) = .error fault ↔
      function.LabelFault seen label fault ∨ (label ∈ function.parameters ∧ label ∉ seen ∧
        function.checkLabels (label :: seen) behind = .error fault) := by
  rw [checkLabels, labelFault_iff]
  by_cases hknown : label ∈ function.parameters
  · by_cases hseen : label ∈ seen <;> simp [hknown, hseen, eq_comm]
  · simp [hknown, eq_comm]

/-- The pass over the labels stops at the first that is wrong. -/
theorem checkLabels_eq_error_iff : function.checkLabels seen arguments = .error fault ↔
    ∃ before label argument behind, arguments = before ++ (label, argument) :: behind ∧
      function.checkLabels seen before = .ok () ∧
      function.LabelFault (before.map Prod.fst ++ seen) label fault := by
  induction arguments generalizing seen with
  | nil => simp [checkLabels]
  | cons entry rest ih =>
      obtain ⟨label, argument⟩ := entry
      rw [checkLabels_cons_eq_error_iff, ih]
      constructor
      · rintro (hfault | ⟨hknown, hnew, before, other, value, behind, rfl, hbefore, hfault⟩)
        · exact ⟨[], label, argument, rest, rfl, rfl, hfault⟩
        · refine ⟨(label, argument) :: before, other, value, behind, rfl,
            checkLabels_cons_eq_ok_iff.mpr ⟨hknown, hnew, hbefore⟩, ?_⟩
          simpa [labelFault_iff, or_left_comm] using hfault
      · rintro ⟨before, other, value, behind, hsplit, hbefore, hfault⟩
        cases before with
        | nil =>
            cases hsplit
            exact .inl hfault
        | cons first before =>
            obtain ⟨rfl, rfl⟩ := List.cons.inj hsplit
            obtain ⟨hknown, hnew, hbefore⟩ := checkLabels_cons_eq_ok_iff.mp hbefore
            refine .inr ⟨hknown, hnew, before, other, value, behind, rfl, hbefore, ?_⟩
            simpa [labelFault_iff, or_left_comm] using hfault

/-! ## The pass over the parameters -/

theorem orderLabels_cons_eq_ok_iff {parameter : String} :
    function.orderLabels arguments (parameter :: parameters) = .ok ordered ↔
      ∃ argument rest, arguments.lookup parameter = some argument ∧
        function.orderLabels arguments parameters = .ok rest ∧
        ordered = (parameter, argument) :: rest := by
  rw [orderLabels]
  cases arguments.lookup parameter with
  | none => simp
  | some argument =>
      cases function.orderLabels arguments parameters <;> simp [Except.map, eq_comm]

/-- Each parameter comes with the argument that it is the label of. -/
theorem orderLabels_eq_ok_iff : function.orderLabels arguments parameters = .ok ordered ↔
    ordered.map Prod.fst = parameters ∧
      ∀ entry ∈ ordered, arguments.lookup entry.1 = some entry.2 := by
  induction parameters generalizing ordered with
  | nil =>
      rw [List.map_eq_nil_iff]
      constructor
      · rintro ⟨⟩
        exact ⟨rfl, nofun⟩
      · rintro ⟨rfl, -⟩
        rfl
  | cons parameter rest ih =>
      rw [orderLabels_cons_eq_ok_iff, List.map_eq_cons_iff]
      constructor
      · rintro ⟨argument, others, hlookup, hothers, rfl⟩
        obtain ⟨hnames, hfound⟩ := ih.mp hothers
        exact ⟨⟨_, others, rfl, rfl, hnames⟩, List.forall_mem_cons.mpr ⟨hlookup, hfound⟩⟩
      · rintro ⟨⟨entry, others, rfl, rfl, hnames⟩, hfound⟩
        obtain ⟨hlookup, hfound⟩ := List.forall_mem_cons.mp hfound
        exact ⟨entry.2, others, hlookup, ih.mpr ⟨hnames, hfound⟩, rfl⟩

theorem orderLabels_cons_eq_error_iff {parameter : String} :
    function.orderLabels arguments (parameter :: parameters) = .error fault ↔
      (parameter ∉ arguments.map Prod.fst ∧ fault = .missingLabel function.name parameter) ∨
        (parameter ∈ arguments.map Prod.fst ∧
          function.orderLabels arguments parameters = .error fault) := by
  rw [orderLabels]
  cases hlookup : arguments.lookup parameter with
  | none =>
      have hmissing := Arguments.lookup_eq_none_iff.mp hlookup
      simp only [hmissing, not_false_eq_true, true_and, false_and, or_false, Except.error.injEq]
      exact eq_comm
  | some argument =>
      have hgiven : parameter ∈ arguments.map Prod.fst := by
        by_contra hmissing
        rw [Arguments.lookup_eq_none_iff.mpr hmissing] at hlookup
        cases hlookup
      cases function.orderLabels arguments parameters <;> simp [Except.map, hgiven]

/-- The pass over the parameters stops at the first that no label names. -/
theorem orderLabels_eq_error_iff : function.orderLabels arguments parameters = .error fault ↔
    ∃ before parameter behind, parameters = before ++ parameter :: behind ∧
      (∀ earlier ∈ before, earlier ∈ arguments.map Prod.fst) ∧
      parameter ∉ arguments.map Prod.fst ∧ fault = .missingLabel function.name parameter := by
  induction parameters with
  | nil => simp [orderLabels]
  | cons parameter rest ih =>
      rw [orderLabels_cons_eq_error_iff, ih]
      constructor
      · rintro (⟨hmissing, rfl⟩ | ⟨hgiven, before, other, behind, rfl, hbefore, hmissing, rfl⟩)
        · exact ⟨[], parameter, rest, rfl, nofun, hmissing, rfl⟩
        · exact ⟨parameter :: before, other, behind, rfl,
            List.forall_mem_cons.mpr ⟨hgiven, hbefore⟩, hmissing, rfl⟩
      · rintro ⟨before, other, behind, hsplit, hbefore, hmissing, rfl⟩
        cases before with
        | nil =>
            cases hsplit
            exact .inl ⟨hmissing, rfl⟩
        | cons first before =>
            obtain ⟨rfl, rfl⟩ := List.cons.inj hsplit
            obtain ⟨hgiven, hbefore⟩ := List.forall_mem_cons.mp hbefore
            exact .inr ⟨hgiven, before, other, behind, rfl, hbefore, hmissing, rfl⟩

/-! ## Both passes -/

theorem matchLabels_eq_ok_iff_passes : function.matchLabels arguments = .ok ordered ↔
    function.checkLabels [] arguments = .ok () ∧
      function.orderLabels arguments function.parameters = .ok ordered :=
  exceptBind_eq_ok_iff.trans ⟨fun ⟨(), h⟩ => h, fun h => ⟨(), h⟩⟩

theorem matchLabels_eq_error_iff_passes : function.matchLabels arguments = .error fault ↔
    function.checkLabels [] arguments = .error fault ∨
      (function.checkLabels [] arguments = .ok () ∧
        function.orderLabels arguments function.parameters = .error fault) :=
  exceptBind_eq_error_iff.trans (or_congr_right ⟨fun ⟨(), h⟩ => h, fun h => ⟨(), h⟩⟩)

/-- Labels match if they are distinct and are the names of all parameters.  Then the arguments are
those of the call, in the order of the parameters. -/
theorem matchLabels_eq_ok_iff : function.matchLabels arguments = .ok ordered ↔
    function.Matches (arguments.map Prod.fst) ∧ ordered.map Prod.fst = function.parameters ∧
      ∀ entry ∈ ordered, entry ∈ arguments := by
  rw [matchLabels_eq_ok_iff_passes, checkLabels_eq_ok_iff, orderLabels_eq_ok_iff, matches_iff]
  simp only [List.not_mem_nil, not_false_eq_true, implies_true, and_true]
  constructor
  · rintro ⟨hallows, hnames, hfound⟩
    have hmem : ∀ entry ∈ ordered, entry ∈ arguments := fun entry hentry =>
      (Arguments.lookup_eq_some_iff hallows.nodup).mp (hfound entry hentry)
    refine ⟨⟨hallows, fun parameter hparameter => ?_⟩, hnames, hmem⟩
    rw [← hnames] at hparameter
    obtain ⟨entry, hentry, rfl⟩ := List.mem_map.mp hparameter
    exact List.mem_map_of_mem (hmem entry hentry)
  · rintro ⟨⟨hallows, -⟩, hnames, hmem⟩
    exact ⟨hallows, hnames, fun entry hentry =>
      (Arguments.lookup_eq_some_iff hallows.nodup).mpr (hmem entry hentry)⟩

/-- Why labels do not match: one of them is wrong, and those before it are not, or all of them are
right and a parameter is missing, but none before it. -/
inductive MatchFault (function : Function) (labels : List String) : RunFault → Prop where
  | label {before : List String} {label : String} {behind : List String} {fault : RunFault} :
      labels = before ++ label :: behind → function.Allows before →
      function.LabelFault before label fault → MatchFault function labels fault
  | missing {before : List String} {parameter : String} {behind : List String} :
      function.Allows labels → function.parameters = before ++ parameter :: behind →
      (∀ earlier ∈ before, earlier ∈ labels) → parameter ∉ labels →
      MatchFault function labels (.missingLabel function.name parameter)

theorem matchLabels_eq_error_iff : function.matchLabels arguments = .error fault ↔
    function.MatchFault (arguments.map Prod.fst) fault := by
  rw [matchLabels_eq_error_iff_passes, checkLabels_eq_error_iff, orderLabels_eq_error_iff]
  simp only [checkLabels_eq_ok_iff, List.not_mem_nil, not_false_eq_true, implies_true, and_true,
    List.append_nil]
  constructor
  · rintro (⟨before, label, argument, behind, rfl, hbefore, hfault⟩ |
      ⟨hallows, before, parameter, behind, hsplit, hbefore, hmissing, rfl⟩)
    · exact .label List.map_append hbefore hfault
    · exact .missing hallows hsplit hbefore hmissing
  · intro hfault
    cases hfault with
    | @label before label behind _ hsplit hbefore hfault =>
        obtain ⟨first, rest, rfl, rfl, hrest⟩ := List.map_eq_append_iff.mp hsplit
        obtain ⟨entry, last, rfl, rfl, rfl⟩ := List.map_eq_cons_iff.mp hrest
        exact .inl ⟨first, entry.1, entry.2, last, rfl, hbefore, hfault⟩
    | missing hallows hsplit hbefore hmissing =>
        exact .inr ⟨hallows, _, _, _, hsplit, hbefore, hmissing, rfl⟩

/-- Two labels are wrong and a parameter is missing: the first label that is wrong counts. -/
example : (Function.mk "f" ["a", "b"] (.number 0)).matchLabels
    [("b", .number 1), ("c", .number 2), ("b", .number 3)] = .error (.unknownLabel "f" "c") := rfl

theorem MatchFault.not_matches {labels : List String} (h : function.MatchFault labels fault) :
    ¬ function.Matches labels := by
  rintro ⟨hnodup, hmem⟩
  cases h with
  | label hsplit _ hfault =>
      subst hsplit
      cases hfault with
      | unknown hunknown => exact hunknown ((hmem _).mp List.mem_append_cons_self)
      | duplicate _ hearlier =>
          exact (List.nodup_append.mp hnodup).2.2 _ hearlier _ List.mem_cons_self rfl
  | missing _ hsplit _ hmissing =>
      exact hmissing ((hmem _).mpr (hsplit ▸ List.mem_append_cons_self))

/-- Labels fail to match exactly if they repeat each other or are not the names of the
parameters. -/
theorem exists_matchLabels_eq_error_iff :
    (∃ fault, function.matchLabels arguments = .error fault) ↔
      ¬ function.Matches (arguments.map Prod.fst) := by
  constructor
  · rintro ⟨fault, h⟩
    exact (matchLabels_eq_error_iff.mp h).not_matches
  · intro hnot
    cases h : function.matchLabels arguments with
    | error fault => exact ⟨fault, rfl⟩
    | ok ordered => exact absurd (matchLabels_eq_ok_iff.mp h).1 hnot

/-- The order of labelled arguments does not matter. -/
theorem matchLabels_perm {permuted : Arguments} (hperm : permuted.Perm arguments)
    (h : function.matchLabels arguments = .ok ordered) :
    function.matchLabels permuted = .ok ordered := by
  obtain ⟨hmatches, hnames, hmem⟩ := matchLabels_eq_ok_iff.mp h
  have hlabels := hperm.map Prod.fst
  have hmatches' : function.Matches (permuted.map Prod.fst) :=
    ⟨hlabels.nodup_iff.mpr hmatches.nodup, fun label =>
      hlabels.mem_iff.trans (hmatches.mem_iff label)⟩
  exact matchLabels_eq_ok_iff.mpr
    ⟨hmatches', hnames, fun entry hentry => hperm.mem_iff.mpr (hmem entry hentry)⟩

/-! ## The same arguments without labels -/

/-- The expressions are those that the parameters are the labels of, in the same order. -/
def Orders (function : Function) (arguments : Arguments) (positional : List Expr) : Prop :=
  List.Forall₂ (fun parameter argument => (parameter, argument) ∈ arguments)
    function.parameters positional

theorem orders_of_matchLabels (h : function.matchLabels arguments = .ok ordered) :
    function.Orders arguments (ordered.map Prod.snd) := by
  obtain ⟨-, hnames, hmem⟩ := matchLabels_eq_ok_iff.mp h
  rw [Orders, ← hnames, List.forall₂_map_left_iff, List.forall₂_map_right_iff, List.forall₂_same]
  exact hmem

/-- There is only one such list of expressions. -/
theorem zip_eq_of_orders {positional : List Expr}
    (h : function.matchLabels arguments = .ok ordered)
    (horders : function.Orders arguments positional) :
    function.parameters.zip positional = ordered := by
  have hmatches := (matchLabels_eq_ok_iff.mp h).1
  have hnames : (function.parameters.zip positional).map Prod.fst = function.parameters :=
    List.map_fst_zip (Nat.le_of_eq horders.length_eq)
  have hmem : ∀ entry ∈ function.parameters.zip positional, entry ∈ arguments :=
    fun entry hentry => List.forall₂_zip horders hentry
  have hzip := matchLabels_eq_ok_iff.mpr ⟨hmatches, hnames, hmem⟩
  exact Except.ok.inj (hzip.symm.trans h)

/-! ## How often an argument is ordered -/

section

variable {given : String × Expr}

/-- An argument comes as often as its label does among the parameters. -/
theorem count_of_matchLabels (h : function.matchLabels arguments = .ok ordered)
    (hgiven : given ∈ arguments) : ordered.count given = function.parameters.count given.1 := by
  obtain ⟨hmatches, hnames, hmem⟩ := matchLabels_eq_ok_iff.mp h
  rw [← hnames, List.count, List.count, List.countP_map]
  refine List.countP_congr fun entry hentry => ?_
  simp only [beq_iff_eq, Function.comp]
  constructor
  · exact congrArg Prod.fst
  · exact List.inj_on_of_nodup_map hmatches.nodup (hmem entry hentry) hgiven

theorem count_pos_of_matchLabels (h : function.matchLabels arguments = .ok ordered)
    (hgiven : given ∈ arguments) : 0 < function.parameters.count given.1 := by
  have hmatches := (matchLabels_eq_ok_iff.mp h).1
  exact List.count_pos_iff.mpr ((hmatches.mem_iff given.1).mp (List.mem_map_of_mem hgiven))

/-- The arguments are rearranged if no parameter name is repeated. -/
theorem perm_of_matchLabels (h : function.matchLabels arguments = .ok ordered)
    (hnodup : function.parameters.Nodup) : ordered.Perm arguments := by
  obtain ⟨hmatches, hnames, hmem⟩ := matchLabels_eq_ok_iff.mp h
  have hordered : ordered.Nodup := .of_map Prod.fst (hnames ▸ hnodup)
  have harguments : arguments.Nodup := .of_map Prod.fst hmatches.nodup
  rw [List.perm_ext_iff_of_nodup hordered harguments]
  intro given
  constructor
  · exact hmem given
  · intro hgiven
    have hparameter := (hmatches.mem_iff given.1).mp (List.mem_map_of_mem hgiven)
    rw [← hnames] at hparameter
    obtain ⟨entry, hentry, hlabel⟩ := List.mem_map.mp hparameter
    obtain rfl := List.inj_on_of_nodup_map hmatches.nodup (hmem entry hentry) hgiven hlabel
    exact hentry

/-- They are not if one is: then there are more of them. -/
theorem nodup_of_length_matchLabels (h : function.matchLabels arguments = .ok ordered)
    (hlength : ordered.length ≤ arguments.length) : function.parameters.Nodup := by
  obtain ⟨hmatches, hnames, -⟩ := matchLabels_eq_ok_iff.mp h
  have hsubset : arguments.map Prod.fst ⊆ function.parameters := fun label =>
    (hmatches.mem_iff label).mp
  have hle : function.parameters.length ≤ (arguments.map Prod.fst).length := by
    rw [← hnames, List.length_map, List.length_map]
    exact hlength
  have hperm := (hmatches.nodup.subperm hsubset).perm_of_length_le hle
  exact hperm.nodup_iff.mp hmatches.nodup

end

end Function

end IntScript
