import IntScript.Proofs.Source.Printing

/-!
# Writing and reading again

Trees of surface form are what the parser returns, and they are exactly the trees that their own
text is read as.

* `parse_toSource_of_surface` : the text of lines of surface form, each on a line of its own, is
  read as these lines, and the text of a program of surface form as that program.
* `surface_iff_parsed` : every tree that is read has surface form, whatever the source, and a tree
  is read from its own text only if it has surface form.
-/

namespace IntScript

open Grammar

/-- A source that scans to its end consists of tokens with these terminals. -/
theorem Scans.shows {source : String} {terminals : List Terminal}
    (h : Scans source.toList terminals []) (file : String) :
    (Tokens.ofSource source file).Shows terminals :=
  Tokens.shows_ofSource_iff.mpr (h.reading_of_end 0)

theorem parseStatements_toSource {lines : List Expr} (h : ∀ line ∈ lines, line.IsLine)
    (file : String) :
    parseStatements ("\n".intercalate (lines.map Expr.toSource)) file = .ok lines := by
  obtain ⟨derivations, htrees, hnearest, hfits, hscans⟩ := exists_allTerminals h
  exact parseStatements_eq_ok_iff_shows.mpr
    ⟨derivations, hscans.shows file, hfits, hnearest, htrees⟩

theorem parseProgram_toSource {program : Program}
    (h : ∀ definition ∈ program, definition.IsSurface) (file : String) :
    parseProgram program.toSource file = .ok program := by
  obtain ⟨items, htrees, hnearest, hfits, hscans⟩ := exists_allTerminals_program h
  exact parseProgram_eq_ok_iff_shows.mpr ⟨items, hscans.shows file, hfits, hnearest, htrees⟩

/-- Lines and programs of surface form are read back from their text. -/
theorem parse_toSource_of_surface (file : String) :
    (∀ lines : List Expr, (∀ line ∈ lines, line.IsLine) →
      parseStatements ("\n".intercalate (lines.map Expr.toSource)) file = .ok lines) ∧
    (∀ program : Program, (∀ definition ∈ program, definition.IsSurface) →
      parseProgram program.toSource file = .ok program) :=
  ⟨fun _ h => parseStatements_toSource h file, fun _ h => parseProgram_toSource h file⟩

/-- A conditional in braces in front of an `else`, and a program with a global variable and a
function of two parameters. -/
theorem parse_toSource_of_conditional_and_program :
    parseStatements ("\n".intercalate [(Expr.ifElse (.symbol "x")
        (.block [.ifThen (.symbol "y") (.assign "x" (.number 1))])
        (.println (.binary .subtract (.symbol "x")
          (.binary .subtract (.symbol "y") (.number 2))))).toSource]) "shell" =
      .ok [.ifElse (.symbol "x") (.block [.ifThen (.symbol "y") (.assign "x" (.number 1))])
        (.println (.binary .subtract (.symbol "x")
          (.binary .subtract (.symbol "y") (.number 2))))] ∧
    parseProgram (Program.toSource [.global "x" (.number 3),
        .function ⟨"f", ["x", "y"], .block [.call "f" [.symbol "y", .symbol "x"]]⟩]) "shell" =
      .ok [.global "x" (.number 3),
        .function ⟨"f", ["x", "y"], .block [.call "f" [.symbol "y", .symbol "x"]]⟩] := by
  have hf : IsName "f" := ⟨⟨'f', [], rfl, rfl⟩, List.all_eq_true.mp rfl, rfl⟩
  have hx : IsName "x" := ⟨⟨'x', [], rfl, rfl⟩, List.all_eq_true.mp rfl, rfl⟩
  have hy : IsName "y" := ⟨⟨'y', [], rfl, rfl⟩, List.all_eq_true.mp rfl, rfl⟩
  constructor
  · refine (parse_toSource_of_surface "shell").1 [_] (List.forall_mem_singleton.mpr ?_)
    have hthen : (Expr.ifThen (.symbol "y") (.assign "x" (.number 1))).IsLine :=
      .ifThen (.symbol hy) (.assign hx (.number (by decide)))
    exact .ifElse (.symbol hx) (.block (List.forall_mem_singleton.mpr hthen))
      (.println (.binary (.symbol hx) (.binary (.symbol hy) (.number (by decide))))) rfl
  · refine (parse_toSource_of_surface "shell").2 [_, _] ?_
    have hcall : (Expr.call "f" [.symbol "y", .symbol "x"]).IsOperand :=
      .call hf (by simp [Expr.IsOperand.symbol hx, Expr.IsOperand.symbol hy])
    have hglobal : (Definition.global "x" (.number 3)).IsSurface :=
      .global hx (.number (by decide))
    have hfunction : (Definition.function ⟨"f", ["x", "y"],
        .block [.call "f" [.symbol "y", .symbol "x"]]⟩).IsSurface :=
      .function hf (by simp [hx, hy]) (List.forall_mem_singleton.mpr (.expression hcall))
    simp [hglobal, hfunction]

/-- The parser returns the trees of surface form, and a tree is read from its own text exactly if it
has surface form. -/
theorem surface_iff_parsed (file : String) :
    (∀ lines : List Expr, (∃ source, parseStatements source file = .ok lines) ↔
      ∀ line ∈ lines, line.IsLine) ∧
    (∀ program : Program, (∃ source, parseProgram source file = .ok program) ↔
      ∀ definition ∈ program, definition.IsSurface) ∧
    (∀ line : Expr, parseStatements line.toSource file = .ok [line] ↔ line.IsLine) ∧
    (∀ program : Program, parseProgram program.toSource file = .ok program ↔
      ∀ definition ∈ program, definition.IsSurface) := by
  refine ⟨fun lines => ⟨?_, fun h => ⟨_, parseStatements_toSource h file⟩⟩,
    fun program => ⟨?_, fun h => ⟨_, parseProgram_toSource h file⟩⟩,
    fun line => ⟨fun h => ?_, fun h => ?_⟩,
    fun program => ⟨isSurface_of_parseProgram, fun h => parseProgram_toSource h file⟩⟩
  · rintro ⟨source, h⟩
    exact isLine_of_parseStatements h
  · rintro ⟨source, h⟩
    exact isSurface_of_parseProgram h
  · exact isLine_of_parseStatements h line (List.mem_singleton.mpr rfl)
  · have hlines : ∀ other ∈ [line], other.IsLine := by simpa using h
    simpa using parseStatements_toSource hlines file

end IntScript
