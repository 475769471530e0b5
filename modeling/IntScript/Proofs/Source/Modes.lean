import IntScript.Proofs.Evaluation.Composition
import IntScript.Proofs.Source.Printing
import IntScript.Proofs.Token.Joined

/-!
# Statements and programs

Statements can be given one by one, or as the body of `main` in a program.  Both are read alike, and
both come to the same.

* `Session.runProgram_mainOf_iff` : the program evaluates the body as one block, which comes to what
  its lines come to (`Session.evaluate_block_iff`).
* `shows_asMain_iff` : around the tokens of the statements, the program has those of the header and
  a closing brace.  The line break in front of the brace ends a comment and keeps words apart; where
  the statements cannot be read to their end, neither can the program.
* `parseProgram_asMain_iff` : so a derivation of the one is a derivation of the other.
* `statements_agree_with_program` : the main result.
-/

namespace IntScript

open Grammar

/-- The source of a program in which a source of statements is the body of `main`. -/
def asMain (source : String) : String :=
  "define main() \x7b" ++ source ++ "\n\x7d"

/-- The function that a program starts with, with the statements as its body. -/
def mainOf (body : List Expr) : Function :=
  ⟨"main", [], .block body⟩

/-! ## Running -/

namespace Session

variable {fuel : Nat} {body : List Expr} {session after : Session}
  {result : Except RunFault Int64}

theorem register_mainOf : register fuel [.function (mainOf body)] session =
    some (.ok (), session.defineFunction (mainOf body)) :=
  rfl

theorem entryPoint_mainOf :
    entryPoint (session.defineFunction (mainOf body)) = .ok (mainOf body) := by
  have hget : (session.defineFunction (mainOf body)).functions.get? "main" =
      some (mainOf body) := by
    rw [defineFunction, Table.get?_insert]
    exact if_pos rfl
  rw [entryPoint, hget]
  rfl

/-- The program evaluates the body as one block. -/
theorem runProgram_mainOf : runProgram fuel [.function (mainOf body)] session =
    evaluate fuel (.block body) (session.defineFunction (mainOf body)) := by
  show (liftM (entryPoint (session.defineFunction (mainOf body))) >>= _ : Run Int64) _ = _
  rw [entryPoint_mainOf]
  rfl

/-- The program comes to what its statements come to one after the other. -/
theorem runProgram_mainOf_iff :
    (∃ fuel, runProgram fuel [.function (mainOf body)] session = some (result, after)) ↔
      ∃ fuel mid values fault, register fuel [.function (mainOf body)] session =
          some (.ok (), mid) ∧
        evaluateAll fuel body mid = some ((values, fault), after) ∧
        result = outcomeOf 0 values fault := by
  simp only [runProgram_mainOf, evaluate_block_iff]
  constructor
  · rintro ⟨fuel, values, fault, hbody, hresult⟩
    exact ⟨fuel, _, values, fault, register_mainOf, hbody, hresult⟩
  · rintro ⟨fuel, mid, values, fault, hregister, hbody, hresult⟩
    obtain rfl : session.defineFunction (mainOf body) = mid :=
      congrArg Prod.snd (Option.some.inj (register_mainOf.symm.trans hregister))
    exact ⟨fuel, values, fault, hbody, hresult⟩

end Session

/-! ## Reading -/

/-- The terminals in front of the body of `main`. -/
def mainHeader : List Terminal :=
  [.fixed (.keyword .define), .name "main", .fixed .openParen, .fixed .closeParen,
    .fixed .openCurly]

theorem isName_main : IsName "main" where
  isWordStart := ⟨'m', ['a', 'i', 'n'], rfl, rfl⟩
  isWordChar := List.all_eq_true.mp rfl
  not_reserved := rfl

theorem scans_mainHeader (rest : List Char) :
    Scans ("define main() \x7b".toList ++ rest) mainHeader rest := by
  have hdefine : Scans (Keyword.define.word.toList ++ ' ' :: ("main() \x7b".toList ++ rest))
      [.fixed (.keyword .define)] (' ' :: ("main() \x7b".toList ++ rest)) :=
    .keyword .define (separated_cons rfl)
  have hmain : Scans ("main".toList ++ '(' :: (") \x7b".toList ++ rest)) [.name "main"]
      ('(' :: (") \x7b".toList ++ rest)) :=
    .name isName_main (separated_cons rfl)
  exact hdefine.trans (Scans.space.trans (hmain.trans
    (Scans.openParen.trans (Scans.closeParen.trans (Scans.space.trans Scans.openCurly)))))

theorem reading_asMain (source : String) : (Cursor.ofSource (asMain source)).reading =
    (mainHeader ++ ((Cursor.ofSource source).joined ['\x7d']).reading.1,
      ((Cursor.ofSource source).joined ['\x7d']).reading.2) := by
  have hsplit : ∀ header footer : String, (header ++ source ++ footer).toList =
      header.toList ++ (source.toList ++ footer.toList) := by
    intro header footer
    rw [String.toList_append, String.toList_append, List.append_assoc]
  have htext : (asMain source).toList =
      "define main() \x7b".toList ++ (source.toList ++ '\n' :: ['\x7d']) :=
    hsplit "define main() \x7b" "\n\x7d"
  have hreading := (scans_mainHeader (source.toList ++ '\n' :: ['\x7d'])).reading 0 0
  rwa [Cursor.skipTrivia_append, ← htext] at hreading

theorem shows_asMain_iff {source file file' : String} {terminals : List Terminal} :
    (Tokens.ofSource (asMain source) file).Shows
        (mainHeader ++ (terminals ++ [.fixed .closeCurly])) ↔
      (Tokens.ofSource source file').Shows terminals := by
  rw [Tokens.shows_ofSource_iff, Tokens.shows_ofSource_iff, reading_asMain]
  obtain ⟨others, left, hreading⟩ : ∃ others left,
      (Cursor.ofSource source).reading = (others, left) := ⟨_, _, rfl⟩
  rw [hreading]
  cases left with
  | nil =>
      have hbrace : (Cursor.skipTrivia ⟨0, ['\x7d']⟩).reading = ([.fixed .closeCurly], []) :=
        Scans.closeCurly.reading_of_end 0
      rw [Cursor.reading_joined_of_end hreading, hbrace]
      simp only [Prod.mk.injEq, List.append_cancel_left_eq, List.append_cancel_right_eq]
  | cons c left =>
      have hleft : (Cursor.ofSource source).reading.2 ≠ [] := by
        rw [hreading]
        exact List.cons_ne_nil c left
      have hjoined := Cursor.reading_joined_ne_nil hleft ['\x7d']
      constructor
      · intro h
        exact absurd (congrArg Prod.snd h) hjoined
      · intro h
        cases congrArg Prod.snd h

/-! ## Parsing -/

theorem terminals_main (lines : List Line) : Item.allTerminals [.function "main" [] lines] =
    mainHeader ++ (Line.allTerminals lines ++ [.fixed .closeCurly]) := by
  rw [Item.allTerminals, List.flatMap_singleton]
  rfl

/-- The header and the brace are no numerals, so that they are not too large. -/
theorem fits_terminals_main_iff {lines : List Line} :
    (∀ terminal ∈ Item.allTerminals [.function "main" [] lines], terminal.Fits) ↔
      ∀ terminal ∈ Line.allTerminals lines, terminal.Fits := by
  have hheader : ∀ terminal ∈ mainHeader, terminal.Fits := by
    simp [mainHeader, Terminal.Fits]
  have hbrace : (Terminal.fixed .closeCurly).Fits := trivial
  rw [terminals_main, List.forall_mem_append, List.forall_mem_append, List.forall_mem_singleton]
  exact ⟨fun h => h.2.1, fun h => ⟨hheader, h, hbrace⟩⟩

/-- What is read as `main` alone has a derivation as `main` alone. -/
theorem eq_of_map_tree {items : List Item} {body : List Expr}
    (h : items.map Item.tree = [.function (mainOf body)]) :
    ∃ lines : List Line, items = [.function "main" [] lines] ∧ lines.map Line.tree = body := by
  obtain ⟨item, rfl, htree⟩ := List.map_eq_singleton_iff.mp h
  cases item with
  | global name value => cases htree
  | function name parameters lines =>
      obtain ⟨rfl, rfl, rfl⟩ : name = "main" ∧ parameters = [] ∧ Line.allTrees lines = body := by
        simpa [Item.tree, mainOf] using htree
      exact ⟨lines, rfl, (Line.allTrees_eq_map lines).symm⟩

theorem parseProgram_asMain_iff {source file file' : String} {body : List Expr} :
    parseProgram (asMain source) file = .ok [.function (mainOf body)] ↔
      parseStatements source file' = .ok body := by
  rw [parseProgram_eq_ok_iff_shows, parseStatements_eq_ok_iff_shows]
  constructor
  · rintro ⟨items, hshows, hfits, hnearest, htree⟩
    obtain ⟨lines, rfl, hbody⟩ := eq_of_map_tree htree
    rw [terminals_main] at hshows
    exact ⟨lines, shows_asMain_iff.mp hshows, fits_terminals_main_iff.mp hfits,
      hnearest _ List.mem_cons_self, hbody⟩
  · rintro ⟨lines, hshows, hfits, hnearest, rfl⟩
    refine ⟨[.function "main" [] lines], ?_, fits_terminals_main_iff.mpr hfits, ?_, ?_⟩
    · rw [terminals_main]
      exact shows_asMain_iff.mpr hshows
    · exact List.forall_mem_singleton.mpr hnearest
    · rw [← Line.allTrees_eq_map]
      rfl

/-- A source of statements is read as they are exactly if the program with the source as the body of
`main` is read as the one definition of a function `main` without parameters, and with the block of
the statements as its body.  In every session this program comes to what the statements come to,
one after the other, once its definition is taken in: if one of them fails then to its fault, or
else to the value of the last one, and to 0 if there is none.  The sessions left are the same. -/
theorem statements_agree_with_program (source file : String) (body : List Expr) :
    (parseStatements source file = .ok body ↔
      parseProgram (asMain source) file = .ok [.function ⟨"main", [], .block body⟩]) ∧
    ∀ (session : Session) (result : Except RunFault Int64) (after : Session),
      (∃ fuel, Session.runProgram fuel [.function ⟨"main", [], .block body⟩] session =
        some (result, after)) ↔
      ∃ fuel mid values fault,
        Session.register fuel [.function ⟨"main", [], .block body⟩] session =
          some (.ok (), mid) ∧
        Session.evaluateAll fuel body mid = some ((values, fault), after) ∧
        result = Session.outcomeOf 0 values fault :=
  ⟨parseProgram_asMain_iff.symm, fun _ _ _ => Session.runProgram_mainOf_iff⟩

/-- A stray brace ends `main`, and a definition may follow.  There are two of them then, so that the
text around the first brace and the last one is no source of statements. -/
example : parseProgram "define main() \x7b1; \x7d define f() \x7b // ;\n\x7d" "shell" =
    .ok [.function ⟨"main", [], .block [.number 1]⟩, .function ⟨"f", [], .block []⟩] := by
  cbv

end IntScript
