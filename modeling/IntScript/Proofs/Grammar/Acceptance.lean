import IntScript.Proofs.Grammar.Completeness
import IntScript.Proofs.Grammar.Unambiguous
import IntScript.Proofs.Token.Scan

/-!
# The language that is accepted

A source is accepted exactly if its tokens are derivable and its numerals are not too large, and the
result is the tree of the one derivation there is.

* `Reader.ReadsItems` : soundness and completeness of a reader of items, which meet here.
* `parseStatements_eq_ok_iff_shows`, `parseProgram_eq_ok_iff_shows` : the same in terms of the
  tokens that the readers are given.  `Reader.Advances` excludes that the fuel runs out.
* `parse_eq_ok_iff_derivable` : the main result, in terms of `tokenize`.
-/

namespace IntScript

open Grammar

/-! ## Whole sources, as the readers see them -/

/-- The tokens of a source are shown where the source is read off to its end. -/
theorem Tokens.shows_ofSource_iff {source file : String} {terminals : List Terminal} :
    (ofSource source file).Shows terminals ↔
      (Cursor.ofSource source).reading = (terminals, []) := by
  constructor
  · exact fun h => Prod.ext h.terminals_eq h.stop_rest
  · exact fun h => ⟨congrArg Prod.fst h, congrArg Prod.snd h⟩

namespace Reader

variable {α δ : Type} {k : Nat} {tokens : Tokens}

theorem result_eq_ok_iff {reader : Reader α} (advances : Advances k reader tokens) {value : α} :
    reader.result tokens advances = .ok value ↔ ∃ left, reader tokens = .ok value left := by
  unfold result
  split
  next result left heq =>
    constructor
    · intro h
      exact ⟨left, by rw [heq, Except.ok.inj h]⟩
    · rintro ⟨left', h⟩
      rw [(EStateM.Result.ok.inj (heq.symm.trans h)).1]
  next heq => simp [heq]
  next heq => simp [Advances, heq] at advances

/-- A reader that does not run out of fuel does what it would do. -/
theorem Yields.exists_ok {reader : Reader α} {post : α → Prop} {behind : List Terminal}
    (h : Yields reader tokens post behind) (advances : Advances k reader tokens) :
    ∃ value left, reader tokens = .ok value left ∧ post value ∧ left.Shows behind := by
  unfold Yields at h
  unfold Advances at advances
  cases heq : reader tokens with
  | ok value left =>
      rw [heq] at h
      exact ⟨value, left, rfl, h⟩
  | error halt left =>
      rw [heq] at h advances
      cases halt with
      | fault error => exact h.elim
      | outOfFuel => exact advances.elim

/-- A reader that does not run out of fuel and yields a value with the property yields one. -/
theorem Yields.result_eq_ok {reader : Reader α} (advances : Advances k reader tokens) {value : α}
    {behind : List Terminal} (h : Yields reader tokens (· = value) behind) :
    reader.result tokens advances = .ok value := by
  obtain ⟨_, left, hread, rfl, -⟩ := h.exists_ok advances
  exact (result_eq_ok_iff advances).mpr ⟨left, hread⟩

/-- The reader of an item reads what has a derivation and nothing else, provided that what follows
does not go on with it. -/
structure ReadsItems (item : Nat → Reader α) (tree : δ → α) (terminals : δ → List Terminal)
    (holds : δ → Prop) (follows : δ → List Terminal → Prop) : Prop where
  advances : ∀ tokens : Tokens, Advances 1 (item tokens.fuel) tokens
  complete : ∀ derivation, holds derivation → ∀ fuel,
    CompleteFor (item fuel) tree terminals (follows derivation) derivation
  sound : ∀ fuel ⦃tokens value left⦄, item fuel tokens = .ok value left → ∃ derivation,
    tree derivation = value ∧ Spends tokens (terminals derivation) left ∧ holds derivation
  ne_nil : ∀ derivation, terminals derivation ≠ []
  follows_items : ∀ derivation (others : List δ), follows derivation (others.flatMap terminals)

namespace ReadsItems

variable {item : Nat → Reader α} {tree : δ → α} {terminals : δ → List Terminal} {holds : δ → Prop}
  {follows : δ → List Terminal → Prop} (h : ReadsItems item tree terminals holds follows)
  {values : List α} {fuel rounds : Nat}

include h

/-- Items that are read until the source ends have derivations.  Nothing is left at the end, so that
what was spent is all that there was. -/
theorem exists_shows {left : Tokens}
    (hread : untilEnd (item fuel) rounds tokens = .ok values left) :
    ∃ derivations : List δ, tokens.Shows (derivations.flatMap terminals) ∧
      (∀ terminal ∈ derivations.flatMap terminals, terminal.Fits) ∧
      (∀ derivation ∈ derivations, holds derivation) ∧ derivations.map tree = values := by
  obtain ⟨derivations, htree, hspends, hholds, hend⟩ := exists_of_untilEnd (h.sound fuel) hread
  obtain ⟨hnil, hstop⟩ := atEnd_iff.mp hend
  refine ⟨derivations, ⟨?_, ?_⟩, hspends.fits, hholds, htree⟩
  · rw [hspends.terminals_eq, hnil, List.append_nil]
  · rw [← hspends.stop_eq, hstop]

/-- Items that have derivations are read until the source ends. -/
theorem yields {derivations : List δ} (hshows : tokens.Shows (derivations.flatMap terminals))
    (hfits : ∀ terminal ∈ derivations.flatMap terminals, terminal.Fits)
    (hholds : ∀ derivation ∈ derivations, holds derivation) :
    Yields (untilEnd (item fuel) rounds) tokens (· = derivations.map tree) [] :=
  yields_untilEnd h.ne_nil h.follows_items
    (fun derivation hmem => h.complete derivation (hholds derivation hmem) fuel) hfits hshows

theorem result_eq_ok_iff (advances : Advances k (untilEnd (item fuel) rounds) tokens) :
    (untilEnd (item fuel) rounds).result tokens advances = .ok values ↔
      ∃ derivations : List δ, tokens.Shows (derivations.flatMap terminals) ∧
        (∀ terminal ∈ derivations.flatMap terminals, terminal.Fits) ∧
        (∀ derivation ∈ derivations, holds derivation) ∧ derivations.map tree = values := by
  constructor
  · intro hok
    obtain ⟨left, hread⟩ := (Reader.result_eq_ok_iff advances).mp hok
    exact h.exists_shows hread
  · rintro ⟨derivations, hshows, hfits, hholds, rfl⟩
    exact (h.yields hshows hfits hholds).result_eq_ok advances

end ReadsItems

theorem readsItems_line :
    ReadsItems (line .full) Line.tree Line.terminals Line.AttachesNearest Line.Ends where
  advances := fun tokens => .line (by simp only [Tokens.fuel]; omega)
  complete := completeFor_line
  sound := by
    intro fuel tokens value left hread
    obtain ⟨derivation, htree, hspends, hnearest, -⟩ := sound_line fuel hread
    exact ⟨derivation, htree, hspends, hnearest⟩
  ne_nil := Line.terminals_ne_nil
  follows_items := Line.ends_flatMap

theorem readsItems_definition : ReadsItems (definition .full) Item.tree Item.terminals
    Item.AttachesNearest (fun _ _ => True) where
  advances := fun tokens => .definition (by simp only [Tokens.fuel]; omega)
  complete := completeFor_definition
  sound := sound_definition
  ne_nil := Item.terminals_ne_nil
  follows_items := fun _ _ => trivial

end Reader

/-- Lines are read exactly if they have a derivation, and they are its tree. -/
theorem parseStatements_eq_ok_iff_shows {source file : String} {body : List Expr} :
    parseStatements source file = .ok body ↔
      ∃ lines : List Line, (Tokens.ofSource source file).Shows (Line.allTerminals lines) ∧
        (∀ terminal ∈ Line.allTerminals lines, terminal.Fits) ∧ Line.AllAttachNearest lines ∧
        lines.map Line.tree = body := by
  simp only [Line.allTerminals_eq_flatMap, Line.allAttachNearest_iff]
  exact Reader.readsItems_line.result_eq_ok_iff .statements

/-- Definitions are read exactly if they have a derivation, and they are its tree. -/
theorem parseProgram_eq_ok_iff_shows {source file : String} {program : Program} :
    parseProgram source file = .ok program ↔
      ∃ items : List Item, (Tokens.ofSource source file).Shows (Item.allTerminals items) ∧
        (∀ terminal ∈ Item.allTerminals items, terminal.Fits) ∧
        (∀ item ∈ items, item.AttachesNearest) ∧ items.map Item.tree = program :=
  Reader.readsItems_definition.result_eq_ok_iff .program

/-! ## Tokens of a source -/

/-- The tokens of a source are those that the readers are given and its end, if the source ends
where no further token starts. -/
theorem tokenize_eq_ok_iff {source file : String} {tokens : List Token} {last : Token} :
    tokenize source file = .ok (tokens ++ [last]) ↔
      (Tokens.ofSource source file).pending = tokens ∧
        (Tokens.ofSource source file).stop.rest = [] ∧
        last = .atEnd (.ofNat (Tokens.ofSource source file).stop.offset) := by
  simp only [tokenize, Cursor.tokensToEnd, Tokens.ofSource, Cursor.stopped]
  cases hrest : (Cursor.ofSource source).tokens.2.rest with
  | nil =>
      simp only [Except.map, Except.ok.injEq, true_and]
      constructor
      · intro h
        obtain ⟨hpending, hlast⟩ := List.append_inj' h rfl
        exact ⟨hpending, (List.cons.inj hlast).1.symm⟩
      · rintro ⟨rfl, rfl⟩
        rfl
  | cons c rest => simp [Except.map]

theorem wellSpelled_of_mem_pending {source file : String} :
    ∀ token ∈ (Tokens.ofSource source file).pending, token.terminal.WellSpelled :=
  Cursor.wellSpelled_of_mem_tokens

/-- A well-spelled token fits unless it is a numeral that is too large. -/
theorem Token.fits_terminal_iff {token : Token} (h : token.terminal.WellSpelled) :
    token.terminal.Fits ↔ (token.kind = .number → decimalValue token.text ≤ largestNumeral) := by
  by_cases hnumber : token.kind = .number
  · rw [Token.terminal_of_number hnumber] at h ⊢
    exact ⟨fun hfits _ => hfits.2.2, fun hle => ⟨h.1, h.2, hle hnumber⟩⟩
  · have hfits : token.terminal.Fits := by
      unfold Token.terminal Terminal.ofKind
      split
      next => trivial
      next heq => exact absurd heq hnumber
      next => trivial
    exact ⟨fun _ heq => absurd heq hnumber, fun _ => hfits⟩

/-- The terminals of a source, where its numerals are not too large. -/
theorem fits_iff_of_shows {source file : String} {terminals : List Terminal}
    (h : (Tokens.ofSource source file).Shows terminals) :
    (∀ terminal ∈ terminals, terminal.Fits) ↔
      ∀ token ∈ (Tokens.ofSource source file).pending,
        token.kind = .number → decimalValue token.text ≤ largestNumeral := by
  rw [← h.terminals_eq, Tokens.terminals, List.forall_mem_map]
  constructor
  · exact fun hfits token hmem =>
      (Token.fits_terminal_iff (wellSpelled_of_mem_pending token hmem)).mp (hfits token hmem)
  · exact fun hle token hmem =>
      (Token.fits_terminal_iff (wellSpelled_of_mem_pending token hmem)).mpr (hle token hmem)

/-! ## Acceptance -/

namespace Grammar

/-- The lines derive the tokens, and every `else` belongs to the nearest conditional. -/
structure Line.AllDerive (lines : List Line) (tokens : List Token) : Prop where
  terminals_eq : tokens.map Token.terminal = Line.allTerminals lines
  nearest : Line.AllAttachNearest lines

theorem Line.AllDerive.unique {lines others : List Line} {tokens : List Token}
    (h : Line.AllDerive lines tokens) (h' : Line.AllDerive others tokens) : others = lines :=
  Line.allTerminals_injective h'.nearest h.nearest (h'.terminals_eq.symm.trans h.terminals_eq)

/-- The definitions derive the tokens, and every `else` belongs to the nearest conditional. -/
structure Item.AllDerive (items : List Item) (tokens : List Token) : Prop where
  terminals_eq : tokens.map Token.terminal = Item.allTerminals items
  nearest : ∀ item ∈ items, item.AttachesNearest

theorem Item.AllDerive.unique {items others : List Item} {tokens : List Token}
    (h : Item.AllDerive items tokens) (h' : Item.AllDerive others tokens) : others = items :=
  Item.allTerminals_injective h'.nearest h.nearest (h'.terminals_eq.symm.trans h.terminals_eq)

end Grammar

/-- A source is read as lines exactly if it consists of tokens, no numeral is too large and lines
derive the tokens before the end; what is read are the trees of these lines, and no others derive
the tokens.  The same holds of definitions. -/
theorem parse_eq_ok_iff_derivable (source file : String) :
    (∀ body, parseStatements source file = .ok body ↔
      ∃ tokens last, tokenize source file = .ok (tokens ++ [last]) ∧ last.kind = .eof ∧
        (∀ token ∈ tokens, token.kind = .number → decimalValue token.text ≤ largestNumeral) ∧
        ∃ lines, Line.AllDerive lines tokens ∧
          (∀ others, Line.AllDerive others tokens → others = lines) ∧
          lines.map Line.tree = body) ∧
    (∀ program, parseProgram source file = .ok program ↔
      ∃ tokens last, tokenize source file = .ok (tokens ++ [last]) ∧ last.kind = .eof ∧
        (∀ token ∈ tokens, token.kind = .number → decimalValue token.text ≤ largestNumeral) ∧
        ∃ items, Item.AllDerive items tokens ∧
          (∀ others, Item.AllDerive others tokens → others = items) ∧
          items.map Item.tree = program) := by
  constructor
  · intro body
    rw [parseStatements_eq_ok_iff_shows]
    constructor
    · rintro ⟨lines, hshows, hfits, hnearest, rfl⟩
      have hderive : Line.AllDerive lines (Tokens.ofSource source file).pending :=
        ⟨hshows.terminals_eq, hnearest⟩
      exact ⟨_, _, tokenize_eq_ok_iff.mpr ⟨rfl, hshows.stop_rest, rfl⟩, rfl,
        (fits_iff_of_shows hshows).mp hfits, lines, hderive, fun _ => hderive.unique, rfl⟩
    · rintro ⟨tokens, last, htokenize, -, hle, lines, hderive, -, rfl⟩
      obtain ⟨rfl, hstop, -⟩ := tokenize_eq_ok_iff.mp htokenize
      have hshows : (Tokens.ofSource source file).Shows (Line.allTerminals lines) :=
        ⟨hderive.terminals_eq, hstop⟩
      exact ⟨lines, hshows, (fits_iff_of_shows hshows).mpr hle, hderive.nearest, rfl⟩
  · intro program
    rw [parseProgram_eq_ok_iff_shows]
    constructor
    · rintro ⟨items, hshows, hfits, hnearest, rfl⟩
      have hderive : Item.AllDerive items (Tokens.ofSource source file).pending :=
        ⟨hshows.terminals_eq, hnearest⟩
      exact ⟨_, _, tokenize_eq_ok_iff.mpr ⟨rfl, hshows.stop_rest, rfl⟩, rfl,
        (fits_iff_of_shows hshows).mp hfits, items, hderive, fun _ => hderive.unique, rfl⟩
    · rintro ⟨tokens, last, htokenize, -, hle, items, hderive, -, rfl⟩
      obtain ⟨rfl, hstop, -⟩ := tokenize_eq_ok_iff.mp htokenize
      have hshows : (Tokens.ofSource source file).Shows (Item.allTerminals items) :=
        ⟨hderive.terminals_eq, hstop⟩
      exact ⟨items, hshows, (fits_iff_of_shows hshows).mpr hle, hderive.nearest, rfl⟩

end IntScript
