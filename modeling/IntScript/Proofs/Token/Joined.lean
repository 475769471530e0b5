import IntScript.Proofs.Token.Munch

/-!
# Texts joined by a line break

No lexeme goes on over a blank, and every comment ends at a line break.  So the tokens of two texts
with a line break between them are those of the first and then those of the second, provided that
the first can be read to its end; if it cannot, the second does not matter.

* `IsLongest.append_cons` : for pieces without a certain character it makes no difference what comes
  behind the next one; `Lexeme.ofText?_append_of_some` : a blank is such a character for lexemes.
* `Cursor.joined` : the cursor of the first text, as one in both.  Skipping trivia
  (`Cursor.skipTrivia_append`) and reading a token (`Cursor.next?_joined_of_some`,
  `Cursor.next?_joined_of_none`) respect it.
* `Cursor.tokens_joined` : the tokens of both texts, by induction along those of the first.
-/

namespace IntScript

open Text

/-! ## Blanks behind a text -/

theorem prefix_append_cons_iff {c : Char} {piece text : List Char} (hpiece : c ∉ piece)
    (behind : List Char) : piece <+: text ++ c :: behind ↔ piece <+: text := by
  constructor
  · intro hprefix
    rcases List.prefix_or_prefix_of_prefix hprefix (List.prefix_append text _) with h | h
    · exact h
    · obtain ⟨rest, rfl⟩ := h
      rw [List.prefix_append_right_inj] at hprefix
      cases rest with
      | nil => simp
      | cons d rest =>
          obtain ⟨rfl, -⟩ := List.cons_prefix_cons.mp hprefix
          exact absurd (List.mem_append_right text List.mem_cons_self) hpiece
  · intro hprefix
    exact hprefix.trans (List.prefix_append text _)

/-- What is behind a character does not matter for pieces that do not have it. -/
theorem IsLongest.append_cons {P : List Char → Prop} {c : Char} {piece text : List Char}
    (hP : ∀ piece, P piece → c ∉ piece) (h : IsLongest P piece text) (behind : List Char) :
    IsLongest P piece (text ++ c :: behind) := by
  have hfront := (prefix_append_cons_iff (hP piece h.belongs) behind).mpr h.at_front
  refine ⟨hfront, h.belongs, fun other hother hprefix => ?_⟩
  exact h.longest other hother ((prefix_append_cons_iff (hP other hother) behind).mp hprefix)

theorem IsAnyLexeme.not_mem_of_isBlank {c : Char} {text : List Char} (h : IsAnyLexeme text)
    (hblank : isBlank c = true) : c ∉ text := by
  have hword : ¬ isWordChar c = true := by
    intro hchar
    cases hblank.symm.trans (Lexeme.isBlank_eq_false_of_isWordChar hchar)
  obtain ⟨kind, h⟩ := h
  intro hmem
  cases h with
  | keyword word => exact hword (word.isWordChar_word _ hmem)
  | name hname => exact hword (hname.isWordChar _ hmem)
  | numeral _ hdigits => exact hword (Lexeme.isWordChar_of_isDigit (hdigits _ hmem))
  | fixed hfixed => cases hblank.symm.trans (Lexeme.fixedSpellings_isBlank _ hfixed _ hmem)

namespace Lexeme

variable {c : Char} {text behind : List Char}

/-- A lexeme is the same with a blank and anything else behind the text. -/
theorem ofText?_append_of_some (hblank : isBlank c = true) {lexeme : Lexeme}
    (h : ofText? text = some lexeme) :
    ofText? (text ++ c :: behind) =
      some ⟨lexeme.kind, lexeme.text, lexeme.rest ++ c :: behind⟩ := by
  obtain ⟨hkind, hlongest⟩ := longest_of_ofText? h
  have hsplit : lexeme.text ++ lexeme.rest = text := text_append_rest h
  have hjoined : IsLongest IsAnyLexeme lexeme.text (text ++ c :: behind) :=
    hlongest.append_cons (fun _ hlexeme => hlexeme.not_mem_of_isBlank hblank) behind
  rw [← hsplit, List.append_assoc] at hjoined ⊢
  exact ofText?_eq_some_iff.mpr ⟨hkind, hjoined⟩

theorem ofText?_append_of_none (hblank : isBlank c = true) (h : ofText? text = none) :
    ofText? (text ++ c :: behind) = none := by
  rw [ofText?_eq_none_iff] at h ⊢
  intro kind piece hpiece hprefix
  have hnot := IsAnyLexeme.not_mem_of_isBlank ⟨kind, hpiece⟩ hblank
  exact h kind piece hpiece ((prefix_append_cons_iff hnot behind).mp hprefix)

end Lexeme

namespace Cursor

variable {behind : List Char}

/-- The cursor when a line break and another text come behind the text.  At the end of the text it
moves on to the first token of the other one. -/
def joined (behind : List Char) (cursor : Cursor) : Cursor :=
  match cursor.rest with
  | [] => skipTrivia ⟨cursor.offset + 1, behind⟩
  | rest => ⟨cursor.offset, rest ++ '\n' :: behind⟩

theorem joined_of_nil {cursor : Cursor} (h : cursor.rest = []) :
    cursor.joined behind = skipTrivia ⟨cursor.offset + 1, behind⟩ := by
  rw [joined, h]

theorem joined_of_ne_nil {cursor : Cursor} (h : cursor.rest ≠ []) :
    cursor.joined behind = ⟨cursor.offset, cursor.rest ++ '\n' :: behind⟩ := by
  rw [joined]
  split
  next hnil => exact absurd hnil h
  next => rfl

theorem skipTriviaFrom_append (inComment : Bool) (offset : Nat) (text behind : List Char) :
    skipTriviaFrom inComment offset (text ++ '\n' :: behind) =
      (skipTriviaFrom inComment offset text).joined behind := by
  induction text generalizing inComment offset with
  | nil =>
      -- The line break ends a comment, and outside of comments it is a blank.
      have hsize : '\n'.utf8Size = 1 := rfl
      cases inComment <;> simp [skipTriviaFrom, joined, skipTrivia, isBlank_lineBreak, hsize]
  | cons c text ih =>
      have hhead : ((text ++ '\n' :: behind).head? == some '/') = (text.head? == some '/') := by
        cases text <;> rfl
      rw [List.cons_append, skipTriviaFrom, skipTriviaFrom, hhead, ih, ih, ih]
      simp only [apply_ite (joined behind)]
      rfl

theorem skipTrivia_append (offset : Nat) (text behind : List Char) :
    skipTrivia ⟨offset, text ++ '\n' :: behind⟩ = (skipTrivia ⟨offset, text⟩).joined behind :=
  skipTriviaFrom_append false offset text behind

variable {cursor next : Cursor} {token : Token}

theorem rest_ne_nil_of_next? (h : cursor.next? = some (token, next)) : cursor.rest ≠ [] := by
  obtain ⟨lexeme, hlexeme, -⟩ := terminal_of_next? h
  intro hnil
  rw [hnil] at hlexeme
  cases hlexeme

theorem next?_joined_of_some (h : cursor.next? = some (token, next)) :
    (cursor.joined behind).next? = some (token, next.joined behind) := by
  rw [joined_of_ne_nil (rest_ne_nil_of_next? h)]
  obtain ⟨lexeme, hlexeme, rfl, rfl⟩ := next?_eq_some_iff.mp h
  refine next?_eq_some_iff.mpr ⟨_, Lexeme.ofText?_append_of_some isBlank_lineBreak hlexeme, rfl, ?_⟩
  exact (skipTrivia_append _ lexeme.rest behind).symm

theorem next?_joined_of_none (h : cursor.next? = none) (hrest : cursor.rest ≠ []) :
    (cursor.joined behind).next? = none := by
  rw [joined_of_ne_nil hrest]
  have hlexeme := next?_eq_none_iff.mp h
  exact next?_eq_none_iff.mpr (Lexeme.ofText?_append_of_none isBlank_lineBreak hlexeme)

/-- The tokens of both texts, unless the first cannot be read to its end. -/
theorem tokens_joined (cursor : Cursor) (behind : List Char) :
    (cursor.joined behind).tokens =
      (cursor.tokens.1 ++ (cursor.tokens.2.joined behind).tokens.1,
        (cursor.tokens.2.joined behind).tokens.2) := by
  induction cursor using induct with
  | none cursor hnext => rw [tokens_of_none hnext, List.nil_append]
  | some cursor token next hnext ih =>
      rw [tokens_of_some hnext, tokens_of_some (next?_joined_of_some hnext), ih]
      rfl

/-- A text that is read off to its end is followed by the other. -/
theorem reading_joined_of_end {terminals : List Terminal} (h : cursor.reading = (terminals, []))
    (behind : List Char) :
    (cursor.joined behind).reading =
      (terminals ++ (skipTrivia ⟨0, behind⟩).reading.1, (skipTrivia ⟨0, behind⟩).reading.2) := by
  obtain ⟨hterminals, hstop⟩ := Prod.mk.inj h
  have hbehind : (cursor.tokens.2.joined behind).reading = (skipTrivia ⟨0, behind⟩).reading := by
    rw [joined_of_nil hstop]
    exact reading_congr (skipTriviaFrom_rest_eq ..)
  rw [reading, tokens_joined, List.map_append, hterminals, ← hbehind]
  rfl

/-- A text that is not read off to its end stays so. -/
theorem reading_joined_ne_nil (h : cursor.reading.2 ≠ []) (behind : List Char) :
    (cursor.joined behind).reading.2 ≠ [] := by
  have hjoined : (cursor.tokens.2.joined behind).next? = none :=
    next?_joined_of_none cursor.next?_tokens h
  rw [reading, tokens_joined, tokens_of_none hjoined, joined_of_ne_nil h]
  exact List.append_ne_nil_of_left_ne_nil h _

end Cursor

end IntScript
