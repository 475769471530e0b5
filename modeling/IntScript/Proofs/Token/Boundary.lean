import IntScript.Proofs.Token.Munch

/-!
# Cursors between tokens

A cursor that has been moved over trivia rests where neither a blank nor a comment comes next, and
its offset is that of a character.  Since trivia is skipped as soon as a token has been consumed,
this is so of every cursor that is reached from the one at the start of a source.

* `Cursor.RestsIn` : a cursor at rest, and the moves that lead to one.
* `Cursor.RestsIn.rest_of_slash` : a slash that it reads as an operator does not start a comment.
-/

namespace IntScript

open Text

namespace Cursor

variable {text rest : List Char} {cursor behind : Cursor} {token : Token}

/-- A cursor in the text with no trivia ahead of it. -/
structure RestsIn (text : List Char) (cursor : Cursor) : Prop where
  standsIn : cursor.StandsIn text
  not_blank : ∀ c ∈ cursor.rest.head?, isBlank c = false
  not_comment : ¬ ['/', '/'] <+: cursor.rest

namespace RestsIn

theorem skipTriviaFrom (inComment : Bool) {offset : Nat} (h : StandsIn text ⟨offset, rest⟩) :
    RestsIn text (skipTriviaFrom inComment offset rest) := by
  induction rest generalizing inComment offset with
  | nil => exact ⟨h, nofun, by simp [Cursor.skipTriviaFrom]⟩
  | cons c rest ih =>
      have hbehind : StandsIn text ⟨offset + c.utf8Size, rest⟩ := by
        simpa using @StandsIn.forward text rest offset [c] h
      unfold Cursor.skipTriviaFrom
      split
      · exact ih _ hbehind
      · split
        · exact ih _ hbehind
        next hblank =>
          split
          · exact ih _ hbehind
          next hcomment =>
            refine ⟨h, by simpa using hblank, ?_⟩
            rintro ⟨behind, heq⟩
            obtain ⟨rfl, rfl⟩ := List.cons.inj heq
            exact hcomment rfl

theorem ofSource (source : String) : RestsIn source.toList (.ofSource source) :=
  skipTriviaFrom false ⟨[], rfl, rfl⟩

/-- Behind every token trivia is skipped. -/
theorem next? (h : RestsIn text cursor) (hnext : cursor.next? = some (token, behind)) :
    RestsIn text behind := by
  obtain ⟨lexeme, hlexeme, -, rfl⟩ := next?_eq_some_iff.mp hnext
  refine skipTriviaFrom false (StandsIn.forward ?_)
  rw [Lexeme.text_append_rest hlexeme]
  exact h.standsIn

theorem tokens (h : RestsIn text cursor) : RestsIn text cursor.tokens.2 := by
  induction cursor using induct with
  | none cursor hnext => rwa [tokens_of_none hnext]
  | some cursor token behind hnext ih =>
      rw [tokens_of_some hnext]
      exact ih (h.next? hnext)

/-- A slash that is read as an operator is not the first of two. -/
theorem rest_of_slash (h : RestsIn text cursor) (hnext : cursor.next? = some (token, behind))
    (hkind : token.kind = .operator .divide) :
    ∃ others, cursor.rest = '/' :: others ∧ others.head? ≠ some '/' := by
  obtain ⟨lexeme, hlexeme, rfl, -⟩ := next?_eq_some_iff.mp hnext
  have hslash := (Lexeme.longest_of_ofText? hlexeme).1
  rw [show lexeme.kind = .operator .divide from hkind] at hslash
  have htext : lexeme.text = ['/'] := by
    generalize lexeme.text = spelling at hslash
    cases hslash with
    | fixed hmem =>
        have hall : ∀ spelling ∈ fixedSpellings, spelling.2 = .operator .divide →
            spelling.1 = ['/'] := by decide
        exact hall _ hmem rfl
  have hrest : cursor.rest = '/' :: lexeme.rest := by
    rw [← Lexeme.text_append_rest hlexeme, htext]
    rfl
  refine ⟨lexeme.rest, hrest, fun hhead => h.not_comment ?_⟩
  obtain ⟨others, hothers⟩ := List.head?_eq_some_iff.mp hhead
  exact ⟨others, by rw [hrest, hothers]; rfl⟩

end RestsIn

end Cursor

end IntScript
