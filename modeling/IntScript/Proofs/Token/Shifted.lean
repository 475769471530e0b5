import IntScript.Proofs.Token.Joined
import IntScript.Proofs.Token.Offsets

/-!
# Texts that stand further back

A text has the same tokens wherever it stands, and each of them starts as much further back as the
text does.  Offsets wrap, so that this is a sum of offsets and not of numbers.

* `Cursor.skipTriviaFrom_shift`, `Cursor.next?_shift`, `Cursor.tokens_shift` : every move of a
  cursor respects the shift.
* `Cursor.tokens_ofSource_join` : behind a text that is read to its end, and a line break, stand the
  tokens of the other text, shifted.
-/

namespace IntScript

open Text

/-- The token, so many bytes further back. -/
def Token.shift (bytes : Nat) (token : Token) : Token :=
  { token with start := token.start + .ofNat bytes, stop := token.stop + .ofNat bytes }

@[simp] theorem Token.look_shift (bytes : Nat) (token : Token) :
    (token.shift bytes).look = token.look :=
  rfl

namespace Cursor

/-- The cursor, so many bytes further back. -/
def shift (bytes : Nat) (cursor : Cursor) : Cursor :=
  ⟨cursor.offset + bytes, cursor.rest⟩

@[simp] theorem rest_shift (bytes : Nat) (cursor : Cursor) :
    (cursor.shift bytes).rest = cursor.rest :=
  rfl

theorem skipTriviaFrom_shift (bytes : Nat) (inComment : Bool) (offset : Nat) (text : List Char) :
    skipTriviaFrom inComment (offset + bytes) text =
      (skipTriviaFrom inComment offset text).shift bytes := by
  induction text generalizing inComment offset with
  | nil => rfl
  | cons c rest ih =>
      have hoffset : offset + bytes + c.utf8Size = offset + c.utf8Size + bytes :=
        Nat.add_right_comm ..
      simp only [skipTriviaFrom, hoffset, ih, apply_ite (shift bytes)]
      rfl

theorem next?_shift (bytes : Nat) (cursor : Cursor) :
    (cursor.shift bytes).next? =
      cursor.next?.map fun found => (found.1.shift bytes, found.2.shift bytes) := by
  simp only [next?, shift, Option.map_map]
  refine congrArg (Option.map · (Lexeme.ofText? cursor.rest)) (funext fun lexeme => ?_)
  have hstop : cursor.offset + bytes + byteLength lexeme.text =
      cursor.offset + byteLength lexeme.text + bytes := Nat.add_right_comm ..
  have hbehind := skipTriviaFrom_shift bytes false (cursor.offset + byteLength lexeme.text)
    lexeme.rest
  simp only [hstop, Function.comp_apply, Token.shift, UInt32.ofNat_add, Prod.mk.injEq, true_and]
  exact hbehind

theorem tokens_shift (bytes : Nat) (cursor : Cursor) :
    (cursor.shift bytes).tokens =
      (cursor.tokens.1.map (Token.shift bytes), cursor.tokens.2.shift bytes) := by
  induction cursor using induct with
  | none cursor hnext =>
      have hshift : (cursor.shift bytes).next? = none := by
        rw [next?_shift, hnext, Option.map_none]
      rw [tokens_of_none hnext, tokens_of_none hshift, List.map_nil]
  | some cursor token behind hnext ih =>
      have hshift : (cursor.shift bytes).next? = some (token.shift bytes, behind.shift bytes) := by
        rw [next?_shift, hnext, Option.map_some]
      rw [tokens_of_some hnext, tokens_of_some hshift, ih, List.map_cons]

/-- The tokens of two texts with a line break between them, of which the first is read to its
end. -/
theorem tokens_ofSource_join {first second : String} (h : (ofSource first).tokens.2.rest = []) :
    (ofSource (first ++ "\n" ++ second)).tokens =
      ((ofSource first).tokens.1 ++
          ((ofSource second).shift (first.utf8ByteSize + 1)).tokens.1,
        ((ofSource second).shift (first.utf8ByteSize + 1)).tokens.2) := by
  have htext : (first ++ "\n" ++ second).toList = first.toList ++ '\n' :: second.toList := by
    rw [String.toList_append, String.toList_append, List.append_assoc]
    rfl
  have hsource : ofSource (first ++ "\n" ++ second) = (ofSource first).joined second.toList := by
    rw [ofSource, htext]
    exact skipTrivia_append 0 first.toList second.toList
  have hoffset : (ofSource first).tokens.2.offset = first.utf8ByteSize := by
    rw [← byteLength_toList]
    exact (StandsIn.ofSource first).tokens.rest_eq_nil_iff.mp h
  have hbehind : (ofSource first).tokens.2.joined second.toList =
      (ofSource second).shift (first.utf8ByteSize + 1) := by
    have hskip := skipTriviaFrom_shift (first.utf8ByteSize + 1) false 0 second.toList
    rw [Nat.zero_add] at hskip
    rw [joined_of_nil h, hoffset]
    exact hskip
  rw [hsource, tokens_joined, hbehind]

end Cursor

end IntScript
