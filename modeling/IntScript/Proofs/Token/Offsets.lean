import IntScript.Proofs.Token.Scan

/-!
# Where tokens start

The offset of a cursor counts the bytes in front of it.  `Cursor.StandsIn text cursor` says so of a
cursor in a text; it holds of the cursor of a source and is kept by every move.  As long as the
text is short enough for its offsets not to wrap, tokens start one behind the other.

* `Cursor.StandsIn.dropBytes?_eq` : the text behind the offset of a cursor is the rest.
* `Cursor.StandsIn.pairwise_start`, `Cursor.StandsIn.start_bounds` : the tokens that a cursor reads
  off start one behind the other, none in front of the cursor and none where it stops.
* `Cursor.StandsIn.exists_next?` : each of them is read off where it starts.
* `Cursor.next?_tokens` : where it stops no token starts.
-/

namespace IntScript

open Text

/-! ## Bytes -/

namespace Text

theorem byteLength_eq_utf8ByteSize (text : List Char) :
    byteLength text = (String.ofList text).utf8ByteSize := by
  induction text with
  | nil => rfl
  | cons c rest ih =>
      rw [byteLength_cons, String.ofList_cons, String.utf8ByteSize_append,
        String.utf8ByteSize_singleton, ih]

theorem byteLength_toList (source : String) : byteLength source.toList = source.utf8ByteSize := by
  rw [byteLength_eq_utf8ByteSize, String.ofList_toList]

theorem byteLength_pos {text : List Char} (h : text ≠ []) : 0 < byteLength text := by
  obtain ⟨c, rest, rfl⟩ := List.exists_cons_of_ne_nil h
  rw [byteLength_cons]
  exact Nat.add_pos_left c.utf8Size_pos _

end Text

theorem dropBytes?_append (before rest : List Char) :
    dropBytes? (byteLength before) (before ++ rest) = some rest := by
  induction before with
  | nil => rw [byteLength_nil, List.nil_append, dropBytes?]
  | cons c before ih =>
      obtain ⟨bytes, hbytes⟩ : ∃ bytes, c.utf8Size + byteLength before = bytes + 1 :=
        Nat.exists_eq_succ_of_ne_zero (Nat.ne_of_gt (Nat.add_pos_left c.utf8Size_pos _))
      have hbehind : bytes + 1 - c.utf8Size = byteLength before := by omega
      rw [byteLength_cons, hbytes, List.cons_append, dropBytes?, if_pos (by omega), hbehind, ih]

namespace Cursor

variable {cursor behind : Cursor} {token : Token}

/-! ## Moves -/

/-- A cursor whose offset counts the bytes of the text in front of it. -/
def StandsIn (text : List Char) (cursor : Cursor) : Prop :=
  ∃ before, text = before ++ cursor.rest ∧ cursor.offset = byteLength before

theorem le_offset_skipTriviaFrom (inComment : Bool) (offset : Nat) (text : List Char) :
    offset ≤ (skipTriviaFrom inComment offset text).offset := by
  induction text generalizing inComment offset with
  | nil => exact Nat.le_refl offset
  | cons c rest ih =>
      unfold skipTriviaFrom
      split
      · exact Nat.le_trans (Nat.le_add_right _ _) (ih _ _)
      · split
        · exact Nat.le_trans (Nat.le_add_right _ _) (ih _ _)
        · split
          · exact Nat.le_trans (Nat.le_add_right _ _) (ih _ _)
          · exact Nat.le_refl offset

theorem offset_lt_of_next? (h : cursor.next? = some (token, behind)) :
    cursor.offset < behind.offset := by
  obtain ⟨lexeme, hlexeme, -, rfl⟩ := terminal_of_next? h
  have hpos := byteLength_pos (Lexeme.text_ne_nil hlexeme)
  exact Nat.lt_of_lt_of_le (Nat.lt_add_of_pos_right hpos) (le_offset_skipTriviaFrom ..)

theorem start_of_next? (h : cursor.next? = some (token, behind)) :
    token.start = .ofNat cursor.offset := by
  obtain ⟨lexeme, -, heq⟩ := Option.map_eq_some_iff.mp h
  obtain ⟨rfl, -⟩ := Prod.mk.inj heq
  rfl

/-- No token starts where the cursor stops. -/
theorem next?_tokens (cursor : Cursor) : cursor.tokens.2.next? = none := by
  induction cursor using induct with
  | none cursor hnext => rwa [tokens_of_none hnext]
  | some cursor token behind hnext ih => rwa [tokens_of_some hnext]

theorem offset_le_tokens (cursor : Cursor) : cursor.offset ≤ cursor.tokens.2.offset := by
  induction cursor using induct with
  | none cursor hnext =>
      have hstop : cursor.tokens.2 = cursor := by rw [tokens_of_none hnext]
      exact Nat.le_of_eq (congrArg offset hstop.symm)
  | some cursor token behind hnext ih =>
      rw [tokens_of_some hnext]
      exact Nat.le_of_lt (Nat.lt_of_lt_of_le (offset_lt_of_next? hnext) ih)

namespace StandsIn

variable {text rest : List Char}

theorem forward {offset : Nat} {passed : List Char} (h : StandsIn text ⟨offset, passed ++ rest⟩) :
    StandsIn text ⟨offset + byteLength passed, rest⟩ := by
  obtain ⟨before, rfl, hoffset⟩ := h
  refine ⟨before ++ passed, ?_, ?_⟩
  · rw [List.append_assoc]
  · rw [byteLength_append]
    exact congrArg (· + byteLength passed) hoffset

theorem skipTriviaFrom (inComment : Bool) {offset : Nat} (h : StandsIn text ⟨offset, rest⟩) :
    StandsIn text (skipTriviaFrom inComment offset rest) := by
  induction rest generalizing inComment offset with
  | nil => exact h
  | cons c rest ih =>
      have hbehind : StandsIn text ⟨offset + c.utf8Size, rest⟩ := by
        simpa using @forward text rest offset [c] h
      unfold Cursor.skipTriviaFrom
      split
      · exact ih _ hbehind
      · split
        · exact ih _ hbehind
        · split
          · exact ih _ hbehind
          · exact h

theorem ofSource (source : String) : StandsIn source.toList (.ofSource source) :=
  skipTriviaFrom false ⟨[], rfl, rfl⟩

theorem next? (h : StandsIn text cursor) (hnext : cursor.next? = some (token, behind)) :
    StandsIn text behind := by
  obtain ⟨lexeme, hlexeme, -, rfl⟩ := terminal_of_next? hnext
  refine skipTriviaFrom false (forward ?_)
  rwa [Lexeme.text_append_rest hlexeme]

theorem tokens (h : StandsIn text cursor) : StandsIn text cursor.tokens.2 := by
  induction cursor using induct with
  | none cursor hnext => rwa [tokens_of_none hnext]
  | some cursor token behind hnext ih =>
      rw [tokens_of_some hnext]
      exact ih (h.next? hnext)

/-- Each token is read off by a cursor in front of the place where the tokens stop. -/
theorem exists_next? (h : StandsIn text cursor) :
    ∀ token ∈ cursor.tokens.1, ∃ start behind : Cursor, start.StandsIn text ∧
      start.next? = some (token, behind) ∧ start.offset < cursor.tokens.2.offset := by
  induction cursor using induct with
  | none cursor hnext =>
      rw [tokens_of_none hnext]
      exact fun _ hmem => absurd hmem List.not_mem_nil
  | some cursor token behind hnext ih =>
      rw [tokens_of_some hnext, List.forall_mem_cons]
      have hlt := Nat.lt_of_lt_of_le (offset_lt_of_next? hnext) (offset_le_tokens behind)
      exact ⟨⟨cursor, behind, h, hnext, hlt⟩, ih (h.next? hnext)⟩

/-! ## Offsets -/

theorem offset_le (h : StandsIn text cursor) : cursor.offset ≤ byteLength text := by
  obtain ⟨before, rfl, hoffset⟩ := h
  rw [byteLength_append, hoffset]
  exact Nat.le_add_right _ _

theorem rest_eq_nil_iff (h : StandsIn text cursor) :
    cursor.rest = [] ↔ cursor.offset = byteLength text := by
  obtain ⟨before, rfl, hoffset⟩ := h
  rw [byteLength_append, hoffset]
  constructor
  · intro hrest
    rw [hrest, byteLength_nil, Nat.add_zero]
  · intro heq
    cases hrest : cursor.rest with
    | nil => rfl
    | cons c rest =>
        have hpos := byteLength_pos (List.cons_ne_nil c rest)
        rw [hrest] at heq
        omega

/-- The text behind the offset is the rest. -/
theorem dropBytes?_eq (h : StandsIn text cursor) :
    dropBytes? cursor.offset text = some cursor.rest := by
  obtain ⟨before, rfl, hoffset⟩ := h
  rw [hoffset, dropBytes?_append]

section

variable (hsize : byteLength text < UInt32.size)

include hsize

theorem toNat_offset (h : StandsIn text cursor) :
    (UInt32.ofNat cursor.offset).toNat = cursor.offset :=
  UInt32.toNat_ofNat_of_lt (Nat.lt_of_le_of_lt h.offset_le hsize)

/-- Tokens start no earlier than at the cursor, and earlier than where it stops. -/
theorem start_bounds (h : StandsIn text cursor) :
    ∀ token ∈ cursor.tokens.1,
      cursor.offset ≤ token.start.toNat ∧ token.start.toNat < cursor.tokens.2.offset := by
  induction cursor using induct with
  | none cursor hnext =>
      rw [tokens_of_none hnext]
      exact fun _ hmem => absurd hmem List.not_mem_nil
  | some cursor token behind hnext ih =>
      have hlt := offset_lt_of_next? hnext
      have hstart : token.start.toNat = cursor.offset := by
        rw [start_of_next? hnext, h.toNat_offset hsize]
      rw [tokens_of_some hnext, List.forall_mem_cons]
      refine ⟨⟨Nat.le_of_eq hstart.symm, ?_⟩, fun other hmem => ?_⟩
      · rw [hstart]
        exact Nat.lt_of_lt_of_le hlt (offset_le_tokens behind)
      · obtain ⟨hge, hstop⟩ := ih (h.next? hnext) other hmem
        exact ⟨Nat.le_trans (Nat.le_of_lt hlt) hge, hstop⟩

/-- Tokens start one behind the other. -/
theorem pairwise_start (h : StandsIn text cursor) :
    cursor.tokens.1.Pairwise fun token other => token.start < other.start := by
  induction cursor using induct with
  | none cursor hnext =>
      rw [tokens_of_none hnext]
      exact .nil
  | some cursor token behind hnext ih =>
      have hbehind := h.next? hnext
      rw [tokens_of_some hnext, List.pairwise_cons]
      refine ⟨fun other hmem => ?_, ih hbehind⟩
      rw [UInt32.lt_iff_toNat_lt, start_of_next? hnext, h.toNat_offset hsize]
      have hge := (hbehind.start_bounds hsize other hmem).1
      exact Nat.lt_of_lt_of_le (offset_lt_of_next? hnext) hge

end

end StandsIn

end Cursor

end IntScript
