import Mathlib
import IntScript.Proofs.Diagnostic.Lines
import IntScript.Proofs.Grammar.Blame
import IntScript.Proofs.Grammar.TokensOnly
import IntScript.Proofs.Token.Boundary
import IntScript.Proofs.Token.Joined

/-!
# The caret of a diagnostic

A diagnostic shows the line of a token, without its indentation, and a caret in the row below.  The
line shown is always the right one.  The caret stands as far to the right as there are bytes between
the indentation and the token, while the row above has one column for each character.

* `exists_fault_of_causes` : a fault inside a source is about a token that stands there and has no
  blanks in it.
* `Place.ofOffset_of_token` : the line of a token as what stands in front of it, the token, and what
  stands behind it.
* `Place.toList_lineRow`, `Place.caretRow?_eq` : the two rows.  Neither the indentation nor the
  blanks at the end that are cut off have a part of the token.
* `Diagnostic.Shows.caretUnder_iff` : the caret is under the token exactly if bytes and characters
  are as many, and the row with the caret is drawn at all.
-/

namespace IntScript

open Text

/-! ## Texts -/

namespace Text

/-- What stands behind the last line break of a text. -/
def lastLine (text : List Char) : List Char :=
  text.rtakeWhile (· ≠ '\n')

theorem lastLine_append {before lead : List Char} (hstarts : ∀ c ∈ before.getLast?, c = '\n')
    (hlead : '\n' ∉ lead) : lastLine (before ++ lead) = lead := by
  have hnone : before.rtakeWhile (· ≠ '\n') = [] := by
    rw [List.rtakeWhile_eq_nil_iff]
    intro hne
    simpa using hstarts _ (List.getLast?_eq_getLast_of_ne_nil hne)
  have hall : ∀ c ∈ lead.reverse, decide (c ≠ '\n') = true := by
    intro c hmem
    rw [List.mem_reverse] at hmem
    exact decide_eq_true fun heq => hlead (heq ▸ hmem)
  rw [List.rtakeWhile, List.reverse_eq_nil_iff] at hnone
  rw [lastLine, List.rtakeWhile, List.reverse_append, List.takeWhile_append_of_pos hall, hnone,
    List.append_nil, List.reverse_reverse]

/-- A text that ends in a line is cut in front of it in one way only. -/
theorem eq_of_append_lineBreak {above above' row row' : List Char} (hrow : '\n' ∉ row)
    (hrow' : '\n' ∉ row') (h : above ++ '\n' :: row = above' ++ '\n' :: row') :
    above = above' ∧ row = row' := by
  have hlast : ∀ above row : List Char, '\n' ∉ row → lastLine (above ++ '\n' :: row) = row := by
    intro above row hrow
    rw [List.append_cons]
    exact lastLine_append (by simp) hrow
  obtain rfl : row = row' := by rw [← hlast above row hrow, h, hlast above' row' hrow']
  exact ⟨List.append_cancel_right h, rfl⟩

theorem length_le_byteLength (text : List Char) : text.length ≤ byteLength text := by
  induction text with
  | nil => exact Nat.le_refl 0
  | cons c rest ih =>
      have hpos := c.utf8Size_pos
      rw [List.length_cons, byteLength_cons]
      omega

/-- There are as many bytes as characters if each of these is encoded as one byte. -/
theorem byteLength_eq_length_iff {text : List Char} :
    byteLength text = text.length ↔ ∀ c ∈ text, c.utf8Size = 1 := by
  induction text with
  | nil => simp
  | cons c rest ih =>
      have hpos := c.utf8Size_pos
      have hle := length_le_byteLength rest
      rw [List.forall_mem_cons, ← ih, byteLength_cons, List.length_cons]
      omega

/-- The text has characters, and none of them is blank. -/
structure IsSolid (text : List Char) : Prop where
  ne_nil : text ≠ []
  isBlank_eq_false : ∀ c ∈ text, isBlank c = false

theorem IsSolid.lineBreak_notMem {text : List Char} (h : IsSolid text) : '\n' ∉ text := by
  intro hmem
  cases isBlank_lineBreak.symm.trans (h.isBlank_eq_false _ hmem)

/-- The blanks at the end of a text are behind all that is solid in it. -/
theorem IsSolid.trimEnd_append {solid : List Char} (h : IsSolid solid) (front back : List Char) :
    trimEnd (front ++ (solid ++ back)) = front ++ (solid ++ trimEnd back) := by
  have hsolid : (solid.reverse ++ front.reverse).dropWhile isBlank =
      solid.reverse ++ front.reverse := by
    obtain ⟨c, rest, heq⟩ := List.exists_cons_of_ne_nil (List.reverse_ne_nil_iff.mpr h.ne_nil)
    have hc : isBlank c = false := by
      refine h.isBlank_eq_false c (List.mem_reverse.mp ?_)
      rw [heq]
      exact List.mem_cons_self
    rw [heq, List.cons_append, List.dropWhile_cons_of_neg (ne_true_of_eq_false hc)]
  rw [trimEnd, trimEnd, List.reverse_append, List.reverse_append, List.append_assoc,
    List.dropWhile_append, hsolid]
  split
  next hempty =>
    rw [List.isEmpty_iff] at hempty
    rw [hempty]
    simp
  next => simp

theorem lineBreak_notMem_trimEnd {text : List Char} (h : '\n' ∉ text.dropLast) :
    '\n' ∉ trimEnd text := by
  have htrim : trimEnd text = text.rdropWhile isBlank := rfl
  rw [htrim]
  rcases List.eq_nil_or_concat text with rfl | ⟨init, last, rfl⟩
  · exact List.not_mem_nil
  · rw [List.concat_eq_append, List.dropLast_concat] at h
    rw [List.concat_eq_append, List.rdropWhile_concat]
    split
    next => exact fun hmem => h ((List.rdropWhile_prefix isBlank init).subset hmem)
    next hlast =>
      rw [List.mem_append, List.mem_singleton]
      rintro (hmem | rfl)
      · exact h hmem
      · exact hlast isBlank_lineBreak

end Text

/-! ## Tokens that faults are about -/

/-- The text, which has no blanks, stands behind the first bytes of the source. -/
def StandsAt (source : String) (offset : Nat) (text : List Char) : Prop :=
  IsSolid text ∧ ∃ front rest, source.toList = front ++ (text ++ rest) ∧ byteLength front = offset

section

variable {source : String} (hsize : byteLength source.toList < UInt32.size)

include hsize

theorem standsAt_of_mem {token : Token} (hmem : token ∈ tokensOf source) :
    StandsAt source token.start.toNat token.text.toList := by
  obtain ⟨start, behind, hstart, hnext, -⟩ :=
    (Cursor.StandsIn.ofSource source).exists_next? token hmem
  obtain ⟨lexeme, hlexeme, rfl, -⟩ := Cursor.next?_eq_some_iff.mp hnext
  obtain ⟨front, hfront, hoffset⟩ := id hstart
  have hany : IsAnyLexeme lexeme.text := ⟨_, (Lexeme.longest_of_ofText? hlexeme).1⟩
  rw [String.toList_ofList]
  refine ⟨⟨Lexeme.text_ne_nil hlexeme, fun c hc => ?_⟩, front, lexeme.rest, ?_, ?_⟩
  · rw [← Bool.not_eq_true]
    exact fun hblank => hany.not_mem_of_isBlank hblank hc
  · rw [Lexeme.text_append_rest hlexeme, hfront]
  · rw [← hoffset]
    exact (hstart.toNat_offset hsize).symm

theorem standsAt_of_stop {c : Char} {rest : List Char} (hrest : (stopOf source).rest = c :: rest) :
    StandsAt source (UInt32.ofNat (stopOf source).offset).toNat [c] := by
  have hstop : (stopOf source).RestsIn source.toList := (Cursor.RestsIn.ofSource source).tokens
  obtain ⟨front, hfront, hoffset⟩ := hstop.standsIn
  have hhead := hstop.not_blank
  rw [hrest] at hfront hhead
  refine ⟨⟨List.cons_ne_nil _ _, ?_⟩, front, rest, hfront, ?_⟩
  · rw [List.forall_mem_singleton]
    exact hhead c rfl
  · rw [← hoffset]
    exact (hstop.standsIn.toNat_offset hsize).symm

/-- A fault inside a source is about a token that stands where the fault is, a character that starts
no token counted as one. -/
theorem exists_fault_of_causes {file : String} {error : Error}
    (h : (Tokens.ofSource source file).Causes error)
    (hlt : error.position.offset.toNat < byteLength source.toList) :
    ∃ fault, error.cause = .parse fault ∧ error.position.file = file ∧
      StandsAt source error.position.offset.toNat fault.token.toList := by
  cases h with
  | @token token fault hhas htoken hfault =>
      obtain ⟨count, hcurrent⟩ := hhas
      rcases Nat.lt_or_ge count (tokensOf source).length with hless | hge
      · have hat : ((Tokens.ofSource source file).drop count).current =
            .ok (tokensOf source)[count] := Tokens.current_drop (List.getElem?_eq_getElem hless)
        obtain rfl := Except.ok.inj (hat.symm.trans hcurrent)
        refine ⟨fault, rfl, rfl, ?_⟩
        rw [htoken]
        exact standsAt_of_mem hsize (List.getElem_mem hless)
      · -- The end of the source is not inside it.
        rw [Tokens.current_drop_of_le hge, Cursor.stopped] at hcurrent
        split at hcurrent
        next hrest =>
          cases hcurrent
          have hstop : (stopOf source).StandsIn source.toList :=
            (Cursor.StandsIn.ofSource source).tokens
          have hend := (hstop.toNat_offset hsize).trans (hstop.rest_eq_nil_iff.mp hrest)
          exact absurd hend (Nat.ne_of_lt hlt)
        next => cases hcurrent
  | character hstopped =>
      rw [Cursor.stopped] at hstopped
      split at hstopped
      next => cases hstopped
      next c rest hrest =>
        cases hstopped
        refine ⟨_, rfl, rfl, ?_⟩
        rw [ParseFault.token, String.toList_ofList]
        exact standsAt_of_stop hsize hrest

end

/-! ## The line of a token -/

/-- Of two prefixes of a text the one with fewer bytes is a prefix of the other. -/
theorem Text.prefix_of_byteLength_le {text first second : List Char} (hfirst : first <+: text)
    (hsecond : second <+: text) (hle : byteLength first ≤ byteLength second) :
    first <+: second := by
  rcases List.prefix_or_prefix_of_prefix hfirst hsecond with hprefix | ⟨more, rfl⟩
  · exact hprefix
  · rw [byteLength_append] at hle
    have hnil : more = [] := by
      by_contra hne
      have hpos := byteLength_pos hne
      omega
    rw [hnil, List.append_nil]

theorem Text.eq_of_byteLength_eq {text first second : List Char} (hfirst : first <+: text)
    (hsecond : second <+: text) (heq : byteLength first = byteLength second) : first = second := by
  obtain ⟨more, rfl⟩ := prefix_of_byteLength_le hfirst hsecond (Nat.le_of_eq heq)
  obtain ⟨other, hother⟩ := prefix_of_byteLength_le hsecond hfirst (Nat.le_of_eq heq.symm)
  have hnil : more = [] ∧ other = [] := by simpa using hother.symm
  rw [hnil.1, List.append_nil]

namespace Text

/-- Only a line break ends a line, so that it does not end within what is solid. -/
theorem IsSolid.prefix_of_append_eq {solid rest line after : List Char} (h : IsSolid solid)
    (heq : solid ++ rest = line ++ after) (hstops : after ≠ [] → line.getLast? = some '\n') :
    solid <+: line := by
  rcases List.prefix_or_prefix_of_prefix ⟨rest, heq⟩ ⟨after, rfl⟩ with hprefix | ⟨more, rfl⟩
  · exact hprefix
  · by_cases hmore : more = []
    · rw [hmore, List.append_nil]
    · have hafter : after ≠ [] := by
        rintro rfl
        simp [hmore] at heq
      have hlast := List.mem_of_getLast? (hstops hafter)
      exact absurd (List.mem_append_left more hlast) h.lineBreak_notMem

/-- A line on which something solid starts has all of it. -/
theorem IsLineBetween.exists_of_solid {before line after front solid rest : List Char}
    (h : IsLineBetween before line after) (hsolid : IsSolid solid)
    (heq : before ++ (line ++ after) = front ++ (solid ++ rest))
    (hle : byteLength before ≤ byteLength front)
    (hlt : byteLength front < byteLength before + byteLength line) :
    ∃ lead behind, front = before ++ lead ∧ line = lead ++ (solid ++ behind) ∧
      '\n' ∉ lead ∧ '\n' ∉ behind.dropLast := by
  obtain ⟨lead, rfl⟩ : before <+: front := prefix_of_byteLength_le ⟨_, rfl⟩ ⟨_, heq.symm⟩ hle
  rw [byteLength_append] at hlt
  rw [List.append_assoc] at heq
  have hrest : line ++ after = lead ++ (solid ++ rest) := List.append_cancel_left heq
  obtain ⟨others, rfl⟩ : lead <+: line :=
    prefix_of_byteLength_le ⟨_, hrest.symm⟩ ⟨_, rfl⟩ (by omega)
  have hothers : others ≠ [] := by
    rintro rfl
    rw [List.append_nil] at hlt
    omega
  rw [List.append_assoc] at hrest
  obtain ⟨behind, rfl⟩ : solid <+: others := by
    refine hsolid.prefix_of_append_eq (List.append_cancel_left hrest).symm fun hafter => ?_
    rw [← List.getLast?_append_of_ne_nil lead hothers]
    exact h.stops hafter
  have hbreak := h.lineBreak_notMem
  rw [List.dropLast_append_of_ne_nil hothers, List.mem_append, not_or] at hbreak
  refine ⟨lead, behind, rfl, rfl, hbreak.1, fun hmem => ?_⟩
  have hbehind : behind ≠ [] := by
    rintro rfl
    cases hmem
  rw [List.dropLast_append_of_ne_nil hbehind, List.mem_append, not_or] at hbreak
  exact hbreak.2.2 hmem

end Text

/-- The line breaks in the front of a source are those in its first bytes. -/
theorem lineBreaksBefore_byteLength {source : String} {front rest : List Char}
    (hsource : source.toList = front ++ rest) :
    lineBreaksBefore source (byteLength front) = front.count '\n' := by
  rw [lineBreaksBefore, ← bytes_toList, hsource, bytes_append, ← length_bytes, List.take_left,
    count_bytes]

namespace Place

/-- The place of a token is on the line that starts behind the last line break in front of it, and
goes on behind it. -/
theorem ofOffset_of_token {source : String} {offset : UInt32} {front token rest : List Char}
    (hsolid : IsSolid token) (hsource : source.toList = front ++ (token ++ rest))
    (hoffset : byteLength front = offset.toNat) :
    '\n' ∉ lastLine front ∧ ∃ behind, '\n' ∉ behind.dropLast ∧ ofOffset source offset =
      ⟨front.count '\n' + 1, lastLine front ++ (token ++ behind), byteLength (lastLine front)⟩ := by
  have hlt : offset.toNat < source.utf8ByteSize := by
    have hpos := byteLength_pos hsolid.ne_nil
    rw [← byteLength_toList, hsource, byteLength_append, byteLength_append]
    omega
  obtain ⟨hnumber, hcolumn, before, after, hwhole, hbetween, hadd⟩ := isAt_ofOffset hlt
  generalize ofOffset source offset = place at hnumber hcolumn hwhole hbetween hadd
  obtain ⟨number, text, column⟩ := place
  dsimp only at hnumber hcolumn hwhole hbetween hadd
  obtain ⟨lead, behind, rfl, rfl, hlead, hbehind⟩ :=
    hbetween.exists_of_solid hsolid (hwhole.symm.trans hsource) (by omega) (by omega)
  rw [lastLine_append hbetween.starts hlead]
  refine ⟨hlead, behind, hbehind, ?_⟩
  rw [byteLength_append] at hoffset
  have hcolumn : column = byteLength lead := by omega
  rw [hnumber, hcolumn, ← hadd, hcolumn, ← byteLength_append, lineBreaksBefore_byteLength hsource]

end Place

/-! ## Rows -/

theorem Text.toList_padLeft (fill : Char) (width : Nat) (text : String) :
    (padLeft fill width text).toList =
      List.replicate (width - text.length) fill ++ text.toList := by
  rw [padLeft, String.toList_append, String.toList_ofList]

namespace Diagnostic

/-- What stands in front of the text of a line: its number and the edge of the margin. -/
def edge (number : Nat) : List Char :=
  (decimalNat number).toList ++ [' ', '|', ' ']

/-- The margin of a row without a number, up to its edge. -/
def blankMargin (number : Nat) : List Char :=
  List.replicate ((decimalNat number).length + 1) ' ' ++ ['|']

/-- The row with a caret behind so many dashes. -/
def dashedRow (number dashes : Nat) : List Char :=
  blankMargin number ++ [' '] ++ (List.replicate dashes '-' ++ ['^'])

theorem length_edge (number : Nat) :
    (edge number).length = (blankMargin number ++ [' ']).length := by
  simp [edge, blankMargin, String.length_toList]

theorem lineBreak_notMem_blankMargin (number : Nat) : '\n' ∉ blankMargin number := by
  simp [blankMargin]

theorem lineBreak_notMem_dashedRow (number dashes : Nat) : '\n' ∉ dashedRow number dashes := by
  simp [dashedRow, blankMargin]

/-- There is one caret in the row, behind the dashes. -/
theorem getElem?_dashedRow_eq_caret_iff {number dashes column : Nat} (hle : column ≤ dashes) :
    (dashedRow number dashes)[(edge number).length + column]? = some '^' ↔ column = dashes := by
  rw [dashedRow, length_edge, List.getElem?_append_right (Nat.le_add_right _ _),
    Nat.add_sub_cancel_left]
  constructor
  · intro h
    by_contra hne
    have hlt : column < dashes := Nat.lt_of_le_of_ne hle hne
    rw [List.getElem?_append_left (by rwa [List.length_replicate]),
      List.getElem?_replicate_of_lt hlt] at h
    cases h
  · rintro rfl
    rw [List.getElem?_append_right (by rw [List.length_replicate]), List.length_replicate,
      Nat.sub_self]
    rfl

end Diagnostic

namespace Place

open Diagnostic

theorem toList_margin (place : Place) : place.margin.toList = blankMargin place.line := by
  rw [margin, toList_padLeft]
  rfl

theorem isBlank_of_isIndentation {c : Char} (h : isIndentation c = true) : isBlank c = true := by
  rw [isIndentation, Bool.or_eq_true, beq_iff_eq, beq_iff_eq] at h
  rcases h with rfl | rfl <;> decide

/-- Indentation is of one byte for each character. -/
theorem utf8Size_dropWhile_isIndentation {lead : List Char} :
    (∀ c ∈ lead.dropWhile isIndentation, c.utf8Size = 1) ↔ ∀ c ∈ lead, c.utf8Size = 1 := by
  induction lead with
  | nil => rfl
  | cons c rest ih =>
      by_cases hc : isIndentation c = true
      · have hsize : c.utf8Size = 1 := by
          rw [isIndentation, Bool.or_eq_true, beq_iff_eq, beq_iff_eq] at hc
          rcases hc with rfl | rfl <;> rfl
        rw [List.dropWhile_cons_of_pos hc, List.forall_mem_cons, ih]
        exact (and_iff_right hsize).symm
      · rw [List.dropWhile_cons_of_neg hc]

section

variable {number column : Nat} {lead token behind : List Char} (hsolid : IsSolid token)

include hsolid

/-- The indentation of a line ends before the token. -/
theorem indentation_append :
    (lead ++ (token ++ behind)).takeWhile isIndentation = lead.takeWhile isIndentation ∧
      (lead ++ (token ++ behind)).dropWhile isIndentation =
        lead.dropWhile isIndentation ++ (token ++ behind) := by
  obtain ⟨c, others, rfl⟩ := List.exists_cons_of_ne_nil hsolid.ne_nil
  have hc : ¬ isIndentation c = true := by
    intro hindentation
    have hblank := isBlank_of_isIndentation hindentation
    cases hblank.symm.trans (hsolid.isBlank_eq_false c List.mem_cons_self)
  induction lead with
  | nil => simp [hc]
  | cons d lead ih =>
      by_cases hd : isIndentation d = true
      · simp only [List.cons_append, List.takeWhile_cons_of_pos hd, List.dropWhile_cons_of_pos hd]
        exact ⟨congrArg (d :: ·) ih.1, ih.2⟩
      · simp [hd]

theorem toList_lineRow :
    (lineRow ⟨number, lead ++ (token ++ behind), column⟩).toList =
      edge number ++ lead.dropWhile isIndentation ++ (token ++ trimEnd behind) := by
  rw [lineRow, (indentation_append hsolid).2, hsolid.trimEnd_append]
  simp [edge]

/-- The caret is as far to the right as there are bytes between the indentation and the token. -/
theorem caretColumn_eq :
    caretColumn ⟨number, lead ++ (token ++ behind), byteLength lead⟩ =
      byteLength (lead.dropWhile isIndentation) + 1 := by
  have hlead : byteLength lead = byteLength (lead.takeWhile isIndentation) +
      byteLength (lead.dropWhile isIndentation) := by
    rw [← byteLength_append, List.takeWhile_append_dropWhile]
  rw [caretColumn, (indentation_append hsolid).1]
  dsimp only
  omega

theorem caretRow?_eq :
    caretRow? ⟨number, lead ++ (token ++ behind), byteLength lead⟩ =
      if byteLength (lead.dropWhile isIndentation) < lastCaretColumn then
        some (String.ofList (dashedRow number (byteLength (lead.dropWhile isIndentation))))
      else none := by
  have hrow : ∀ place : Place, ∀ dashes : Nat,
      place.margin ++ " " ++ padLeft '-' (dashes + 1) "^" =
        String.ofList (dashedRow place.line dashes) := by
    intro place dashes
    rw [← String.toList_inj, String.toList_ofList, String.toList_append, String.toList_append,
      toList_margin, toList_padLeft]
    rfl
  rw [caretRow?, caretColumn_eq hsolid, hrow]
  rfl

end

end Place

/-! ## What a diagnostic shows of a token -/

namespace Diagnostic

/-- The rows that the diagnostic ends in. -/
def EndsInRows (diagnostic : Diagnostic) (row lastRow : List Char) : Prop :=
  '\n' ∉ row ∧ '\n' ∉ lastRow ∧
    ∃ above, diagnostic.text.toList = above ++ '\n' :: row ++ '\n' :: lastRow ++ ['\n']

/-- The last row has a caret, in the column in which the token starts in the row above.  That row
shows the line with its number, and `shown` is what it has of the line in front of the token. -/
def CaretUnder (diagnostic : Diagnostic) (number : Nat) (shown token : List Char) : Prop :=
  ∃ behind caretRow, diagnostic.EndsInRows (edge number ++ shown ++ (token ++ behind)) caretRow ∧
    caretRow[(edge number ++ shown).length]? = some '^'

/-- What a diagnostic shows of a token on a line: the line, and a caret behind as many dashes as
there are bytes in front of the token, unless these are too many. -/
inductive Shows (diagnostic : Diagnostic) (number : Nat) (shown token : List Char) : Prop where
  | caret {behind : List Char} (hbytes : byteLength shown < Place.lastCaretColumn)
      (hwhole : diagnostic.breaksOff = false)
      (hrows : diagnostic.EndsInRows (edge number ++ shown ++ (token ++ behind))
        (dashedRow number (byteLength shown)))
  | noCaret {behind : List Char} (hbytes : Place.lastCaretColumn ≤ byteLength shown)
      (hbroken : diagnostic.breaksOff = true)
      (hrows : diagnostic.EndsInRows (blankMargin number)
        (edge number ++ shown ++ (token ++ behind)))

variable {diagnostic : Diagnostic} {number : Nat} {row lastRow row' lastRow' : List Char}
  {shown token : List Char}

theorem EndsInRows.unique (h : diagnostic.EndsInRows row lastRow)
    (h' : diagnostic.EndsInRows row' lastRow') : row = row' ∧ lastRow = lastRow' := by
  obtain ⟨hrow, hlast, above, htext⟩ := h
  obtain ⟨hrow', hlast', above', htext'⟩ := h'
  obtain ⟨habove, hlastRow⟩ :=
    eq_of_append_lineBreak hlast hlast' (List.append_cancel_right (htext.symm.trans htext'))
  exact ⟨(eq_of_append_lineBreak hrow hrow' habove).2, hlastRow⟩

/-- A diagnostic ends in the last of the rows it is made of. -/
theorem endsInRows_ofRows (above : List String) (next : String) {row lastRow : String}
    (hrow : '\n' ∉ row.toList) (hlast : '\n' ∉ lastRow.toList) (breaksOff : Bool) :
    (ofRows (above ++ [next, row, lastRow]) breaksOff).EndsInRows row.toList lastRow.toList := by
  refine ⟨hrow, hlast, (String.join (above.map (· ++ "\n"))).toList ++ next.toList, ?_⟩
  simp [ofRows, String.join_append, String.join_cons]

/-- The caret is under the token exactly if it is drawn and there are as many characters in front of
the token as bytes. -/
theorem Shows.caretUnder_iff (h : diagnostic.Shows number shown token) :
    diagnostic.CaretUnder number shown token ↔
      byteLength shown < Place.lastCaretColumn ∧ ∀ c ∈ shown, c.utf8Size = 1 := by
  rw [← byteLength_eq_length_iff]
  cases h with
  | caret hbytes hwhole hrows =>
      have hcolumn : (dashedRow number (byteLength shown))[(edge number ++ shown).length]? =
          some '^' ↔ shown.length = byteLength shown := by
        rw [List.length_append]
        exact getElem?_dashedRow_eq_caret_iff (length_le_byteLength shown)
      constructor
      · rintro ⟨_, caretRow, hrows', hcaret⟩
        rw [← (hrows.unique hrows').2, hcolumn] at hcaret
        exact ⟨hbytes, hcaret.symm⟩
      · rintro ⟨-, hlength⟩
        exact ⟨_, _, hrows, hcolumn.mpr hlength.symm⟩
  | noCaret hbytes hbroken hrows =>
      refine iff_of_false ?_ fun h => absurd h.1 (Nat.not_lt_of_le hbytes)
      -- The row above the last one has no number, so that it is too short.
      rintro ⟨behind, _, hrows', -⟩
      have hlength := congrArg List.length (hrows.unique hrows').1
      simp only [List.length_append, length_edge, List.length_singleton] at hlength
      omega

end Diagnostic

/-- A diagnostic shows the token that stands where its error is. -/
theorem Error.shows_diagnostic {error : Error} {source : String} {front token rest : List Char}
    (hpresent : error.position.isAbsent = false) (hsolid : IsSolid token)
    (hsource : source.toList = front ++ (token ++ rest))
    (hoffset : byteLength front = error.position.offset.toNat) :
    (error.diagnostic source).Shows (front.count '\n' + 1)
      ((lastLine front).dropWhile isIndentation) token := by
  obtain ⟨hlead, behind, hbehind, hplace⟩ := Place.ofOffset_of_token hsolid hsource hoffset
  have hrow := congrArg (·.lineRow.toList) hplace
  have hmargin := congrArg (·.margin) hplace
  have hcaret := congrArg Place.caretRow? hplace
  simp only [Place.toList_lineRow hsolid, Place.caretRow?_eq hsolid] at hrow hmargin hcaret
  have hnoBreak : '\n' ∉ (Place.ofOffset source error.position.offset).lineRow.toList := by
    have hshown : '\n' ∉ (lastLine front).dropWhile isIndentation :=
      fun hmem => hlead (List.dropWhile_subset _ hmem)
    simp [hrow, Diagnostic.edge, lineBreak_notMem_decimalNat, hshown, hsolid.lineBreak_notMem,
      lineBreak_notMem_trimEnd hbehind]
  rw [Error.diagnostic, if_neg (by simp [hpresent])]
  dsimp only
  rw [hcaret]
  by_cases hbytes : byteLength ((lastLine front).dropWhile isIndentation) < Place.lastCaretColumn
  · have hdashes := Diagnostic.lineBreak_notMem_dashedRow (front.count '\n' + 1)
      (byteLength ((lastLine front).dropWhile isIndentation))
    rw [← String.toList_ofList (l := Diagnostic.dashedRow _ _)] at hdashes
    have hends := Diagnostic.endsInRows_ofRows [error.headline, "-> " ++ error.position.file]
      (Place.ofOffset source error.position.offset).margin hnoBreak hdashes false
    rw [hrow, String.toList_ofList] at hends
    rw [if_pos hbytes]
    exact .caret hbytes rfl hends
  · have hblank := Diagnostic.lineBreak_notMem_blankMargin (front.count '\n' + 1)
    rw [← Place.toList_margin ⟨_, lastLine front ++ (token ++ behind), _⟩, ← hmargin] at hblank
    have hends := Diagnostic.endsInRows_ofRows [error.headline] ("-> " ++ error.position.file)
      hblank hnoBreak true
    rw [hrow, hmargin, Place.toList_margin] at hends
    rw [if_neg hbytes, hmargin]
    exact .noCaret (Nat.le_of_not_lt hbytes) rfl hends

/-! ## Errors of reading -/

/-- An error of reading that stands inside the source is about a token that stands there.  The
diagnostic ends in the line of this token, with its number, and in a row with a caret.  In front of
the caret there are as many dashes as bytes between the indentation and the token; if these are too
many, the diagnostic breaks off instead.  So the caret is under the token exactly if it is drawn and
all characters in front of the token on its line are of one byte. -/
theorem caret_under_token_iff (source file : String) (hsize : source.utf8ByteSize < UInt32.size)
    (hfile : file ≠ Position.absentFile) (error : Error)
    (herror : tokenize source file = .error error ∨ parseProgram source file = .error error ∨
      parseStatements source file = .error error)
    (hlt : error.position.offset.toNat < source.utf8ByteSize) :
    ∃ fault front rest, error.cause = .parse fault ∧ fault.token ≠ "" ∧
      source.toList = front ++ (fault.token.toList ++ rest) ∧
      byteLength front = error.position.offset.toNat ∧
      (error.diagnostic source).Shows (front.count '\n' + 1)
        ((lastLine front).dropWhile isIndentation) fault.token.toList ∧
      ((error.diagnostic source).CaretUnder (front.count '\n' + 1)
          ((lastLine front).dropWhile isIndentation) fault.token.toList ↔
        byteLength ((lastLine front).dropWhile isIndentation) < Place.lastCaretColumn ∧
          ∀ c ∈ lastLine front, c.utf8Size = 1) := by
  rw [← byteLength_toList] at hsize hlt
  have hcauses : (Tokens.ofSource source file).Causes error := by
    rcases herror with herror | herror | herror
    · exact .character (tokenize_eq_error_iff.mp herror)
    · exact Reader.result_causes Reader.Advances.program
        ((Reader.hereditary_staysWithin _).program .full _) herror
    · exact Reader.result_causes Reader.Advances.statements
        ((Reader.hereditary_staysWithin _).statements .full _) herror
  obtain ⟨fault, hcause, hname, hsolid, front, rest, hsource, hoffset⟩ :=
    exists_fault_of_causes hsize hcauses hlt
  have hpresent : error.position.isAbsent = false := by
    rw [Position.isAbsent, hname, beq_eq_false_iff_ne]
    exact hfile
  have hshows := Error.shows_diagnostic hpresent hsolid hsource hoffset
  refine ⟨fault, front, rest, hcause, ?_, hsource, hoffset, hshows, ?_⟩
  · intro hempty
    exact hsolid.ne_nil (by rw [hempty]; rfl)
  · rw [hshows.caretUnder_iff, Place.utf8Size_dropWhile_isIndentation]

/-- An assignment without its right side, on an indented line. -/
theorem caret_under_token_iff_of_missing_operand :
    "define main() \x7b\n\tx = ;\n\x7d".utf8ByteSize < UInt32.size ∧
    "main.calc" ≠ Position.absentFile ∧
    ∃ error, parseProgram "define main() \x7b\n\tx = ;\n\x7d" "main.calc" = .error error ∧
      error.position.offset.toNat < "define main() \x7b\n\tx = ;\n\x7d".utf8ByteSize ∧
      (error.diagnostic "define main() \x7b\n\tx = ;\n\x7d").CaretUnder 2
        ['x', ' ', '=', ' '] [';'] := by
  have hread : parseProgram "define main() \x7b\n\tx = ;\n\x7d" "main.calc" =
      .error ⟨.parse (.unexpected ";"), ⟨21, "main.calc"⟩⟩ := by cbv
  obtain ⟨fault, front, rest, hcause, -, hsource, hoffset, -, hcaret⟩ :=
    caret_under_token_iff "define main() \x7b\n\tx = ;\n\x7d" "main.calc" (by decide) (by decide)
      _ (.inr (.inl hread)) (by decide)
  cases hcause
  obtain rfl : front = "define main() \x7b\n\tx = ".toList :=
    Text.eq_of_byteLength_eq ⟨_, hsource.symm⟩ (by decide) hoffset
  have hlast : (lastLine "define main() \x7b\n\tx = ".toList).dropWhile isIndentation =
      ['x', ' ', '=', ' '] := by decide
  have hcount : "define main() \x7b\n\tx = ".toList.count '\n' + 1 = 2 := by decide
  rw [← Place.utf8Size_dropWhile_isIndentation, hlast, hcount] at hcaret
  exact ⟨by decide, by decide, _, hread, by decide,
    hcaret.mpr ⟨by decide, byteLength_eq_length_iff.mp rfl⟩⟩

/-- A blank of three bytes and one column in front of the token moves the caret to the right. -/
theorem caret_beside_token_of_wide_blank :
    "\u3000;".utf8ByteSize < UInt32.size ∧
    ∃ error, parseProgram "\u3000;" "shell" = .error error ∧ error.position = ⟨3, "shell"⟩ ∧
      (error.diagnostic "\u3000;").text = error.headline ++
        "\n-> shell\n  |\n1 | \u3000;\n  | ---^\n" ∧
      ¬ (error.diagnostic "\u3000;").CaretUnder 1 ['\u3000'] [';'] := by
  have hread : parseProgram "\u3000;" "shell" =
      .error ⟨.parse (.trailing ";"), ⟨3, "shell"⟩⟩ := by cbv
  refine ⟨by decide, _, hread, rfl, by decide, ?_⟩
  have hsolid : IsSolid [';'] := ⟨List.cons_ne_nil _ _, List.forall_mem_singleton.mpr rfl⟩
  have hsource : "\u3000;".toList = ['\u3000'] ++ ([';'] ++ []) := rfl
  have hshows : (Error.diagnostic ⟨.parse (.trailing ";"), ⟨3, "shell"⟩⟩ "\u3000;").Shows 1
      ['\u3000'] [';'] := Error.shows_diagnostic rfl hsolid hsource rfl
  intro hcaret
  have hsize := (hshows.caretUnder_iff.mp hcaret).2 '\u3000' (by decide)
  exact absurd hsize (by decide)

end IntScript
