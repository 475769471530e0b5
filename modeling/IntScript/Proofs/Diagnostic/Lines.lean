import Mathlib
import IntScript.Diagnostic
import IntScript.Proofs.Token.Offsets

/-!
# Places and offsets

The place of an offset is found by going through the lines of the source, one after the other.  What
it says can be told without them: the number of the line counts the line breaks among the bytes
before the offset, the text is the whole line around the offset, and where that line starts and the
column add up to the offset.

* `Text.AreLines` : pieces that are whole lines, and `Text.areLines_splitAfter` : a text is split
  into such.
* `Place.Falls` : where an offset falls among lines.  An offset past the end falls on the last line
  as well, and its column stops in front of the line break; so one statement holds of all offsets.
* `Place.exists_falls_find` : the search comes to that line, by induction on the lines.
* `Place.Falls.lex_le` : places are ordered as offsets are.
* `place_of_offset` : the main result.
-/

namespace IntScript

open Text

namespace Text

/-! ## Bytes -/

/-- The UTF-8 encoding of a text. -/
def bytes (text : List Char) : List UInt8 :=
  text.flatMap String.utf8EncodeChar

theorem bytes_toList (source : String) : bytes source.toList = source.toByteArray.data.toList := by
  rw [← String.utf8Encode_toList, List.utf8Encode, List.data_toByteArray]
  rfl

theorem bytes_append (first second : List Char) :
    bytes (first ++ second) = bytes first ++ bytes second :=
  List.flatMap_append

theorem length_bytes (text : List Char) : (bytes text).length = byteLength text := by
  induction text with
  | nil => rfl
  | cons c rest ih =>
      rw [bytes, List.flatMap_cons, List.length_append, String.length_utf8EncodeChar,
        byteLength_cons]
      exact congrArg _ ih

/-- The byte of a line break is part of no other character. -/
theorem lineBreak_notMem_utf8EncodeChar {c : Char} (h : c ≠ '\n') :
    10 ∉ String.utf8EncodeChar c := by
  have hcode : c.val.toNat ≠ 10 := fun heq => h (Char.ext (UInt32.toNat_inj.mp heq))
  have hbyte : ∀ n : Nat, (10 : UInt8) = UInt8.ofNat n → n % 256 = 10 := by
    intro n heq
    have htoNat := congrArg UInt8.toNat heq
    rw [UInt8.toNat_ofNat'] at htoNat
    exact htoNat.symm
  intro hmem
  simp only [String.utf8EncodeChar] at hmem
  split_ifs at hmem <;> simp only [List.mem_cons, List.not_mem_nil, or_false] at hmem
  · have := hbyte _ hmem
    omega
  · rcases hmem with hmem | hmem <;> have := hbyte _ hmem <;> omega
  · rcases hmem with hmem | hmem | hmem <;> have := hbyte _ hmem <;> omega
  · rcases hmem with hmem | hmem | hmem | hmem <;> have := hbyte _ hmem <;> omega

theorem count_bytes (text : List Char) : (bytes text).count 10 = text.count '\n' := by
  induction text with
  | nil => rfl
  | cons c rest ih =>
      rw [bytes, List.flatMap_cons, List.count_append, List.count_cons, ← ih, Nat.add_comm]
      congr 1
      by_cases h : c = '\n'
      · subst h
        rfl
      · rw [List.count_eq_zero_of_not_mem (lineBreak_notMem_utf8EncodeChar h),
          if_neg (by simpa using h)]

/-! ## Whole lines -/

/-- Each piece ends in the only separator it holds, but for the last one, which may hold none. -/
inductive AreLines {α : Type} (separator : α) : List (List α) → Prop where
  | nil : AreLines separator []
  | last {line : List α} (hne : line ≠ []) (hline : separator ∉ line) : AreLines separator [line]
  | cons {line : List α} {others : List (List α)} (hline : separator ∉ line)
      (hothers : AreLines separator others) : AreLines separator ((line ++ [separator]) :: others)

section

variable {α : Type} [DecidableEq α]

theorem splitAfter_cons (separator x : α) (list : List α) :
    splitAfter separator (x :: list) =
      match splitAfter separator list with
      | [] => [[x]]
      | piece :: rest => if x = separator then [x] :: piece :: rest else (x :: piece) :: rest :=
  rfl

theorem areLines_splitAfter (separator : α) (list : List α) :
    AreLines separator (splitAfter separator list) := by
  induction list with
  | nil => exact .nil
  | cons x list ih =>
      rw [splitAfter_cons]
      by_cases hx : x = separator
      · subst hx
        have hbreak : AreLines x (([] ++ [x]) :: splitAfter x list) :=
          ih.cons List.not_mem_nil
        cases hpieces : splitAfter x list with
        | nil => rwa [hpieces] at hbreak
        | cons piece rest => simpa [hpieces] using hbreak
      · have hnotMem : ∀ line, separator ∉ line → separator ∉ x :: line := by
          intro line hline
          simp [Ne.symm hx, hline]
        cases hpieces : splitAfter separator list with
        | nil => exact .last (List.cons_ne_nil _ _) (hnotMem [] List.not_mem_nil)
        | cons piece rest =>
            rw [hpieces] at ih
            simp only [if_neg hx]
            cases ih with
            | last hne hline => exact .last (List.cons_ne_nil _ _) (hnotMem _ hline)
            | cons hline hothers => exact .cons (hnotMem _ hline) hothers

theorem flatten_splitAfter (separator : α) (list : List α) :
    (splitAfter separator list).flatten = list := by
  induction list with
  | nil => rfl
  | cons x list ih =>
      rw [splitAfter_cons]
      cases hpieces : splitAfter separator list with
      | nil =>
          rw [← ih, hpieces]
          rfl
      | cons piece rest =>
          rw [← ih, hpieces]
          dsimp only
          split <;> rfl

end

/-- In the text made of the three, the middle one is a line, the whole of it and no more. -/
structure IsLineBetween (before line after : List Char) : Prop where
  ne_nil : line ≠ []
  /-- There is no line break in it but at its end. -/
  lineBreak_notMem : '\n' ∉ line.dropLast
  /-- It starts behind a line break, unless it is the first line. -/
  starts : ∀ c ∈ before.getLast?, c = '\n'
  /-- It ends in a line break, unless it is the last line. -/
  stops : after ≠ [] → line.getLast? = some '\n'

/-- The text of a line without the line break at its end. -/
def content (line : List Char) : List Char :=
  line.rdropWhile (· = '\n')

theorem content_of_notMem {line : List Char} (h : '\n' ∉ line) : content line = line := by
  refine List.rdropWhile_eq_self_iff.mpr fun hne hlast => h ?_
  rw [decide_eq_true_iff] at hlast
  exact hlast ▸ List.getLast_mem hne

theorem content_append_lineBreak {line : List Char} (h : '\n' ∉ line) :
    content (line ++ ['\n']) = line :=
  (List.rdropWhile_concat_pos _ line '\n' (decide_eq_true rfl)).trans (content_of_notMem h)

namespace AreLines

variable {lines front back others : List (List Char)} {line : List Char}

/-- A line is its content, with a line break or without. -/
theorem content_cases (h : AreLines '\n' lines) :
    ∀ line ∈ lines, '\n' ∉ content line ∧
      (line = content line ∨ line = content line ++ ['\n']) := by
  induction h with
  | nil => exact List.forall_mem_nil _
  | @last line _ hline =>
      rw [List.forall_mem_singleton, content_of_notMem hline]
      exact ⟨hline, .inl rfl⟩
  | @cons line others hline _ ih =>
      rw [List.forall_mem_cons, content_append_lineBreak hline]
      exact ⟨⟨hline, .inr rfl⟩, ih⟩

theorem byteLength_content (h : AreLines '\n' lines) : ∀ line ∈ lines,
    byteLength (content line) ≤ byteLength line ∧
      byteLength line ≤ byteLength (content line) + 1 := by
  intro line hmem
  have hbreak : byteLength ['\n'] = 1 := rfl
  obtain ⟨-, hline | hline⟩ := h.content_cases line hmem
  · have hlength : byteLength line = byteLength (content line) := congrArg byteLength hline
    omega
  · have hlength : byteLength line = byteLength (content line) + byteLength ['\n'] := by
      rw [← byteLength_append, ← hline]
    omega

/-- In front of a line there are whole ones, each with its line break. -/
theorem of_append (h : AreLines '\n' (front ++ others)) (hothers : others ≠ []) :
    (∀ c ∈ front.flatten.getLast?, c = '\n') ∧ front.flatten.count '\n' = front.length ∧
      AreLines '\n' others := by
  induction front with
  | nil => exact ⟨by simp, rfl, h⟩
  | cons first front ih =>
      rw [List.cons_append] at h
      generalize hrest : front ++ others = rest at h
      cases h with
      | last _ _ => simp [hothers] at hrest
      | @cons body _ hbody hbehind =>
          obtain ⟨hlast, hcount, hlines⟩ := ih (hrest ▸ hbehind)
          refine ⟨fun c hc => ?_, ?_, hlines⟩
          · rw [List.flatten_cons, List.getLast?_append] at hc
            cases hfront : front.flatten.getLast? with
            | none => simpa [hfront] using hc.symm
            | some d =>
                rw [hfront] at hc hlast
                exact hlast c hc
          · rw [List.flatten_cons, List.count_append, hcount, List.count_append,
              List.count_eq_zero_of_not_mem hbody, List.count_singleton_self, List.length_cons]
            omega

theorem isLineBetween (h : AreLines '\n' (front ++ line :: back)) :
    IsLineBetween front.flatten line back.flatten := by
  obtain ⟨hstarts, -, hlines⟩ := h.of_append (List.cons_ne_nil _ _)
  cases hlines with
  | last hne hline =>
      exact ⟨hne, fun hmem => hline (List.dropLast_subset _ hmem), hstarts, fun h => absurd rfl h⟩
  | cons hline _ =>
      refine ⟨by simp, ?_, hstarts, fun _ => List.getLast?_concat⟩
      rwa [List.dropLast_concat]

end AreLines

end Text

/-! ## Where an offset falls -/

namespace Place

/-- Among the lines, the offset falls on `line`, which stands between the others.  Past the end it
falls on the last line. -/
structure Falls (lines : List (List Char)) (offset : Nat) (front : List (List Char))
    (line : List Char) (back : List (List Char)) : Prop where
  lines_eq : lines = front ++ line :: back
  start_le : byteLength front.flatten ≤ offset
  lt_stop : back ≠ [] → offset < byteLength front.flatten + byteLength line

/-- The column of an offset on a line behind others.  It goes no further than to the line break. -/
def columnOn (front : List (List Char)) (line : List Char) (offset : Nat) : Nat :=
  min (offset - byteLength front.flatten) (byteLength (content line))

theorem columnOn_le (front : List (List Char)) (line : List Char) (offset : Nat) :
    columnOn front line offset ≤ byteLength (content line) :=
  Nat.min_le_right _ _

/-- The search comes to the line on which the offset falls. -/
theorem exists_falls_find {lines : List (List Char)} (hlines : AreLines '\n' lines)
    (hne : lines ≠ []) (distance start number : Nat) (last : Place) :
    ∃ front line back, Falls lines distance front line back ∧
      find (start + distance) last start number lines =
        ⟨number + front.length, line, columnOn front line distance⟩ := by
  induction lines generalizing distance start number last with
  | nil => exact absurd rfl hne
  | cons line rest ih =>
      obtain ⟨hshorter, hlonger⟩ := hlines.byteLength_content line List.mem_cons_self
      rw [find]
      by_cases hlt : distance < byteLength line
      · -- The offset is on this line.
        refine ⟨[], line, rest, ⟨rfl, Nat.zero_le _, fun _ => ?_⟩, ?_⟩
        · simpa using hlt
        · rw [if_pos ⟨Nat.le_add_right _ _, Nat.add_lt_add_left hlt _⟩]
          have hcolumn : columnOn [] line distance = start + distance - start := by
            simp only [columnOn, List.flatten_nil, byteLength_nil]
            omega
          rw [hcolumn, List.length_nil, Nat.add_zero]
      · obtain ⟨behind, rfl⟩ := Nat.exists_eq_add_of_le (Nat.le_of_not_lt hlt)
        rw [if_neg (by omega), ← Nat.add_assoc]
        cases rest with
        | nil =>
            -- It is past the end, and this line is the last.
            refine ⟨[], line, [], ⟨rfl, Nat.zero_le _, fun h => absurd rfl h⟩, ?_⟩
            have hcolumn : columnOn [] line (byteLength line + behind) =
                byteLength (content line) := by
              simp only [columnOn, List.flatten_nil, byteLength_nil]
              omega
            rw [hcolumn]
            rfl
        | cons next rest =>
            have hboth : AreLines '\n' ([line] ++ next :: rest) := hlines
            have hrest : AreLines '\n' (next :: rest) :=
              (AreLines.of_append hboth (List.cons_ne_nil _ _)).2.2
            obtain ⟨front, other, back, hfalls, hfind⟩ := ih hrest (List.cons_ne_nil _ _) behind
              (start + byteLength line) (number + 1) ⟨number, line, byteLength (content line)⟩
            have hfront : byteLength (line :: front).flatten =
                byteLength line + byteLength front.flatten := byteLength_append line front.flatten
            refine ⟨line :: front, other, back, ⟨?_, ?_, fun h => ?_⟩, hfind.trans ?_⟩
            · rw [hfalls.lines_eq, List.cons_append]
            · rw [hfront]
              exact Nat.add_le_add_left hfalls.start_le _
            · rw [hfront, Nat.add_assoc]
              exact Nat.add_lt_add_left (hfalls.lt_stop h) _
            · rw [columnOn, columnOn, hfront, Nat.add_sub_add_left, List.length_cons]
              congr 1
              omega

end Place

/-- The number of line breaks among the first bytes of a source. -/
def lineBreaksBefore (source : String) (offset : Nat) : Nat :=
  (source.toByteArray.data.toList.take offset).count 10

/-- Between the start of a line and its line break no further one is counted. -/
theorem lineBreaksBefore_add {source : String} {before line after : List Char}
    (hsource : source.toList = before ++ (line ++ after)) (hcontent : '\n' ∉ content line)
    (hline : line = content line ∨ line = content line ++ ['\n']) {distance : Nat}
    (hle : distance ≤ byteLength (content line)) :
    lineBreaksBefore source (byteLength before + distance) = before.count '\n' := by
  obtain ⟨behind, hbehind⟩ : ∃ behind, line ++ after = content line ++ behind := by
    rcases hline with hline | hline
    · exact ⟨after, by rw [← hline]⟩
    · refine ⟨['\n'] ++ after, ?_⟩
      rw [← List.append_assoc, ← hline]
  have hnone : 10 ∉ bytes (content line) := by
    rw [← List.count_eq_zero, count_bytes]
    exact List.count_eq_zero_of_not_mem hcontent
  have htake : (bytes source.toList).take (byteLength before + distance) =
      bytes before ++ (bytes (content line)).take distance := by
    rw [hsource, hbehind, bytes_append, bytes_append, ← length_bytes,
      List.take_length_add_append, List.take_append_of_le_length]
    rwa [length_bytes]
  rw [lineBreaksBefore, ← bytes_toList, htake, List.count_append, count_bytes,
    List.count_eq_zero_of_not_mem fun hmem => hnone (List.mem_of_mem_take hmem), Nat.add_zero]

namespace Place

/-- The place is that of an offset inside the source. -/
structure IsAt (source : String) (offset : Nat) (place : Place) : Prop where
  line_eq : place.line = lineBreaksBefore source offset + 1
  column_lt : place.column < byteLength place.text
  exists_between : ∃ before after, source.toList = before ++ (place.text ++ after) ∧
    IsLineBetween before place.text after ∧ byteLength before + place.column = offset

/-- The place is at the end of the last line of the source. -/
structure IsAtEnd (source : String) (place : Place) : Prop where
  exists_before : ∃ before, source.toList = before ++ place.text ∧
    IsLineBetween before place.text [] ∧
    place.line = lineBreaksBefore source (byteLength before) + 1
  column_eq : place.column = byteLength (content place.text)

section

variable {source : String} {offset : UInt32} {front back front' back' : List (List Char)}
  {line line' : List Char} {first second : Nat}

/-- The lines of a source. -/
def linesOf (source : String) : List (List Char) :=
  splitAfter '\n' source.toList

theorem flatten_linesOf (source : String) : (linesOf source).flatten = source.toList :=
  flatten_splitAfter '\n' source.toList

theorem exists_falls (hne : source ≠ "") (offset : UInt32) : ∃ front line back,
    Falls (linesOf source) offset.toNat front line back ∧
      ofOffset source offset = ⟨front.length + 1, line, columnOn front line offset.toNat⟩ := by
  have hlines : linesOf source ≠ [] := by
    intro hnil
    have hflatten := flatten_linesOf source
    rw [hnil, List.flatten_nil] at hflatten
    exact hne (String.toList_eq_nil_iff.mp hflatten.symm)
  obtain ⟨front, line, back, hfalls, hfind⟩ :=
    exists_falls_find (areLines_splitAfter '\n' source.toList) hlines offset.toNat 0 1 ⟨1, [], 0⟩
  rw [Nat.zero_add, Nat.add_comm] at hfind
  exact ⟨front, line, back, hfalls, hfind⟩

theorem Falls.areLines (h : Falls (linesOf source) first front line back) :
    AreLines '\n' (front ++ line :: back) :=
  h.lines_eq ▸ areLines_splitAfter '\n' source.toList

theorem Falls.source_eq (h : Falls (linesOf source) first front line back) :
    source.toList = front.flatten ++ (line ++ back.flatten) := by
  rw [← flatten_linesOf, h.lines_eq, List.flatten_append, List.flatten_cons]

theorem Falls.utf8ByteSize_eq (h : Falls (linesOf source) first front line back) :
    source.utf8ByteSize =
      byteLength front.flatten + (byteLength line + byteLength back.flatten) := by
  rw [← byteLength_toList, h.source_eq, byteLength_append, byteLength_append]

theorem Falls.lineBreaksBefore_eq (h : Falls (linesOf source) first front line back)
    {distance : Nat} (hle : distance ≤ byteLength (content line)) :
    lineBreaksBefore source (byteLength front.flatten + distance) = front.length := by
  obtain ⟨hcontent, hline⟩ := h.areLines.content_cases line (by simp)
  rw [lineBreaksBefore_add h.source_eq hcontent hline hle]
  exact (h.areLines.of_append (List.cons_ne_nil _ _)).2.1

/-- Places are ordered as offsets are, by lines and then by columns. -/
theorem Falls.lex_le (h : Falls (linesOf source) first front line back)
    (h' : Falls (linesOf source) second front' line' back') (hle : first ≤ second) :
    front.length < front'.length ∨ front = front' ∧ line = line' ∧
      columnOn front line first ≤ columnOn front' line' second := by
  have heq := h.lines_eq.symm.trans h'.lines_eq
  rcases Nat.lt_trichotomy front.length front'.length with hlt | hlength | hgt
  · exact .inl hlt
  · obtain ⟨rfl, hrest⟩ := List.append_inj heq hlength
    obtain ⟨rfl, -⟩ := List.cons.inj hrest
    refine .inr ⟨rfl, rfl, ?_⟩
    simp only [columnOn]
    omega
  · -- Otherwise the second line would end before the first one starts.
    rcases List.append_eq_append_iff.mp heq with ⟨between, rfl, -⟩ | ⟨between, rfl, hback⟩
    · simp at hgt
    · cases between with
      | nil => simp at hgt
      | cons next between =>
          obtain ⟨rfl, rfl⟩ := List.cons.inj hback
          have hstop := h'.lt_stop (by simp)
          have hstart := h.start_le
          rw [List.flatten_append, List.flatten_cons, byteLength_append, byteLength_append]
            at hstart
          omega

/-- Inside the source the column is the distance from the start of the line. -/
theorem Falls.columnOn_eq (h : Falls (linesOf source) first front line back)
    (hlt : first < source.utf8ByteSize) :
    byteLength front.flatten + columnOn front line first = first ∧
      columnOn front line first < byteLength line := by
  have hstop : first < byteLength front.flatten + byteLength line := by
    by_cases hback : back = []
    · subst hback
      rwa [h.utf8ByteSize_eq] at hlt
    · exact h.lt_stop hback
  have hlonger := (h.areLines.byteLength_content line (by simp)).2
  have hstart := h.start_le
  simp only [columnOn]
  omega

theorem Falls.isAt (h : Falls (linesOf source) first front line back)
    (hlt : first < source.utf8ByteSize) :
    IsAt source first ⟨front.length + 1, line, columnOn front line first⟩ where
  line_eq := by
    have hcount := h.lineBreaksBefore_eq (columnOn_le front line first)
    rw [(h.columnOn_eq hlt).1] at hcount
    rw [hcount]
  column_lt := (h.columnOn_eq hlt).2
  exists_between := ⟨_, _, h.source_eq, h.areLines.isLineBetween, (h.columnOn_eq hlt).1⟩

theorem Falls.isAtEnd (h : Falls (linesOf source) first front line back)
    (hle : source.utf8ByteSize ≤ first) :
    IsAtEnd source ⟨front.length + 1, line, columnOn front line first⟩ := by
  have hsize := h.utf8ByteSize_eq
  obtain rfl : back = [] := by
    by_contra hback
    have hstop := h.lt_stop hback
    omega
  refine ⟨⟨front.flatten, ?_, ?_, ?_⟩, ?_⟩
  · rw [h.source_eq, List.flatten_nil, List.append_nil]
  · exact h.areLines.isLineBetween
  · rw [← Nat.add_zero (byteLength front.flatten), h.lineBreaksBefore_eq (Nat.zero_le _)]
  · have hshorter := (h.areLines.byteLength_content line (by simp)).1
    rw [List.flatten_nil, byteLength_nil] at hsize
    simp only [columnOn]
    omega

/-- Inside the source, offsets with the same place are the same. -/
theorem Falls.eq_of_place_eq (h : Falls (linesOf source) first front line back)
    (h' : Falls (linesOf source) second front' line' back') (hlt : first < source.utf8ByteSize)
    (hlt' : second < source.utf8ByteSize) (hlength : front.length = front'.length)
    (hcolumn : columnOn front line first = columnOn front' line' second) : first = second := by
  obtain ⟨rfl, -⟩ := List.append_inj (h.lines_eq.symm.trans h'.lines_eq) hlength
  rw [← (h.columnOn_eq hlt).1, ← (h'.columnOn_eq hlt').1, hcolumn]

theorem isAt_ofOffset (hlt : offset.toNat < source.utf8ByteSize) :
    IsAt source offset.toNat (ofOffset source offset) := by
  have hne : source ≠ "" := by
    rintro rfl
    exact absurd hlt (Nat.not_lt_zero _)
  obtain ⟨front, line, back, hfalls, hplace⟩ := exists_falls hne offset
  rw [hplace]
  exact hfalls.isAt hlt

end

end Place

/-- The place of an offset inside the source is on the line whose number is one more than there are
line breaks before the offset, and which is shown whole; its column is the distance in bytes from
the start of that line.  The place of any other offset is at the end of the last line, in front of
its line break, or in an empty line 1 if there is no line.  So places are ordered as offsets are, by
lines and then by columns, and inside the source no two offsets have the same place. -/
theorem place_of_offset (source : String) :
    (∀ offset : UInt32, offset.toNat < source.utf8ByteSize →
      (Place.ofOffset source offset).IsAt source offset.toNat) ∧
    (∀ offset : UInt32, source.utf8ByteSize ≤ offset.toNat →
      (source = "" ∧ Place.ofOffset source offset = ⟨1, [], 0⟩) ∨
        (Place.ofOffset source offset).IsAtEnd source) ∧
    (∀ first second : UInt32, first ≤ second →
      (Place.ofOffset source first).line < (Place.ofOffset source second).line ∨
        (Place.ofOffset source first).line = (Place.ofOffset source second).line ∧
          (Place.ofOffset source first).column ≤ (Place.ofOffset source second).column) ∧
    ∀ first second : UInt32, first.toNat < source.utf8ByteSize →
      second.toNat < source.utf8ByteSize →
      (Place.ofOffset source first).line = (Place.ofOffset source second).line →
      (Place.ofOffset source first).column = (Place.ofOffset source second).column →
      first = second := by
  by_cases hne : source = ""
  · subst hne
    have hplace : ∀ offset, Place.ofOffset "" offset = ⟨1, [], 0⟩ := fun _ => rfl
    refine ⟨fun offset hlt => absurd hlt (Nat.not_lt_zero _), fun offset _ => .inl ⟨rfl, rfl⟩,
      fun first second _ => ?_, fun first _ hlt => absurd hlt (Nat.not_lt_zero _)⟩
    rw [hplace, hplace]
    exact .inr ⟨rfl, Nat.le_refl _⟩
  refine ⟨fun offset => Place.isAt_ofOffset, fun offset hle => .inr ?_,
    fun first second hle => ?_, fun first second hlt hlt' => ?_⟩
  · obtain ⟨front, line, back, hfalls, hplace⟩ := Place.exists_falls hne offset
    rw [hplace]
    exact hfalls.isAtEnd hle
  all_goals
    obtain ⟨front, line, back, hfalls, hplace⟩ := Place.exists_falls hne first
    obtain ⟨front', line', back', hfalls', hplace'⟩ := Place.exists_falls hne second
    rw [hplace, hplace']
  · rcases hfalls.lex_le hfalls' (UInt32.le_iff_toNat_le.mp hle) with hlt | ⟨rfl, rfl, hcolumn⟩
    · exact .inl (Nat.succ_lt_succ hlt)
    · exact .inr ⟨rfl, hcolumn⟩
  · intro hline hcolumn
    exact UInt32.toNat_inj.mp
      (hfalls.eq_of_place_eq hfalls' hlt hlt' (Nat.succ.inj hline) hcolumn)

/-- An offset inside a character, and one past the line break that the source ends in. -/
example : (Place.ofOffset "é\r\n\n\tx\n" 1, Place.ofOffset "é\r\n\n\tx\n" 9) =
    (⟨1, ['é', '\r', '\n'], 1⟩, ⟨3, ['\t', 'x', '\n'], 2⟩) := by
  rfl

end IntScript
