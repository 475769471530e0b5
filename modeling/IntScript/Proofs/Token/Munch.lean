import IntScript.Proofs.Token.Offsets

/-!
# Longest trivia and longest lexemes

What the two moves of a cursor take off the front of a text, said without the way they go about it.
Trivia is a run of blanks and of comments; a lexeme is a word, a run of digits or one of the fixed
spellings.  Both moves take the longest one there is (`IsLongest`).

* `Cursor.skipTrivia_eq_iff` : a cursor skips the longest trivia.  The loop is in a comment or not,
  so that the induction is over what may follow in either case (`IsTrivia.After`).
* `Lexeme.ofText?_eq_some_iff` : a lexeme is cut off exactly where it is the longest one.  The first
  character tells a word from a run of digits and both from the fixed spellings, among which a
  spelling is listed before those that it extends (`fixedSpellings_pairwise`).
* `Lexeme.ofText?_eq_none_iff` : nothing is cut off exactly where no lexeme starts.
-/

namespace IntScript

open Text

/-! ## Longest pieces -/

/-- Of the pieces of some class at the front of a text, the longest. -/
structure IsLongest (P : List Char → Prop) (piece text : List Char) : Prop where
  at_front : piece <+: text
  belongs : P piece
  longest : ∀ other, P other → other <+: text → other.length ≤ piece.length

namespace IsLongest

variable {P Q : List Char → Prop} {piece other text : List Char} {c : Char}

theorem unique (h : IsLongest P piece text) (h' : IsLongest P other text) : piece = other := by
  have hle : piece.length ≤ other.length := h'.longest piece h.belongs h.at_front
  have hge : other.length ≤ piece.length := h.longest other h'.belongs h'.at_front
  have hprefix : piece <+: other := List.prefix_of_prefix_length_le h.at_front h'.at_front hle
  exact hprefix.eq_of_length (Nat.le_antisymm hle hge)

/-- The characters that satisfy `p` are the longest piece of a class whose pieces have no others. -/
theorem takeWhile {p : Char → Bool} (hall : ∀ piece, P piece → piece <+: text →
    ∀ c ∈ piece, p c = true) (htake : P (text.takeWhile p)) :
    IsLongest P (text.takeWhile p) text := by
  refine ⟨List.takeWhile_prefix p, htake, fun other hother hfront => ?_⟩
  have hchars : ∀ c ∈ other, p c = true := hall other hother hfront
  obtain ⟨behind, rfl⟩ := hfront
  rw [List.takeWhile_append_of_pos hchars, List.length_append]
  exact Nat.le_add_right _ _

/-- Nothing is taken where no piece starts. -/
theorem nil (hnil : P []) (hnone : ∀ other, other <+: text → ¬ P (c :: other)) :
    IsLongest P [] (c :: text) := by
  refine ⟨List.nil_prefix, hnil, fun other hother hfront => ?_⟩
  cases other with
  | nil => exact Nat.le_refl _
  | cons first others =>
      obtain ⟨rfl, hothers⟩ := List.cons_prefix_cons.mp hfront
      exact absurd hother (hnone others hothers)

/-- One more character in front. -/
theorem cons (h : IsLongest Q piece text) (hpiece : P (c :: piece))
    (hother : ∀ other, P (c :: other) → other <+: text → Q other) :
    IsLongest P (c :: piece) (c :: text) := by
  refine ⟨List.cons_prefix_cons.mpr ⟨rfl, h.at_front⟩, hpiece, fun other hP hfront => ?_⟩
  cases other with
  | nil => exact Nat.zero_le _
  | cons first others =>
      obtain ⟨rfl, hothers⟩ := List.cons_prefix_cons.mp hfront
      exact Nat.succ_le_succ (h.longest others (hother others hP hothers) hothers)

end IsLongest

/-! ## Trivia -/

/-- A run of blanks and of comments.  A comment starts with two slashes and goes on for as long as
there is no line break. -/
inductive IsTrivia : List Char → Prop where
  | nil : IsTrivia []
  | blank {c : Char} {text : List Char} (hblank : isBlank c = true) (htext : IsTrivia text) :
      IsTrivia (c :: text)
  | comment {body text : List Char} (hbody : '\n' ∉ body) (htext : IsTrivia text) :
      IsTrivia ('/' :: '/' :: (body ++ text))

namespace IsTrivia

variable {c : Char} {rest : List Char}

/-- What may follow the start of a comment, or else a place in front of any trivia. -/
def After (inComment : Bool) (piece : List Char) : Prop :=
  if inComment then ∃ body text, piece = body ++ text ∧ '\n' ∉ body ∧ IsTrivia text
  else IsTrivia piece

theorem After.nil (inComment : Bool) : After inComment [] := by
  cases inComment with
  | false => exact IsTrivia.nil
  | true => exact ⟨[], [], rfl, List.not_mem_nil, .nil⟩

theorem not_isBlank_slash : ¬ isBlank '/' = true := by
  decide

theorem blank_iff (hblank : isBlank c = true) : IsTrivia (c :: rest) ↔ IsTrivia rest := by
  refine ⟨fun h => ?_, .blank hblank⟩
  cases h with
  | blank _ htext => exact htext
  | comment _ _ => exact absurd hblank not_isBlank_slash

theorem not_cons (hblank : ¬ isBlank c = true) (hslash : c ≠ '/') : ¬ IsTrivia (c :: rest) := by
  intro h
  cases h with
  | blank hblank' _ => exact hblank hblank'
  | comment _ _ => exact hslash rfl

theorem slash_iff : IsTrivia ('/' :: rest) ↔ ∃ piece, rest = '/' :: piece ∧ After true piece := by
  constructor
  · intro h
    cases h with
    | blank hblank _ => exact absurd hblank not_isBlank_slash
    | @comment body text hbody htext => exact ⟨_, rfl, body, text, rfl, hbody, htext⟩
  · rintro ⟨_, rfl, body, text, rfl, hbody, htext⟩
    exact .comment hbody htext

/-- A line break ends a comment. -/
theorem after_lineBreak_iff : After true ('\n' :: rest) ↔ IsTrivia rest := by
  have hblank : isBlank '\n' = true := by decide
  constructor
  · rintro ⟨body, text, heq, hbody, htext⟩
    cases body with
    | nil =>
        rw [List.nil_append] at heq
        rwa [← blank_iff hblank, heq]
    | cons first body =>
        rw [List.cons_append, List.cons.injEq] at heq
        exact absurd (heq.1 ▸ List.mem_cons_self) hbody
  · intro h
    exact ⟨[], _, rfl, List.not_mem_nil, .blank hblank h⟩

/-- Within a line a comment goes on: trivia that might follow it there is part of it as well. -/
theorem after_cons_iff (hbreak : c ≠ '\n') : After true (c :: rest) ↔ After true rest := by
  constructor
  · rintro ⟨body, text, heq, hbody, htext⟩
    cases body with
    | cons first body =>
        rw [List.cons_append, List.cons.injEq] at heq
        exact ⟨body, text, heq.2, fun hmem => hbody (List.mem_cons_of_mem _ hmem), htext⟩
    | nil =>
        rw [List.nil_append] at heq
        subst heq
        cases htext with
        | blank _ htext => exact ⟨[], rest, rfl, List.not_mem_nil, htext⟩
        | @comment body text hbody htext =>
            refine ⟨'/' :: body, text, rfl, fun hmem => ?_, htext⟩
            exact (List.mem_cons.mp hmem).elim (by decide) hbody
  · rintro ⟨body, text, rfl, hbody, htext⟩
    refine ⟨c :: body, text, rfl, fun hmem => ?_, htext⟩
    exact (List.mem_cons.mp hmem).elim (fun heq => hbreak heq.symm) hbody

theorem after_true_cons_iff : After true (c :: rest) ↔ After (c != '\n') rest := by
  by_cases hbreak : c = '\n'
  · subst hbreak
    exact after_lineBreak_iff
  · rw [bne_iff_ne.mpr hbreak]
    exact after_cons_iff hbreak

/-- A comment is the longest trivia where it starts, together with all that follows it. -/
theorem longest_of_slashes {piece : List Char} (h : IsLongest (After true) piece ('/' :: rest)) :
    IsLongest IsTrivia ('/' :: piece) ('/' :: '/' :: rest) := by
  have hslash : ('/' : Char) ≠ '\n' := by decide
  have hsecond : After true ['/'] := (after_cons_iff hslash).mpr (.nil true)
  have hfront : ['/'] <+: '/' :: rest := List.cons_prefix_cons.mpr ⟨rfl, List.nil_prefix⟩
  have hpos : 1 ≤ piece.length := h.longest ['/'] hsecond hfront
  obtain ⟨first, others, rfl⟩ := List.exists_cons_of_length_pos hpos
  obtain ⟨rfl, -⟩ := List.cons_prefix_cons.mp h.at_front
  refine h.cons ?_ fun other hother _ => ?_
  · exact slash_iff.mpr ⟨others, rfl, (after_cons_iff hslash).mp h.belongs⟩
  · obtain ⟨behind, rfl, hbehind⟩ := slash_iff.mp hother
    exact (after_cons_iff hslash).mpr hbehind

/-- Neither a blank nor two slashes start no trivia. -/
theorem not_of_front (hblank : ¬ isBlank c = true) (hslashes : ¬ ['/', '/'] <+: c :: rest) :
    ∀ other, other <+: rest → ¬ IsTrivia (c :: other) := by
  intro other hfront htrivia
  by_cases hslash : c = '/'
  · subst hslash
    obtain ⟨behind, rfl, -⟩ := slash_iff.mp htrivia
    have hsecond : ['/'] <+: rest := List.IsPrefix.trans ⟨behind, rfl⟩ hfront
    exact hslashes (List.cons_prefix_cons.mpr ⟨rfl, hsecond⟩)
  · exact not_cons hblank hslash htrivia

end IsTrivia

namespace Cursor

/-- Between comments or in one, a cursor skips the longest trivia. -/
theorem skipTriviaFrom_longest (inComment : Bool) (offset : Nat) (text : List Char) :
    ∃ piece rest, text = piece ++ rest ∧ IsLongest (IsTrivia.After inComment) piece text ∧
      skipTriviaFrom inComment offset text = ⟨offset + byteLength piece, rest⟩ := by
  induction text generalizing inComment offset with
  | nil =>
      refine ⟨[], [], rfl, ⟨List.prefix_rfl, .nil inComment, fun other _ hfront => ?_⟩, rfl⟩
      exact hfront.length_le
  | cons c text ih =>
      have hforward : ∀ piece, offset + c.utf8Size + byteLength piece =
          offset + byteLength (c :: piece) := by
        intro piece
        rw [byteLength_cons, Nat.add_assoc]
      unfold skipTriviaFrom
      split
      next hcomment =>
        subst hcomment
        obtain ⟨piece, rest, rfl, hlongest, hskip⟩ := ih (c != '\n') (offset + c.utf8Size)
        refine ⟨c :: piece, rest, rfl, hlongest.cons ?_ ?_, by rw [hskip, hforward]⟩
        · exact IsTrivia.after_true_cons_iff.mpr hlongest.belongs
        · exact fun other hother _ => IsTrivia.after_true_cons_iff.mp hother
      next hcomment =>
        rw [Bool.not_eq_true] at hcomment
        subst hcomment
        split
        next hblank =>
          obtain ⟨piece, rest, rfl, hlongest, hskip⟩ := ih false (offset + c.utf8Size)
          refine ⟨c :: piece, rest, rfl, hlongest.cons ?_ ?_, by rw [hskip, hforward]⟩
          · exact (IsTrivia.blank_iff hblank).mpr hlongest.belongs
          · exact fun other hother _ => (IsTrivia.blank_iff hblank).mp hother
        next hblank =>
          split
          next hslashes =>
            rw [Bool.and_eq_true, beq_iff_eq, beq_iff_eq] at hslashes
            obtain ⟨rfl, hsecond⟩ := hslashes
            obtain ⟨text, rfl⟩ := List.head?_eq_some_iff.mp hsecond
            obtain ⟨piece, rest, heq, hlongest, hskip⟩ := ih true (offset + '/'.utf8Size)
            refine ⟨'/' :: piece, rest, congrArg _ heq, ?_, by rw [hskip, hforward]⟩
            exact IsTrivia.longest_of_slashes hlongest
          next hslashes =>
            refine ⟨[], c :: text, rfl, ?_, rfl⟩
            refine IsLongest.nil IsTrivia.nil (IsTrivia.not_of_front hblank fun hprefix => ?_)
            obtain ⟨rfl, hsecond⟩ := List.cons_prefix_cons.mp hprefix
            obtain ⟨behind, rfl⟩ := hsecond
            exact hslashes rfl

/-- A cursor skips the longest trivia. -/
theorem skipTrivia_eq_iff {offset : Nat} {piece rest : List Char} :
    skipTrivia ⟨offset, piece ++ rest⟩ = ⟨offset + byteLength piece, rest⟩ ↔
      IsLongest IsTrivia piece (piece ++ rest) := by
  obtain ⟨passed, behind, heq, hlongest, hskip⟩ :=
    skipTriviaFrom_longest false offset (piece ++ rest)
  have hskipped : skipTrivia ⟨offset, piece ++ rest⟩ = ⟨offset + byteLength passed, behind⟩ := hskip
  rw [hskipped]
  constructor
  · intro h
    have hrest : behind = rest := congrArg Cursor.rest h
    rw [hrest] at heq
    have hpiece : piece = passed := List.append_cancel_right heq
    rw [hpiece] at hlongest ⊢
    exact hlongest
  · intro h
    have hpiece : piece = passed := h.unique hlongest
    rw [hpiece] at heq ⊢
    rw [List.append_cancel_left heq]

end Cursor

/-! ## Lexemes -/

/-- The texts of the tokens of one kind. -/
inductive IsLexeme : TokenKind → List Char → Prop where
  | keyword (word : Keyword) : IsLexeme (.keyword word) word.word.toList
  | name {name : String} (hname : IsName name) : IsLexeme .identifier name.toList
  | numeral {digits : List Char} (hne : digits ≠ []) (hdigits : ∀ c ∈ digits, c.isDigit = true) :
      IsLexeme .number digits
  | fixed {kind : TokenKind} {spelling : List Char} (hmem : (spelling, kind) ∈ fixedSpellings) :
      IsLexeme kind spelling

/-- The texts of all tokens. -/
def IsAnyLexeme (text : List Char) : Prop :=
  ∃ kind, IsLexeme kind text

namespace IsLexeme

variable {kind : TokenKind} {c : Char} {text others : List Char}

/-- No fixed spelling starts as a word or a numeral does. -/
theorem fixedSpellings_first : ∀ spelling ∈ fixedSpellings, ∀ c ∈ spelling.1.head?,
    isWordChar c = false := by
  have hall :
      fixedSpellings.all (fun spelling => spelling.1.head?.all (!isWordChar ·)) = true := rfl
  simpa only [List.all_eq_true, Option.all_eq_true, Option.mem_def, Bool.not_eq_true'] using hall

/-- What starts as a word does is a word, and of the kind that the whole of it has. -/
theorem of_isWordStart (h : IsLexeme kind (c :: others)) (hstart : isWordStart c = true) :
    kind = wordKind (String.ofList (c :: others)) ∧ ∀ d ∈ c :: others, isWordChar d = true := by
  generalize htext : c :: others = text at h
  cases h with
  | keyword word =>
      refine ⟨?_, word.isWordChar_word⟩
      rw [String.ofList_toList, Keyword.wordKind_word]
  | name hname =>
      refine ⟨?_, hname.isWordChar⟩
      rw [String.ofList_toList, wordKind, hname.not_reserved]
  | numeral _ hdigits =>
      have hdigit : c.isDigit = true := hdigits c (htext ▸ List.mem_cons_self)
      exact absurd hstart (Lexeme.isWordStart_ne_true_of_isDigit hdigit)
  | fixed hmem =>
      subst htext
      have hfirst : isWordChar c = false := fixedSpellings_first _ hmem c rfl
      rw [Lexeme.isWordChar_of_isWordStart hstart] at hfirst
      cases hfirst

/-- What starts with a digit is a numeral. -/
theorem of_isDigit (h : IsLexeme kind (c :: others)) (hdigit : c.isDigit = true) :
    kind = .number ∧ ∀ d ∈ c :: others, d.isDigit = true := by
  have hword : ∀ first rest, c :: others = first :: rest → ¬ isWordStart first = true := by
    rintro _ _ ⟨⟩
    exact Lexeme.isWordStart_ne_true_of_isDigit hdigit
  generalize htext : c :: others = text at h hword
  cases h with
  | keyword word =>
      obtain ⟨first, rest, heq, hstart⟩ := word.isWordStart_word
      exact absurd hstart (hword first rest heq)
  | name hname =>
      obtain ⟨first, rest, heq, hstart⟩ := hname.isWordStart
      exact absurd hstart (hword first rest heq)
  | numeral _ hdigits => exact ⟨rfl, hdigits⟩
  | fixed hmem =>
      subst htext
      have hfirst : isWordChar c = false := fixedSpellings_first _ hmem c rfl
      rw [Lexeme.isWordChar_of_isDigit hdigit] at hfirst
      cases hfirst

/-- What starts neither as a word nor with a digit is a fixed spelling. -/
theorem mem_fixedSpellings (h : IsLexeme kind (c :: others)) (hstart : ¬ isWordStart c = true)
    (hdigit : ¬ c.isDigit = true) : (c :: others, kind) ∈ fixedSpellings := by
  have hword : ∀ first rest, c :: others = first :: rest → ¬ isWordStart first = true := by
    rintro _ _ ⟨⟩
    exact hstart
  generalize htext : c :: others = text at h hword ⊢
  cases h with
  | keyword word =>
      obtain ⟨first, rest, heq, hstart⟩ := word.isWordStart_word
      exact absurd hstart (hword first rest heq)
  | name hname =>
      obtain ⟨first, rest, heq, hstart⟩ := hname.isWordStart
      exact absurd hstart (hword first rest heq)
  | numeral _ hdigits => exact absurd (hdigits c (htext ▸ List.mem_cons_self)) hdigit
  | fixed hmem => exact hmem

theorem ne_nil (h : IsLexeme kind text) : text ≠ [] := by
  cases h with
  | keyword word =>
      obtain ⟨first, rest, heq, -⟩ := word.isWordStart_word
      rw [heq]
      exact List.cons_ne_nil _ _
  | name hname =>
      obtain ⟨first, rest, heq, -⟩ := hname.isWordStart
      rw [heq]
      exact List.cons_ne_nil _ _
  | numeral hne _ => exact hne
  | fixed hmem => exact Lexeme.fixedSpellings_ne_nil _ hmem

/-- No text has two kinds. -/
theorem kind_unique {other : TokenKind} (h : IsLexeme kind text) (h' : IsLexeme other text) :
    kind = other := by
  obtain ⟨c, others, rfl⟩ := List.exists_cons_of_ne_nil h.ne_nil
  by_cases hstart : isWordStart c = true
  · rw [(h.of_isWordStart hstart).1, (h'.of_isWordStart hstart).1]
  by_cases hdigit : c.isDigit = true
  · rw [(h.of_isDigit hdigit).1, (h'.of_isDigit hdigit).1]
  have hkinds : ∀ first ∈ fixedSpellings, ∀ second ∈ fixedSpellings,
      first.1 = second.1 → first.2 = second.2 := by
    decide
  exact hkinds _ (h.mem_fixedSpellings hstart hdigit) _ (h'.mem_fixedSpellings hstart hdigit) rfl

/-- A word is a lexeme of the kind that the whole of it has. -/
theorem word (hstart : isWordStart c = true) (hchars : ∀ d ∈ c :: others, isWordChar d = true) :
    IsLexeme (wordKind (String.ofList (c :: others))) (c :: others) := by
  unfold wordKind
  split
  next keyword hreserved =>
    rw [← String.toList_ofList (l := c :: others), ← Keyword.word_of_ofWord? hreserved]
    exact .keyword keyword
  next hreserved =>
    have hname : IsName (String.ofList (c :: others)) := by
      refine ⟨⟨c, others, String.toList_ofList, hstart⟩, ?_, hreserved⟩
      rwa [String.toList_ofList]
    rw [← String.toList_ofList (l := c :: others)]
    exact .name hname

end IsLexeme

theorem IsAnyLexeme.exists_cons {c : Char} {piece rest : List Char} (h : IsAnyLexeme piece)
    (hfront : piece <+: c :: rest) : ∃ kind others, piece = c :: others ∧
      IsLexeme kind (c :: others) := by
  obtain ⟨kind, h⟩ := h
  obtain ⟨first, others, rfl⟩ := List.exists_cons_of_ne_nil h.ne_nil
  obtain ⟨rfl, -⟩ := List.cons_prefix_cons.mp hfront
  exact ⟨kind, others, rfl, h⟩

namespace Lexeme

variable {source : List Char} {lexeme : Lexeme}

/-- A spelling is listed before those that it extends. -/
theorem fixedSpellings_pairwise :
    fixedSpellings.Pairwise fun first second => ¬ first.1 <+: second.1 := by
  decide

/-- Of the fixed spellings, the first one that is found is the longest. -/
theorem longest_of_find? {spelling : List Char × TokenKind}
    (h : fixedSpellings.find? (fun spelling => spelling.1.isPrefixOf source) = some spelling) :
    ∀ other ∈ fixedSpellings, other.1 <+: source → other.1.length ≤ spelling.1.length := by
  obtain ⟨hfront, before, behind, hsplit, hbefore⟩ := List.find?_eq_some_iff_append.mp h
  have hfront : spelling.1 <+: source := List.isPrefixOf_iff_prefix.mp hfront
  have hpairwise := fixedSpellings_pairwise
  intro other hmem hother
  rw [hsplit] at hmem hpairwise
  rcases List.mem_append.mp hmem with hmem | hmem
  · have hnot := hbefore other hmem
    rw [List.isPrefixOf_iff_prefix.mpr hother] at hnot
    cases hnot
  · rcases List.mem_cons.mp hmem with rfl | hmem
    · exact Nat.le_refl _
    · have hnot : ¬ spelling.1 <+: other.1 :=
        List.rel_of_pairwise_cons (List.pairwise_append.mp hpairwise).2.1 hmem
      refine Nat.le_of_not_lt fun hlt => hnot ?_
      exact List.prefix_of_prefix_length_le hfront hother (Nat.le_of_lt hlt)

/-- What is cut off is the longest lexeme. -/
theorem longest_of_ofText? (h : ofText? source = some lexeme) :
    IsLexeme lexeme.kind lexeme.text ∧ IsLongest IsAnyLexeme lexeme.text source := by
  unfold ofText? at h
  split at h
  next => cases h
  next c rest =>
    split at h
    next hstart =>
      obtain rfl := Option.some.inj h
      have htake : (c :: rest).takeWhile isWordChar = c :: rest.takeWhile isWordChar :=
        List.takeWhile_cons_of_pos (isWordChar_of_isWordStart hstart)
      have hlexeme : IsLexeme (wordKind (String.ofList ((c :: rest).takeWhile isWordChar)))
          ((c :: rest).takeWhile isWordChar) := by
        have hchars : ∀ d ∈ (c :: rest).takeWhile isWordChar, isWordChar d = true :=
          List.all_eq_true.mp List.all_takeWhile
        rw [htake] at hchars ⊢
        exact .word hstart hchars
      refine ⟨hlexeme, IsLongest.takeWhile (fun piece hpiece hfront => ?_) ⟨_, hlexeme⟩⟩
      obtain ⟨kind, others, rfl, hword⟩ := hpiece.exists_cons hfront
      exact (hword.of_isWordStart hstart).2
    next hstart =>
      split at h
      next hdigit =>
        obtain rfl := Option.some.inj h
        have hlexeme : IsLexeme .number ((c :: rest).takeWhile Char.isDigit) := by
          refine .numeral ?_ (List.all_eq_true.mp List.all_takeWhile)
          rw [List.takeWhile_cons_of_pos hdigit]
          exact List.cons_ne_nil _ _
        refine ⟨hlexeme, IsLongest.takeWhile (fun piece hpiece hfront => ?_) ⟨_, hlexeme⟩⟩
        obtain ⟨kind, others, rfl, hword⟩ := hpiece.exists_cons hfront
        exact (hword.of_isDigit hdigit).2
      next hdigit =>
        obtain ⟨spelling, hfind, rfl⟩ := Option.map_eq_some_iff.mp h
        have hfront := List.find?_some hfind
        have hlexeme : IsLexeme spelling.2 spelling.1 := .fixed (List.mem_of_find?_eq_some hfind)
        refine ⟨hlexeme, List.isPrefixOf_iff_prefix.mp hfront, ⟨_, hlexeme⟩, ?_⟩
        intro piece hpiece hfront
        obtain ⟨kind, others, rfl, hword⟩ := hpiece.exists_cons hfront
        exact longest_of_find? hfind _ (hword.mem_fixedSpellings hstart hdigit) hfront

/-- Nothing is cut off exactly where no lexeme starts. -/
theorem ofText?_eq_none_iff :
    ofText? source = none ↔ ∀ kind piece, IsLexeme kind piece → ¬ piece <+: source := by
  constructor
  · intro h kind piece hpiece hfront
    obtain ⟨first, others, rfl⟩ := List.exists_cons_of_ne_nil hpiece.ne_nil
    obtain ⟨behind, rfl⟩ := hfront
    rw [List.cons_append, ofText?] at h
    split at h
    next => cases h
    next hstart =>
      split at h
      next => cases h
      next hdigit =>
        rw [Option.map_eq_none_iff, List.find?_eq_none] at h
        apply h _ (hpiece.mem_fixedSpellings hstart hdigit)
        exact List.isPrefixOf_iff_prefix.mpr (List.prefix_append _ _)
  · intro h
    cases hlexeme : ofText? source with
    | none => rfl
    | some lexeme =>
        obtain ⟨hkind, hlongest⟩ := longest_of_ofText? hlexeme
        exact absurd hlongest.at_front (h _ _ hkind)

/-- A lexeme is cut off exactly where it is the longest one. -/
theorem ofText?_eq_some_iff {kind : TokenKind} {text rest : List Char} :
    ofText? (text ++ rest) = some ⟨kind, text, rest⟩ ↔
      IsLexeme kind text ∧ IsLongest IsAnyLexeme text (text ++ rest) := by
  refine ⟨longest_of_ofText?, fun ⟨hkind, hlongest⟩ => ?_⟩
  cases hlexeme : ofText? (text ++ rest) with
  | none => exact absurd hlongest.at_front (ofText?_eq_none_iff.mp hlexeme kind text hkind)
  | some lexeme =>
      obtain ⟨otherKind, other, behind⟩ := lexeme
      obtain ⟨hotherKind, hother⟩ := longest_of_ofText? hlexeme
      obtain rfl : other = text := hother.unique hlongest
      obtain rfl : otherKind = kind := hotherKind.kind_unique hkind
      have hrest : behind = rest := List.append_cancel_left (text_append_rest hlexeme)
      rw [hrest]

end Lexeme

end IntScript
