import IntScript.Grammar.Definition

/-!
# Readers advance

`Advances k reader tokens` says that a reader does not run out of fuel on these tokens, never leaves
more tokens than it found, and consumes at least `k` of them when it succeeds.  Every reader of the
grammar does so, given fuel in proportion to the number of tokens: `expressionOf`, `line` and
`definition` consume at least one token each, and so a list of them ends.
-/

namespace IntScript

namespace Tokens

/-- The number of tokens that are left. -/
def count (tokens : Tokens) : Nat :=
  tokens.pending.length

theorem count_rest_le (tokens : Tokens) : tokens.rest.count ≤ tokens.count := by
  simp only [count, rest, List.length_tail]
  omega

/-- Only the end of the source stands behind the last token. -/
theorem count_rest_lt {tokens : Tokens} {token : Token} (h : tokens.current = .ok token)
    (hkind : token.kind ≠ .eof) : tokens.rest.count + 1 ≤ tokens.count := by
  rcases hpending : tokens.pending with _ | ⟨first, others⟩
  · simp only [current, hpending, Cursor.stopped] at h
    split at h
    · obtain rfl := Except.ok.inj h
      simp [Token.atEnd] at hkind
    · simp at h
  · simp [count, rest, hpending]

end Tokens

namespace Reader

variable {α β : Type}

/-- The reader has fuel enough for the tokens, and consumes at least `k` of them on success. -/
def Advances (k : Nat) (reader : Reader α) (tokens : Tokens) : Prop :=
  match reader tokens with
  | .ok _ left => left.count + k ≤ tokens.count
  | .error (.fault _) left => left.count ≤ tokens.count
  | .error .outOfFuel _ => False

namespace Advances

variable {j k : Nat} {reader : Reader α} {next : α → Reader β} {tokens : Tokens}

theorem of_le (h : Advances k reader tokens) (hle : j ≤ k) : Advances j reader tokens := by
  unfold Advances at h ⊢
  split at h
  · omega
  · exact h
  · exact h

theorem pure (value : α) : Advances 0 (Pure.pure value) tokens :=
  Nat.le_refl _

theorem failAt (token : Token) (fault : ParseFault) :
    Advances k (Reader.failAt (α := α) token fault) tokens :=
  Nat.le_refl tokens.count

/-- What is consumed adds up along a sequence of readers. -/
theorem bind (hreader : Advances j reader tokens)
    (hnext : ∀ value left, left.count + j ≤ tokens.count → Advances k (next value) left) :
    Advances (j + k) (reader >>= next) tokens := by
  unfold Advances at hreader
  simp only [Advances, Bind.bind, EStateM.bind]
  split at hreader
  next value left heq =>
    have h := hnext value left hreader
    unfold Advances at h
    rw [heq]
    dsimp only
    split at h <;> simp_all <;> omega
  next heq => rw [heq]; exact hreader
  next => exact hreader.elim

/-- The first token is known to what follows a look at it. -/
theorem current_bind {next : Token → Reader β}
    (h : ∀ token, tokens.current = .ok token → Advances k (next token) tokens) :
    Advances k (Reader.current >>= next) tokens := by
  simp only [Advances, Bind.bind, EStateM.bind, Reader.current]
  cases hcurrent : tokens.current with
  | ok token => exact h token hcurrent
  | error error => exact Nat.le_refl _

theorem currentKind_bind {next : TokenKind → Reader β}
    (h : ∀ token, tokens.current = .ok token → Advances k (next token.kind) tokens) :
    Advances k (Reader.currentKind >>= next) tokens := by
  simp only [Advances, Bind.bind, EStateM.bind, Reader.currentKind, Reader.current]
  cases hcurrent : tokens.current with
  | ok token => exact h token hcurrent
  | error error => exact Nat.le_refl _

theorem advance : Advances 0 Reader.advance tokens := by
  simp only [Advances, Reader.advance]
  cases tokens.current with
  | ok token => exact tokens.count_rest_le
  | error error => exact Nat.le_refl _

theorem advance_of_current {token : Token} (h : tokens.current = .ok token)
    (hkind : token.kind ≠ .eof) : Advances 1 Reader.advance tokens := by
  simp only [Advances, Reader.advance, h]
  exact Tokens.count_rest_lt h hkind

theorem failInstead (expectation : String) :
    Advances k (Reader.failInstead (α := α) expectation) tokens :=
  current_bind fun token _ => failAt token _

theorem expect {kind : TokenKind} (hkind : kind ≠ .eof) :
    Advances 1 (Reader.expect kind) tokens :=
  current_bind fun token hcurrent => by
    split
    · exact advance_of_current hcurrent (by simp_all)
    · exact failAt _ _

theorem expectFor {kind : TokenKind} {expectation : String} (hkind : kind ≠ .eof) :
    Advances 1 (Reader.expectFor kind expectation) tokens :=
  current_bind fun token hcurrent => by
    split
    · exact advance_of_current hcurrent (by simp_all)
    · exact failAt _ _

theorem lookahead (h : Advances 0 reader tokens) :
    Advances 0 (Reader.lookahead reader) tokens := by
  unfold Advances at h
  simp only [Advances, Reader.lookahead]
  split at h <;> simp_all

theorem startsAssignment : Advances 0 Reader.startsAssignment tokens :=
  lookahead (bind (j := 0) (k := 0) advance fun _ _ _ => by
    split
    · exact bind (j := 0) (k := 0) advance fun _ _ _ => pure _
    · exact pure _)

/-! ## Repetition -/

theorem commaSeparated {item : Reader α} :
    ∀ {fuel : Nat} {tokens : Tokens}, tokens.count < fuel →
      (∀ left, left.count ≤ tokens.count → Advances 1 item left) →
      Advances 1 (Reader.commaSeparated item fuel) tokens
  | fuel + 1, tokens, hfuel, hitem => by
    refine bind (k := 0) (hitem tokens (Nat.le_refl _)) fun first left hleft => ?_
    refine currentKind_bind fun token hcurrent => ?_
    split
    · refine of_le (bind (advance_of_current hcurrent (by simp_all)) fun _ behind hbehind => ?_)
        (Nat.zero_le (1 + (1 + 0)))
      refine bind (commaSeparated (by omega) fun rest hrest => hitem rest (by omega)) ?_
      exact fun _ _ _ => pure _
    · exact pure _

theorem listUntil {close : TokenKind} {item : Reader α} {fuel : Nat} {tokens : Tokens}
    (hfuel : tokens.count < fuel)
    (hitem : ∀ left, left.count ≤ tokens.count → Advances 1 item left) :
    Advances 0 (Reader.listUntil close item fuel) tokens :=
  currentKind_bind fun token _ => by
    split
    · exact pure _
    · exact of_le (commaSeparated hfuel hitem) (Nat.zero_le 1)

theorem untilEnd {item : Reader α} :
    ∀ {fuel : Nat} {tokens : Tokens}, tokens.count < fuel →
      (∀ left, left.count ≤ tokens.count → Advances 1 item left) →
      Advances 0 (Reader.untilEnd item fuel) tokens
  | fuel + 1, tokens, hfuel, hitem => by
    refine bind (j := 0) (k := 0) (Nat.le_refl tokens.count) fun some left hleft => ?_
    split
    · refine of_le (bind (hitem left (by omega)) fun _ behind hbehind => ?_)
        (Nat.zero_le (1 + (0 + 0)))
      refine bind (untilEnd (by omega) fun rest hrest => hitem rest (by omega)) ?_
      exact fun _ _ _ => pure _
    · exact pure _

theorem operators {layer : Precedence} {operand : Reader Expr} :
    ∀ {fuel : Nat} {left : Expr} {tokens : Tokens}, tokens.count < fuel →
      (∀ behind, behind.count ≤ tokens.count → Advances 1 operand behind) →
      Advances 0 (Reader.operators layer operand fuel left) tokens
  | fuel + 1, left, tokens, hfuel, hoperand => by
    refine currentKind_bind fun token hcurrent => ?_
    split
    next op hop =>
      split
      · refine of_le (bind (advance_of_current hcurrent (by simp [hop])) fun _ behind hbehind => ?_)
          (Nat.zero_le (1 + (1 + 0)))
        refine bind (hoperand behind (by omega)) fun _ rest hrest => ?_
        exact operators (by omega) fun more hmore => hoperand more (by omega)
      · exact pure _
    · exact pure _

theorem blockLines {line : Reader Expr} :
    ∀ {fuel : Nat} {tokens : Tokens}, tokens.count < fuel →
      (∀ left, left.count ≤ tokens.count → Advances 1 line left) →
      Advances 0 (Reader.blockLines line fuel) tokens
  | fuel + 1, tokens, hfuel, hline => by
    refine currentKind_bind fun token _ => ?_
    split
    · exact pure _
    · exact failInstead _
    · refine of_le (bind (hline tokens (Nat.le_refl _)) fun _ behind hbehind => ?_)
        (Nat.zero_le (1 + (0 + 0)))
      refine bind (blockLines (by omega) fun rest hrest => hline rest (by omega)) ?_
      exact fun _ _ _ => pure _

/-! ## Expressions -/

theorem numeral_of_current {token : Token} (h : tokens.current = .ok token)
    (hkind : token.kind ≠ .eof) : Advances 1 Reader.numeral tokens := by
  refine bind (k := 0) (advance_of_current h hkind) fun read left _ => ?_
  split
  · exact pure _
  · exact failAt _ _

theorem grouping {inner : Reader Expr} {token : Token} (h : tokens.current = .ok token)
    (hkind : token.kind ≠ .eof)
    (hinner : ∀ left, left.count + 1 ≤ tokens.count → Advances 1 inner left) :
    Advances 1 (Reader.grouping inner) tokens := by
  refine of_le (bind (advance_of_current h hkind) fun _ left hleft => ?_)
    (Nat.le_add_right 1 (1 + (1 + 0)))
  refine bind (hinner left hleft) fun _ _ _ => ?_
  exact bind (expect (by simp)) fun _ _ _ => pure _

theorem callOf {callee : String} {inner : Reader Expr} {fuel : Nat} (hfuel : tokens.count < fuel)
    (hinner : ∀ left, left.count + 1 ≤ tokens.count → Advances 1 inner left) :
    Advances 1 (Reader.callOf callee inner fuel) tokens := by
  refine of_le (bind (expect (by simp)) fun _ left hleft => ?_)
    (Nat.le_add_right 1 (0 + (1 + 0)))
  refine bind (listUntil (by omega) fun behind hbehind => hinner behind (by omega)) fun _ _ _ => ?_
  exact bind (expectFor (by simp)) fun _ _ _ => pure _

theorem labelled {inner : Reader Expr}
    (hinner : ∀ left, left.count + 1 ≤ tokens.count → Advances 1 inner left) :
    Advances 1 (Reader.labelled inner) tokens := by
  refine of_le (bind (expectFor (by simp)) fun _ left hleft => ?_)
    (Nat.le_add_right 1 (1 + (1 + 0)))
  refine bind (expect (by simp)) fun _ behind hbehind => ?_
  exact bind (hinner behind (by omega)) fun _ _ _ => pure _

theorem labelledCallOf {callee : String} {inner : Reader Expr} {fuel : Nat}
    (hfuel : tokens.count < fuel)
    (hinner : ∀ left, left.count + 1 ≤ tokens.count → Advances 1 inner left) :
    Advances 1 (Reader.labelledCallOf callee inner fuel) tokens := by
  refine of_le (bind (expect (by simp)) fun _ left hleft => ?_)
    (Nat.le_add_right 1 (0 + (1 + 0)))
  refine bind (listUntil (by omega) fun behind hbehind =>
    labelled fun rest hrest => hinner rest (by omega)) fun _ _ _ => ?_
  exact bind (expectFor (by simp)) fun _ _ _ => pure _

theorem named {inner : Reader Expr} {fuel : Nat} (hfuel : tokens.count < fuel)
    (hinner : ∀ left, left.count + 1 ≤ tokens.count → Advances 1 inner left) :
    Advances 1 (Reader.named inner fuel) tokens := by
  refine bind (k := 0) (expect (by simp)) fun _ left hleft => ?_
  refine currentKind_bind fun token _ => ?_
  split
  · exact of_le (callOf (by omega) fun behind hbehind => hinner behind (by omega)) (Nat.zero_le 1)
  · exact of_le (labelledCallOf (by omega) fun behind hbehind => hinner behind (by omega))
      (Nat.zero_le 1)
  · exact pure _

theorem primary {inner : Reader Expr} {fuel : Nat} (hfuel : tokens.count < fuel)
    (hinner : ∀ left, left.count + 1 ≤ tokens.count → Advances 1 inner left) :
    Advances 1 (Reader.primary inner fuel) tokens := by
  refine currentKind_bind fun token hcurrent => ?_
  split
  next hkind => exact grouping hcurrent (by simp [hkind]) hinner
  next hkind => exact numeral_of_current hcurrent (by simp [hkind])
  next => exact named hfuel hinner
  next => exact current_bind fun _ _ => failAt _ _

theorem expressionOf : ∀ {fuel : Nat} {layer : Precedence} {tokens : Tokens},
    5 * tokens.count + (4 - layer.rank) < fuel →
      Advances 1 (Reader.expressionOf layer fuel) tokens
  | fuel + 1, layer, tokens, hfuel => by
    unfold Reader.expressionOf
    split
    · simp only [Precedence.rank] at hfuel
      rcases Nat.eq_zero_or_pos tokens.count with hzero | hpos
      · refine currentKind_bind fun token hcurrent => ?_
        have hkind : token.kind = .eof := by
          by_cases h : token.kind = .eof
          · exact h
          · have := Tokens.count_rest_lt hcurrent h
            omega
        rw [hkind]
        exact current_bind fun _ _ => failAt _ _
      · refine primary (by omega) fun left hleft => expressionOf ?_
        simp only [Precedence.rank]
        omega
    next hlayer =>
      have hnext : 4 - layer.next.rank + 1 ≤ 4 - layer.rank := by
        cases layer <;> simp_all [Precedence.next, Precedence.rank]
      refine bind (k := 0) (expressionOf (by omega)) fun left behind hbehind => ?_
      exact operators (by omega) fun rest hrest => expressionOf (by omega)

theorem expression {fuel : Nat} (hfuel : 5 * tokens.count + 3 < fuel) :
    Advances 1 (Reader.expression fuel) tokens :=
  expressionOf hfuel

/-! ## Lines -/

theorem condition {inner : Reader Expr}
    (hinner : ∀ left, left.count ≤ tokens.count → Advances 1 inner left) :
    Advances 1 (Reader.condition inner) tokens := by
  refine of_le (bind (expect (by simp)) fun _ left hleft => ?_)
    (Nat.le_add_right 1 (1 + (1 + 0)))
  refine bind (hinner left (by omega)) fun _ _ _ => ?_
  exact bind (expect (by simp)) fun _ _ _ => pure _

theorem printlnLine {inner : Reader Expr}
    (hinner : ∀ left, left.count ≤ tokens.count → Advances 1 inner left) :
    Advances 1 (Reader.printlnLine inner) tokens := by
  refine bind (k := 1) advance fun _ left hleft => ?_
  refine of_le (bind (condition fun behind hbehind => hinner behind (by omega)) fun _ _ _ => ?_)
    (Nat.le_add_right 1 (1 + 0))
  exact bind (expect (by simp)) fun _ _ _ => pure _

theorem loopLine {inner line : Reader Expr}
    (hinner : ∀ left, left.count ≤ tokens.count → Advances 1 inner left)
    (hline : ∀ left, left.count + 1 ≤ tokens.count → Advances 1 line left) :
    Advances 1 (Reader.loopLine inner line) tokens := by
  refine bind (k := 1) advance fun _ left hleft => ?_
  refine of_le (bind (condition fun behind hbehind => hinner behind (by omega)) fun _ rest _ => ?_)
    (Nat.le_add_right 1 (1 + 0))
  exact bind (hline rest (by omega)) fun _ _ _ => pure _

theorem conditionalLine {inner line : Reader Expr}
    (hinner : ∀ left, left.count ≤ tokens.count → Advances 1 inner left)
    (hline : ∀ left, left.count + 1 ≤ tokens.count → Advances 1 line left) :
    Advances 1 (Reader.conditionalLine inner line) tokens := by
  refine bind (k := 1) advance fun _ left hleft => ?_
  refine of_le (bind (condition fun behind hbehind => hinner behind (by omega)) fun _ rest _ => ?_)
    (Nat.le_add_right 1 (1 + 0))
  refine bind (hline rest (by omega)) fun _ behind _ => ?_
  refine currentKind_bind fun token _ => ?_
  split
  · refine bind (j := 0) (k := 0) advance fun _ last _ => ?_
    exact of_le (bind (hline last (by omega)) fun _ _ _ => pure _) (Nat.zero_le (1 + 0))
  · exact pure _

theorem blockLine {line : Reader Expr} {fuel : Nat} (hfuel : tokens.count < fuel)
    (hline : ∀ left, left.count + 1 ≤ tokens.count → Advances 1 line left) :
    Advances 1 (Reader.blockLine line fuel) tokens := by
  refine of_le (bind (expect (by simp)) fun _ left hleft => ?_)
    (Nat.le_add_right 1 (0 + (1 + 0)))
  refine bind (blockLines (by omega) fun behind hbehind => hline behind (by omega)) fun _ _ _ => ?_
  exact bind (expect (by simp)) fun _ _ _ => pure _

theorem countedLine {inner line : Reader Expr}
    (hinner : ∀ left, left.count ≤ tokens.count → Advances 1 inner left)
    (hline : ∀ left, left.count + 1 ≤ tokens.count → Advances 1 line left) :
    Advances 1 (Reader.countedLine inner line) tokens := by
  refine bind (k := 1) advance fun _ left hleft => ?_
  refine of_le (bind (expect (by simp)) fun _ left₂ hleft₂ => ?_)
    (Nat.le_add_right 1 (1 + (1 + (1 + (1 + (1 + (1 + (1 + 0))))))))
  refine bind (expectFor (by simp)) fun _ left₃ hleft₃ => ?_
  refine bind (expect (by simp)) fun _ left₄ hleft₄ => ?_
  refine bind (hinner left₄ (by omega)) fun _ left₅ hleft₅ => ?_
  refine bind (expect (by simp)) fun _ left₆ hleft₆ => ?_
  refine bind (hinner left₆ (by omega)) fun _ left₇ hleft₇ => ?_
  refine bind (expect (by simp)) fun _ left₈ hleft₈ => ?_
  exact bind (hline left₈ (by omega)) fun _ _ _ => pure _

theorem assignmentLine {inner : Reader Expr}
    (hinner : ∀ left, left.count ≤ tokens.count → Advances 1 inner left) :
    Advances 1 (Reader.assignmentLine inner) tokens := by
  refine of_le (bind (expect (by simp)) fun _ left hleft => ?_)
    (Nat.le_add_right 1 (1 + (1 + (1 + 0))))
  refine bind (expect (by simp)) fun _ behind hbehind => ?_
  refine bind (hinner behind (by omega)) fun _ _ _ => ?_
  exact bind (expect (by simp)) fun _ _ _ => pure _

theorem expressionLine {inner : Reader Expr}
    (hinner : ∀ left, left.count ≤ tokens.count → Advances 1 inner left) :
    Advances 1 (Reader.expressionLine inner) tokens := by
  refine of_le (bind (hinner tokens (Nat.le_refl _)) fun _ left hleft => ?_)
    (Nat.le_add_right 1 (1 + 0))
  exact bind (expect (by simp)) fun _ _ _ => pure _

theorem line {vocabulary : Vocabulary} : ∀ {fuel : Nat} {tokens : Tokens},
    5 * tokens.count + 4 < fuel → Advances 1 (Reader.line vocabulary fuel) tokens
  | fuel + 1, tokens, hfuel => by
    have hinner : ∀ left : Tokens, left.count ≤ tokens.count →
        Advances 1 (Reader.expression fuel) left :=
      fun left hleft => expression (by omega)
    have hline : ∀ left : Tokens, left.count + 1 ≤ tokens.count →
        Advances 1 (Reader.line vocabulary fuel) left :=
      fun left hleft => line (by omega)
    refine currentKind_bind fun token _ => ?_
    split
    next form _ =>
      cases form with
      | println => exact printlnLine hinner
      | loop => exact loopLine hinner hline
      | conditional => exact conditionalLine hinner hline
      | block => exact blockLine (by omega) hline
      | counted => exact countedLine hinner hline
    next =>
      refine bind (k := 1) startsAssignment fun _ left hleft => ?_
      split
      · exact assignmentLine fun behind hbehind => hinner behind (by omega)
      · exact expressionLine fun behind hbehind => hinner behind (by omega)

/-! ## Definitions -/

theorem globalDefinition {fuel : Nat} (hfuel : 5 * tokens.count + 4 < fuel) :
    Advances 1 (Reader.globalDefinition fuel) tokens := by
  refine bind (k := 1) advance fun _ left hleft => ?_
  refine of_le (bind (expectFor (by simp)) fun _ left₂ hleft₂ => ?_)
    (Nat.le_add_right 1 (1 + (1 + (1 + 0))))
  refine bind (expect (by simp)) fun _ left₃ hleft₃ => ?_
  refine bind (expression (by omega)) fun _ _ _ => ?_
  exact bind (expect (by simp)) fun _ _ _ => pure _

theorem parameter : Advances 1 Reader.parameter tokens :=
  bind (k := 0) (expectFor (by simp)) fun _ _ _ => pure _

theorem functionDefinition {vocabulary : Vocabulary} {fuel : Nat}
    (hfuel : 5 * tokens.count + 4 < fuel) :
    Advances 1 (Reader.functionDefinition vocabulary fuel) tokens := by
  refine bind (k := 1) advance fun _ left hleft => ?_
  refine of_le (bind (expectFor (by simp)) fun _ left₂ hleft₂ => ?_)
    (Nat.le_add_right 1 (1 + (0 + (1 + 0))))
  refine bind (expect (by simp)) fun _ left₃ hleft₃ => ?_
  refine bind (listUntil (by omega) fun _ _ => parameter) fun _ left₄ hleft₄ => ?_
  refine bind (expectFor (by simp)) fun _ left₅ hleft₅ => ?_
  refine currentKind_bind fun token _ => ?_
  split
  · refine of_le (bind (blockLine (by omega) fun behind hbehind => line (by omega)) ?_)
      (Nat.zero_le (1 + 0))
    exact fun _ _ _ => pure _
  · exact failInstead _

theorem definition {vocabulary : Vocabulary} {fuel : Nat}
    (hfuel : 5 * tokens.count + 4 < fuel) :
    Advances 1 (Reader.definition vocabulary fuel) tokens :=
  current_bind fun _ _ => by
    split
    · exact globalDefinition hfuel
    · exact functionDefinition hfuel
    · exact failAt _ _

end Advances

end Reader

end IntScript
