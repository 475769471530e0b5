import IntScript.Proofs.Grammar.Places

/-!
# Readers do not look past a fault

What a reader makes of tokens depends on nothing behind the place where it stops.  If two lists of
tokens start alike up to and including the first token that a reader leaves, or the one at which it
faults, then it does the same on the other list: it yields the same value and consumes as many
tokens, or it faults for the same reason at the same place.

`Local reader other` says this of two readers, which differ in their fuel at most.  It is closed
under the steps of which readers are made.  The one reader that looks two tokens ahead is
`startsAssignment`; it does so behind a name only, and a line that starts with a name does not fault
there (`tracks_expressionOf_name`).
-/

namespace IntScript

namespace Reader

variable {α β : Type}

/-! ## Outcomes -/

/-- Unless it runs out of fuel, the reader yields the value and leaves these tokens. -/
def Reads (reader : Reader α) (tokens : Tokens) (value : α) (left : Tokens) : Prop :=
  match reader tokens with
  | .ok result behind => result = value ∧ behind = left
  | .error (.fault _) _ => False
  | .error .outOfFuel _ => True

/-- Unless it runs out of fuel, the reader halts with this error. -/
def Faults (reader : Reader α) (tokens : Tokens) (error : Error) : Prop :=
  match reader tokens with
  | .ok _ _ => False
  | .error (.fault fault) _ => fault = error
  | .error .outOfFuel _ => True

section

variable {reader : Reader α} {next : α → Reader β} {tokens mid left : Tokens} {value : α}
  {error : Error}

theorem Reads.bind {result : β} (h : Reads reader tokens value mid)
    (hnext : Reads (next value) mid result left) : Reads (reader >>= next) tokens result left := by
  unfold Reads at h
  simp only [Reads, Bind.bind, EStateM.bind]
  cases houtcome : reader tokens with
  | ok first behind =>
      rw [houtcome] at h
      obtain ⟨rfl, rfl⟩ := h
      exact hnext
  | error halt behind =>
      rw [houtcome] at h
      cases halt with
      | fault error => exact h.elim
      | outOfFuel => trivial

theorem Reads.bind_faults (h : Reads reader tokens value mid)
    (hnext : Faults (next value) mid error) : Faults (reader >>= next) tokens error := by
  unfold Reads at h
  simp only [Faults, Bind.bind, EStateM.bind]
  cases houtcome : reader tokens with
  | ok first behind =>
      rw [houtcome] at h
      obtain ⟨rfl, rfl⟩ := h
      exact hnext
  | error halt behind =>
      rw [houtcome] at h
      cases halt with
      | fault error => exact h.elim
      | outOfFuel => trivial

theorem Reads.eq_of_bind (h : reader tokens = .ok value mid) :
    (reader >>= next) tokens = next value mid := by
  simp only [Bind.bind, EStateM.bind, h]

theorem Faults.eq_of_bind {halt : Halt} (h : reader tokens = .error halt mid) :
    (reader >>= next) tokens = .error halt mid := by
  simp only [Bind.bind, EStateM.bind, h]

theorem Faults.bind (h : Faults reader tokens error) : Faults (reader >>= next) tokens error := by
  unfold Faults at h
  simp only [Faults, Bind.bind, EStateM.bind]
  cases houtcome : reader tokens with
  | ok first behind =>
      rw [houtcome] at h
      exact h.elim
  | error halt behind =>
      rw [houtcome] at h
      cases halt with
      | fault error => exact h
      | outOfFuel => trivial

end

/-- Whatever the one reader does on its tokens, unless it runs out of fuel, the other does on the
others, if these are alike up to the place where the one stops.  That place is `least` tokens ahead
at least. -/
def Tracks (least : Nat) (reader other : Reader α) (tokens others : Tokens) : Prop :=
  match reader tokens with
  | .ok value left => ∃ count, least ≤ count ∧ left = tokens.drop count ∧
    (tokens.AlikeFor (count + 1) others → Reads other others value (others.drop count))
  | .error (.fault error) _ => ∃ count fault, least ≤ count ∧
    (tokens.drop count).AtFault fault error ∧
    (tokens.AlikeFor (count + 1) others →
      Faults other others ⟨.parse fault, (others.drop count).position⟩)
  | .error .outOfFuel _ => True

/-- Whatever the one reader does, the other does if it may not see a difference. -/
def Local (reader other : Reader α) : Prop :=
  ∀ tokens others, Tracks 0 reader other tokens others

namespace Tracks

variable {least : Nat} {reader other : Reader α} {next next' : α → Reader β}
  {tokens others : Tokens}

theorem weaken (h : Tracks least reader other tokens others) :
    Tracks 0 reader other tokens others := by
  unfold Tracks at h ⊢
  split at h
  · obtain ⟨count, -, h⟩ := h
    exact ⟨count, Nat.zero_le count, h⟩
  · obtain ⟨count, fault, -, h⟩ := h
    exact ⟨count, fault, Nat.zero_le count, h⟩
  · trivial

/-- A reader that runs out of fuel contradicts nothing. -/
theorem outOfFuel (h : Tracks least reader other tokens others) :
    Tracks least reader Reader.outOfFuel tokens others := by
  unfold Tracks at h ⊢
  split at h
  · obtain ⟨count, hle, hleft, -⟩ := h
    exact ⟨count, hle, hleft, fun _ => trivial⟩
  · obtain ⟨count, fault, hle, herror, -⟩ := h
    exact ⟨count, fault, hle, herror, fun _ => trivial⟩
  · trivial

/-- Fuel makes no difference but for running out of it. -/
theorem forFuel (other : Nat → Reader α) (hzero : other 0 = Reader.outOfFuel)
    (hsucc : ∀ fuel, Tracks least reader (other (fuel + 1)) tokens others) (fuel : Nat) :
    Tracks least reader (other fuel) tokens others := by
  cases fuel with
  | zero =>
      rw [hzero]
      exact (hsucc 0).outOfFuel
  | succ fuel => exact hsucc fuel

/-- Places add up along a sequence of readers. -/
theorem bind (h : Tracks least reader other tokens others)
    (hnext : ∀ value, Local (next value) (next' value)) :
    Tracks least (reader >>= next) (other >>= next') tokens others := by
  unfold Tracks at h
  simp only [Tracks, Bind.bind, EStateM.bind]
  cases houtcome : reader tokens with
  | ok value left =>
      rw [houtcome] at h
      obtain ⟨count, hle, rfl, halike⟩ := h
      have hrest := hnext value (tokens.drop count) (others.drop count)
      unfold Tracks at hrest
      dsimp only
      split at hrest
      next result behind _ =>
        obtain ⟨more, -, hbehind, hmore⟩ := hrest
        refine ⟨count + more, by omega, by rw [hbehind, Tokens.drop_drop], fun hboth => ?_⟩
        have hfirst := halike (hboth.of_le (by omega))
        have hsecond := hmore (Tokens.AlikeFor.drop (hboth.of_le (by omega)))
        rw [Tokens.drop_drop] at hsecond
        exact hfirst.bind hsecond
      next error behind _ =>
        obtain ⟨more, fault, -, herror, hmore⟩ := hrest
        rw [Tokens.drop_drop] at herror
        refine ⟨count + more, fault, by omega, herror, fun hboth => ?_⟩
        have hfirst := halike (hboth.of_le (by omega))
        have hsecond := hmore (Tokens.AlikeFor.drop (hboth.of_le (by omega)))
        rw [Tokens.drop_drop] at hsecond
        exact hfirst.bind_faults hsecond
      next => trivial
  | error halt left =>
      rw [houtcome] at h
      cases halt with
      | fault error =>
          obtain ⟨count, fault, hle, herror, halike⟩ := h
          exact ⟨count, fault, hle, herror, fun hboth => (halike hboth).bind⟩
      | outOfFuel => trivial

/-- A reader that goes on elsewhere after a look at the first token. -/
theorem of_drop {reader' other' : Reader α} (count : Nat)
    (h : Tracks least reader other (tokens.drop count) (others.drop count))
    (hreader : reader' tokens = reader (tokens.drop count))
    (hother : tokens.AlikeFor (count + least + 1) others →
      other' others = other (others.drop count)) :
    Tracks (count + least) reader' other' tokens others := by
  unfold Tracks at h ⊢
  rw [hreader]
  split at h
  next value left _ =>
    obtain ⟨more, hle, hleft, hmore⟩ := h
    refine ⟨count + more, by omega, by rw [hleft, Tokens.drop_drop], fun hboth => ?_⟩
    have hfirst : tokens.AlikeFor (count + least + 1) others := hboth.of_le (by omega)
    have hmany : tokens.AlikeFor (count + (more + 1)) others := hboth
    have hreads := hmore hmany.drop
    rwa [Tokens.drop_drop, Reads, ← hother hfirst] at hreads
  next error left _ =>
    obtain ⟨more, fault, hle, herror, hmore⟩ := h
    rw [Tokens.drop_drop] at herror
    refine ⟨count + more, fault, by omega, herror, fun hboth => ?_⟩
    have hfirst : tokens.AlikeFor (count + least + 1) others := hboth.of_le (by omega)
    have hmany : tokens.AlikeFor (count + (more + 1)) others := hboth
    have hfaults := hmore hmany.drop
    rwa [Tokens.drop_drop, Faults, ← hother hfirst] at hfaults
  next => trivial

/-- Where there is no first token nothing is alike. -/
theorem of_current_error {error : Error} {left : Tokens} (hcurrent : tokens.current = .error error)
    (hreader : reader tokens = .error (.fault error) left) :
    Tracks 0 reader other tokens others := by
  obtain ⟨fault, herror⟩ := Tokens.exists_atFault hcurrent
  rw [Tracks, hreader]
  refine ⟨0, fault, Nat.le_refl 0, herror, fun halike => ?_⟩
  obtain ⟨token, -, htoken, -⟩ := halike.alike.current
  cases hcurrent.symm.trans htoken

section

variable {token second : Token} (hcurrent : tokens.current = .ok token)
  (hcounterpart : tokens.Counterpart others token second)

include hcurrent hcounterpart

theorem failAt (fault : ParseFault) :
    Tracks (α := α) 0 (Reader.failAt token fault) (Reader.failAt second fault) tokens others := by
  refine ⟨0, fault, Nat.le_refl 0, Tokens.atFault_of_current hcurrent fault, fun halike => ?_⟩
  · have hother := Tokens.offset_of_current (hcounterpart.other_current halike.alike)
    simp only [Faults, Reader.failAt, Tokens.drop_zero, Tokens.position, hother]

theorem current_bind {next next' : Token → Reader β}
    (hnext : Tracks least (next token) (next' second) tokens others) :
    Tracks least (current >>= next) (current >>= next') tokens others := by
  rw [← Nat.zero_add least]
  refine of_drop 0 hnext ?_ fun halike => ?_
  · simp [Bind.bind, EStateM.bind, Reader.current, hcurrent]
  · simp [Bind.bind, EStateM.bind, Reader.current, hcounterpart.other_current halike.alike]

theorem advance_bind {next next' : Token → Reader β}
    (hnext : Local (next token) (next' second)) :
    Tracks 1 (advance >>= next) (advance >>= next') tokens others := by
  refine of_drop 1 (hnext (tokens.drop 1) (others.drop 1)) ?_ fun halike => ?_
  · simp [Bind.bind, EStateM.bind, Reader.advance, hcurrent, Tokens.drop_one]
  · simp [Bind.bind, EStateM.bind, Reader.advance, hcounterpart.other_current halike.alike,
      Tokens.drop_one]

/-- A token of the right kind is consumed. -/
theorem expect_bind {next next' : Token → Reader β} (hnext : Local (next token) (next' second)) :
    Tracks 1 (expect token.kind >>= next) (expect token.kind >>= next') tokens others := by
  simp only [expect, bind_assoc]
  refine current_bind hcurrent hcounterpart ?_
  rw [if_pos rfl, if_pos hcounterpart.kind_eq]
  exact advance_bind hcurrent hcounterpart hnext

end

end Tracks

/-! ## Steps -/

namespace Local

variable {reader other : Reader α} {next next' : α → Reader β} {item item' : Reader α}

theorem pure (value : α) : Local (Pure.pure value) (Pure.pure value) :=
  fun _ _ => ⟨0, Nat.le_refl 0, rfl, fun _ => ⟨rfl, rfl⟩⟩

theorem outOfFuel (other : Reader α) : Local Reader.outOfFuel other :=
  fun _ _ => trivial

theorem bind (h : Local reader other) (hnext : ∀ value, Local (next value) (next' value)) :
    Local (reader >>= next) (other >>= next') :=
  fun tokens others => (h tokens others).bind hnext

theorem current_bind {next next' : Token → Reader β}
    (hnext : ∀ tokens others token second, tokens.current = .ok token →
      Tokens.Counterpart tokens others token second →
      Tracks 0 (next token) (next' second) tokens others) :
    Local (current >>= next) (current >>= next') := by
  intro tokens others
  cases hcurrent : tokens.current with
  | error error =>
      have houtcome : (current >>= next) tokens = .error (.fault error) tokens := by
        simp [Bind.bind, EStateM.bind, Reader.current, hcurrent]
      exact .of_current_error hcurrent houtcome
  | ok token =>
      obtain ⟨second, hsecond⟩ := Tokens.exists_counterpart hcurrent others
      exact .current_bind hcurrent hsecond (hnext tokens others token second hcurrent hsecond)

theorem currentKind_bind {next next' : TokenKind → Reader β}
    (hnext : ∀ kind, Local (next kind) (next' kind)) :
    Local (currentKind >>= next) (currentKind >>= next') := by
  simp only [currentKind, bind_assoc, pure_bind]
  refine current_bind fun tokens others token second _ hsecond => ?_
  rw [hsecond.kind_eq]
  exact hnext token.kind tokens others

theorem advance_bind {next next' : Token → Reader β}
    (hnext : ∀ token second, second.text = token.text → Local (next token) (next' second)) :
    Local (advance >>= next) (advance >>= next') := by
  intro tokens others
  cases hcurrent : tokens.current with
  | error error =>
      have houtcome : (advance >>= next) tokens = .error (.fault error) tokens := by
        simp [Bind.bind, EStateM.bind, Reader.advance, hcurrent]
      exact .of_current_error hcurrent houtcome
  | ok token =>
      obtain ⟨second, hsecond⟩ := Tokens.exists_counterpart hcurrent others
      exact (Tracks.advance_bind hcurrent hsecond (hnext token second hsecond.text_eq)).weaken

/-- A token is consumed if it is of the kind, and otherwise it is at fault. -/
theorem wanted_bind {next next' : Token → Reader β} (kind : TokenKind)
    (fault : String → ParseFault)
    (hnext : ∀ token second, second.text = token.text → Local (next token) (next' second)) :
    Local
      ((do
        let token ← current
        if token.kind = kind then advance else failAt token (fault token.text)) >>= next)
      ((do
        let token ← current
        if token.kind = kind then advance else failAt token (fault token.text)) >>= next') := by
  simp only [bind_assoc]
  refine current_bind fun tokens others token second hcurrent hsecond => ?_
  rw [hsecond.kind_eq, hsecond.text_eq]
  by_cases hkind : token.kind = kind
  · simp only [if_pos hkind]
    exact (Tracks.advance_bind hcurrent hsecond (hnext token second hsecond.text_eq)).weaken
  · simp only [if_neg hkind]
    exact Tracks.failAt hcurrent hsecond _

theorem expect_bind {next next' : Token → Reader β} (kind : TokenKind)
    (hnext : ∀ token second, second.text = token.text → Local (next token) (next' second)) :
    Local (expect kind >>= next) (expect kind >>= next') :=
  wanted_bind kind .unexpected hnext

theorem expectFor_bind {next next' : Token → Reader β} (kind : TokenKind) (expectation : String)
    (hnext : ∀ token second, second.text = token.text → Local (next token) (next' second)) :
    Local (expectFor kind expectation >>= next) (expectFor kind expectation >>= next') :=
  wanted_bind kind (.unexpectedInstead · expectation) hnext

theorem failInstead (expectation : String) :
    Local (α := α) (Reader.failInstead expectation) (Reader.failInstead expectation) :=
  current_bind fun _ _ _ _ hcurrent hsecond => by
    rw [hsecond.text_eq]
    exact .failAt hcurrent hsecond _

theorem ite {p : Prop} [Decidable p] {second second' : Reader α} (h : Local reader other)
    (h' : Local second second') :
    Local (if p then reader else second) (if p then other else second') := by
  split
  · exact h
  · exact h'

theorem forFuel (other : Nat → Reader α) (hzero : other 0 = Reader.outOfFuel)
    (hsucc : ∀ fuel, Local reader (other (fuel + 1))) (fuel : Nat) : Local reader (other fuel) :=
  fun tokens others => .forFuel other hzero (fun fuel => hsucc fuel tokens others) fuel

/-! ## Repetition -/

theorem commaSeparated (hitem : Local item item') : ∀ fuel fuel',
    Local (Reader.commaSeparated item fuel) (Reader.commaSeparated item' fuel') := by
  intro fuel
  induction fuel with
  | zero => exact fun _ => outOfFuel _
  | succ fuel ih =>
      refine forFuel (Reader.commaSeparated item') rfl fun fuel' => ?_
      refine hitem.bind fun first => currentKind_bind fun kind => ite ?_ (pure _)
      exact advance_bind fun _ _ _ => (ih fuel').bind fun others => pure _

theorem listUntil (close : TokenKind) (hitem : Local item item') (fuel fuel' : Nat) :
    Local (Reader.listUntil close item fuel) (Reader.listUntil close item' fuel') :=
  currentKind_bind fun _ => ite (pure []) (commaSeparated hitem fuel fuel')

theorem hasTokens_bind {next next' : Bool → Reader β}
    (hnext : ∀ some, Local (next some) (next' some)) :
    Local (hasTokens >>= next) (hasTokens >>= next') := by
  intro tokens others
  rw [← Nat.zero_add 0]
  refine Tracks.of_drop 0 (hnext (!tokens.atEnd) tokens others) rfl fun halike => ?_
  simp [Bind.bind, EStateM.bind, hasTokens, halike.alike.atEnd_eq]

theorem untilEnd (hitem : Local item item') : ∀ fuel fuel',
    Local (Reader.untilEnd item fuel) (Reader.untilEnd item' fuel') := by
  intro fuel
  induction fuel with
  | zero => exact fun _ => outOfFuel _
  | succ fuel ih =>
      refine forFuel (Reader.untilEnd item') rfl fun fuel' => hasTokens_bind fun some => ?_
      refine ite ?_ (pure _)
      exact hitem.bind fun first => (ih fuel').bind fun others => pure _

/-! ## Expressions -/

theorem operators (layer : Precedence) {operand operand' : Reader Expr}
    (hoperand : Local operand operand') : ∀ fuel fuel' left,
    Local (Reader.operators layer operand fuel left)
      (Reader.operators layer operand' fuel' left) := by
  intro fuel
  induction fuel with
  | zero => exact fun _ _ => outOfFuel _
  | succ fuel ih =>
      intro fuel' left
      refine forFuel (Reader.operators layer operand' · left) rfl (fun fuel' => ?_) fuel'
      refine currentKind_bind fun kind => ?_
      cases kind with
      | operator op =>
          refine ite ?_ (pure left)
          exact advance_bind fun _ _ _ => hoperand.bind fun right => ih fuel' _
      | _ => exact pure left

section

variable {expression expression' : Reader Expr} (hexpression : Local expression expression')

include hexpression

theorem grouping : Local (Reader.grouping expression) (Reader.grouping expression') :=
  advance_bind fun _ _ _ => hexpression.bind fun inner => expect_bind _ fun _ _ _ => pure inner

theorem callOf (callee : String) (fuel fuel' : Nat) :
    Local (Reader.callOf callee expression fuel) (Reader.callOf callee expression' fuel') := by
  refine expect_bind _ fun _ _ _ => ?_
  refine (listUntil .closeParen hexpression fuel fuel').bind fun arguments => ?_
  exact expectFor_bind _ _ fun _ _ _ => pure _

theorem labelled : Local (Reader.labelled expression) (Reader.labelled expression') := by
  refine expectFor_bind _ _ fun label second htext => ?_
  rw [htext]
  exact expect_bind _ fun _ _ _ => hexpression.bind fun argument => pure _

theorem labelledCallOf (callee : String) (fuel fuel' : Nat) :
    Local (Reader.labelledCallOf callee expression fuel)
      (Reader.labelledCallOf callee expression' fuel') := by
  refine expect_bind _ fun _ _ _ => ?_
  refine (listUntil .closeBracket hexpression.labelled fuel fuel').bind fun arguments => ?_
  exact expectFor_bind _ _ fun _ _ _ => pure _

/-- What a name is followed by decides what it is. -/
theorem named_bind (fuel fuel' : Nat) (name : String) :
    Local
      (currentKind >>= fun
        | .openParen => Reader.callOf name expression fuel
        | .openBracket => Reader.labelledCallOf name expression fuel
        | _ => return .symbol name)
      (currentKind >>= fun
        | .openParen => Reader.callOf name expression' fuel'
        | .openBracket => Reader.labelledCallOf name expression' fuel'
        | _ => return .symbol name) := by
  refine currentKind_bind fun kind => ?_
  cases kind with
  | openParen => exact hexpression.callOf name fuel fuel'
  | openBracket => exact hexpression.labelledCallOf name fuel fuel'
  | _ => exact pure _

theorem named (fuel fuel' : Nat) :
    Local (Reader.named expression fuel) (Reader.named expression' fuel') := by
  refine expect_bind _ fun token second htext => ?_
  rw [htext]
  exact hexpression.named_bind fuel fuel' token.text

end

theorem numeral_of_none {tokens : Tokens} {token : Token} (hcurrent : tokens.current = .ok token)
    (hvalue : Text.numeral? token.text = none) :
    Reader.numeral tokens =
      .error (.fault ⟨.parse (.numeral token.text), ⟨token.start, tokens.file⟩⟩) tokens.rest := by
  simp [Reader.numeral, Bind.bind, EStateM.bind, Reader.advance, hcurrent, hvalue, Reader.failAt,
    Tokens.rest]

/-- A numeral at fault is the token that was just consumed. -/
theorem numeral : Local Reader.numeral Reader.numeral := by
  intro tokens others
  cases hcurrent : tokens.current with
  | error error =>
      have houtcome : Reader.numeral tokens = .error (.fault error) tokens := by
        simp [Reader.numeral, Bind.bind, EStateM.bind, Reader.advance, hcurrent]
      exact .of_current_error hcurrent houtcome
  | ok token =>
      obtain ⟨second, hsecond⟩ := Tokens.exists_counterpart hcurrent others
      cases hvalue : Text.numeral? token.text with
      | some value =>
          refine (Tracks.advance_bind hcurrent hsecond ?_).weaken
          rw [hsecond.text_eq, hvalue]
          exact pure _
      | none =>
          have houtcome := numeral_of_none hcurrent hvalue
          rw [Tracks, houtcome]
          refine ⟨0, .numeral token.text, Nat.le_refl 0, Tokens.atFault_of_current hcurrent _,
            fun halike => ?_⟩
          · have hother := hsecond.other_current halike.alike
            rw [← hsecond.text_eq] at hvalue ⊢
            rw [Faults, numeral_of_none hother hvalue, Tokens.drop_zero, Tokens.position,
              Tokens.offset_of_current hother]

theorem primary {expression expression' : Reader Expr} (hexpression : Local expression expression')
    (fuel fuel' : Nat) :
    Local (Reader.primary expression fuel) (Reader.primary expression' fuel') := by
  refine currentKind_bind fun kind => ?_
  cases kind with
  | openParen => exact hexpression.grouping
  | number => exact numeral
  | identifier => exact hexpression.named fuel fuel'
  | _ =>
      refine current_bind fun _ _ _ _ hcurrent hsecond => ?_
      rw [hsecond.text_eq]
      exact .failAt hcurrent hsecond _

theorem expressionOf : ∀ fuel fuel' layer,
    Local (Reader.expressionOf layer fuel) (Reader.expressionOf layer fuel') := by
  intro fuel
  induction fuel with
  | zero => exact fun _ _ => outOfFuel _
  | succ fuel ih =>
      intro fuel' layer
      refine forFuel (Reader.expressionOf layer) rfl (fun fuel' => ?_) fuel'
      unfold Reader.expressionOf
      cases layer with
      | primary => exact primary (ih fuel' .relational) fuel fuel'
      | _ => exact (ih fuel' _).bind fun left => operators _ (ih fuel' _) fuel fuel' left

end Local

/-! ## Lines -/

theorem startsAssignment_of_error {tokens : Tokens} {error : Error}
    (hcurrent : tokens.current = .error error) :
    startsAssignment tokens = .error (.fault error) tokens := by
  simp [startsAssignment, lookahead, Bind.bind, EStateM.bind, advance, hcurrent]

section

variable {tokens : Tokens} {token : Token} (hcurrent : tokens.current = .ok token)

include hcurrent

/-- An expression that starts with a name is read beyond the name. -/
theorem tracks_expressionOf_name (hkind : token.kind = .identifier) (others : Tokens) :
    ∀ fuel fuel' layer,
      Tracks 1 (expressionOf layer fuel) (expressionOf layer fuel') tokens others := by
  intro fuel
  induction fuel with
  | zero => exact fun _ _ => trivial
  | succ fuel ih =>
      intro fuel' layer
      refine .forFuel (expressionOf layer) rfl (fun fuel' => ?_) fuel'
      have hexpression := Local.expressionOf fuel fuel'
      unfold expressionOf
      cases layer with
      | primary =>
          obtain ⟨second, hsecond⟩ := Tokens.exists_counterpart hcurrent others
          simp only [primary, currentKind, bind_assoc, pure_bind]
          refine .current_bind hcurrent hsecond ?_
          rw [hsecond.kind_eq, hkind]
          dsimp only
          rw [named, named, ← hkind]
          refine .expect_bind hcurrent hsecond ?_
          rw [hsecond.text_eq]
          exact (hexpression .relational).named_bind fuel fuel' token.text
      | _ => exact (ih fuel' _).bind fun left => .operators _ (hexpression _) fuel fuel' left

theorem startsAssignment_of_ne (hkind : token.kind ≠ .identifier) :
    startsAssignment tokens = .ok false tokens := by
  simp [startsAssignment, lookahead, Bind.bind, EStateM.bind, advance, hcurrent, hkind, Pure.pure,
    EStateM.pure]

theorem startsAssignment_of_name (hkind : token.kind = .identifier) {second : Token}
    (hsecond : tokens.rest.current = .ok second) :
    startsAssignment tokens = .ok (second.kind = .assignment) tokens := by
  simp [startsAssignment, lookahead, Bind.bind, EStateM.bind, advance, hcurrent, hkind, hsecond,
    Pure.pure, EStateM.pure]

theorem startsAssignment_of_name_error (hkind : token.kind = .identifier) {error : Error}
    (hsecond : tokens.rest.current = .error error) :
    startsAssignment tokens = .error (.fault error) tokens := by
  simp [startsAssignment, lookahead, Bind.bind, EStateM.bind, advance, hcurrent, hkind, hsecond]

end

section

variable {tokens others : Tokens} {token second : Token} {expression expression' : Reader Expr}

/-- An assignment that starts with a name is read beyond the name. -/
theorem tracks_assignmentLine_name (hcurrent : tokens.current = .ok token)
    (hsecond : tokens.Counterpart others token second) (hkind : token.kind = .identifier)
    (hexpression : Local expression expression') :
    Tracks 1 (assignmentLine expression) (assignmentLine expression') tokens others := by
  rw [assignmentLine, assignmentLine, ← hkind]
  refine .expect_bind hcurrent hsecond ?_
  rw [hsecond.text_eq]
  refine .expect_bind _ fun _ _ _ => hexpression.bind fun value => ?_
  exact .expect_bind _ fun _ _ _ => .pure _

/-- The second token tells what a line is that starts with a name.  Neither kind of line stops at
the name, so that both lists of tokens have the same second one where it matters. -/
theorem tracks_assignmentOrExpression_name (hcurrent : tokens.current = .ok token)
    (hsecond : tokens.Counterpart others token second) (hkind : token.kind = .identifier)
    (hexpression : Local expression expression')
    (hname : Tracks 1 expression expression' tokens others) :
    Tracks 1
      (startsAssignment >>= fun starts =>
        if starts then assignmentLine expression else expressionLine expression)
      (startsAssignment >>= fun starts =>
        if starts then assignmentLine expression' else expressionLine expression')
      tokens others := by
  cases hfollower : tokens.rest.current with
  | error error =>
      have hstarts := startsAssignment_of_name_error hcurrent hkind hfollower
      obtain ⟨fault, herror⟩ := Tokens.exists_atFault hfollower
      rw [← Tokens.drop_one] at herror
      rw [Tracks, Faults.eq_of_bind hstarts]
      refine ⟨1, fault, Nat.le_refl 1, herror, fun halike => ?_⟩
      obtain ⟨first, -, hfirst, -⟩ := (halike 1 (by omega)).current
      rw [Tokens.drop_one, hfollower] at hfirst
      cases hfirst
  | ok follower =>
      have hstarts := startsAssignment_of_name hcurrent hkind hfollower
      have hline : Tracks 1
          (if decide (follower.kind = .assignment) = true then assignmentLine expression
            else expressionLine expression)
          (if decide (follower.kind = .assignment) = true then assignmentLine expression'
            else expressionLine expression') tokens others := by
        split
        · exact tracks_assignmentLine_name hcurrent hsecond hkind hexpression
        · exact hname.bind fun value => .expect_bind _ fun _ _ _ => .pure value
      rw [← Nat.zero_add 1]
      refine Tracks.of_drop 0 hline (Reads.eq_of_bind hstarts) fun halike => ?_
      have hother := hsecond.other_current halike.alike
      obtain ⟨first, follower', hfirst, hfollower', hkind', -⟩ := (halike 1 (by omega)).current
      rw [Tokens.drop_one] at hfirst hfollower'
      cases hfollower.symm.trans hfirst
      rw [← hkind']
      exact Reads.eq_of_bind
        (startsAssignment_of_name hother (hsecond.kind_eq.trans hkind) hfollower')

end

namespace Local

section

variable {line line' : Reader Expr} (hline : Local line line')

include hline

theorem blockLines : ∀ fuel fuel',
    Local (Reader.blockLines line fuel) (Reader.blockLines line' fuel') := by
  intro fuel
  induction fuel with
  | zero => exact fun _ => outOfFuel _
  | succ fuel ih =>
      refine forFuel (Reader.blockLines line') rfl fun fuel' => currentKind_bind fun kind => ?_
      cases kind with
      | closeCurly => exact pure []
      | eof => exact failInstead _
      | _ => exact hline.bind fun first => (ih fuel').bind fun others => pure _

theorem blockLine (fuel fuel' : Nat) :
    Local (Reader.blockLine line fuel) (Reader.blockLine line' fuel') :=
  expect_bind _ fun _ _ _ => (blockLines hline fuel fuel').bind fun _ =>
    expect_bind _ fun _ _ _ => pure _

end

section

variable {expression expression' line line' : Reader Expr}

variable (hexpression : Local expression expression')

include hexpression

theorem condition : Local (Reader.condition expression) (Reader.condition expression') :=
  expect_bind _ fun _ _ _ => hexpression.bind fun inner => expect_bind _ fun _ _ _ => pure inner

theorem expressionLine :
    Local (Reader.expressionLine expression) (Reader.expressionLine expression') :=
  hexpression.bind fun value => expect_bind _ fun _ _ _ => pure value

theorem printlnLine : Local (Reader.printlnLine expression) (Reader.printlnLine expression') := by
  refine advance_bind fun _ _ _ => hexpression.condition.bind fun _ => ?_
  exact expect_bind _ fun _ _ _ => pure _

/-- A line that no word introduces.  The second token tells what it is if the first one is a name,
and then neither kind of line stops at the first one. -/
theorem assignmentOrExpression
    (hname : ∀ tokens others token, tokens.current = .ok token → token.kind = .identifier →
      Tracks 1 expression expression' tokens others) :
    Local
      (do
        if ← startsAssignment then assignmentLine expression
        else Reader.expressionLine expression)
      (do
        if ← startsAssignment then assignmentLine expression'
        else Reader.expressionLine expression') := by
  intro tokens others
  cases hcurrent : tokens.current with
  | error error =>
      exact .of_current_error hcurrent (Faults.eq_of_bind (startsAssignment_of_error hcurrent))
  | ok token =>
      obtain ⟨second, hsecond⟩ := Tokens.exists_counterpart hcurrent others
      by_cases hkind : token.kind = .identifier
      · have hexpressionName := hname tokens others token hcurrent hkind
        exact (tracks_assignmentOrExpression_name hcurrent hsecond hkind hexpression
          hexpressionName).weaken
      · have hstarts := startsAssignment_of_ne hcurrent hkind
        refine Tracks.of_drop 0 (hexpression.expressionLine tokens others)
          (Reads.eq_of_bind hstarts) fun halike => ?_
        have hother := hsecond.other_current halike.alike
        rw [← hsecond.kind_eq] at hkind
        exact Reads.eq_of_bind (startsAssignment_of_ne hother hkind)

variable (hline : Local line line')

include hline

theorem loopLine :
    Local (Reader.loopLine expression line) (Reader.loopLine expression' line') :=
  advance_bind fun _ _ _ => hexpression.condition.bind fun _ =>
    hline.bind fun _ => pure _

theorem conditionalLine :
    Local (Reader.conditionalLine expression line) (Reader.conditionalLine expression' line') := by
  refine advance_bind fun _ _ _ => hexpression.condition.bind fun _ => ?_
  refine hline.bind fun _ => currentKind_bind fun kind => ite ?_ (pure _)
  exact advance_bind fun _ _ _ => hline.bind fun _ => pure _

theorem countedLine :
    Local (Reader.countedLine expression line) (Reader.countedLine expression' line') := by
  refine advance_bind fun _ _ _ => expect_bind _ fun _ _ _ => ?_
  refine expectFor_bind _ _ fun name second htext => ?_
  rw [htext]
  refine expect_bind _ fun _ _ _ => hexpression.bind fun start => ?_
  refine expect_bind _ fun _ _ _ => hexpression.bind fun stop => ?_
  exact expect_bind _ fun _ _ _ => hline.bind fun _ => pure _

theorem lineOf (fuel fuel' : Nat) (form : LineForm) :
    Local (Reader.lineOf expression line fuel form)
      (Reader.lineOf expression' line' fuel' form) := by
  cases form with
  | println => exact hexpression.printlnLine
  | loop => exact hexpression.loopLine hline
  | conditional => exact hexpression.conditionalLine hline
  | block => exact blockLine hline fuel fuel'
  | counted => exact hexpression.countedLine hline

end

theorem line (vocabulary : Vocabulary) : ∀ fuel fuel',
    Local (Reader.line vocabulary fuel) (Reader.line vocabulary fuel') := by
  intro fuel
  induction fuel with
  | zero => exact fun _ => outOfFuel _
  | succ fuel ih =>
      refine forFuel (Reader.line vocabulary) rfl fun fuel' => currentKind_bind fun kind => ?_
      have hexpression := expressionOf fuel fuel' .relational
      cases vocabulary.lineForm? kind with
      | some form => exact hexpression.lineOf (ih fuel') fuel fuel' form
      | none =>
          exact hexpression.assignmentOrExpression fun tokens others token hcurrent hkind =>
            tracks_expressionOf_name hcurrent hkind others fuel fuel' .relational

/-! ## Definitions -/

theorem globalDefinition (fuel fuel' : Nat) :
    Local (Reader.globalDefinition fuel) (Reader.globalDefinition fuel') := by
  refine advance_bind fun _ _ _ => expectFor_bind _ _ fun name second htext => ?_
  rw [htext]
  refine expect_bind _ fun _ _ _ => (expressionOf fuel fuel' .relational).bind fun value => ?_
  exact expect_bind _ fun _ _ _ => pure _

theorem parameter : Local Reader.parameter Reader.parameter := by
  refine expectFor_bind _ _ fun name second htext => ?_
  rw [htext]
  exact pure _

theorem functionDefinition (vocabulary : Vocabulary) (fuel fuel' : Nat) :
    Local (Reader.functionDefinition vocabulary fuel)
      (Reader.functionDefinition vocabulary fuel') := by
  refine advance_bind fun _ _ _ => expectFor_bind _ _ fun name second htext => ?_
  rw [htext]
  refine expect_bind _ fun _ _ _ => ?_
  refine (listUntil .closeParen parameter fuel fuel').bind fun parameters => ?_
  refine expectFor_bind _ _ fun _ _ _ => currentKind_bind fun kind => ite ?_ (failInstead _)
  exact (blockLine (line vocabulary fuel fuel') fuel fuel').bind fun _ => pure _

theorem definition (vocabulary : Vocabulary) (fuel fuel' : Nat) :
    Local (Reader.definition vocabulary fuel) (Reader.definition vocabulary fuel') := by
  refine current_bind fun tokens others token second hcurrent hsecond => ?_
  rw [hsecond.kind_eq, hsecond.text_eq]
  cases vocabulary.definitionForm? token.kind with
  | none => exact .failAt hcurrent hsecond _
  | some form =>
      cases form with
      | global => exact globalDefinition fuel fuel' tokens others
      | function => exact functionDefinition vocabulary fuel fuel' tokens others

/-! ## Whole sources -/

theorem program (vocabulary : Vocabulary) (fuel fuel' : Nat) :
    Local (Reader.program vocabulary fuel) (Reader.program vocabulary fuel') :=
  untilEnd (definition vocabulary fuel fuel') fuel fuel'

theorem statements (vocabulary : Vocabulary) (fuel fuel' : Nat) :
    Local (Reader.statements vocabulary fuel) (Reader.statements vocabulary fuel') :=
  untilEnd (line vocabulary fuel fuel') fuel fuel'

end Local

end Reader

end IntScript
