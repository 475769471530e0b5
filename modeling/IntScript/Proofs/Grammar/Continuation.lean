import IntScript.Proofs.Grammar.FirstFault
import IntScript.Proofs.Grammar.OnDemand
import IntScript.Proofs.Token.Shifted

/-!
# Reading on behind what has been read

A reader that repeats comes from one item to the next and keeps nothing of those before.  So what it
does with the tokens behind some items is what it does with these tokens alone, also where that is a
fault, and where the tokens stand makes no difference but for the place of the fault.

* `Reader.faults_shift` : tokens that stand further back have the same fault further back.
* `Reader.ReadsItems.reads` : an item is read in front of any tokens that do not go on with it.  The
  tokens may end at a character that starts none; they are compared with tokens that end where the
  source does (`Tokens.closed`), because derivations speak of these.
* `Reader.ReadsItems.faults_append` : a fault behind items is one of all the tokens, by induction on
  the items.
* `Reader.faults_stop_or` : where tokens end at a character that starts none, that is the fault
  unless there is one before.  This is needed where no token stands in front of the character, since
  the last item may have looked at it already, in search of an `else`.
* `Reader.ReadsItems.yields_append`, `Reader.ReadsItems.faults_append_shift` : the main results, for
  tokens behind others that are read to their end.
-/

namespace IntScript

open Grammar

/-! ## Tokens further back -/

/-- The position, so many bytes further back. -/
def Position.shift (bytes : Nat) (position : Position) : Position :=
  { position with offset := position.offset + .ofNat bytes }

/-- The error, so many bytes further back. -/
def Error.shift (bytes : Nat) (error : Error) : Error :=
  { error with position := error.position.shift bytes }

theorem Cursor.stopped_shift {file : String} {cursor : Cursor} {error : Error}
    (h : cursor.stopped file = .error error) (bytes : Nat) :
    (cursor.shift bytes).stopped file = .error (error.shift bytes) := by
  unfold stopped at h ⊢
  rw [rest_shift]
  split at h
  · cases h
  · obtain rfl := Except.error.inj h
    simp only [shift, UInt32.ofNat_add]
    rfl

namespace Tokens

/-- The tokens, so many bytes further back. -/
def shift (bytes : Nat) (tokens : Tokens) : Tokens :=
  { tokens with
    pending := tokens.pending.map (Token.shift bytes)
    stop := tokens.stop.shift bytes }

variable {tokens others : Tokens}

theorem map_look_shift (bytes : Nat) (tokens : Tokens) :
    (tokens.shift bytes).pending.map Token.look = tokens.pending.map Token.look := by
  simp [shift, Function.comp_def]

theorem position_drop_shift (bytes count : Nat) (tokens : Tokens) :
    ((tokens.shift bytes).drop count).position = (tokens.drop count).position.shift bytes := by
  have hpending : ((tokens.shift bytes).drop count).pending =
      (tokens.drop count).pending.map (Token.shift bytes) := List.map_drop.symm
  rw [position, position, offset, offset, hpending]
  cases (tokens.drop count).pending with
  | nil =>
      simp only [List.map_nil, Position.shift, Position.mk.injEq]
      exact ⟨UInt32.ofNat_add .., rfl⟩
  | cons token rest => rfl

theorem terminals_shift (bytes : Nat) (tokens : Tokens) :
    (tokens.shift bytes).terminals = tokens.terminals := by
  simp only [terminals, shift, List.map_map]
  rfl

/-- The tokens of the one in front of those of the other. -/
def append (tokens others : Tokens) : Tokens :=
  { others with pending := tokens.pending ++ others.pending }

theorem terminals_append (tokens others : Tokens) :
    (tokens.append others).terminals = tokens.terminals ++ others.terminals :=
  List.map_append

theorem drop_append (tokens others : Tokens) :
    (tokens.append others).drop tokens.terminals.length = others := by
  have hdrop : (tokens.pending ++ others.pending).drop tokens.terminals.length =
      others.pending := by
    rw [terminals, List.length_map, List.drop_left]
  rw [drop, append, hdrop]

theorem terminals_drop {first rest : List Terminal} (h : tokens.terminals = first ++ rest) :
    (tokens.drop first.length).terminals = rest := by
  have hdrop := congrArg (List.drop first.length) h
  rw [List.drop_left] at hdrop
  rw [← hdrop]
  exact List.map_drop

/-- The tokens, as if the source came to its end behind them. -/
def closed (tokens : Tokens) : Tokens :=
  { tokens with stop := ⟨tokens.stop.offset, []⟩ }

/-- Where no token is left, but characters, the error is about the first of these. -/
theorem AtFault.stopped_eq {count : Nat} {fault : ParseFault} {error : Error}
    (h : (tokens.drop count).AtFault fault error) (hle : tokens.pending.length ≤ count)
    (hrest : tokens.stop.rest ≠ []) : tokens.stop.stopped tokens.file = .error error := by
  cases hstop : tokens.stop.stopped tokens.file with
  | ok last => exact absurd (Cursor.rest_eq_nil_of_stopped hstop) hrest
  | error halted => rw [h.of_current_error halted ((current_drop_of_le hle).trans hstop)]

/-- Tokens that start with the same looks are alike up to each of the first ones. -/
theorem alikeFor_of_lt {count : Nat}
    (h : tokens.pending.map Token.look <+: others.pending.map Token.look)
    (hlt : count < tokens.pending.length) : tokens.AlikeFor (count + 1) others := by
  refine alikeFor_of_prefix hlt (List.IsPrefix.trans ?_ h)
  rw [List.map_take]
  exact List.take_prefix _ _

/-- The end that is put behind the tokens makes no difference in front of it. -/
theorem closed_alikeFor {count : Nat} (h : count < tokens.pending.length ∨ tokens.stop.rest = []) :
    tokens.closed.AlikeFor (count + 1) tokens := by
  have hlooks : tokens.pending.map Token.look = tokens.closed.pending.map Token.look := rfl
  rcases h with hlt | hstop
  · exact alikeFor_of_lt (hlooks ▸ List.prefix_rfl) hlt
  · have hclosed : tokens.closed.stop.rest = [] := rfl
    exact alikeFor_of_look_eq hclosed hstop hlooks (count + 1)

theorem lt_length_of_terminals_drop {count : Nat} (h : (tokens.drop count).terminals ≠ []) :
    count < tokens.pending.length := by
  refine Nat.lt_of_not_le fun hle => h ?_
  rw [terminals, drop, List.drop_of_length_le hle, List.map_nil]

/-- The tokens behind a part of them are told by what they are seen as. -/
theorem drop_eq_drop_length {first rest : List Terminal} {count : Nat}
    (h : tokens.terminals = first ++ rest) (hdrop : (tokens.drop count).terminals = rest) :
    tokens.drop count = tokens.drop first.length := by
  have hlength := congrArg List.length h
  have hbehind := congrArg List.length hdrop
  simp only [terminals, drop, List.length_map, List.length_append, List.length_drop]
    at hlength hbehind
  have hpending : tokens.pending.drop count = tokens.pending.drop first.length := by
    rcases Nat.eq_zero_or_pos rest.length with hnil | hpos
    · rw [List.drop_of_length_le (by omega), List.drop_of_length_le (by omega)]
    · have hcount : count = first.length := by omega
      rw [hcount]
  rw [drop, drop, hpending]

end Tokens

namespace Reader

variable {α δ : Type} {reader other : Reader α} {tokens others left : Tokens} {error : Error}

theorem Faults.eq {error' : Error} (h : Faults reader tokens error)
    (hread : reader tokens = .error (.fault error') left) : error' = error := by
  rwa [Faults, hread] at h

/-- Where tokens end at a character that starts none, that is the fault, unless there is a fault
before, which other tokens with the same looks have too. -/
theorem faults_stop_or (hlocal : Local other reader)
    (hok : ∀ value left, other tokens ≠ .ok value left)
    (hbegins : tokens.pending.map Token.look <+: others.pending.map Token.look)
    (hstop : tokens.stop.stopped tokens.file = .error error) :
    Faults other tokens error ∨ ∃ count fault,
      Faults other tokens ⟨.parse fault, (tokens.drop count).position⟩ ∧
      Faults reader others ⟨.parse fault, (others.drop count).position⟩ := by
  have htracks := hlocal tokens others
  unfold Tracks at htracks
  cases hread : other tokens with
  | ok value left => exact absurd hread (hok value left)
  | error halt left =>
      cases halt with
      | outOfFuel =>
          left
          rw [Faults, hread]
          trivial
      | fault error' =>
          rw [hread] at htracks
          obtain ⟨count, fault, -, hat, hfaults⟩ := htracks
          rcases Nat.lt_or_ge count tokens.pending.length with hlt | hge
          · refine .inr ⟨count, fault, ?_, hfaults (Tokens.alikeFor_of_lt hbegins hlt)⟩
            rw [Faults, hread]
            exact hat.error_eq
          · left
            rw [Faults, hread]
            exact hat.of_current_error error ((Tokens.current_drop_of_le hge).trans hstop)

/-- Tokens that stand further back have the same fault further back. -/
theorem faults_shift (hlocal : Local reader other) (hlocal' : Local other reader)
    (hok : ∀ tokens : Tokens, tokens.stop.rest ≠ [] → ∀ value left, other tokens ≠ .ok value left)
    (hread : reader tokens = .error (.fault error) left) (bytes : Nat) :
    Faults other (tokens.shift bytes) (error.shift bytes) := by
  have htracks := hlocal tokens (tokens.shift bytes)
  simp only [Tracks, hread] at htracks
  obtain ⟨count, fault, -, hat, hfaults⟩ := htracks
  have hlooks := Tokens.map_look_shift bytes tokens
  have hbegins : tokens.pending.map Token.look <+: (tokens.shift bytes).pending.map Token.look := by
    rw [hlooks]
  have hbegins' : (tokens.shift bytes).pending.map Token.look <+:
      tokens.pending.map Token.look := by
    rw [hlooks]
  have hshift : ∀ count fault, error = ⟨.parse fault, (tokens.drop count).position⟩ →
      error.shift bytes = ⟨.parse fault, ((tokens.shift bytes).drop count).position⟩ := by
    rintro count fault rfl
    rw [Tokens.position_drop_shift]
    rfl
  by_cases halike : tokens.AlikeFor (count + 1) (tokens.shift bytes)
  · rw [hshift count fault hat.error_eq]
    exact hfaults halike
  · -- Otherwise the fault is the character where the tokens stop.
    have hge : tokens.pending.length ≤ count :=
      Nat.le_of_not_lt fun hlt => halike (Tokens.alikeFor_of_lt hbegins hlt)
    have hrest : tokens.stop.rest ≠ [] := by
      intro hnil
      have hnil' : (tokens.shift bytes).stop.rest = [] := hnil
      exact halike (Tokens.alikeFor_of_look_eq hnil hnil' hlooks (count + 1))
    have hstop : (tokens.shift bytes).stop.stopped (tokens.shift bytes).file =
        .error (error.shift bytes) := Cursor.stopped_shift (hat.stopped_eq hge hrest) bytes
    rcases faults_stop_or hlocal' (hok (tokens.shift bytes) hrest) hbegins' hstop with
      hfault | ⟨count', fault', hfault, hfault'⟩
    · exact hfault
    · rwa [hshift count' fault' (hfault'.eq hread)]

/-! ## Items and what stands behind them -/

namespace ReadsItems

variable {item : Nat → Reader α} {tree : δ → α} {terminals : δ → List Terminal} {holds : δ → Prop}
  {follows : δ → List Terminal → Prop} (h : ReadsItems item tree terminals holds follows)
  {first second left' : Tokens} {values values' : List α} {fuel rounds fuel' rounds' : Nat}

include h

/-- Behind what is read to its end, what can be read is read as it is by itself. -/
theorem yields_append (hfirst : untilEnd (item fuel) rounds first = .ok values left)
    (hsecond : untilEnd (item fuel') rounds' second = .ok values' left') (bytes fuel'' : Nat) :
    Yields (untilEnd (item fuel'') fuel'') (first.append (second.shift bytes))
      (· = values ++ values') [] := by
  obtain ⟨derivations, hshows, hfits, hholds, rfl⟩ := h.exists_shows hfirst
  obtain ⟨derivations', hshows', hfits', hholds', rfl⟩ := h.exists_shows hsecond
  rw [← List.map_append]
  refine h.yields ⟨?_, hshows'.stop_rest⟩ ?_ (List.forall_mem_append.mpr ⟨hholds, hholds'⟩)
  · rw [List.flatMap_append, Tokens.terminals_append, Tokens.terminals_shift, hshows.terminals_eq,
      hshows'.terminals_eq]
  · rw [List.flatMap_append]
    exact List.forall_mem_append.mpr ⟨hfits, hfits'⟩

variable (hlocal : ∀ fuel fuel', Local (item fuel) (item fuel'))

include hlocal

/-- A derivation is read off all tokens that start with its terminals, unless they end there and not
where the source does. -/
theorem reads {derivation : δ} (hholds : holds derivation) {rest : List Terminal}
    (hfits : ∀ terminal ∈ terminals derivation, terminal.Fits) (hfollows : follows derivation rest)
    (hterminals : tokens.terminals = terminals derivation ++ rest)
    (hend : rest ≠ [] ∨ tokens.stop.rest = []) (fuel : Nat) :
    Reads (item fuel) tokens (tree derivation) (tokens.drop (terminals derivation).length) := by
  have hshows : tokens.closed.Shows (terminals derivation ++ rest) := ⟨hterminals, rfl⟩
  obtain ⟨_, left, hread, rfl, hleft⟩ :=
    (h.complete derivation hholds tokens.closed.fuel hfits hfollows hshows).exists_ok
      (h.advances tokens.closed)
  have htracks := hlocal tokens.closed.fuel fuel tokens.closed tokens
  simp only [Tracks, hread] at htracks
  obtain ⟨count, -, rfl, hreads⟩ := htracks
  have hrest : (tokens.drop count).terminals = rest := hleft.terminals_eq
  have halike : tokens.closed.AlikeFor (count + 1) tokens := by
    refine Tokens.closed_alikeFor (hend.imp_left fun hne => ?_)
    rw [← hrest] at hne
    exact Tokens.lt_length_of_terminals_drop hne
  rw [← Tokens.drop_eq_drop_length hterminals hrest]
  exact hreads halike

/-- A fault behind items is a fault of all the tokens. -/
theorem faults_append {derivations : List δ} {rest : List Terminal}
    (hholds : ∀ derivation ∈ derivations, holds derivation)
    (hfits : ∀ terminal ∈ derivations.flatMap terminals, terminal.Fits)
    (hfollows : ∀ derivation (others : List δ),
      follows derivation (others.flatMap terminals ++ rest))
    (hterminals : tokens.terminals = derivations.flatMap terminals ++ rest)
    (hend : rest ≠ [] ∨ tokens.stop.rest = []) {fuel : Nat}
    (hfaults : ∀ rounds, Faults (untilEnd (item fuel) rounds)
      (tokens.drop (derivations.flatMap terminals).length) error) (rounds : Nat) :
    Faults (untilEnd (item fuel) rounds) tokens error := by
  induction derivations generalizing tokens rounds with
  | nil => exact hfaults rounds
  | cons first others ih =>
      cases rounds with
      | zero => trivial
      | succ rounds =>
          rw [List.forall_mem_cons] at hholds
          rw [List.flatMap_cons, List.forall_mem_append] at hfits
          rw [List.flatMap_cons, List.append_assoc] at hterminals
          have hmore : tokens.atEnd = false := by
            rw [← Bool.not_eq_true, atEnd_iff, hterminals]
            exact fun hnil => h.ne_nil first (List.append_eq_nil_iff.mp hnil.1).1
          have hhas : Reads hasTokens tokens true tokens := by
            refine ⟨?_, rfl⟩
            rw [hmore]
            rfl
          have hfirst := h.reads hlocal hholds.1 hfits.1 (hfollows first others) hterminals
            (hend.imp_left fun hne hnil => hne (List.append_eq_nil_iff.mp hnil).2) fuel
          have hothers := ih hholds.2 hfits.2 (Tokens.terminals_drop hterminals) hend
            (by simpa only [Tokens.drop_drop, List.flatMap_cons, List.length_append] using hfaults)
            rounds
          rw [untilEnd]
          exact hhas.bind_faults (hfirst.bind_faults hothers.bind)

/-- Behind what is read to its end, the fault is the one that the tokens have by themselves, as far
back as they stand. -/
theorem faults_append_shift (hfirst : untilEnd (item fuel) rounds first = .ok values left)
    (hsecond : untilEnd (item fuel') rounds' second = .error (.fault error) left')
    (hfollows : ∀ derivation (others : List δ),
      follows derivation (others.flatMap terminals ++ second.terminals)) (bytes fuel'' : Nat) :
    Faults (untilEnd (item fuel'') fuel'') (first.append (second.shift bytes))
      (error.shift bytes) := by
  have huntil : ∀ fuel rounds fuel' rounds',
      Local (untilEnd (item fuel) rounds) (untilEnd (item fuel') rounds') :=
    fun fuel rounds fuel' rounds' => .untilEnd (hlocal fuel fuel') rounds rounds'
  have hok : ∀ rounds (tokens : Tokens), tokens.stop.rest ≠ [] → ∀ values left,
      untilEnd (item fuel'') rounds tokens ≠ .ok values left := by
    intro rounds tokens hrest values left hread
    obtain ⟨derivations, hshows, -⟩ := h.exists_shows hread
    exact hrest hshows.stop_rest
  obtain ⟨derivations, hshows, hfits, hholds, -⟩ := h.exists_shows hfirst
  have hterminals : (first.append (second.shift bytes)).terminals =
      derivations.flatMap terminals ++ second.terminals := by
    rw [Tokens.terminals_append, Tokens.terminals_shift, hshows.terminals_eq]
  by_cases hend : second.terminals ≠ [] ∨ second.stop.rest = []
  · refine h.faults_append hlocal hholds hfits hfollows hterminals hend (fun rounds'' => ?_) fuel''
    rw [← hshows.terminals_eq, Tokens.drop_append]
    exact faults_shift (huntil _ _ _ _) (huntil _ _ _ _) (hok rounds'') hsecond bytes
  · -- The second tokens are none, and the fault is the character that starts none.
    obtain ⟨hnil, hrest⟩ := not_or.mp hend
    have hpending : second.pending = [] := List.map_eq_nil_iff.mp (not_not.mp hnil)
    have htracks := huntil fuel' rounds' fuel' rounds' second second
    simp only [Tracks, hsecond] at htracks
    obtain ⟨count, fault, -, hat, -⟩ := htracks
    have hstop : (first.append (second.shift bytes)).stop.stopped
        (first.append (second.shift bytes)).file = .error (error.shift bytes) :=
      Cursor.stopped_shift (hat.stopped_eq (by simp [hpending]) hrest) bytes
    have hbegins : (first.append (second.shift bytes)).pending.map Token.look <+:
        first.pending.map Token.look := by
      simp [Tokens.append, Tokens.shift, hpending]
    rcases faults_stop_or (huntil fuel'' fuel'' fuel rounds)
        (hok fuel'' (first.append (second.shift bytes)) hrest) hbegins hstop with
      hfault | ⟨count, fault, -, hfault⟩
    · exact hfault
    · rw [Faults, hfirst] at hfault
      exact hfault.elim

end ReadsItems

end Reader

end IntScript
