import IntScript.Grammar
import IntScript.Proofs.Token.Offsets

/-!
# Places in a list of tokens

`tokens.drop count` is the state of a reader that has consumed `count` tokens, and its position is
where the next one starts.  `Tokens.AtFault` relates an error to that place, and `Tokens.AlikeFor`
says of two lists that they do not differ in front of a place, wherever their tokens stand in their
sources.

* `Tokens.Ascending.filter_eq_take` : the tokens that start before a place are those in front of it,
  because tokens start one behind the other.
* `Tokens.alikeFor_of_prefix`, `Tokens.alikeFor_of_look_eq` : lists are alike as far as their tokens
  have the same kinds and texts, the end of a source included.
-/

namespace IntScript

open Text

namespace Tokens

/-! ## Dropping tokens -/

/-- The tokens behind the first `count` ones. -/
def drop (count : Nat) (tokens : Tokens) : Tokens :=
  { tokens with pending := tokens.pending.drop count }

@[simp] theorem drop_zero (tokens : Tokens) : tokens.drop 0 = tokens := rfl

@[simp] theorem drop_drop (first second : Nat) (tokens : Tokens) :
    (tokens.drop first).drop second = tokens.drop (first + second) := by
  simp only [drop, List.drop_drop]

theorem drop_one (tokens : Tokens) : tokens.drop 1 = tokens.rest := by
  simp only [drop, rest, List.drop_one]

/-- Where the first token starts. -/
def position (tokens : Tokens) : Position :=
  ⟨tokens.offset, tokens.file⟩

variable {tokens others : Tokens} {token : Token} {count index : Nat}

theorem offset_of_current (h : tokens.current = .ok token) : tokens.offset = token.start := by
  unfold current at h
  unfold offset
  cases hpending : tokens.pending with
  | nil =>
      simp only [hpending, Cursor.stopped] at h
      split at h
      · obtain rfl := Except.ok.inj h
        rfl
      · cases h
  | cons first rest =>
      simp only [hpending, Except.ok.injEq] at h
      rw [h]

theorem pending_drop (h : tokens.pending[index]? = some token) :
    (tokens.drop index).pending = token :: tokens.pending.drop (index + 1) := by
  obtain ⟨hlt, rfl⟩ := List.getElem?_eq_some_iff.mp h
  exact List.drop_eq_getElem_cons hlt

theorem current_drop (h : tokens.pending[index]? = some token) :
    (tokens.drop index).current = .ok token := by
  rw [current, pending_drop h]

theorem offset_drop (h : tokens.pending[index]? = some token) :
    (tokens.drop index).offset = token.start := by
  rw [offset, pending_drop h]

theorem offset_drop_of_le (h : tokens.pending.length ≤ count) :
    (tokens.drop count).offset = .ofNat tokens.stop.offset := by
  rw [offset, drop, List.drop_of_length_le h]

theorem current_drop_of_le (h : tokens.pending.length ≤ count) :
    (tokens.drop count).current = tokens.stop.stopped tokens.file := by
  rw [current, drop, List.drop_of_length_le h]

/-! ## Errors at a place -/

/-- The error is about the first token.  Where no token starts, it is the error that says so. -/
structure AtFault (tokens : Tokens) (fault : ParseFault) (error : Error) : Prop where
  error_eq : error = ⟨.parse fault, tokens.position⟩
  of_current_error : ∀ halted, tokens.current = .error halted → error = halted

theorem atFault_of_current (h : tokens.current = .ok token) (fault : ParseFault) :
    tokens.AtFault fault ⟨.parse fault, ⟨token.start, tokens.file⟩⟩ where
  error_eq := by rw [position, offset_of_current h]
  of_current_error := by
    intro halted herror
    cases h.symm.trans herror

theorem exists_atFault {error : Error} (h : tokens.current = .error error) :
    ∃ fault, tokens.AtFault fault error := by
  suffices ∃ fault, error = ⟨.parse fault, tokens.position⟩ by
    obtain ⟨fault, herror⟩ := this
    exact ⟨fault, herror, fun halted hhalted => Except.error.inj (h.symm.trans hhalted)⟩
  unfold current at h
  unfold position offset
  cases hpending : tokens.pending with
  | nil =>
      simp only [hpending, Cursor.stopped] at h
      split at h
      · cases h
      · exact ⟨_, (Except.error.inj h).symm⟩
  | cons first rest => simp [hpending] at h

/-! ## The tokens before a place -/

/-- Tokens that start one behind the other, and before the place where no further one starts. -/
structure Ascending (tokens : Tokens) : Prop where
  pairwise : tokens.pending.Pairwise fun token other => token.start < other.start
  lt_stop : ∀ token ∈ tokens.pending, token.start < .ofNat tokens.stop.offset

theorem ascending_ofSource {source : String} (hsize : source.utf8ByteSize < UInt32.size)
    (file : String) : (ofSource source file).Ascending := by
  have hstands := Cursor.StandsIn.ofSource source
  rw [← byteLength_toList] at hsize
  refine ⟨hstands.pairwise_start hsize, fun token hmem => ?_⟩
  rw [UInt32.lt_iff_toNat_lt]
  exact Nat.lt_of_lt_of_eq (hstands.start_bounds hsize token hmem).2
    (hstands.tokens.toNat_offset hsize).symm

namespace Ascending

theorem start_lt (h : tokens.Ascending) (hindex : tokens.pending[index]? = some token)
    (hlt : index < count) : token.start < (tokens.drop count).offset := by
  cases hcount : tokens.pending[count]? with
  | none =>
      rw [offset_drop_of_le (List.getElem?_eq_none_iff.mp hcount)]
      exact h.lt_stop token (List.mem_of_getElem? hindex)
  | some other =>
      obtain ⟨hbound, rfl⟩ := List.getElem?_eq_some_iff.mp hindex
      obtain ⟨hbound', rfl⟩ := List.getElem?_eq_some_iff.mp hcount
      rw [offset_drop hcount]
      exact List.pairwise_iff_getElem.mp h.pairwise index count hbound hbound' hlt

theorem not_start_lt (h : tokens.Ascending) (hindex : tokens.pending[index]? = some token)
    (hle : count ≤ index) : ¬ token.start < (tokens.drop count).offset := by
  rcases Nat.eq_or_lt_of_le hle with rfl | hlt
  · rw [offset_drop hindex]
    exact UInt32.lt_irrefl _
  · have hbound := (List.getElem?_eq_some_iff.mp hindex).1
    have hcount := List.getElem?_eq_getElem (Nat.lt_trans hlt hbound)
    have hstart := h.start_lt hcount hlt
    rw [offset_drop hindex] at hstart
    rw [offset_drop hcount]
    exact UInt32.lt_asymm hstart

/-- What starts before the first token that is left is what was dropped. -/
theorem filter_eq_take (h : tokens.Ascending) (count : Nat) :
    tokens.pending.filter (·.start < (tokens.drop count).offset) = tokens.pending.take count := by
  have htake : ∀ token ∈ tokens.pending.take count,
      decide (token.start < (tokens.drop count).offset) = true := by
    intro token hmem
    obtain ⟨index, hindex⟩ := List.getElem?_of_mem hmem
    rw [List.getElem?_take] at hindex
    split at hindex
    next hlt => exact decide_eq_true (h.start_lt hindex hlt)
    next => cases hindex
  have hdrop : ∀ token ∈ tokens.pending.drop count,
      ¬ decide (token.start < (tokens.drop count).offset) = true := by
    intro token hmem
    obtain ⟨index, hindex⟩ := List.getElem?_of_mem hmem
    rw [List.getElem?_drop] at hindex
    rw [decide_eq_true_iff]
    exact h.not_start_lt hindex (Nat.le_add_right count index)
  calc tokens.pending.filter (·.start < (tokens.drop count).offset)
      = (tokens.pending.take count ++ tokens.pending.drop count).filter
          (·.start < (tokens.drop count).offset) := by rw [List.take_append_drop]
    _ = tokens.pending.take count := by
          rw [List.filter_append, List.filter_eq_self.mpr htake,
            List.filter_eq_nil_iff.mpr hdrop, List.append_nil]

/-- No other token starts where a token does. -/
theorem getElem?_of_start_eq (h : tokens.Ascending) (hmem : token ∈ tokens.pending)
    (hstart : token.start = (tokens.drop count).offset) : tokens.pending[count]? = some token := by
  obtain ⟨index, hindex⟩ := List.getElem?_of_mem hmem
  rcases Nat.lt_trichotomy index count with hlt | rfl | hgt
  · have hbefore := h.start_lt hindex hlt
    rw [hstart] at hbefore
    exact absurd hbefore (UInt32.lt_irrefl _)
  · exact hindex
  · have hbound := (List.getElem?_eq_some_iff.mp hindex).1
    have hcount := List.getElem?_eq_getElem (Nat.lt_trans hgt hbound)
    have hbefore := h.start_lt hcount hgt
    rw [offset_drop hindex, hstart, offset_drop hcount] at hbefore
    exact absurd hbefore (UInt32.lt_irrefl _)

end Ascending

/-! ## Tokens that are alike -/

/-- The first tokens are the same, wherever they stand, or there are none and both sources end. -/
structure Alike (tokens others : Tokens) : Prop where
  current : ∃ token other, tokens.current = .ok token ∧ others.current = .ok other ∧
    other.kind = token.kind ∧ other.text = token.text
  atEnd_eq : others.atEnd = tokens.atEnd

/-- The first `count` tokens are the same, where the end of a source counts as a token. -/
def AlikeFor (count : Nat) (tokens others : Tokens) : Prop :=
  ∀ index < count, (tokens.drop index).Alike (others.drop index)

namespace AlikeFor

theorem alike (h : AlikeFor (count + 1) tokens others) : tokens.Alike others :=
  h 0 (Nat.succ_pos count)

theorem of_le {more : Nat} (h : AlikeFor more tokens others) (hle : count ≤ more) :
    AlikeFor count tokens others :=
  fun index hlt => h index (Nat.lt_of_lt_of_le hlt hle)

theorem drop {first : Nat} (h : AlikeFor (first + count) tokens others) :
    AlikeFor count (tokens.drop first) (others.drop first) := by
  intro index hlt
  rw [drop_drop, drop_drop]
  exact h (first + index) (Nat.add_lt_add_left hlt first)

end AlikeFor

/-- The first tokens of two lists.  If the lists are not alike, the second one may be made up. -/
structure Counterpart (tokens others : Tokens) (token other : Token) : Prop where
  kind_eq : other.kind = token.kind
  text_eq : other.text = token.text
  other_current : tokens.Alike others → others.current = .ok other

theorem exists_counterpart (h : tokens.current = .ok token) (others : Tokens) :
    ∃ other, Counterpart tokens others token other := by
  by_cases halike : tokens.Alike others
  · obtain ⟨first, other, hfirst, hother, hkind, htext⟩ := halike.current
    obtain rfl := Except.ok.inj (h.symm.trans hfirst)
    exact ⟨other, hkind, htext, fun _ => hother⟩
  · exact ⟨token, rfl, rfl, fun h => absurd h halike⟩

theorem alike_drop {other : Token} (h : tokens.pending[index]? = some token)
    (h' : others.pending[index]? = some other) (hlook : other.look = token.look) :
    (tokens.drop index).Alike (others.drop index) where
  current := ⟨token, other, current_drop h, current_drop h', congrArg Prod.fst hlook,
    congrArg Prod.snd hlook⟩
  atEnd_eq := by simp [atEnd, pending_drop h, pending_drop h']

/-- Tokens that start with the same looks are alike as far as these go. -/
theorem alikeFor_of_prefix (hle : count ≤ tokens.pending.length)
    (h : (tokens.pending.take count).map Token.look <+: others.pending.map Token.look) :
    tokens.AlikeFor count others := by
  intro index hlt
  have htoken := List.getElem?_eq_getElem (Nat.lt_of_lt_of_le hlt hle)
  have hlook := List.prefix_iff_getElem?.mp h index (by simp; omega)
  simp only [List.getElem?_map, List.getElem_map, List.getElem_take] at hlook
  obtain ⟨other, hother, heq⟩ := Option.map_eq_some_iff.mp hlook
  exact alike_drop htoken hother heq

theorem current_drop_of_stop (hlength : tokens.pending.length ≤ count)
    (hstop : tokens.stop.rest = []) :
    (tokens.drop count).current = .ok (.atEnd (.ofNat tokens.stop.offset)) := by
  rw [current_drop_of_le hlength, Cursor.stopped, hstop]

theorem atEnd_drop_of_stop (hlength : tokens.pending.length ≤ count)
    (hstop : tokens.stop.rest = []) : (tokens.drop count).atEnd = true := by
  rw [atEnd, drop, List.drop_of_length_le hlength, hstop]
  rfl

/-- Tokens with the same looks are alike to the end of their sources and behind it. -/
theorem alikeFor_of_look_eq (hstop : tokens.stop.rest = []) (hstop' : others.stop.rest = [])
    (h : others.pending.map Token.look = tokens.pending.map Token.look) (count : Nat) :
    tokens.AlikeFor count others := by
  intro index _
  have hlook := congrArg (·[index]?) h
  simp only [List.getElem?_map] at hlook
  cases htoken : tokens.pending[index]? with
  | some token =>
      rw [htoken] at hlook
      obtain ⟨other, hother, heq⟩ := Option.map_eq_some_iff.mp hlook
      exact alike_drop htoken hother heq
  | none =>
      rw [htoken] at hlook
      have hlength := List.getElem?_eq_none_iff.mp htoken
      have hlength' := List.getElem?_eq_none_iff.mp (Option.map_eq_none_iff.mp hlook)
      exact ⟨⟨_, _, current_drop_of_stop hlength hstop, current_drop_of_stop hlength' hstop', rfl,
        rfl⟩, by rw [atEnd_drop_of_stop hlength hstop, atEnd_drop_of_stop hlength' hstop']⟩

end Tokens

end IntScript
