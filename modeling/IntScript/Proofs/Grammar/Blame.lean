import Mathlib
import IntScript.Proofs.Grammar.Accesses
import IntScript.Proofs.Grammar.FirstFault

/-!
# What faults are about

A fault names the text of the token that it is about, and its offset is where that token starts.
Most tokens are judged before they are consumed, but a numeral is judged behind it, and what fails
in a lookahead is at tokens that the reader has gone back from.  Still each fault is about a token
that was seen, and its text and its offset are those of the same one.

* `Tokens.Causes` : what an error can be about, in terms of tokens.
* `Reader.hereditary_staysWithin` : readers have no other errors, whatever tokens they start from.
* `PointsInto` : what an error is about in terms of the source, and where it stands.
* `exists_pointsInto_of_parseProgram`, `exists_pointsInto_of_parseStatements` : the main results.
-/

namespace IntScript

open Text

namespace Tokens

/-- A reader can come to the token.  The end of the source counts as one. -/
def Has (tokens : Tokens) (token : Token) : Prop :=
  ∃ count, (tokens.drop count).current = .ok token

/-- The error is about one of the tokens, or about the character where they come to an end. -/
inductive Causes (tokens : Tokens) : Error → Prop where
  | token {token : Token} {fault : ParseFault} (hhas : tokens.Has token)
      (htoken : fault.token = token.text) (hfault : ∀ text, fault ≠ .unrecognised text) :
      Causes tokens ⟨.parse fault, ⟨token.start, tokens.file⟩⟩
  | character {error : Error} (hstopped : tokens.stop.stopped tokens.file = .error error) :
      Causes tokens error

variable {tokens : Tokens} {count : Nat} {error : Error}

theorem causes_of_current_error (h : (tokens.drop count).current = .error error) :
    tokens.Causes error := by
  unfold current at h
  split at h
  · cases h
  · exact .character h

end Tokens

/-! ## Readers -/

namespace Reader

/-- The reader leaves some of the tokens that it starts from, or has an error about them. -/
def StaysWithin (tokens : Tokens) {α : Type} (reader : Reader α) : Prop :=
  ∀ count, match reader (tokens.drop count) with
    | .ok _ left => ∃ more, left = tokens.drop more
    | .error (.fault error) _ => tokens.Causes error
    | .error .outOfFuel _ => True

variable {tokens : Tokens} {α β : Type} {reader : Reader α} {next : α → Reader β}

theorem StaysWithin.bind (h : reader.StaysWithin tokens)
    (hnext : ∀ value, (next value).StaysWithin tokens) : (reader >>= next).StaysWithin tokens := by
  intro count
  have hfirst := h count
  simp only [Bind.bind, EStateM.bind]
  cases houtcome : reader (tokens.drop count) with
  | ok value left =>
      rw [houtcome] at hfirst
      obtain ⟨more, rfl⟩ := hfirst
      exact hnext value more
  | error halt left =>
      rw [houtcome] at hfirst
      cases halt <;> exact hfirst

theorem hereditary_staysWithin (tokens : Tokens) :
    Hereditary tokens.Has fun _ reader => reader.StaysWithin tokens where
  pure _ count := ⟨count, rfl⟩
  bind h hnext := h.bind hnext
  current_bind := by
    intro α next hnext count
    simp only [Bind.bind, EStateM.bind, current]
    cases hcurrent : (tokens.drop count).current with
    | ok token => exact hnext token ⟨count, hcurrent⟩ count
    | error error => exact Tokens.causes_of_current_error hcurrent
  advance_bind := by
    intro α next hnext count
    simp only [Bind.bind, EStateM.bind, Reader.advance]
    cases hcurrent : (tokens.drop count).current with
    | ok token =>
        have hrest : (tokens.drop count).rest = tokens.drop (count + 1) := by
          rw [← Tokens.drop_one, Tokens.drop_drop]
        rw [hrest]
        exact hnext token ⟨count, hcurrent⟩ (count + 1)
    | error error => exact Tokens.causes_of_current_error hcurrent
  hasTokens count := ⟨count, rfl⟩
  outOfFuel _ := trivial
  lookahead := by
    intro α reader hreader count
    have hinner := hreader count
    simp only [Reader.lookahead]
    cases houtcome : reader (tokens.drop count) with
    | ok value left => exact ⟨count, rfl⟩
    | error halt left =>
        rw [houtcome] at hinner
        cases halt <;> exact hinner
  failAt hseen htoken hfault _ := .token hseen htoken hfault

end Reader

/-! ## Sources -/

/-- What a fault at an offset of the source is about. -/
inductive FaultAt (source : String) (fault : ParseFault) (offset : UInt32) : Prop where
  /-- A token that starts there, so that its text is what stands there. -/
  | token {token : Token} {rest : List Char} (hmem : token ∈ tokensOf source)
      (hstart : token.start = offset)
      (hrest : dropBytes? offset.toNat source.toList = some (token.text.toList ++ rest))
      (htoken : fault.token = token.text) (hfault : ∀ text, fault ≠ .unrecognised text)
  /-- The end of the source. -/
  | atEnd (hend : offset.toNat = source.utf8ByteSize) (htoken : fault.token = "EOF")
      (hfault : ∀ text, fault ≠ .unrecognised text)
  /-- A character that starts no token. -/
  | character {c : Char} {rest : List Char}
      (hrest : dropBytes? offset.toNat source.toList = some (c :: rest))
      (hnone : Lexeme.ofText? (c :: rest) = none)
      (hfault : fault = .unrecognised (String.ofList [c]))

/-- Of all tokens, only a name can be spelled like the end of a source. -/
theorem Lexeme.kind_eq_identifier {source : List Char} {lexeme : Lexeme}
    (h : ofText? source = some lexeme) (htext : String.ofList lexeme.text = "EOF") :
    lexeme.kind = .identifier := by
  have hletters : lexeme.text = ['E', 'O', 'F'] := by
    rw [← @String.toList_ofList lexeme.text, htext]
    rfl
  have hsplit := text_append_rest h
  rw [hletters] at hsplit
  subst hsplit
  -- A text that starts with a letter starts with a word.
  have hword : isWordStart 'E' = true := rfl
  simp only [ofText?, List.cons_append, if_pos hword, Option.some.injEq] at h
  have hkind : lexeme.kind = wordKind (String.ofList lexeme.text) := by rw [← h]
  rw [hkind, htext]
  rfl

theorem FaultAt.atEnd_or_identifier {source : String} {fault : ParseFault} {offset : UInt32}
    (h : FaultAt source fault offset) (heof : fault.token = "EOF") :
    offset.toNat = source.utf8ByteSize ∨ ∃ token ∈ tokensOf source,
      token.start = offset ∧ token.kind = .identifier ∧ token.text = "EOF" := by
  cases h with
  | atEnd hend => exact .inl hend
  | character _ _ hfault =>
      subst hfault
      have hlength := congrArg String.length heof
      rw [ParseFault.token, String.length_ofList, List.length_singleton] at hlength
      exact absurd hlength (by decide)
  | @token token rest hmem hstart _ htoken _ =>
      have htext : token.text = "EOF" := htoken.symm.trans heof
      refine .inr ⟨token, hmem, hstart, ?_, htext⟩
      obtain ⟨start, behind, -, hnext, -⟩ :=
        (Cursor.StandsIn.ofSource source).exists_next? token hmem
      obtain ⟨lexeme, hlexeme, rfl, -⟩ := Cursor.next?_eq_some_iff.mp hnext
      exact Lexeme.kind_eq_identifier hlexeme htext

/-- The position is a place in the source, and the fault is about what stands there. -/
structure PointsInto (source file : String) (fault : ParseFault) (position : Position) : Prop where
  file_eq : position.file = file
  offset_le : position.offset.toNat ≤ source.utf8ByteSize
  faultAt : FaultAt source fault position.offset
  /-- The end of the source is named at the end only, unless a name is spelled like that. -/
  atEnd_or_identifier : fault.token = "EOF" →
    position.offset.toNat = source.utf8ByteSize ∨ ∃ token ∈ tokensOf source,
      token.start = position.offset ∧ token.kind = .identifier ∧ token.text = "EOF"

theorem FaultAt.pointsInto {source : String} {fault : ParseFault} {offset : UInt32}
    (h : FaultAt source fault offset) (hle : offset.toNat ≤ source.utf8ByteSize) (file : String) :
    PointsInto source file fault ⟨offset, file⟩ :=
  ⟨rfl, hle, h, h.atEnd_or_identifier⟩

section

variable {source file : String} (hsize : source.utf8ByteSize < UInt32.size)

include hsize

/-- A token of the source stands where it starts. -/
theorem pointsInto_of_mem {token : Token} {fault : ParseFault} (hmem : token ∈ tokensOf source)
    (htoken : fault.token = token.text) (hfault : ∀ text, fault ≠ .unrecognised text) :
    PointsInto source file fault ⟨token.start, file⟩ := by
  obtain ⟨start, behind, hstart, hnext, -⟩ :=
    (Cursor.StandsIn.ofSource source).exists_next? token hmem
  obtain ⟨lexeme, hlexeme, rfl, -⟩ := Cursor.next?_eq_some_iff.mp hnext
  rw [← byteLength_toList] at hsize
  have hoffset : (UInt32.ofNat start.offset).toNat = start.offset := hstart.toNat_offset hsize
  have hrest : dropBytes? (UInt32.ofNat start.offset).toNat source.toList =
      some ((String.ofList lexeme.text).toList ++ lexeme.rest) := by
    rw [hoffset, hstart.dropBytes?_eq, String.toList_ofList, Lexeme.text_append_rest hlexeme]
  refine FaultAt.pointsInto (.token hmem rfl hrest htoken hfault) ?_ file
  rw [← byteLength_toList]
  exact hoffset.trans_le hstart.offset_le

/-- Where the tokens come to their end, the source ends or there is a character that starts none. -/
theorem pointsInto_of_stopped {fault : ParseFault} {cursor : Cursor}
    (hstands : cursor.StandsIn source.toList) (hnext : cursor.next? = none)
    (hfault : (cursor.rest = [] ∧ fault.token = "EOF" ∧ ∀ text, fault ≠ .unrecognised text) ∨
      ∃ c rest, cursor.rest = c :: rest ∧ fault = .unrecognised (String.ofList [c])) :
    PointsInto source file fault ⟨.ofNat cursor.offset, file⟩ := by
  rw [← byteLength_toList] at hsize
  have hoffset : (UInt32.ofNat cursor.offset).toNat = cursor.offset := hstands.toNat_offset hsize
  refine FaultAt.pointsInto ?_ ?_ file
  · rcases hfault with ⟨hrest, htoken, hfault⟩ | ⟨c, rest, hrest, hfault⟩
    · have hend := hstands.rest_eq_nil_iff.mp hrest
      rw [byteLength_toList] at hend
      exact .atEnd (hoffset.trans hend) htoken hfault
    · have hdrop := hstands.dropBytes?_eq
      have hnone := Cursor.next?_eq_none_iff.mp hnext
      rw [hrest] at hdrop hnone
      rw [← hoffset] at hdrop
      exact .character hdrop hnone hfault
  · rw [← byteLength_toList]
    exact hoffset.trans_le hstands.offset_le

theorem exists_pointsInto_of_causes {error : Error}
    (h : (Tokens.ofSource source file).Causes error) :
    ∃ fault position, error = ⟨.parse fault, position⟩ ∧
      PointsInto source file fault position := by
  have hstands : (Tokens.ofSource source file).stop.StandsIn source.toList :=
    (Cursor.StandsIn.ofSource source).tokens
  have hnext : (Tokens.ofSource source file).stop.next? = none :=
    Cursor.next?_tokens (.ofSource source)
  cases h with
  | @token token fault hhas htoken hfault =>
      refine ⟨fault, _, rfl, ?_⟩
      obtain ⟨count, hcurrent⟩ := hhas
      rcases Nat.lt_or_ge count (tokensOf source).length with hlt | hge
      · have hat : ((Tokens.ofSource source file).drop count).current =
            .ok (tokensOf source)[count] := Tokens.current_drop (List.getElem?_eq_getElem hlt)
        obtain rfl := Except.ok.inj (hat.symm.trans hcurrent)
        exact pointsInto_of_mem hsize (List.getElem_mem hlt) htoken hfault
      · rw [Tokens.current_drop_of_le hge, Cursor.stopped] at hcurrent
        split at hcurrent
        next hrest =>
          cases hcurrent
          exact pointsInto_of_stopped hsize hstands hnext (.inl ⟨hrest, htoken, hfault⟩)
        next => cases hcurrent
  | character hstopped =>
      rw [Cursor.stopped] at hstopped
      split at hstopped
      next => cases hstopped
      next c rest hrest =>
        cases hstopped
        exact ⟨_, _, rfl,
          pointsInto_of_stopped hsize hstands hnext (.inr ⟨c, rest, hrest, rfl⟩)⟩

end

/-! ## Parsers -/

theorem Reader.result_causes {α : Type} {k : Nat} {tokens : Tokens} {reader : Reader α}
    (advances : Advances k reader tokens) (h : reader.StaysWithin tokens) {error : Error}
    (herror : reader.result tokens advances = .error error) : tokens.Causes error := by
  obtain ⟨left, hread⟩ := (result_eq_error_iff advances).mp herror
  have hwithin := h 0
  rw [Tokens.drop_zero, hread] at hwithin
  exact hwithin

section

variable {source file : String} {error : Error} (hsize : source.utf8ByteSize < UInt32.size)

include hsize

theorem exists_pointsInto_of_parseProgram (h : parseProgram source file = .error error) :
    ∃ fault position, error = ⟨.parse fault, position⟩ ∧
      PointsInto source file fault position :=
  exists_pointsInto_of_causes hsize (Reader.result_causes Reader.Advances.program
    ((Reader.hereditary_staysWithin _).program .full _) h)

theorem exists_pointsInto_of_parseStatements (h : parseStatements source file = .error error) :
    ∃ fault position, error = ⟨.parse fault, position⟩ ∧
      PointsInto source file fault position :=
  exists_pointsInto_of_causes hsize (Reader.result_causes Reader.Advances.statements
    ((Reader.hereditary_staysWithin _).statements .full _) h)

end

end IntScript
