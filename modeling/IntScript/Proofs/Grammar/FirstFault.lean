import Mathlib
import IntScript.Proofs.Grammar.Viability
import IntScript.Proofs.Source.RoundTrip

/-!
# Faults are at the first token that fits nowhere

A source that cannot be read has its fault as far in front as possible, and no further.  The tokens
before the fault are the first ones of a source that can be read.  No source can be read that starts
with these tokens and the one at the fault, and all these sources have the same fault at that token.
Where no token starts at the fault, it is about the character there.

* `FaultsFirst` : the statement for one source, one fault and one offset.
* `ReadsBy` : what the two parsers have in common.
* `faultsFirst_of_parse_error` : the main result.  What comes before the fault is completed by
  `Reader.Viable`, and what comes behind it does not matter by `Reader.Local`; the tokens before an
  offset are the first ones by `Tokens.Ascending`.
-/

namespace IntScript

open Grammar Text

/-- The tokens of a source, up to its end or to the first character that starts none. -/
def tokensOf (source : String) : List Token :=
  (Cursor.ofSource source).tokens.1

/-- The tokens that start before an offset. -/
def tokensBefore (source : String) (offset : UInt32) : List Token :=
  (tokensOf source).filter (·.start < offset)

/-- The source cannot be read because of what stands at the offset, and of nothing before it or
behind it. -/
structure FaultsFirst {α : Type} (parse : String → String → Except Error α) (source : String)
    (fault : ParseFault) (offset : UInt32) : Prop where
  /-- Some source that can be read starts with the tokens before the offset. -/
  viable : ∃ other, (∀ file, ∃ value, parse other file = .ok value) ∧
    (tokensBefore source offset).map Token.look <+: (tokensOf other).map Token.look
  /-- All sources that start with these tokens and the one at the offset have the same fault. -/
  at_token : ∀ token ∈ tokensOf source, token.start = offset → ∀ other file,
    (tokensBefore source offset ++ [token]).map Token.look <+: (tokensOf other).map Token.look →
    ∃ second, (tokensOf other)[(tokensBefore source offset).length]? = some second ∧
      parse other file = .error ⟨.parse fault, ⟨second.start, file⟩⟩
  /-- All sources that consist of these tokens have the same fault at the end. -/
  at_end : offset.toNat = source.utf8ByteSize → ∀ other file tokens last,
    tokenize other file = .ok (tokens ++ [last]) →
    tokens.map Token.look = (tokensBefore source offset).map Token.look →
    parse other file = .error ⟨.parse fault, ⟨last.start, file⟩⟩
  /-- Otherwise no token starts with the character at the offset, which is what the fault says. -/
  at_no_token : (∀ token ∈ tokensOf source, token.start ≠ offset) →
    offset.toNat ≠ source.utf8ByteSize →
    ∃ c rest, dropBytes? offset.toNat source.toList = some (c :: rest) ∧
      Lexeme.ofText? (c :: rest) = none ∧ fault = .unrecognised (String.ofList [c])

/-! ## Sources that start with given tokens -/

theorem tokensBefore_offset {source : String} (hsize : source.utf8ByteSize < UInt32.size)
    (file : String) (count : Nat) :
    tokensBefore source ((Tokens.ofSource source file).drop count).offset =
      (tokensOf source).take count :=
  (Tokens.ascending_ofSource hsize file).filter_eq_take count

theorem map_look_eq {source : String} {tokens : List Token}
    (hmem : ∀ token ∈ tokens, token ∈ tokensOf source) :
    tokens.map Token.look = (tokens.map Token.terminal).map Terminal.look := by
  rw [List.map_map]
  exact List.map_congr_left fun token h => Cursor.look_eq_of_mem_tokens token (hmem token h)

theorem Reader.Spends.eq_map_take {tokens : Tokens} {spent : List Terminal} {count : Nat}
    (h : Reader.Spends tokens spent (tokens.drop count)) :
    spent = (tokens.pending.take count).map Token.terminal := by
  have hsplit := h.terminals_eq
  rw [Tokens.terminals, ← List.take_append_drop count tokens.pending, List.map_append] at hsplit
  exact (List.append_cancel_right hsplit).symm

/-- The spellings side by side are a source with these tokens. -/
theorem exists_shows {terminals : List Terminal} (h : ∀ terminal ∈ terminals, terminal.Occurs) :
    ∃ source, ∀ file, (Tokens.ofSource source file).Shows terminals := by
  refine ⟨String.ofList (spaced terminals), fun file => Scans.shows ?_ file⟩
  rw [String.toList_ofList]
  exact Scans.spaced h

/-! ## Sources that are alike up to a place -/

section

variable {source : String} (hsize : source.utf8ByteSize < UInt32.size) {file : String} {count : Nat}

include hsize

/-- If a token starts at the place, the sources are alike that start with this token behind those
before it. -/
theorem alikeFor_of_token {token : Token} (hmem : token ∈ tokensOf source)
    (hstart : token.start = ((Tokens.ofSource source file).drop count).offset) {other : String}
    (otherFile : String)
    (hlooks : (tokensBefore source token.start ++ [token]).map Token.look <+:
      (tokensOf other).map Token.look) :
    (Tokens.ofSource source file).AlikeFor (count + 1) (Tokens.ofSource other otherFile) ∧
      ∃ second, (tokensOf other)[(tokensBefore source token.start).length]? = some second ∧
        ((Tokens.ofSource other otherFile).drop count).position = ⟨second.start, otherFile⟩ := by
  have htoken : (tokensOf source)[count]? = some token :=
    (Tokens.ascending_ofSource hsize file).getElem?_of_start_eq hmem hstart
  have hlt := (List.getElem?_eq_some_iff.mp htoken).1
  have hbefore : tokensBefore source token.start = (tokensOf source).take count := by
    rw [hstart, tokensBefore_offset hsize]
  have hlength : ((tokensOf source).take count).length = count :=
    List.length_take_of_le (Nat.le_of_lt hlt)
  have htake : (tokensOf source).take count ++ [token] = (tokensOf source).take (count + 1) := by
    rw [List.take_add_one, htoken, Option.toList_some]
  rw [hbefore, htake] at hlooks
  have hlt' : count < (tokensOf other).length := by
    have hle := hlooks.length_le
    simp only [List.length_map, List.length_take_of_le hlt] at hle
    exact hle
  have hsecond := List.getElem?_eq_getElem hlt'
  refine ⟨Tokens.alikeFor_of_prefix hlt hlooks, (tokensOf other)[count], ?_, ?_⟩
  · rwa [hbefore, hlength]
  · rw [Tokens.position, Tokens.offset_drop hsecond]
    rfl

theorem toNat_offset_drop_lt (hlength : count < (tokensOf source).length) :
    ((Tokens.ofSource source file).drop count).offset.toNat < source.utf8ByteSize := by
  rw [← byteLength_toList] at hsize ⊢
  have hstands := Cursor.StandsIn.ofSource source
  rw [Tokens.offset_drop (List.getElem?_eq_getElem hlength)]
  exact Nat.lt_of_lt_of_le (hstands.start_bounds hsize _ (List.getElem_mem hlength)).2
    hstands.tokens.offset_le

theorem toNat_offset_drop (hlength : (tokensOf source).length ≤ count) :
    ((Tokens.ofSource source file).drop count).offset.toNat =
      (Tokens.ofSource source file).stop.offset := by
  rw [← byteLength_toList] at hsize
  rw [Tokens.offset_drop_of_le hlength]
  exact (Cursor.StandsIn.ofSource source).tokens.toNat_offset hsize

/-- If the source ends at the place, the sources are alike that consist of the same tokens. -/
theorem alikeFor_of_end
    (hend : ((Tokens.ofSource source file).drop count).offset.toNat = source.utf8ByteSize)
    {other otherFile : String} {tokens : List Token} {last : Token}
    (htokenize : tokenize other otherFile = .ok (tokens ++ [last]))
    (hlooks : tokens.map Token.look = (tokensBefore source
      ((Tokens.ofSource source file).drop count).offset).map Token.look) :
    (Tokens.ofSource source file).AlikeFor (count + 1) (Tokens.ofSource other otherFile) ∧
      ((Tokens.ofSource other otherFile).drop count).position = ⟨last.start, otherFile⟩ := by
  have hlength : (tokensOf source).length ≤ count :=
    Nat.le_of_not_lt fun hlt => Nat.ne_of_lt (toNat_offset_drop_lt hsize hlt) hend
  have hstop : (Tokens.ofSource source file).stop.rest = [] := by
    rw [toNat_offset_drop hsize hlength, ← byteLength_toList] at hend
    exact (Cursor.StandsIn.ofSource source).tokens.rest_eq_nil_iff.mpr hend
  rw [tokensBefore_offset hsize, List.take_of_length_le hlength] at hlooks
  obtain ⟨rfl, hstop', rfl⟩ := tokenize_eq_ok_iff.mp htokenize
  refine ⟨Tokens.alikeFor_of_look_eq hstop hstop' hlooks (count + 1), ?_⟩
  have hlength' : (Tokens.ofSource other otherFile).pending.length ≤ count := by
    have heq := congrArg List.length hlooks
    simp only [List.length_map] at heq
    exact Nat.le_trans (Nat.le_of_eq heq) hlength
  rw [Tokens.position, Tokens.offset_drop_of_le hlength']
  rfl

/-- If neither a token starts at the place nor the source ends there, the character there is not the
start of any token, and it is the error to read on. -/
theorem exists_unrecognised
    (hstart : ∀ token ∈ tokensOf source,
      token.start ≠ ((Tokens.ofSource source file).drop count).offset)
    (hend : ((Tokens.ofSource source file).drop count).offset.toNat ≠ source.utf8ByteSize) :
    ∃ c rest, dropBytes? ((Tokens.ofSource source file).drop count).offset.toNat source.toList =
        some (c :: rest) ∧
      Lexeme.ofText? (c :: rest) = none ∧
      ∃ position, ((Tokens.ofSource source file).drop count).current =
        .error ⟨.parse (.unrecognised (String.ofList [c])), position⟩ := by
  have hlength : (tokensOf source).length ≤ count :=
    Nat.le_of_not_lt fun hlt => hstart _ (List.getElem_mem hlt)
      (Tokens.offset_drop (List.getElem?_eq_getElem hlt)).symm
  have hstands := (Cursor.StandsIn.ofSource source).tokens
  have hnext := Cursor.next?_tokens (Cursor.ofSource source)
  have hdrop := hstands.dropBytes?_eq
  rw [toNat_offset_drop hsize hlength] at hend ⊢
  rw [← byteLength_toList] at hend
  cases hrest : (Tokens.ofSource source file).stop.rest with
  | nil => exact absurd (hstands.rest_eq_nil_iff.mp hrest) hend
  | cons c rest =>
      refine ⟨c, rest, hdrop.trans (congrArg some hrest), ?_,
        ((Tokens.ofSource source file).drop count).position, ?_⟩
      · rw [← hrest]
        exact Option.map_eq_none_iff.mp hnext
      · rw [Tokens.current_drop_of_le hlength, Tokens.position, Tokens.offset_drop_of_le hlength,
          Cursor.stopped, hrest]
        rfl

end

/-! ## What the parsers have in common -/

namespace Reader

theorem result_eq_error_iff {α : Type} {k : Nat} {tokens : Tokens} {reader : Reader α}
    (advances : Advances k reader tokens) {error : Error} :
    reader.result tokens advances = .error error ↔
      ∃ left, reader tokens = .error (.fault error) left := by
  unfold result
  split
  next heq => simp [heq]
  next fault left heq =>
    constructor
    · intro h
      exact ⟨left, by rw [heq, Except.error.inj h]⟩
    · rintro ⟨left', h⟩
      cases heq.symm.trans h
      rfl
  next heq => simp [Advances, heq] at advances

end Reader

/-- The function reads sources as the reader does, for which any fuel is as good as any other and
which accepts a language and completes to it what it reads before a fault. -/
structure ReadsBy {α : Type} (parse : String → String → Except Error α) (reader : Nat → Reader α)
    (language : Language) : Prop where
  advances : ∀ tokens : Tokens, Reader.Advances 0 (reader tokens.fuel) tokens
  parse_eq : ∀ source file, parse source file =
    (reader (Tokens.ofSource source file).fuel).result (Tokens.ofSource source file) (advances _)
  isLocal : ∀ fuel fuel', Reader.Local (reader fuel) (reader fuel')
  viable : ∀ fuel tokens, Reader.Viable (reader fuel) tokens language
  accepts : ∀ {source file terminals}, (Tokens.ofSource source file).Shows terminals →
    (∀ terminal ∈ terminals, terminal.Fits) → language terminals →
    ∃ value, parse source file = .ok value

theorem readsBy_parseProgram : ReadsBy parseProgram (Reader.program .full)
    (fun word => ∃ items : List Item, items.flatMap Item.terminals = word ∧
      ∀ item ∈ items, item.AttachesNearest) where
  advances := fun _ => .program
  parse_eq := fun _ _ => rfl
  isLocal := .program .full
  viable := fun fuel tokens => Reader.viable_untilEnd (Reader.parses_definition fuel)
    (fun _ _ h => h) fuel tokens
  accepts := by
    rintro source file _ hshows hfits ⟨items, rfl, hnearest⟩
    exact ⟨_, parseProgram_eq_ok_iff_shows.mpr ⟨items, hshows, hfits, hnearest, rfl⟩⟩

theorem readsBy_parseStatements : ReadsBy parseStatements (Reader.statements .full)
    (fun word => ∃ lines : List Line, lines.flatMap Line.terminals = word ∧
      ∀ line ∈ lines, line.AttachesNearest) where
  advances := fun _ => .statements
  parse_eq := fun _ _ => rfl
  isLocal := .statements .full
  viable := fun fuel tokens => Reader.viable_untilEnd (Reader.parses_line fuel)
    (fun _ _ h => h.1) fuel tokens
  accepts := by
    rintro source file _ hshows hfits ⟨lines, rfl, hnearest⟩
    rw [← Line.allTerminals_eq_flatMap] at hshows hfits
    exact ⟨_, parseStatements_eq_ok_iff_shows.mpr
      ⟨lines, hshows, hfits, Line.allAttachNearest_iff.mpr hnearest, rfl⟩⟩

namespace ReadsBy

variable {α : Type} {parse : String → String → Except Error α} {reader : Nat → Reader α}
  {language : Language} (h : ReadsBy parse reader language)

include h

theorem error_of_faults {source file : String} {error : Error}
    (hfaults : Reader.Faults (reader (Tokens.ofSource source file).fuel)
      (Tokens.ofSource source file) error) : parse source file = .error error := by
  rw [h.parse_eq, Reader.result_eq_error_iff]
  have hadvances := h.advances (Tokens.ofSource source file)
  unfold Reader.Faults at hfaults
  unfold Reader.Advances at hadvances
  split at hfaults
  next => exact hfaults.elim
  next left heq => exact ⟨left, by rw [heq, hfaults]⟩
  next heq =>
    rw [heq] at hadvances
    exact hadvances.elim

section

variable {source file : String} {error : Error} (herror : parse source file = .error error)

include herror

/-- The fault arises at some number of tokens, and with all tokens that are alike as far as that. -/
theorem exists_fault : ∃ fault, ∀ others : Tokens, ∃ count,
    ((Tokens.ofSource source file).drop count).AtFault fault error ∧
      ((Tokens.ofSource source file).AlikeFor (count + 1) others →
        Reader.Faults (reader others.fuel) others
          ⟨.parse fault, (others.drop count).position⟩) := by
  rw [h.parse_eq, Reader.result_eq_error_iff] at herror
  obtain ⟨left, hread⟩ := herror
  have htracks := fun others : Tokens =>
    h.isLocal (Tokens.ofSource source file).fuel others.fuel (Tokens.ofSource source file) others
  simp only [Reader.Tracks, hread] at htracks
  obtain ⟨_, fault, -, hfault, -⟩ := htracks (Tokens.ofSource source file)
  refine ⟨fault, fun others => ?_⟩
  obtain ⟨count, fault', -, hfault', hfaults⟩ := htracks others
  obtain rfl : fault' = fault := by
    have heq := hfault'.error_eq.symm.trans hfault.error_eq
    cases congrArg Error.cause heq
    rfl
  exact ⟨count, hfault', hfaults⟩

section

variable (hsize : source.utf8ByteSize < UInt32.size)

include hsize

theorem exists_completed : ∃ other, (∀ file, ∃ value, parse other file = .ok value) ∧
    (tokensBefore source error.position.offset).map Token.look <+:
      (tokensOf other).map Token.look := by
  rw [h.parse_eq, Reader.result_eq_error_iff] at herror
  obtain ⟨left, hread⟩ := herror
  obtain ⟨count, spent, hspends, hposition, completion, hcompletion, hword⟩ :=
    (h.viable _ _).faultsViably error left hread
  have hbefore : tokensBefore source error.position.offset = (tokensOf source).take count := by
    rw [hposition]
    exact tokensBefore_offset hsize file count
  have hspent : spent = ((tokensOf source).take count).map Token.terminal := hspends.eq_map_take
  have hoccurs : ∀ terminal ∈ spent ++ completion, terminal.Occurs := by
    refine List.forall_mem_append.mpr ⟨fun terminal hmem => ?_, hcompletion⟩
    have hfits := hspends.fits terminal hmem
    rw [hspent] at hmem
    obtain ⟨token, htoken, rfl⟩ := List.mem_map.mp hmem
    exact Cursor.occurs_of_mem_tokens (List.mem_of_mem_take htoken) hfits
  obtain ⟨other, hshows⟩ := exists_shows hoccurs
  refine ⟨other, fun file => h.accepts (hshows file) (fun terminal hmem => ?_) hword, ?_⟩
  · exact (hoccurs terminal hmem).proper.2
  · have hterminals : (tokensOf other).map Token.terminal = spent ++ completion :=
      (hshows file).terminals_eq
    rw [hbefore, map_look_eq fun token => List.mem_of_mem_take, map_look_eq fun _ hmem => hmem,
      hterminals, ← hspent, List.map_append]
    exact List.prefix_append _ _

theorem faultsFirst : ∃ fault offset, error = ⟨.parse fault, ⟨offset, file⟩⟩ ∧
    FaultsFirst parse source fault offset := by
  obtain ⟨fault, hfault⟩ := h.exists_fault herror
  obtain ⟨count, hat, -⟩ := hfault (Tokens.ofSource source file)
  have hviable := h.exists_completed herror hsize
  obtain rfl := hat.error_eq
  refine ⟨fault, ((Tokens.ofSource source file).drop count).offset, rfl, hviable, ?_, ?_, ?_⟩
  · intro token hmem hstart other otherFile hlooks
    -- The number of tokens may be another one, but the place is where the error is.
    obtain ⟨count', hat', hfaults⟩ := hfault (Tokens.ofSource other otherFile)
    have hoffset := congrArg (·.position.offset) hat'.error_eq
    rw [← hstart] at hlooks ⊢
    obtain ⟨halike, second, hsecond, hposition⟩ :=
      alikeFor_of_token hsize hmem (hstart.trans hoffset) otherFile hlooks
    refine ⟨second, hsecond, h.error_of_faults ?_⟩
    rw [← hposition]
    exact hfaults halike
  · intro hend other otherFile tokens last htokenize hlooks
    obtain ⟨count', hat', hfaults⟩ := hfault (Tokens.ofSource other otherFile)
    have hoffset : ((Tokens.ofSource source file).drop count).offset =
      ((Tokens.ofSource source file).drop count').offset :=
      congrArg (·.position.offset) hat'.error_eq
    rw [hoffset] at hend hlooks
    obtain ⟨halike, hposition⟩ := alikeFor_of_end hsize hend htokenize hlooks
    apply h.error_of_faults
    rw [← hposition]
    exact hfaults halike
  · intro hstart hend
    obtain ⟨c, rest, hdrop, hlexeme, position, hcurrent⟩ := exists_unrecognised hsize hstart hend
    refine ⟨c, rest, hdrop, hlexeme, ?_⟩
    have heq := hat.of_current_error _ hcurrent
    cases congrArg Error.cause heq
    rfl

end

end

end ReadsBy

/-- Whatever the parsers cannot read has its fault at the first token that fits nowhere behind those
before it, or at the first character that starts no token. -/
theorem faultsFirst_of_parse_error (source file : String)
    (hsize : source.utf8ByteSize < UInt32.size) :
    (∀ error, parseProgram source file = .error error →
      ∃ fault offset, error = ⟨.parse fault, ⟨offset, file⟩⟩ ∧
        FaultsFirst parseProgram source fault offset) ∧
    (∀ error, parseStatements source file = .error error →
      ∃ fault offset, error = ⟨.parse fault, ⟨offset, file⟩⟩ ∧
        FaultsFirst parseStatements source fault offset) :=
  ⟨fun _ h => readsBy_parseProgram.faultsFirst h hsize,
    fun _ h => readsBy_parseStatements.faultsFirst h hsize⟩

/-- An operator without its right operand, and a name in front of a character that starts no token,
where the look at the second token is what fails. -/
theorem faultsFirst_of_parse_error_operand_and_character :
    "define f(a) \x7b x ~ \x7d".utf8ByteSize < UInt32.size ∧
    parseProgram "define f(a) \x7b x ~ \x7d" "shell" =
      .error ⟨.parse (.unrecognised "~"), ⟨16, "shell"⟩⟩ ∧
    FaultsFirst parseProgram "define f(a) \x7b x ~ \x7d" (.unrecognised "~") 16 ∧
    "x = 1 + ; y".utf8ByteSize < UInt32.size ∧
    parseStatements "x = 1 + ; y" "shell" =
      .error ⟨.parse (.unexpected ";"), ⟨8, "shell"⟩⟩ ∧
    FaultsFirst parseStatements "x = 1 + ; y" (.unexpected ";") 8 := by
  have hcharacter : parseProgram "define f(a) \x7b x ~ \x7d" "shell" =
      .error ⟨.parse (.unrecognised "~"), ⟨16, "shell"⟩⟩ := by cbv
  have hoperand : parseStatements "x = 1 + ; y" "shell" =
      .error ⟨.parse (.unexpected ";"), ⟨8, "shell"⟩⟩ := by cbv
  refine ⟨by decide, hcharacter, ?_, by decide, hoperand, ?_⟩
  · obtain ⟨fault, offset, heq, hfirst⟩ :=
      (faultsFirst_of_parse_error _ "shell" (by decide)).1 _ hcharacter
    cases heq
    exact hfirst
  · obtain ⟨fault, offset, heq, hfirst⟩ :=
      (faultsFirst_of_parse_error _ "shell" (by decide)).2 _ hoperand
    cases heq
    exact hfirst

end IntScript
