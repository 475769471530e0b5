import Mathlib
import IntScript.Proofs.Grammar.FirstFault
import IntScript.Proofs.Grammar.OnDemand

/-!
# Reading depends on tokens only

The parsers see of a source what `tokenize` sees of it, and nothing else.  What they read in whole
consists of tokens.  Where a source has a character that starts none, they come to it and say the
same as `tokenize`, or they have an error before it.  Sources with the same tokens, wherever these
stand, are read as the same tree, or they have the same fault at the same one of their tokens.

* `ReadsTokens` : the statement for one parser.
* `outcome?_allTokens` : `tokenize` is what comes of taking one token after the other.
* `ReadsBy.readsTokens` : the statement holds of a parser whose reader can be made a scanner.
* `parsers_read_tokens` : the main result.
-/

namespace IntScript

open Grammar Text

/-- Where the tokens of a source come to their end. -/
def stopOf (source : String) : Cursor :=
  (Cursor.ofSource source).tokens.2

/-- The error stands in the source before the place where the tokens come to their end. -/
structure PrecedesStop (source file : String) (error : Error) : Prop where
  exists_start : ∃ (fault : ParseFault) (start : Cursor), start.StandsIn source.toList ∧
    start.offset < (stopOf source).offset ∧
    error = ⟨.parse fault, ⟨.ofNat start.offset, file⟩⟩
  /-- The offsets of errors are as those of the source, unless that is so long that they wrap. -/
  offset_lt : source.utf8ByteSize < UInt32.size →
    error.position.offset < .ofNat (stopOf source).offset

/-- The function reads sources as the reader does, and it reads nothing of them but tokens. -/
structure ReadsTokens {α : Type} (parse : String → String → Except Error α)
    (reader : Nat → Reader α) : Prop where
  /-- The reader can be made a scanner. -/
  exists_scanner : ∀ fuel, ∃ scanner, Reader.OnDemand (reader fuel) scanner
  /-- To scan the source is to read the list of its tokens. -/
  on_demand : ∀ source file scanner,
    Reader.OnDemand (reader (Tokens.ofSource source file).fuel) scanner →
    scanner.outcome? source file = some (parse source file)
  /-- A source that can be read can be tokenized. -/
  tokenize_ok : ∀ source file value, parse source file = .ok value →
    ∃ tokens, tokenize source file = .ok tokens
  /-- An error about a character that starts no token is that of `tokenize`. -/
  tokenize_unrecognised : ∀ source file text position,
    parse source file = .error ⟨.parse (.unrecognised text), position⟩ →
    tokenize source file = .error ⟨.parse (.unrecognised text), position⟩
  /-- A source that cannot be tokenized has the same error, or another one that stands before. -/
  of_tokenize_error : ∀ source file error, tokenize source file = .error error →
    error.position = ⟨.ofNat (stopOf source).offset, file⟩ ∧
      ∃ other, parse source file = .error other ∧ (other = error ∨ PrecedesStop source file other)
  /-- Sources with the same kinds and texts of tokens are the same to the function. -/
  of_look_eq : ∀ source file tokens other otherFile otherTokens,
    tokenize source file = .ok tokens → tokenize other otherFile = .ok otherTokens →
    otherTokens.map Token.look = tokens.map Token.look →
    (∃ value, parse source file = .ok value ∧ parse other otherFile = .ok value) ∨
      ∃ (fault : ParseFault) (index : Nat) (token otherToken : Token),
        tokens[index]? = some token ∧ otherTokens[index]? = some otherToken ∧
        parse source file = .error ⟨.parse fault, ⟨token.start, file⟩⟩ ∧
        parse other otherFile = .error ⟨.parse fault, ⟨otherToken.start, otherFile⟩⟩

/-! ## Outcomes of readers -/

namespace Reader

variable {α β : Type} {reader : Reader α} {tokens left : Tokens}

theorem outcome?_bind_of_ok {next : α → Reader β} {value : α} (h : reader tokens = .ok value left) :
    (reader >>= next).outcome? tokens = (next value).outcome? left := by
  simp only [outcome?, Bind.bind, EStateM.bind, h]

theorem outcome?_bind_of_error {next : α → Reader β} {error : Error}
    (h : reader tokens = .error (.fault error) left) :
    (reader >>= next).outcome? tokens = some (.error error) := by
  simp only [outcome?, Bind.bind, EStateM.bind, h]

theorem outcome?_map (reader : Reader α) (f : α → β) (tokens : Tokens) :
    (reader >>= fun value => pure (f value)).outcome? tokens =
      (reader.outcome? tokens).map (Except.map f) := by
  simp only [outcome?, Bind.bind, EStateM.bind]
  cases reader tokens with
  | ok value left => rfl
  | error halt left => cases halt <;> rfl

theorem advance_of_ok {token : Token} (h : tokens.current = .ok token) :
    Reader.advance tokens = .ok token tokens.rest := by
  rw [advance, h]

theorem advance_of_error {error : Error} (h : tokens.current = .error error) :
    Reader.advance tokens = .error (.fault error) tokens := by
  rw [advance, h]

end Reader

/-! ## Tokens and where they stop -/

section

variable {source file : String}

theorem tokenize_eq_error_iff {error : Error} :
    tokenize source file = .error error ↔ (stopOf source).stopped file = .error error := by
  show ((stopOf source).stopped file).map _ = _ ↔ _
  cases (stopOf source).stopped file <;> simp [Except.map]

/-- The last token stands where the tokens stop, and the source ends there. -/
theorem eq_append_of_tokenize {tokens : List Token} (h : tokenize source file = .ok tokens) :
    (stopOf source).rest = [] ∧
      tokens = tokensOf source ++ [.atEnd (.ofNat (stopOf source).offset)] := by
  have hmap : ((stopOf source).stopped file).map (fun last => tokensOf source ++ [last]) =
    .ok tokens := h
  cases hstopped : (stopOf source).stopped file with
  | error error =>
      rw [hstopped] at hmap
      cases hmap
  | ok last =>
      have hrest := Cursor.rest_eq_nil_of_stopped hstopped
      rw [hstopped] at hmap
      rw [Cursor.stopped, hrest] at hstopped
      cases hstopped
      exact ⟨hrest, (Except.ok.inj hmap).symm⟩

theorem kind_ne_eof_of_wellSpelled {token : Token} (h : token.terminal.WellSpelled) :
    token.kind ≠ .eof := by
  rw [← token.kind_terminal]
  cases hterminal : token.terminal with
  | fixed kind =>
      rw [hterminal] at h
      exact h
  | name text => exact TokenKind.noConfusion
  | numeral digits => exact TokenKind.noConfusion

/-- To take one token after the other comes to all of them and to the end or the error behind. -/
theorem outcome?_allTokens (file : String) (stop : Cursor) {pending : List Token}
    (h : ∀ token ∈ pending, token.terminal.WellSpelled) :
    (Reader.allTokens (pending.length + 1)).outcome? ⟨file, pending, stop⟩ =
      some ((stop.stopped file).map fun last => pending ++ [last]) := by
  induction pending with
  | nil =>
      cases hstopped : stop.stopped file with
      | error error => exact Reader.outcome?_bind_of_error (Reader.advance_of_error hstopped)
      | ok last =>
          have hcurrent : (Tokens.mk file [] stop).current = .ok last := hstopped
          have hlast : last.kind = .eof := by
            rw [Cursor.stopped, Cursor.rest_eq_nil_of_stopped hstopped] at hstopped
            exact congrArg Token.kind (Except.ok.inj hstopped).symm
          refine (Reader.outcome?_bind_of_ok (Reader.advance_of_ok hcurrent)).trans ?_
          rw [if_pos hlast]
          rfl
  | cons token rest ih =>
      obtain ⟨htoken, hrest⟩ := List.forall_mem_cons.mp h
      have hkind := kind_ne_eof_of_wellSpelled htoken
      refine (Reader.outcome?_bind_of_ok (Reader.advance_of_ok rfl)).trans ?_
      rw [if_neg hkind, Reader.outcome?_map]
      refine (congrArg _ (ih hrest)).trans ?_
      cases stop.stopped file <;> rfl

theorem position_eq_of_stopped {cursor : Cursor} {error : Error}
    (h : cursor.stopped file = .error error) : error.position = ⟨.ofNat cursor.offset, file⟩ := by
  unfold Cursor.stopped at h
  split at h
  · cases h
  · rw [← Except.error.inj h]

/-- Each of the tokens stands before the place where they come to their end. -/
theorem precedesStop_of_lt {count : Nat} {fault : ParseFault} {error : Error}
    (hlt : count < (tokensOf source).length)
    (hat : ((Tokens.ofSource source file).drop count).AtFault fault error) :
    PrecedesStop source file error := by
  have hstands := Cursor.StandsIn.ofSource source
  obtain ⟨start, behind, hstart, hnext, hbefore⟩ :=
    hstands.exists_next? _ (List.getElem_mem hlt)
  have hoffset : ((Tokens.ofSource source file).drop count).offset = .ofNat start.offset :=
    (Tokens.offset_drop (List.getElem?_eq_getElem hlt)).trans (Cursor.start_of_next? hnext)
  have herror : error = ⟨.parse fault, ⟨.ofNat start.offset, file⟩⟩ := by
    rw [hat.error_eq, Tokens.position, hoffset]
    rfl
  refine ⟨⟨fault, start, hstart, hbefore, herror⟩, fun hsize => ?_⟩
  rw [← byteLength_toList] at hsize
  rw [herror, UInt32.lt_iff_toNat_lt]
  calc (UInt32.ofNat start.offset).toNat
      = start.offset := hstart.toNat_offset hsize
    _ < (stopOf source).offset := hbefore
    _ = (UInt32.ofNat (stopOf source).offset).toNat :=
        (hstands.tokens.toNat_offset hsize).symm

/-- Every place that a reader can come to is at a token, if the end is one. -/
theorem exists_token_at {tokens : List Token} (h : tokenize source file = .ok tokens)
    (count : Nat) : ∃ token, tokens[min count (tokensOf source).length]? = some token ∧
      ((Tokens.ofSource source file).drop count).position = ⟨token.start, file⟩ := by
  obtain ⟨-, rfl⟩ := eq_append_of_tokenize h
  rcases Nat.lt_or_ge count (tokensOf source).length with hlt | hge
  · have htoken : (Tokens.ofSource source file).pending[count]? = some (tokensOf source)[count] :=
      List.getElem?_eq_getElem hlt
    refine ⟨(tokensOf source)[count], ?_, ?_⟩
    · rw [Nat.min_eq_left (Nat.le_of_lt hlt), List.getElem?_append_left hlt]
      exact htoken
    · rw [Tokens.position, Tokens.offset_drop htoken]
      rfl
  · refine ⟨.atEnd (.ofNat (stopOf source).offset), ?_, ?_⟩
    · rw [Nat.min_eq_right hge, List.getElem?_concat_length]
    · rw [Tokens.position, Tokens.offset_drop_of_le hge]
      rfl

end

/-! ## Parsers -/

namespace ReadsBy

variable {α : Type} {parse : String → String → Except Error α} {reader : Nat → Reader α}
  {language : Language} (h : ReadsBy parse reader language) {source file : String}

include h

theorem ok_of_reads {value : α} {left : Tokens}
    (hreads : Reader.Reads (reader (Tokens.ofSource source file).fuel)
      (Tokens.ofSource source file) value left) : parse source file = .ok value := by
  rw [h.parse_eq, Reader.result_eq_ok_iff]
  have hadvances := h.advances (Tokens.ofSource source file)
  unfold Reader.Reads at hreads
  unfold Reader.Advances at hadvances
  split at hreads
  next result behind heq => exact ⟨behind, by rw [heq, hreads.1]⟩
  next => exact hreads.elim
  next heq =>
    rw [heq] at hadvances
    exact hadvances.elim

/-- What is read of a source is read of all tokens that are alike. -/
theorem reads_of_ok {value : α} (hok : parse source file = .ok value) {others : Tokens}
    (halike : ∀ count, (Tokens.ofSource source file).AlikeFor count others) :
    ∃ left, Reader.Reads (reader others.fuel) others value left := by
  rw [h.parse_eq, Reader.result_eq_ok_iff] at hok
  obtain ⟨left, hread⟩ := hok
  have htracks := h.isLocal (Tokens.ofSource source file).fuel others.fuel
    (Tokens.ofSource source file) others
  simp only [Reader.Tracks, hread] at htracks
  obtain ⟨count, -, -, hreads⟩ := htracks
  exact ⟨_, hreads (halike (count + 1))⟩

theorem some_parse_eq :
    some (parse source file) =
      (reader (Tokens.ofSource source file).fuel).outcome? (.ofSource source file) := by
  have hadvances := h.advances (Tokens.ofSource source file)
  rw [h.parse_eq]
  unfold Reader.outcome?
  split
  next value left hread => rw [(Reader.result_eq_ok_iff _).mpr ⟨left, hread⟩]
  next error left hread => rw [(Reader.result_eq_error_iff _).mpr ⟨left, hread⟩]
  next hread => simp [Reader.Advances, hread] at hadvances

theorem of_tokenize_error (hstop : ∀ value, parse source file = .ok value →
      (stopOf source).rest = []) {error : Error} (herror : tokenize source file = .error error) :
    error.position = ⟨.ofNat (stopOf source).offset, file⟩ ∧
      ∃ other, parse source file = .error other ∧
        (other = error ∨ PrecedesStop source file other) := by
  rw [tokenize_eq_error_iff] at herror
  refine ⟨position_eq_of_stopped herror, ?_⟩
  cases hparse : parse source file with
  | ok value =>
      rw [Cursor.stopped, hstop value hparse] at herror
      cases herror
  | error other =>
      obtain ⟨fault, hfault⟩ := h.exists_fault hparse
      obtain ⟨count, hat, -⟩ := hfault (.ofSource source file)
      refine ⟨other, rfl, ?_⟩
      rcases Nat.lt_or_ge count (tokensOf source).length with hlt | hge
      · exact .inr (precedesStop_of_lt hlt hat)
      -- Behind the last token there is nothing but the error of `tokenize`.
      · have hcurrent : ((Tokens.ofSource source file).drop count).current = .error error :=
          (Tokens.current_drop_of_le hge).trans herror
        exact .inl (hat.of_current_error error hcurrent)

theorem of_look_eq {other otherFile : String} {tokens otherTokens : List Token}
    (htokenize : tokenize source file = .ok tokens)
    (htokenize' : tokenize other otherFile = .ok otherTokens)
    (hlooks : otherTokens.map Token.look = tokens.map Token.look) :
    (∃ value, parse source file = .ok value ∧ parse other otherFile = .ok value) ∨
      ∃ (fault : ParseFault) (index : Nat) (token otherToken : Token),
        tokens[index]? = some token ∧ otherTokens[index]? = some otherToken ∧
        parse source file = .error ⟨.parse fault, ⟨token.start, file⟩⟩ ∧
        parse other otherFile = .error ⟨.parse fault, ⟨otherToken.start, otherFile⟩⟩ := by
  obtain ⟨hstop, htokens⟩ := eq_append_of_tokenize htokenize
  obtain ⟨hstop', htokens'⟩ := eq_append_of_tokenize htokenize'
  have hpending : (tokensOf other).map Token.look = (tokensOf source).map Token.look := by
    rw [htokens, htokens', List.map_append, List.map_append] at hlooks
    exact List.append_inj_left' hlooks rfl
  have halike : ∀ count,
      (Tokens.ofSource source file).AlikeFor count (Tokens.ofSource other otherFile) :=
    Tokens.alikeFor_of_look_eq hstop hstop' hpending
  cases hparse : parse source file with
  | ok value =>
      obtain ⟨left, hreads⟩ := h.reads_of_ok hparse halike
      exact .inl ⟨value, rfl, h.ok_of_reads hreads⟩
  | error error =>
      obtain ⟨fault, hfault⟩ := h.exists_fault hparse
      obtain ⟨count, hat, hfaults⟩ := hfault (.ofSource other otherFile)
      have hother := h.error_of_faults (hfaults (halike (count + 1)))
      obtain ⟨token, htoken, hposition⟩ := exists_token_at htokenize count
      obtain ⟨otherToken, hotherToken, hotherPosition⟩ := exists_token_at htokenize' count
      have hlength : (tokensOf other).length = (tokensOf source).length := by
        simpa using congrArg List.length hpending
      rw [hlength] at hotherToken
      rw [hotherPosition] at hother
      refine .inr ⟨fault, _, token, otherToken, htoken, hotherToken, ?_, hother⟩
      rw [hat.error_eq, hposition]

theorem readsTokens (hscanner : ∀ fuel, (reader fuel).HasScanner)
    (hstop : ∀ source file value, parse source file = .ok value → (stopOf source).rest = []) :
    ReadsTokens parse reader where
  exists_scanner := hscanner
  on_demand := fun source file _ hscanner =>
    (hscanner.outcome?_eq source file).trans h.some_parse_eq.symm
  tokenize_ok := by
    intro source file value hok
    refine ⟨tokensOf source ++ [.atEnd (.ofNat (stopOf source).offset)], ?_⟩
    exact tokenize_eq_ok_iff.mpr ⟨rfl, hstop source file value hok, rfl⟩
  tokenize_unrecognised := by
    intro source file text position herror
    rw [h.parse_eq, Reader.result_eq_error_iff] at herror
    obtain ⟨left, hread⟩ := herror
    obtain ⟨scanner, honDemand⟩ := hscanner (Tokens.ofSource source file).fuel
    have hexplains := honDemand.explains (Tokens.ofSource source file)
    rw [hread] at hexplains
    exact tokenize_eq_error_iff.mpr (hexplains text rfl)
  of_tokenize_error := fun source file _ => h.of_tokenize_error (hstop source file)
  of_look_eq := fun _ _ _ _ _ _ => h.of_look_eq

end ReadsBy

/-- Both parsers read nothing of a source but its tokens.  To take these from a lexer on demand
comes to the same as to take them from the list of all of them, which `tokenize` takes from it one
after the other; `tokenize` succeeds on what can be read, and where it fails both parsers fail there
or before; and sources with the same tokens are read as the same tree or have the same fault at the
same token. -/
theorem parsers_read_tokens :
    ReadsTokens parseProgram (Reader.program .full) ∧
      ReadsTokens parseStatements (Reader.statements .full) ∧
      ∀ source file, (Scanner.allTokens ((tokensOf source).length + 1)).outcome? source file =
        some (tokenize source file) := by
  refine ⟨?_, ?_, fun source file => ?_⟩
  · refine readsBy_parseProgram.readsTokens (Reader.HasScanner.program .full) ?_
    intro source file program hok
    obtain ⟨_, hshows, -⟩ := parseProgram_eq_ok_iff_shows.mp hok
    exact hshows.stop_rest
  · refine readsBy_parseStatements.readsTokens (Reader.HasScanner.statements .full) ?_
    intro source file body hok
    obtain ⟨_, hshows, -⟩ := parseStatements_eq_ok_iff_shows.mp hok
    exact hshows.stop_rest
  · rw [(Reader.OnDemand.allTokens _).outcome?_eq]
    exact outcome?_allTokens file (stopOf source) Cursor.wellSpelled_of_mem_tokens

/-- A number stands where the parser wants a semicolon, so that it does not come to the character
behind, which starts no token.  Without the first number it does. -/
theorem parsers_read_tokens_up_to_character :
    tokenize "1 2 ~" "shell" = .error ⟨.parse (.unrecognised "~"), ⟨4, "shell"⟩⟩ ∧
    (∃ fault offset, offset < (4 : UInt32) ∧
      parseStatements "1 2 ~" "shell" = .error ⟨.parse fault, ⟨offset, "shell"⟩⟩) ∧
    parseStatements "2 ~" "shell" = .error ⟨.parse (.unrecognised "~"), ⟨2, "shell"⟩⟩ ∧
    tokenize "2 ~" "shell" = .error ⟨.parse (.unrecognised "~"), ⟨2, "shell"⟩⟩ := by
  have htokenize : tokenize "1 2 ~" "shell" =
      .error ⟨.parse (.unrecognised "~"), ⟨4, "shell"⟩⟩ := by cbv
  have hsemicolon : parseStatements "1 2 ~" "shell" =
      .error ⟨.parse (.unexpected "2"), ⟨2, "shell"⟩⟩ := by cbv
  have hcharacter : parseStatements "2 ~" "shell" =
      .error ⟨.parse (.unrecognised "~"), ⟨2, "shell"⟩⟩ := by cbv
  refine ⟨htokenize, ?_, hcharacter,
    parsers_read_tokens.2.1.tokenize_unrecognised _ _ _ _ hcharacter⟩
  obtain ⟨hposition, other, hparse, hsame | hprecedes⟩ :=
    parsers_read_tokens.2.1.of_tokenize_error _ _ _ htokenize
  · rw [hsemicolon, hsame] at hparse
    cases hparse
  · have hstop : 4 = UInt32.ofNat (stopOf "1 2 ~").offset := congrArg Position.offset hposition
    obtain ⟨fault, start, -, -, rfl⟩ := hprecedes.exists_start
    have hlt := hprecedes.offset_lt (by decide)
    rw [← hstop] at hlt
    exact ⟨fault, .ofNat start.offset, hlt, hparse⟩

end IntScript
