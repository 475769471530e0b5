import IntScript.Proofs.Grammar.Continuation

/-!
# One source behind another

To read two sources with a line break between them is to read the one and then the other.  If the
first can be read, then all can be read exactly if the second can, and the definitions or lines are
those of the first and then those of the second.  Otherwise the error is that of the second, as many
bytes further back as the second stands.  The first may end in a comment, which the line break ends,
and lines may end in a conditional that would go on with an `else`, which is why the second lines
must not start with one.

* `Tokens.ofSource_join` : the tokens are those of the first source and then those of the second.
* `ReadsBehind` : the statement for one parser and two sources.
* `ReadsBy.readsBehind` : the statement for every parser that reads items until the source ends.
* `parse_join` : the main result.
-/

namespace IntScript

open Grammar

/-- The parser reads the two sources, with a line break between them, as it reads the second, behind
the values of the first. -/
structure ReadsBehind {α : Type} (parse : String → String → Except Error (List α))
    (first second file : String) (values : List α) : Prop where
  /-- The values of the second source come behind those of the first. -/
  ok : ∀ others, parse second file = .ok others →
    parse (first ++ "\n" ++ second) file = .ok (values ++ others)
  /-- The error of the second source is about the same place in it. -/
  error : ∀ error, parse second file = .error error →
    parse (first ++ "\n" ++ second) file = .error (error.shift (first.utf8ByteSize + 1))
  /-- If offsets do not wrap, the place is as many bytes further back. -/
  offset : (first ++ "\n" ++ second).utf8ByteSize < UInt32.size →
    ∀ error, parse second file = .error error →
      (error.shift (first.utf8ByteSize + 1)).position.offset.toNat =
        error.position.offset.toNat + (first.utf8ByteSize + 1)

/-! ## Tokens -/

theorem Tokens.ofSource_join {first : String} (second file : String)
    (h : (Tokens.ofSource first file).stop.rest = []) :
    Tokens.ofSource (first ++ "\n" ++ second) file =
      (Tokens.ofSource first file).append
        ((Tokens.ofSource second file).shift (first.utf8ByteSize + 1)) := by
  have hjoin : (Cursor.ofSource (first ++ "\n" ++ second)).tokens = _ :=
    Cursor.tokens_ofSource_join h
  rw [Cursor.tokens_shift] at hjoin
  rw [ofSource, hjoin]
  rfl

/-! ## What the parsers have in common -/

namespace ReadsBy

/-- Errors are about places in the source. -/
theorem offset_le {α : Type} {parse : String → String → Except Error α}
    {reader : Nat → Reader α} {language : Language} (h : ReadsBy parse reader language)
    {source file : String} {error : Error} (herror : parse source file = .error error)
    (hsize : source.utf8ByteSize < UInt32.size) :
    error.position.offset.toNat ≤ source.utf8ByteSize := by
  obtain ⟨fault, hfault⟩ := h.exists_fault herror
  obtain ⟨count, hat, -⟩ := hfault (Tokens.ofSource source file)
  obtain rfl := hat.error_eq
  rcases Nat.lt_or_ge count (tokensOf source).length with hlt | hge
  · exact Nat.le_of_lt (toNat_offset_drop_lt hsize hlt)
  · have hoffset : ((Tokens.ofSource source file).drop count).offset.toNat =
        (Tokens.ofSource source file).stop.offset := toNat_offset_drop hsize hge
    have hstands := (Cursor.StandsIn.ofSource source).tokens.offset_le
    rw [Text.byteLength_toList] at hstands
    exact Nat.le_trans (Nat.le_of_eq hoffset) hstands

variable {α δ : Type} {parse : String → String → Except Error (List α)} {item : Nat → Reader α}
  {language : Language} {tree : δ → α} {terminals : δ → List Terminal} {holds : δ → Prop}
  {follows : δ → List Terminal → Prop}

theorem readsBehind (h : ReadsBy parse (fun fuel => Reader.untilEnd (item fuel) fuel) language)
    (hitems : Reader.ReadsItems item tree terminals holds follows)
    (hlocal : ∀ fuel fuel', Reader.Local (item fuel) (item fuel')) {first second file : String}
    {values : List α} (hfirst : parse first file = .ok values)
    (hfollows : ∀ derivation (others : List δ), follows derivation
      (others.flatMap terminals ++ (Tokens.ofSource second file).terminals)) :
    ReadsBehind parse first second file values := by
  rw [h.parse_eq, Reader.result_eq_ok_iff] at hfirst
  obtain ⟨left, hfirst⟩ := hfirst
  obtain ⟨derivations, hshows, -⟩ := hitems.exists_shows hfirst
  have hjoin := Tokens.ofSource_join second file hshows.stop_rest
  constructor
  case ok =>
    intro others hsecond
    rw [h.parse_eq, Reader.result_eq_ok_iff] at hsecond
    obtain ⟨left', hsecond⟩ := hsecond
    have hyields := hitems.yields_append hfirst hsecond (first.utf8ByteSize + 1)
      (Tokens.ofSource (first ++ "\n" ++ second) file).fuel
    rw [← hjoin] at hyields
    rw [h.parse_eq]
    exact hyields.result_eq_ok _
  case error =>
    intro error hsecond
    rw [h.parse_eq, Reader.result_eq_error_iff] at hsecond
    obtain ⟨left', hsecond⟩ := hsecond
    apply h.error_of_faults
    rw [hjoin]
    exact hitems.faults_append_shift hlocal hfirst hsecond hfollows _ _
  case offset =>
    intro hsize error hsecond
    have hbytes : (first ++ "\n" ++ second).utf8ByteSize =
        first.utf8ByteSize + 1 + second.utf8ByteSize := by
      rw [String.utf8ByteSize_append, String.utf8ByteSize_append]
      rfl
    have hle := h.offset_le hsecond (by omega)
    have hlt : error.position.offset.toNat + (first.utf8ByteSize + 1) < 2 ^ 32 := by
      have hsize' : (first ++ "\n" ++ second).utf8ByteSize < 2 ^ 32 := hsize
      omega
    rw [Error.shift, Position.shift, UInt32.toNat_add, UInt32.toNat_ofNat', Nat.add_mod_mod,
      Nat.mod_eq_of_lt hlt]

end ReadsBy

/-! ## The two parsers -/

theorem head?_terminals_ne_else {source : String} (file : String)
    (h : ∀ token ∈ (tokensOf source).head?, token.kind ≠ .keyword .«else») :
    (Tokens.ofSource source file).terminals.head? ≠ some (.fixed (.keyword .«else»)) := by
  intro hhead
  rw [Tokens.terminals, List.head?_map] at hhead
  obtain ⟨token, htoken, hterminal⟩ := Option.map_eq_some_iff.mp hhead
  exact h token htoken ((Token.terminal_eq_fixed_iff rfl).mp hterminal)

/-- Behind a program and a line break, and behind lines and a line break unless an `else` follows,
a source is read as it is by itself: its definitions or lines come behind those of the first source,
and its error is as many bytes further back as the source stands. -/
theorem parse_join (first second file : String) :
    (∀ program, parseProgram first file = .ok program →
      ReadsBehind parseProgram first second file program) ∧
    ∀ lines, parseStatements first file = .ok lines →
      (∀ token ∈ (tokensOf second).head?, token.kind ≠ .keyword .«else») →
      ReadsBehind parseStatements first second file lines := by
  constructor
  · intro program hfirst
    exact readsBy_parseProgram.readsBehind Reader.readsItems_definition (.definition .full) hfirst
      fun _ _ => trivial
  · intro lines hfirst helse
    refine readsBy_parseStatements.readsBehind Reader.readsItems_line (.line .full) hfirst
      fun line others => ?_
    rw [← Line.allTerminals_eq_flatMap]
    exact line.ends_allTerminals_of_ne_else others (head?_terminals_ne_else file helse)

/-- A program that ends in a comment, in front of one that lacks a value, and a line that would go
on with an `else`, in front of a character that starts no token. -/
theorem parse_join_of_comment_and_conditional :
    parseProgram "global x = 1; // one" "shell" = .ok [.global "x" (.number 1)] ∧
    parseProgram "global y = ;" "shell" = .error ⟨.parse (.unexpected ";"), ⟨11, "shell"⟩⟩ ∧
    parseProgram ("global x = 1; // one" ++ "\n" ++ "global y = ;") "shell" =
      .error ⟨.parse (.unexpected ";"), ⟨32, "shell"⟩⟩ ∧
    parseStatements "if(x) y;" "shell" = .ok [.ifThen (.symbol "x") (.symbol "y")] ∧
    (∀ token ∈ (tokensOf "~").head?, token.kind ≠ .keyword .«else») ∧
    parseStatements "~" "shell" = .error ⟨.parse (.unrecognised "~"), ⟨0, "shell"⟩⟩ ∧
    parseStatements ("if(x) y;" ++ "\n" ++ "~") "shell" =
      .error ⟨.parse (.unrecognised "~"), ⟨9, "shell"⟩⟩ := by
  have hprogram : parseProgram "global x = 1; // one" "shell" = .ok [.global "x" (.number 1)] := by
    cbv
  have hvalue : parseProgram "global y = ;" "shell" =
      .error ⟨.parse (.unexpected ";"), ⟨11, "shell"⟩⟩ := by cbv
  have hlines : parseStatements "if(x) y;" "shell" =
      .ok [.ifThen (.symbol "x") (.symbol "y")] := by cbv
  have helse : ∀ token ∈ (tokensOf "~").head?, token.kind ≠ .keyword .«else» := by
    have hnone : tokensOf "~" = [] := by cbv
    simp [hnone]
  have hcharacter : parseStatements "~" "shell" =
      .error ⟨.parse (.unrecognised "~"), ⟨0, "shell"⟩⟩ := by cbv
  have hjoin := parse_join "global x = 1; // one" "global y = ;" "shell"
  have hjoin' := parse_join "if(x) y;" "~" "shell"
  exact ⟨hprogram, hvalue, (hjoin.1 _ hprogram).error _ hvalue, hlines, helse, hcharacter,
    (hjoin'.2 _ hlines helse).error _ hcharacter⟩

end IntScript
