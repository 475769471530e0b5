import IntScript.Fault
import IntScript.Text.Blank
import IntScript.Text.Bytes
import IntScript.Token.Lexeme

/-!
# Reading tokens off a source

A `Cursor` is a place in a source together with the text from there on; it moves over trivia (blanks
and comments) and over tokens.  Trivia is skipped as soon as a token has been consumed, so that a
cursor rests where the next token starts.  A `Lexer` is a cursor in a named source, which can also
be sent to any byte offset; inside a character there is nothing to read.
-/

namespace IntScript

open Text

/-- A place in a source, as the number of bytes before it and the text from there on. -/
structure Cursor where
  offset : Nat
  rest : List Char
  deriving DecidableEq, Repr

namespace Cursor

/-- The place behind the blanks and comments at the front of a text that starts at `offset`.  A
comment starts with two slashes and lasts until the end of the line; `inComment` tells that one has
begun. -/
def skipTriviaFrom (inComment : Bool) (offset : Nat) : List Char → Cursor
  | [] => ⟨offset, []⟩
  | c :: rest =>
    if inComment then skipTriviaFrom (c != '\n') (offset + c.utf8Size) rest
    else if isBlank c then skipTriviaFrom false (offset + c.utf8Size) rest
    else if c == '/' && rest.head? == some '/' then skipTriviaFrom true (offset + c.utf8Size) rest
    else ⟨offset, c :: rest⟩

/-- The place behind the blanks and comments at the cursor. -/
def skipTrivia (cursor : Cursor) : Cursor :=
  skipTriviaFrom false cursor.offset cursor.rest

theorem skipTriviaFrom_rest_length_le (inComment : Bool) (offset : Nat) (text : List Char) :
    (skipTriviaFrom inComment offset text).rest.length ≤ text.length := by
  induction text generalizing inComment offset with
  | nil => simp [skipTriviaFrom]
  | cons c rest ih =>
    unfold skipTriviaFrom
    split
    · exact Nat.le_succ_of_le (ih _ _)
    · split
      · exact Nat.le_succ_of_le (ih _ _)
      · split
        · exact Nat.le_succ_of_le (ih _ _)
        · exact Nat.le_refl _

theorem skipTrivia_rest_length_le (cursor : Cursor) :
    cursor.skipTrivia.rest.length ≤ cursor.rest.length :=
  skipTriviaFrom_rest_length_le ..

/-- The token at the cursor and the place behind it and the trivia that follows, if a token starts
here. -/
def next? (cursor : Cursor) : Option (Token × Cursor) :=
  (Lexeme.ofText? cursor.rest).map fun lexeme =>
    let stop := cursor.offset + byteLength lexeme.text
    (⟨lexeme.kind, String.ofList lexeme.text, .ofNat cursor.offset, .ofNat stop⟩,
      skipTrivia ⟨stop, lexeme.rest⟩)

theorem rest_length_lt_of_next? {cursor behind : Cursor} {token : Token}
    (h : cursor.next? = some (token, behind)) : behind.rest.length < cursor.rest.length := by
  obtain ⟨lexeme, hlexeme, heq⟩ := Option.map_eq_some_iff.mp h
  obtain ⟨-, rfl⟩ := Prod.mk.inj heq
  exact Nat.lt_of_le_of_lt (skipTrivia_rest_length_le _) (Lexeme.rest_length_lt hlexeme)

/-- All tokens from the cursor on, behind those in `before` (last first), and the place where no
further token starts: the end of the source, or a character that is not the start of any. -/
def tokensBehind (before : List Token) (cursor : Cursor) : List Token × Cursor :=
  match _next : cursor.next? with
  | none => (before.reverse, cursor)
  | some (token, behind) => tokensBehind (token :: before) behind
termination_by cursor.rest.length
decreasing_by exact rest_length_lt_of_next? _next

/-- All tokens from the cursor on, and the place where no further token starts. -/
def tokens (cursor : Cursor) : List Token × Cursor :=
  tokensBehind [] cursor

/-- What stands at a cursor where no token starts: the end of the source, or an error at a
character that is not the start of any. -/
def stopped (file : String) (cursor : Cursor) : Except Error Token :=
  let offset := UInt32.ofNat cursor.offset
  match cursor.rest with
  | [] => .ok (.atEnd offset)
  | c :: _ => .error ⟨.parse (.unrecognised (String.ofList [c])), ⟨offset, file⟩⟩

/-- All tokens from the cursor on, with the end of the source as the last one. -/
def tokensToEnd (file : String) (cursor : Cursor) : Except Error (List Token) :=
  let (tokens, stop) := cursor.tokens
  (stop.stopped file).map fun last => tokens ++ [last]

/-- The cursor at the first token of a source. -/
def ofSource (source : String) : Cursor :=
  skipTrivia ⟨0, source.toList⟩

end Cursor

/-- The text from a byte offset on, unless the offset is inside a character or behind the end. -/
def dropBytes? : Nat → List Char → Option (List Char)
  | 0, text => some text
  | _ + 1, [] => none
  | bytes + 1, c :: rest =>
    if c.utf8Size ≤ bytes + 1 then dropBytes? (bytes + 1 - c.utf8Size) rest else none

/-- Where a lexer stands in its source. -/
inductive Footing where
  /-- Where a character starts, or at the end. -/
  | firm (cursor : Cursor)
  /-- At an offset inside a character or behind the end, where there is no text to read. -/
  | astray (offset : Nat)
  deriving DecidableEq, Repr

namespace Footing

/-- The byte offset. -/
def offset : Footing → Nat
  | firm cursor => cursor.offset
  | astray offset => offset

end Footing

/-- A named source and a place in it. -/
structure Lexer where
  source : String
  file : String
  footing : Footing

namespace Lexer

/-- The file name of a source that was given none. -/
def defaultFile : String := "shell"

/-- A lexer at the first token of a source. -/
def ofSource (source : String) (file : String) : Lexer :=
  ⟨source, file, .firm (.ofSource source)⟩

/-- Whether the lexer is at the end of the source or behind it. -/
def atEnd (lexer : Lexer) : Bool :=
  match lexer.footing with
  | .firm cursor => cursor.rest.isEmpty
  | .astray offset => lexer.source.utf8ByteSize < offset

/-- Where the lexer stands. -/
def position (lexer : Lexer) : Position :=
  ⟨.ofNat lexer.footing.offset, lexer.file⟩

/-- The text that is not consumed, if the lexer stands where there is text to read. -/
def remainder? (lexer : Lexer) : Option String :=
  match lexer.footing with
  | .firm cursor => some (String.ofList cursor.rest)
  | .astray _ => none

/-- The cursor to read on from.  Behind the end it is one with nothing left to read, and inside a
character there is none. -/
def cursor? (lexer : Lexer) : Option Cursor :=
  match lexer.footing with
  | .firm cursor => some cursor
  | .astray offset => if lexer.atEnd then some ⟨offset, []⟩ else none

/-- The token at the lexer, unless it stands inside a character. -/
def peek? (lexer : Lexer) : Option (Except Error Token) := do
  let cursor ← lexer.cursor?
  match cursor.next? with
  | some (token, _) => return .ok token
  | none => return cursor.stopped lexer.file

/-- The token at the lexer, and the lexer behind it and the trivia that follows, unless it stands
inside a character.  At the end the lexer comes to rest at the length of the source. -/
def advance? (lexer : Lexer) : Option (Except Error (Token × Lexer)) := do
  let cursor ← lexer.cursor?
  match cursor.next? with
  | some (token, behind) => return .ok (token, { lexer with footing := .firm behind })
  | none => return (cursor.stopped lexer.file).map fun token =>
    (token, { lexer with footing := .firm ⟨lexer.source.utf8ByteSize, []⟩ })

/-- The lexer at a place it was at before. -/
def restore (lexer : Lexer) (footing : Footing) : Lexer :=
  { lexer with footing }

/-- The lexer at a byte offset, whatever stands there. -/
def seek (lexer : Lexer) (offset : Nat) : Lexer :=
  match dropBytes? offset lexer.source.toList with
  | some rest => lexer.restore (.firm ⟨offset, rest⟩)
  | none => lexer.restore (.astray offset)

/-- All tokens from the lexer on, with the end of the source as the last one, unless it stands
inside a character. -/
def tokens? (lexer : Lexer) : Option (Except Error (List Token)) := do
  let cursor ← lexer.cursor?
  return cursor.tokensToEnd lexer.file

end Lexer

/-- The tokens of a source, with its end as the last one. -/
def tokenize (source : String) (file : String) : Except Error (List Token) :=
  (Cursor.ofSource source).tokensToEnd file

end IntScript
