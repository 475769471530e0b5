import IntScript.Fault
import IntScript.Text.Blank
import IntScript.Text.Bytes
import IntScript.Text.Lines

/-!
# Diagnostics

What a person is shown for an error: its class and advice, and the line of the source it points
at with a caret under the offending column.  `Place.ofOffset` finds that line, `Error.diagnostic`
lays the text out.
-/

namespace IntScript

open Text

/-- A place in a source as a person counts it. -/
structure Place where
  /-- The number of the line, from one. -/
  line : Nat
  /-- The text of the line, with its line break if it has one. -/
  text : List Char
  /-- The number of bytes of the line before the place. -/
  column : Nat
  deriving DecidableEq, Repr

namespace Place

/-- The place of `offset` among `lines`, of which the first starts at byte `start` and has the
number `number`.  Past the last line the answer is `last`. -/
def find (offset : Nat) (last : Place) : (start number : Nat) → List (List Char) → Place
  | _, _, [] => last
  | start, number, line :: rest =>
    let next := start + byteLength line
    if start ≤ offset ∧ offset < next then ⟨number, line, offset - start⟩
    else
      let content := (line.reverse.dropWhile (· = '\n')).reverse
      find offset ⟨number, line, byteLength content⟩ next (number + 1) rest

/-- The place of a byte offset.  An offset past the end of the source is at the end of its last
line, before the line break. -/
def ofOffset (source : String) (offset : UInt32) : Place :=
  find offset.toNat ⟨1, [], 0⟩ 0 1 (splitAfter '\n' source.toList)

end Place

/-! ## Layout -/

/-- The text with as many copies of `fill` before it as `width` leaves room for. -/
def padLeft (fill : Char) (width : Nat) (text : String) : String :=
  String.ofList (List.replicate (width - text.length) fill) ++ text

/-- Whether a character counts as indentation in an excerpt. -/
def isIndentation (c : Char) : Bool :=
  c == ' ' || c == '\t'

namespace Place

/-- What separates the margin of an excerpt from its text, in a row without a number. -/
def margin (place : Place) : String :=
  padLeft ' ' ((decimalNat place.line).length + 2) "|"

/-- The line with its number in the margin, without its indentation. -/
def lineRow (place : Place) : String :=
  decimalNat place.line ++ " | " ++
    String.ofList (trimEnd (place.text.dropWhile isIndentation))

/-- The column of the caret below the line, from one. -/
def caretColumn (place : Place) : Nat :=
  place.column - byteLength (place.text.takeWhile isIndentation) + 1

/-- The last column in which a caret is drawn. -/
def lastCaretColumn : Nat := 65535

/-- The row below the line, where dashes lead up to a caret, if the caret can be drawn. -/
def caretRow? (place : Place) : Option String :=
  if place.caretColumn ≤ lastCaretColumn then
    some (place.margin ++ " " ++ padLeft '-' place.caretColumn "^")
  else none

end Place

/-- What a person is shown for an error. -/
structure Diagnostic where
  text : String
  /-- Whether the text ends before the caret, because that cannot be drawn. -/
  breaksOff : Bool
  deriving DecidableEq, Repr

namespace Diagnostic

/-- The diagnostic made of the given rows. -/
def ofRows (rows : List String) (breaksOff : Bool) : Diagnostic :=
  ⟨String.join (rows.map (· ++ "\n")), breaksOff⟩

end Diagnostic

namespace Error

/-- The first row of a diagnostic: the class, and the advice if there is any. -/
def headline (error : Error) : String :=
  "Error: " ++ error.cause.name ++
    match error.cause.tip with
    | none => ""
    | some tip => " (" ++ tip ++ ")"

/-- The diagnostic of an error in `source`: the headline and, if the error has a position, the file,
the line and the caret.  Where the caret cannot be drawn the diagnostic breaks off. -/
def diagnostic (error : Error) (source : String) : Diagnostic :=
  if error.position.isAbsent then .ofRows [error.headline] false
  else
    let place := Place.ofOffset source error.position.offset
    let rows := [error.headline, "-> " ++ error.position.file, place.margin, place.lineRow]
    match place.caretRow? with
    | some caret => .ofRows (rows ++ [caret]) false
    | none => .ofRows rows true

end Error

end IntScript
