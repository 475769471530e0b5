import IntScript.Text.Glyphless

/-!
# Quotation of program text

Tokens and names appear in messages between double quotes, written so that the message stays one
readable line whatever the text holds.
-/

namespace IntScript.Text

/-- The number in lower case hexadecimal digits, without leading zeros. -/
def hexadecimal (n : Nat) : List Char :=
  Nat.toDigits 16 n

/-- The form a character takes inside a quotation: the quote, the backslash and the common controls
have an escape of their own, a character without a glyph is shown by its code point, and any other
character stands for itself. -/
def quotedChar (c : Char) : List Char :=
  match c with
  | '"' => ['\\', '"']
  | '\\' => ['\\', '\\']
  | '\t' => ['\\', 't']
  | '\r' => ['\\', 'r']
  | '\n' => ['\\', 'n']
  | '\x00' => ['\\', '0']
  | c =>
    if isGlyphless c then
      ['\\', 'u', '\x7b'] ++ hexadecimal c.toNat ++ ['\x7d']
    else [c]

/-- The text between double quotes. -/
def quoted (text : String) : String :=
  String.ofList ('"' :: (text.toList.flatMap quotedChar ++ ['"']))

end IntScript.Text
