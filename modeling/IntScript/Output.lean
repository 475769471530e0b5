import IntScript.Text.Decimal

/-!
# Where printed values go
-/

namespace IntScript

/-- A destination for printed values. -/
inductive Output where
  /-- The console, with the text written to it so far. -/
  | console (written : String)
  /-- A buffer, with the text that was not yet taken out of it. -/
  | buffer (captured : String)
  /-- Nowhere. -/
  | silent
  deriving DecidableEq, Repr

namespace Output

/-- Prints a value on a line of its own. -/
def print (value : Int64) : Output → Output
  | console written => console (written ++ Text.decimal value ++ "\n")
  | buffer captured => buffer (captured ++ Text.decimal value ++ "\n")
  | silent => silent

/-- The text in a buffer, and the buffer without it.  The other destinations hold no text back. -/
def take : Output → String × Output
  | buffer captured => (captured, buffer "")
  | console written => ("", console written)
  | silent => ("", silent)

/-- A buffer gives all that it holds and is empty then. -/
@[simp] theorem take_buffer (captured : String) :
    (buffer captured).take = (captured, buffer "") := rfl

@[simp] theorem take_console (written : String) :
    (console written).take = ("", console written) := rfl

@[simp] theorem take_silent : silent.take = ("", silent) := rfl

/-- The text written to the console. -/
def written : Output → String
  | console written => written
  | buffer _ | silent => ""

/-- The destination once the text written to the console is shown. -/
def flush : Output → Output
  | console _ => console ""
  | buffer captured => buffer captured
  | silent => silent

end Output

end IntScript
