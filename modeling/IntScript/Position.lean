/-!
# Positions in source text
-/

namespace IntScript

/-- A place in a named source: a byte offset, which wraps at `2 ^ 32`, and the name of the file. -/
structure Position where
  offset : UInt32
  file : String
  deriving DecidableEq, Repr

namespace Position

/-- The file name that marks a position as absent. -/
def absentFile : String := "<null>"

/-- The position of what did not come from any place in a source. -/
def absent : Position := ⟨0, absentFile⟩

/-- A position is absent when its file bears the reserved name, whatever its offset. -/
def isAbsent (position : Position) : Bool :=
  position.file == absentFile

@[simp] theorem isAbsent_absent : absent.isAbsent = true := rfl

end Position

end IntScript
