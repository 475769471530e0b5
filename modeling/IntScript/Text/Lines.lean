/-!
# Lines
-/

namespace IntScript.Text

/-- The pieces of a list, each but the last ending in the only separator it holds.  No piece is
empty. -/
def splitAfter {α : Type} [DecidableEq α] (separator : α) (list : List α) : List (List α) :=
  list.foldr (fun x pieces =>
    match pieces with
    | [] => [[x]]
    | piece :: rest => if x = separator then [x] :: piece :: rest else (x :: piece) :: rest) []

end IntScript.Text
