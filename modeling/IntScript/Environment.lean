import IntScript.Table

/-!
# Environments

The variables of a running program.  Frames are kept in an array in the order in which they were
pushed; each but the global one, which has index zero, names the frame it was pushed from as its
parent.  Names are looked up from the current frame along the parents, so that a called function
sees the variables of its callers.  Whoever drops frames chooses the frame to go back to; if that is
one that does not exist, a search that comes to it goes astray.
-/

namespace IntScript

/-- The variables of one call, or the global ones. -/
structure Frame where
  bindings : Table Int64
  parent : Option Nat
  deriving DecidableEq, Repr

/-- All frames, and the index of the one in use. -/
structure Environment where
  frames : Array Frame
  current : Nat
  deriving DecidableEq, Repr

/-- What a search along the parents comes to. -/
inductive Search (α : Type) where
  | found (value : α)
  /-- The search ended at the global frame in vain. -/
  | unbound
  /-- The search comes to a frame that does not exist, or goes in a circle. -/
  | astray
  deriving DecidableEq, Repr

namespace Environment

/-- The environment with an empty global frame alone. -/
def initial : Environment := ⟨#[⟨.empty, none⟩], 0⟩

/-- The search for a name along the parents from the frame `index`, through at most `fuel`
frames. -/
def findFrom (frames : Array Frame) (name : String) : (fuel index : Nat) → Search Nat
  | 0, _ => .astray
  | fuel + 1, index =>
    match frames[index]? with
    | none => .astray
    | some frame =>
      if frame.bindings.contains name then .found index
      else
        match frame.parent with
        | none => .unbound
        | some parent => findFrom frames name fuel parent

/-- The search for the innermost frame that binds a name.  A way that is longer than there are
frames goes in a circle. -/
def find (environment : Environment) (name : String) : Search Nat :=
  findFrom environment.frames name environment.frames.size environment.current

/-- The value of a name in a frame. -/
def valueAt? (environment : Environment) (index : Nat) (name : String) : Option Int64 :=
  environment.frames[index]?.bind fun frame => frame.bindings.get? name

/-- The search for the value of a name. -/
def lookup (environment : Environment) (name : String) : Search Int64 :=
  match environment.find name with
  | .found index =>
    match environment.valueAt? index name with
    | some value => .found value
    | none => .unbound
  | .unbound => .unbound
  | .astray => .astray

/-- Sets the value of a name in a frame. -/
def setAt (environment : Environment) (index : Nat) (name : String) (value : Int64) :
    Environment :=
  { environment with
    frames := environment.frames.modify index fun frame =>
      { frame with bindings := frame.bindings.insert name value } }

/-- The frame in which an assignment to a name takes effect: the one that binds the name, or else
the current one. -/
def target? (environment : Environment) (name : String) : Option Nat :=
  match environment.find name with
  | .found index => some index
  | .unbound => some environment.current
  | .astray => none

/-- Sets the value of a name where an assignment to it takes effect. -/
def assign (environment : Environment) (name : String) (value : Int64) : Option Environment :=
  match environment.target? name with
  | some index => some (environment.setAt index name value)
  | none => none

/-- Enters a new frame, whose parent is the current one. -/
def push (environment : Environment) (bindings : Table Int64) : Environment :=
  let index := environment.frames.size
  { frames := environment.frames.push ⟨bindings, some environment.current⟩, current := index }

/-- Drops the newest frame, unless it is the global one, and goes back to the frame `caller`. -/
def pop (environment : Environment) (caller : Nat) : Environment :=
  { frames := if environment.frames.size > 1 then environment.frames.pop else environment.frames
    current := caller }

/-- The number of frames besides the global one. -/
def depth (environment : Environment) : Nat :=
  environment.frames.size - 1

/-- The value of a name in the global frame. -/
def global? (environment : Environment) (name : String) : Option Int64 :=
  environment.valueAt? 0 name

/-- Sets the value of a name in the global frame. -/
def defineGlobal (environment : Environment) (name : String) (value : Int64) : Environment :=
  environment.setAt 0 name value

/-- The variables of the current frame, if there is that frame. -/
def bindings? (environment : Environment) : Option (Table Int64) :=
  environment.frames[environment.current]?.map (·.bindings)

/-- What callers keep: the current frame exists, the global frame has no parent, and the parent of
every frame comes before it. -/
structure WellFormed (environment : Environment) : Prop where
  current_lt : environment.current < environment.frames.size
  parent_lt : ∀ (index : Nat) (frame : Frame) (parent : Nat),
    environment.frames[index]? = some frame → frame.parent = some parent → parent < index

end Environment

end IntScript
