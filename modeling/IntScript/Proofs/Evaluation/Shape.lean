import IntScript.Environment

/-!
# The shape of an environment

Everything about an environment but the values of its variables: how many frames there are, which
one is current, and the parent of each.

* `Environment.SameShape` : two environments differ in bindings at most.  Assignments keep the
  shape (`setAt_sameShape`), and what does not look at bindings respects it (`SameShape.pop`,
  `SameShape.wellFormed`).
* `Environment.pop_push` : leaving a call undoes entering it.
* `Environment.WellFormed.find_ne_astray` : in a well-formed environment every search along the
  parents comes to an end.
-/

namespace IntScript

namespace Environment

variable {environment first second third : Environment}

/-- The environments differ in bindings at most. -/
structure SameShape (first second : Environment) : Prop where
  parents_eq : first.frames.map Frame.parent = second.frames.map Frame.parent
  current_eq : first.current = second.current

namespace SameShape

theorem refl (environment : Environment) : SameShape environment environment :=
  ⟨rfl, rfl⟩

theorem symm (h : SameShape first second) : SameShape second first :=
  ⟨h.parents_eq.symm, h.current_eq.symm⟩

theorem trans (h : SameShape first second) (h' : SameShape second third) :
    SameShape first third :=
  ⟨h.parents_eq.trans h'.parents_eq, h.current_eq.trans h'.current_eq⟩

theorem size_eq (h : SameShape first second) : first.frames.size = second.frames.size := by
  have hsize := congrArg Array.size h.parents_eq
  rwa [Array.size_map, Array.size_map] at hsize

theorem parent_eq (h : SameShape first second) (index : Nat) :
    first.frames[index]?.map Frame.parent = second.frames[index]?.map Frame.parent := by
  rw [← Array.getElem?_map, ← Array.getElem?_map, h.parents_eq]

theorem pop (h : SameShape first second) (caller : Nat) :
    SameShape (first.pop caller) (second.pop caller) := by
  refine ⟨?_, rfl⟩
  simp only [Environment.pop, h.size_eq]
  split
  · rw [Array.map_pop, Array.map_pop, h.parents_eq]
  · exact h.parents_eq

theorem wellFormed (h : SameShape first second) (hwell : first.WellFormed) :
    second.WellFormed where
  current_lt := by rw [← h.current_eq, ← h.size_eq]; exact hwell.current_lt
  parent_lt := by
    intro index frame parent hframe hparent
    have hsame := h.parent_eq index
    rw [hframe, Option.map_some, hparent] at hsame
    obtain ⟨other, hother, hparent'⟩ := Option.map_eq_some_iff.mp hsame
    exact hwell.parent_lt index other parent hother hparent'

end SameShape

/-- An assignment changes bindings only. -/
theorem setAt_sameShape (environment : Environment) (index : Nat) (name : String)
    (value : Int64) : SameShape (environment.setAt index name value) environment := by
  refine ⟨Array.ext_getElem? fun other => ?_, rfl⟩
  simp only [setAt, Array.getElem?_map, Array.getElem?_modify]
  split
  · cases environment.frames[other]? <;> rfl
  · rfl

/-- Leaving a call undoes entering it. -/
theorem pop_push (h : 0 < environment.frames.size) (bindings : Table Int64) :
    (environment.push bindings).pop environment.current = environment := by
  have hsize : 1 < (environment.frames.push ⟨bindings, some environment.current⟩).size := by
    rw [Array.size_push]
    omega
  simp only [push, pop, if_pos hsize, Array.pop_push]

namespace WellFormed

theorem size_pos (h : environment.WellFormed) : 0 < environment.frames.size :=
  Nat.zero_lt_of_lt h.current_lt

/-- The parent of a new frame comes before it. -/
theorem push (h : environment.WellFormed) (bindings : Table Int64) :
    (environment.push bindings).WellFormed where
  current_lt := by
    simp only [Environment.push, Array.size_push]
    omega
  parent_lt := by
    intro index frame parent hframe hparent
    simp only [Environment.push, Array.getElem?_push] at hframe
    split at hframe
    next heq =>
      -- The new frame itself, whose parent is the frame that was current.
      obtain rfl := Option.some.inj hframe
      obtain rfl := Option.some.inj hparent
      rw [heq]
      exact h.current_lt
    next => exact h.parent_lt index frame parent hframe hparent

/-- A search from a frame goes through frames with smaller and smaller indices. -/
theorem findFrom_ne_astray (h : environment.WellFormed) (name : String) :
    ∀ {fuel index : Nat}, index < fuel → index < environment.frames.size →
      findFrom environment.frames name fuel index ≠ .astray := by
  intro fuel
  induction fuel with
  | zero => exact fun hlt => absurd hlt (Nat.not_lt_zero _)
  | succ fuel ih =>
      intro index hfuel hsize
      have hframe := Array.getElem?_eq_getElem hsize
      rw [findFrom, hframe]
      dsimp only
      split
      · exact nofun
      · cases hparent : environment.frames[index].parent with
        | none => exact nofun
        | some parent =>
            have hlt := h.parent_lt index _ parent hframe hparent
            exact ih (by omega) (by omega)

theorem find_ne_astray (h : environment.WellFormed) (name : String) :
    environment.find name ≠ .astray :=
  h.findFrom_ne_astray name h.current_lt h.current_lt

theorem lookup_ne_astray (h : environment.WellFormed) (name : String) :
    environment.lookup name ≠ .astray := by
  cases hsearch : environment.find name with
  | astray => exact absurd hsearch (h.find_ne_astray name)
  | unbound =>
      simp only [lookup, hsearch]
      exact nofun
  | found index =>
      simp only [lookup, hsearch]
      cases environment.valueAt? index name <;> exact nofun

theorem target?_ne_none (h : environment.WellFormed) (name : String) :
    environment.target? name ≠ none := by
  cases hsearch : environment.find name with
  | astray => exact absurd hsearch (h.find_ne_astray name)
  | found | unbound =>
      simp only [target?, hsearch]
      exact nofun

end WellFormed

theorem initial_wellFormed : initial.WellFormed where
  current_lt := Nat.zero_lt_one
  parent_lt := by
    intro index frame parent hframe hparent
    cases index with
    | zero =>
        obtain rfl := Option.some.inj hframe
        cases hparent
    | succ index => cases hframe

end Environment

end IntScript
