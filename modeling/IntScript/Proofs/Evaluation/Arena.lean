import IntScript.Proofs.Evaluation.Scopes

/-!
# Scopes in an arena

A list of scopes is kept as an array of frames, the global one first, in which the parent of every
other frame is the one before it and the last one is current.

* `Environment.scopes` : what an environment shows from the current frame along the parents.
* `Environment.ofScopes` : the environment that shows given scopes, and nothing besides them
  (`scopes_ofScopes`, `bindings_ofScopes`).
* `Environment.lookup_ofScopes`, `Environment.exists_target_ofScopes`, `Environment.pop_ofScopes`,
  `Environment.defineGlobal_ofScopes` : the operations on environments do to the frames what the
  operations on scopes do to the list.
-/

namespace IntScript

namespace Scopes

variable {scopes updated : Scopes}

theorem length_of_update? {name : String} {value : Int64}
    (h : scopes.update? name value = some updated) : updated.length = scopes.length := by
  induction scopes generalizing updated with
  | nil => cases h
  | cons scope outer ih =>
      rw [update?] at h
      split at h
      next =>
        obtain rfl := Option.some.inj h
        rfl
      next =>
        obtain ⟨rest, hrest, rfl⟩ := Option.map_eq_some_iff.mp h
        rw [List.length_cons, List.length_cons, ih hrest]

/-- Variables come and go with their scopes only. -/
theorem length_assign (scopes : Scopes) (name : String) (value : Int64) :
    (scopes.assign name value).length = scopes.length := by
  rw [assign]
  cases hupdate : scopes.update? name value with
  | some updated => exact length_of_update? hupdate
  | none => cases scopes <;> rfl

theorem length_bindGlobal (scopes : Scopes) (name : String) (value : Int64) :
    (scopes.bindGlobal name value).length = scopes.length := by
  induction scopes with
  | nil => rfl
  | cons scope outer ih =>
      cases outer with
      | nil => rfl
      | cons next outer => rw [bindGlobal, List.length_cons, ih, ← List.length_cons]

theorem ne_nil_of_length_eq (hlength : updated.length = scopes.length) (h : scopes ≠ []) :
    updated ≠ [] := by
  rw [← List.length_pos_iff] at h ⊢
  omega

end Scopes

namespace Environment

/-! ## What an environment shows -/

/-- The bindings of the frames from `index` along the parents, through at most `fuel` frames. -/
def scopesFrom (frames : Array Frame) : (fuel index : Nat) → Scopes
  | 0, _ => []
  | fuel + 1, index =>
    match frames[index]? with
    | none => []
    | some frame =>
      frame.bindings ::
        match frame.parent with
        | none => []
        | some parent => scopesFrom frames fuel parent

/-- The bindings of the frames from the current one along the parents. -/
def scopes (environment : Environment) : Scopes :=
  scopesFrom environment.frames environment.frames.size environment.current

/-- The environment with a frame for each scope, on top of those for the scopes around it. -/
def ofScopes : Scopes → Environment
  | [] => ⟨#[], 0⟩
  | [globals] => ⟨#[⟨globals, none⟩], 0⟩
  | scope :: next :: outer => (ofScopes (next :: outer)).push scope

/-! ## Entering a frame -/

section

variable {environment : Environment} {name : String} {value : Int64} {index : Nat}

theorem getElem?_push_of_lt (h : index < environment.frames.size) (bindings : Table Int64) :
    (environment.push bindings).frames[index]? = environment.frames[index]? := by
  rw [push, Array.getElem?_push, if_neg (Nat.ne_of_lt h)]

theorem WellFormed.findFrom_push (hwell : environment.WellFormed) (bindings : Table Int64)
    (fuel : Nat) (hindex : index < environment.frames.size) :
    findFrom (environment.push bindings).frames name fuel index =
      findFrom environment.frames name fuel index := by
  induction fuel generalizing index with
  | zero => rfl
  | succ fuel ih =>
      have hframe := Array.getElem?_eq_getElem hindex
      rw [findFrom, findFrom, getElem?_push_of_lt hindex, hframe]
      dsimp only
      cases hparent : environment.frames[index].parent with
      | none => rfl
      | some parent =>
          have hlt := hwell.parent_lt index _ parent hframe hparent
          dsimp only
          rw [ih (Nat.lt_trans hlt hindex)]

theorem WellFormed.scopesFrom_push (hwell : environment.WellFormed) (bindings : Table Int64)
    (fuel : Nat) (hindex : index < environment.frames.size) :
    scopesFrom (environment.push bindings).frames fuel index =
      scopesFrom environment.frames fuel index := by
  induction fuel generalizing index with
  | zero => rfl
  | succ fuel ih =>
      have hframe := Array.getElem?_eq_getElem hindex
      rw [scopesFrom, scopesFrom, getElem?_push_of_lt hindex, hframe]
      dsimp only
      cases hparent : environment.frames[index].parent with
      | none => rfl
      | some parent =>
          have hlt := hwell.parent_lt index _ parent hframe hparent
          dsimp only
          rw [ih (Nat.lt_trans hlt hindex)]

theorem getElem?_push_size (environment : Environment) (bindings : Table Int64) :
    (environment.push bindings).frames[environment.frames.size]? =
      some ⟨bindings, some environment.current⟩ :=
  Array.getElem?_push_size

/-- A search starts with the new frame and goes on from the one that was current. -/
theorem WellFormed.find_push (hwell : environment.WellFormed) (bindings : Table Int64) :
    (environment.push bindings).find name =
      if bindings.contains name then .found environment.frames.size
      else environment.find name := by
  have hsize : (environment.push bindings).frames.size = environment.frames.size + 1 :=
    Array.size_push ..
  show findFrom _ name (environment.push bindings).frames.size environment.frames.size = _
  rw [hsize, findFrom, getElem?_push_size]
  dsimp only
  rw [hwell.findFrom_push bindings _ hwell.current_lt]
  rfl

theorem WellFormed.scopes_push (hwell : environment.WellFormed) (bindings : Table Int64) :
    (environment.push bindings).scopes = bindings :: environment.scopes := by
  have hsize : (environment.push bindings).frames.size = environment.frames.size + 1 :=
    Array.size_push ..
  show scopesFrom _ (environment.push bindings).frames.size environment.frames.size = _
  rw [hsize, scopesFrom, getElem?_push_size]
  dsimp only
  rw [hwell.scopesFrom_push bindings _ hwell.current_lt]
  rfl

theorem lt_size_of_findFrom {frames : Array Frame} {fuel start : Nat}
    (h : findFrom frames name fuel start = .found index) : index < frames.size := by
  induction fuel generalizing start with
  | zero => cases h
  | succ fuel ih =>
      rw [findFrom] at h
      split at h
      next => cases h
      next frame hframe =>
        split at h
        next =>
          cases h
          exact (Array.getElem?_eq_some_iff.mp hframe).1
        next =>
          split at h
          next => cases h
          next => exact ih h

theorem WellFormed.lookup_push (hwell : environment.WellFormed) (bindings : Table Int64) :
    (environment.push bindings).lookup name =
      match bindings.get? name with
      | some value => .found value
      | none => environment.lookup name := by
  rw [lookup, hwell.find_push, Table.contains]
  cases hvalue : bindings.get? name with
  | some value => simp [valueAt?, getElem?_push_size, hvalue]
  | none =>
      simp only [Option.isSome_none, Bool.false_eq_true, if_false, lookup]
      cases hfind : environment.find name with
      | astray | unbound => rfl
      | found index => simp only [valueAt?, getElem?_push_of_lt (lt_size_of_findFrom hfind)]

/-- Setting a variable of a frame does not interfere with entering another. -/
theorem setAt_push_of_lt (h : index < environment.frames.size) (bindings : Table Int64) :
    (environment.push bindings).setAt index name value =
      (environment.setAt index name value).push bindings := by
  simp only [setAt, push, mk.injEq, Array.size_modify, and_true]
  refine Array.ext_getElem? fun other => ?_
  simp only [Array.getElem?_modify, Array.getElem?_push, Array.size_modify]
  by_cases hother : index = other
  · have hne : ¬ other = environment.frames.size := by omega
    simp only [hother, if_true, if_neg hne]
  · simp only [if_neg hother]

theorem setAt_push_size (environment : Environment) (bindings : Table Int64) :
    (environment.push bindings).setAt environment.frames.size name value =
      environment.push (bindings.insert name value) := by
  simp only [setAt, push, mk.injEq, and_true]
  refine Array.ext_getElem? fun other => ?_
  simp only [Array.getElem?_modify, Array.getElem?_push]
  by_cases hother : other = environment.frames.size
  · simp only [hother, if_true, Option.map_some]
  · simp only [if_neg hother, if_neg (Ne.symm hother)]

end

/-! ## The environment of a list of scopes -/

variable {scopes : Scopes}

/-- Scopes are built up from the global one. -/
theorem scopes_induct {motive : (scopes : Scopes) → scopes ≠ [] → Prop}
    (globals : ∀ globals, motive [globals] (List.cons_ne_nil globals []))
    (enter : ∀ scope outer (houter : outer ≠ []), motive outer houter →
      motive (scope :: outer) (List.cons_ne_nil scope outer))
    (scopes : Scopes) (h : scopes ≠ []) : motive scopes h := by
  induction scopes with
  | nil => exact absurd rfl h
  | cons scope outer ih =>
      by_cases houter : outer = []
      · subst houter
        exact globals scope
      · exact enter scope outer houter (ih houter)

theorem find_globals (globals : Table Int64) (name : String) :
    (ofScopes [globals]).find name = if globals.contains name then .found 0 else .unbound :=
  rfl

theorem ofScopes_cons (scope : Table Int64) {outer : Scopes} (h : outer ≠ []) :
    ofScopes (scope :: outer) = (ofScopes outer).push scope := by
  obtain ⟨next, outer, rfl⟩ := List.exists_cons_of_ne_nil h
  rfl

theorem size_ofScopes (h : scopes ≠ []) : (ofScopes scopes).frames.size = scopes.length := by
  induction scopes, h using scopes_induct with
  | globals globals => rfl
  | enter scope outer houter ih =>
      rw [ofScopes_cons scope houter, push, Array.size_push, ih, List.length_cons]

theorem current_ofScopes (h : scopes ≠ []) :
    (ofScopes scopes).current + 1 = scopes.length := by
  induction scopes, h using scopes_induct with
  | globals globals => rfl
  | enter scope outer houter ih =>
      rw [ofScopes_cons scope houter, List.length_cons, ← size_ofScopes houter]
      rfl

theorem wellFormed_ofScopes (h : scopes ≠ []) : (ofScopes scopes).WellFormed := by
  induction scopes, h using scopes_induct with
  | globals globals =>
      have hsame : SameShape initial (ofScopes [globals]) := ⟨by simp [initial, ofScopes], rfl⟩
      exact hsame.wellFormed initial_wellFormed
  | enter scope outer houter ih =>
      rw [ofScopes_cons scope houter]
      exact ih.push scope

/-- What the environment of given scopes shows are these scopes. -/
theorem scopes_ofScopes (h : scopes ≠ []) : (ofScopes scopes).scopes = scopes := by
  induction scopes, h using scopes_induct with
  | globals globals => rfl
  | enter scope outer houter ih =>
      rw [ofScopes_cons scope houter, (wellFormed_ofScopes houter).scopes_push, ih]

/-- There is no frame that it does not show. -/
theorem bindings_ofScopes (h : scopes ≠ []) :
    (ofScopes scopes).frames.toList.map Frame.bindings = scopes.reverse := by
  induction scopes, h using scopes_induct with
  | globals globals => rfl
  | enter scope outer houter ih =>
      rw [ofScopes_cons scope houter, push, Array.toList_push, List.map_append, ih,
        List.reverse_cons, List.map_singleton]

/-! ## Operations -/

theorem lookup_ofScopes (h : scopes ≠ []) (name : String) :
    (ofScopes scopes).lookup name =
      match scopes.lookup name with
      | some value => .found value
      | none => .unbound := by
  induction scopes, h using scopes_induct with
  | globals globals =>
      rw [lookup, find_globals, Scopes.lookup, Table.contains]
      cases hvalue : globals.get? name with
      | some value => simp [valueAt?, ofScopes, hvalue]
      | none => simp [Scopes.lookup]
  | enter scope outer houter ih =>
      rw [ofScopes_cons scope houter, (wellFormed_ofScopes houter).lookup_push, ih, Scopes.lookup]
      cases scope.get? name <;> rfl

theorem setAt_globals (globals : Table Int64) (name : String) (value : Int64) :
    (ofScopes [globals]).setAt 0 name value = ofScopes [globals.insert name value] :=
  rfl

/-- A search comes to the frame of the first scope that binds the name, if any does. -/
theorem find_ofScopes (h : scopes ≠ []) (name : String) (value : Int64) :
    (∃ index updated, (ofScopes scopes).find name = .found index ∧
      scopes.update? name value = some updated ∧
      (ofScopes scopes).setAt index name value = ofScopes updated) ∨
    ((ofScopes scopes).find name = .unbound ∧ scopes.update? name value = none) := by
  induction scopes, h using scopes_induct with
  | globals globals =>
      rw [find_globals, Scopes.update?]
      by_cases hbound : globals.contains name
      · rw [if_pos hbound, if_pos hbound]
        exact .inl ⟨0, _, rfl, rfl, setAt_globals globals name value⟩
      · rw [if_neg hbound, if_neg hbound]
        exact .inr ⟨rfl, rfl⟩
  | enter scope outer houter ih =>
      rw [ofScopes_cons scope houter, (wellFormed_ofScopes houter).find_push, Scopes.update?]
      by_cases hbound : scope.contains name
      · rw [if_pos hbound, if_pos hbound]
        refine .inl ⟨_, _, rfl, rfl, ?_⟩
        rw [setAt_push_size, ofScopes_cons _ houter]
      · rw [if_neg hbound, if_neg hbound]
        rcases ih with ⟨index, updated, hfind, hupdate, hset⟩ | ⟨hfind, hupdate⟩
        · have hne := Scopes.ne_nil_of_length_eq (Scopes.length_of_update? hupdate) houter
          refine .inl ⟨index, scope :: updated, hfind, by rw [hupdate, Option.map_some], ?_⟩
          rw [setAt_push_of_lt (lt_size_of_findFrom hfind), hset, ofScopes_cons scope hne]
        · exact .inr ⟨hfind, by rw [hupdate, Option.map_none]⟩

theorem setAt_current_ofScopes (h : scopes ≠ []) (name : String) (value : Int64) :
    (ofScopes scopes).setAt (ofScopes scopes).current name value =
      ofScopes (scopes.bindInnermost name value) := by
  induction scopes, h using scopes_induct with
  | globals globals => exact setAt_globals globals name value
  | enter scope outer houter =>
      rw [Scopes.bindInnermost, ofScopes_cons scope houter, ofScopes_cons _ houter]
      exact setAt_push_size (ofScopes outer) scope

/-- An assignment takes effect in the frame of the scope in which it does. -/
theorem exists_target_ofScopes (h : scopes ≠ []) (name : String) (value : Int64) :
    ∃ index, (ofScopes scopes).target? name = some index ∧
      (ofScopes scopes).setAt index name value = ofScopes (scopes.assign name value) := by
  rcases find_ofScopes h name value with ⟨index, updated, hfind, hupdate, hset⟩ | ⟨hfind, hupdate⟩
  · refine ⟨index, by rw [target?, hfind], ?_⟩
    rw [Scopes.assign, hupdate, hset, Option.getD_some]
  · refine ⟨_, by rw [target?, hfind], ?_⟩
    rw [Scopes.assign, hupdate, setAt_current_ofScopes h, Option.getD_none]

theorem defineGlobal_ofScopes (h : scopes ≠ []) (name : String) (value : Int64) :
    (ofScopes scopes).defineGlobal name value = ofScopes (scopes.bindGlobal name value) := by
  induction scopes, h using scopes_induct with
  | globals globals => exact setAt_globals globals name value
  | enter scope outer houter ih =>
      have hne := Scopes.ne_nil_of_length_eq (Scopes.length_bindGlobal outer name value) houter
      have hpos := (wellFormed_ofScopes houter).size_pos
      obtain ⟨next, rest, rfl⟩ := List.exists_cons_of_ne_nil houter
      rw [Scopes.bindGlobal, ofScopes_cons _ hne, ← ih]
      exact setAt_push_of_lt hpos scope

/-- The caller of the innermost call is the frame before its own. -/
theorem pop_ofScopes (scope : Table Int64) {outer : Scopes} (houter : outer ≠ []) {caller : Nat}
    (hcaller : caller + 1 = outer.length) :
    (ofScopes (scope :: outer)).pop caller = ofScopes outer := by
  have hcurrent : caller = (ofScopes outer).current :=
    Nat.succ.inj (hcaller.trans (current_ofScopes houter).symm)
  rw [ofScopes_cons scope houter, hcurrent]
  exact pop_push (wellFormed_ofScopes houter).size_pos scope

end Environment

end IntScript
