import Mathlib
import IntScript.Proofs.Evaluation.Names

/-!
# Links between frames

Whoever drops a frame chooses the frame to go back to.  An evaluation goes back to the one that the
dropped frame was pushed from; here it is any frame that is left.  The frames are no stack then, and
the next frame that is pushed may have any other as its parent, but still one that comes before it.
So the parents lead from every frame to the global one, which is never dropped.

* `Environment.ChainFrom` : the frames from one along the parents.  There is such a chain from every
  frame (`Linked.exists_chainFrom`, by strong induction on the index), and a search goes along it
  (`ChainFrom.findFrom_eq`, by induction on the chain).
* `Environment.SetsOnly` : what is different after an assignment.
* `Environment.Linked.exists_perform?` : what every operation keeps, and
  `Environment.Linked.exists_performAll` : so does a sequence of them.
* `frame_links_stay_wellFounded` : the main result.
-/

namespace IntScript

/-- What a search comes to that has looked everywhere. -/
def Search.ofOption {α : Type} : Option α → Search α
  | some value => .found value
  | none => .unbound

namespace Environment

variable {environment first second after : Environment} {frames : Array Frame}
  {index parent caller : Nat} {chain : List Nat} {name key : String} {value : Int64}

/-! ## Chains of frames -/

theorem SameShape.exists_frame (h : first.SameShape second) {frame : Frame}
    (hframe : first.frames[index]? = some frame) :
    ∃ other, second.frames[index]? = some other ∧ other.parent = frame.parent := by
  have hparent := h.parent_eq index
  rw [hframe, Option.map_some] at hparent
  exact Option.map_eq_some_iff.mp hparent.symm

/-- The frames from `index` along the parents, up to one that has none. -/
inductive ChainFrom (frames : Array Frame) : Nat → List Nat → Prop where
  | outermost {index : Nat} {frame : Frame} (hframe : frames[index]? = some frame)
      (hparent : frame.parent = none) : ChainFrom frames index [index]
  | inner {index parent : Nat} {frame : Frame} {chain : List Nat}
      (hframe : frames[index]? = some frame) (hparent : frame.parent = some parent)
      (hchain : ChainFrom frames parent chain) : ChainFrom frames index (index :: chain)

/-- The first frame of a chain that binds a name. -/
def firstBinding? (environment : Environment) (chain : List Nat) (name : String) : Option Nat :=
  chain.find? fun index => (environment.valueAt? index name).isSome

theorem exists_of_firstBinding? (h : environment.firstBinding? chain name = some index) :
    ∃ value before behind, environment.valueAt? index name = some value ∧
      chain = before ++ index :: behind ∧
      ∀ other ∈ before, environment.valueAt? other name = none := by
  obtain ⟨hbound, before, behind, hsplit, hbefore⟩ := List.find?_eq_some_iff_append.mp h
  obtain ⟨value, hvalue⟩ := Option.isSome_iff_exists.mp hbound
  exact ⟨value, before, behind, hvalue, hsplit, fun other hmem => by simpa using hbefore other hmem⟩

/-- Along a chain, the value that is found is the first one. -/
theorem findSome?_valueAt? {before behind : List Nat}
    (hbefore : ∀ other ∈ before, environment.valueAt? other name = none)
    (hvalue : environment.valueAt? index name = some value) :
    (before ++ index :: behind).findSome? (environment.valueAt? · name) = some value := by
  rw [List.findSome?_append, List.findSome?_eq_none_iff.mpr hbefore, List.findSome?_cons, hvalue]
  rfl

namespace ChainFrom

theorem lt_size (h : ChainFrom frames index chain) : ∀ other ∈ chain, other < frames.size := by
  induction h with
  | outermost hframe _ =>
      rw [List.forall_mem_singleton]
      exact (Array.getElem?_eq_some_iff.mp hframe).1
  | inner hframe _ _ ih =>
      exact List.forall_mem_cons.mpr ⟨(Array.getElem?_eq_some_iff.mp hframe).1, ih⟩

/-- A chain starts with the frame that it is the chain of. -/
theorem exists_cons (h : ChainFrom frames index chain) : ∃ outer, chain = index :: outer := by
  cases h with
  | outermost => exact ⟨[], rfl⟩
  | inner => exact ⟨_, rfl⟩

/-- Bindings do not matter. -/
theorem of_sameShape (h : ChainFrom first.frames index chain) (hsame : first.SameShape second) :
    ChainFrom second.frames index chain := by
  induction h with
  | outermost hframe hparent =>
      obtain ⟨other, hother, heq⟩ := hsame.exists_frame hframe
      exact .outermost hother (heq.trans hparent)
  | inner hframe hparent _ ih =>
      obtain ⟨other, hother, heq⟩ := hsame.exists_frame hframe
      exact .inner hother (heq.trans hparent) ih

/-- The indices go down to that of a frame without a parent, one at a time at the fastest. -/
theorem length_le (h : ChainFrom environment.frames index chain) (hwell : environment.WellFormed) :
    chain.length ≤ index + 1 := by
  induction h with
  | outermost => exact Nat.succ_le_succ (Nat.zero_le _)
  | inner hframe hparent _ ih =>
      have hlt := hwell.parent_lt _ _ _ hframe hparent
      rw [List.length_cons]
      omega

/-- A search goes along the chain. -/
theorem findFrom_eq (h : ChainFrom environment.frames index chain) {fuel : Nat}
    (hfuel : chain.length ≤ fuel) :
    findFrom environment.frames name fuel index =
      .ofOption (environment.firstBinding? chain name) := by
  have hbound : ∀ {index : Nat} {frame : Frame}, environment.frames[index]? = some frame →
      (environment.valueAt? index name).isSome = frame.bindings.contains name := by
    intro index frame hframe
    rw [valueAt?, hframe]
    rfl
  induction h generalizing fuel with
  | outermost hframe hparent =>
      cases fuel with
      | zero => cases hfuel
      | succ fuel =>
          rw [findFrom, hframe, firstBinding?, List.find?_singleton, hbound hframe]
          dsimp only
          rw [hparent]
          split <;> rfl
  | inner hframe hparent _ ih =>
      cases fuel with
      | zero => cases hfuel
      | succ fuel =>
          have hrest := ih (Nat.le_of_succ_le_succ hfuel)
          rw [firstBinding?] at hrest
          rw [findFrom, hframe, firstBinding?, List.find?_cons, hbound hframe]
          dsimp only
          rw [hparent]
          cases Table.contains _ name with
          | true => rfl
          | false => exact hrest

variable (h : ChainFrom environment.frames environment.current chain)
  (hwell : environment.WellFormed)

include h hwell

theorem find_eq (name : String) :
    environment.find name = .ofOption (environment.firstBinding? chain name) :=
  h.findFrom_eq (Nat.le_trans (h.length_le hwell) hwell.current_lt)

theorem lookup_eq (name : String) :
    environment.lookup name = .ofOption (chain.findSome? (environment.valueAt? · name)) := by
  rw [lookup, h.find_eq hwell]
  cases hfirst : environment.firstBinding? chain name with
  | none =>
      rw [firstBinding?, List.find?_eq_none] at hfirst
      have hnone : chain.findSome? (environment.valueAt? · name) = none :=
        List.findSome?_eq_none_iff.mpr fun other hmem => by simpa using hfirst other hmem
      rw [hnone]
      rfl
  | some index =>
      obtain ⟨value, before, behind, hvalue, rfl, hbefore⟩ := exists_of_firstBinding? hfirst
      rw [findSome?_valueAt? hbefore hvalue]
      simp only [Search.ofOption, hvalue]

end ChainFrom

/-! ## Assignments -/

/-- Only the value of the name in the frame is different: it is now the given one. -/
structure SetsOnly (before after : Environment) (index : Nat) (name : String) (value : Int64) :
    Prop where
  sameShape : after.SameShape before
  others_eq : ∀ other, other ≠ index → after.frames[other]? = before.frames[other]?
  valueAt?_eq : ∀ key, after.valueAt? index key =
    if key = name then some value else before.valueAt? index key

theorem setsOnly_setAt (hindex : index < environment.frames.size) (name : String) (value : Int64) :
    SetsOnly environment (environment.setAt index name value) index name value where
  sameShape := setAt_sameShape environment index name value
  others_eq other hother := by
    rw [setAt, Array.getElem?_modify, if_neg (Ne.symm hother)]
  valueAt?_eq key := by
    rw [valueAt?_setAt]
    simp [hindex]

namespace SetsOnly

theorem valueAt?_of_ne (h : SetsOnly environment after index name value) (hkey : key ≠ name)
    (other : Nat) : after.valueAt? other key = environment.valueAt? other key := by
  by_cases hother : other = index
  · rw [hother, h.valueAt?_eq, if_neg hkey]
  · rw [valueAt?, valueAt?, h.others_eq other hother]

theorem wellFormed (h : SetsOnly environment after index name value)
    (hwell : environment.WellFormed) : after.WellFormed :=
  h.sameShape.symm.wellFormed hwell

theorem chainFrom (h : SetsOnly environment after index name value)
    (hchain : ChainFrom environment.frames environment.current chain) :
    ChainFrom after.frames after.current chain := by
  rw [h.sameShape.current_eq]
  exact hchain.of_sameShape h.sameShape.symm

/-- The other names are looked up as before. -/
theorem lookup_of_ne (h : SetsOnly environment after index name value)
    (hwell : environment.WellFormed)
    (hchain : ChainFrom environment.frames environment.current chain) (hkey : key ≠ name) :
    after.lookup key = environment.lookup key := by
  have hsame : (after.valueAt? · key) = (environment.valueAt? · key) :=
    funext (h.valueAt?_of_ne hkey)
  rw [(h.chainFrom hchain).lookup_eq (h.wellFormed hwell), hchain.lookup_eq hwell, hsame]

/-- The name that was set is found, as no frame in front of the one where it was set binds it. -/
theorem lookup_self (h : SetsOnly environment after index name value)
    (hwell : environment.WellFormed)
    (hchain : ChainFrom environment.frames environment.current chain)
    (hindex : index = (environment.firstBinding? chain name).getD environment.current) :
    after.lookup name = .found value := by
  -- No frame in front of the one that was set bound the name, and none of them was changed.
  obtain ⟨before, behind, rfl, hbefore⟩ : ∃ before behind, chain = before ++ index :: behind ∧
      ∀ other ∈ before, other ≠ index ∧ environment.valueAt? other name = none := by
    cases hfirst : environment.firstBinding? chain name with
    | none =>
        obtain ⟨outer, houter⟩ := hchain.exists_cons
        rw [hfirst, Option.getD_none] at hindex
        exact ⟨[], outer, by rw [houter, hindex, List.nil_append], by simp⟩
    | some found =>
        rw [hfirst, Option.getD_some] at hindex
        obtain ⟨old, before, behind, hold, hsplit, hbefore⟩ :=
          exists_of_firstBinding? (hindex ▸ hfirst)
        refine ⟨before, behind, hsplit, fun other hmem => ⟨?_, hbefore other hmem⟩⟩
        rintro rfl
        cases hold.symm.trans (hbefore other hmem)
  have hnone : ∀ other ∈ before, after.valueAt? other name = none := by
    intro other hmem
    obtain ⟨hne, hother⟩ := hbefore other hmem
    rwa [valueAt?, h.others_eq other hne]
  have hvalue : after.valueAt? index name = some value := by
    rw [h.valueAt?_eq, if_pos rfl]
  rw [(h.chainFrom hchain).lookup_eq (h.wellFormed hwell), findSome?_valueAt? hnone hvalue]
  rfl

end SetsOnly

/-! ## Operations -/

/-- What callers do with an environment, one after the other. -/
inductive Operation where
  | push (bindings : Table Int64)
  | pop (caller : Nat)
  | assign (name : String) (value : Int64)
  | defineGlobal (name : String) (value : Int64)
  | lookup (name : String)

namespace Operation

/-- What becomes of an environment, unless a search in it goes astray. -/
def perform? (environment : Environment) : Operation → Option Environment
  | push bindings => some (environment.push bindings)
  | pop caller => some (environment.pop caller)
  | assign name value => environment.assign name value
  | defineGlobal name value => some (environment.defineGlobal name value)
  | lookup name =>
    match environment.lookup name with
    | .found _ | .unbound => some environment
    | .astray => none

/-- The frame to go back to is one of those that are left. -/
def InRange (environment : Environment) : Operation → Prop
  | pop caller => caller < (environment.pop caller).frames.size
  | _ => True

/-- The name whose value an operation sets. -/
def name? : Operation → Option String
  | assign name _ | defineGlobal name _ => some name
  | push _ | pop _ | lookup _ => none

end Operation

/-- What becomes of an environment by a sequence of operations. -/
def performAll : List Operation → Environment → Option Environment
  | [], environment => some environment
  | operation :: rest, environment => (operation.perform? environment).bind (performAll rest)

/-- Every frame that a sequence of operations goes back to is one of those that are left then. -/
def AllInRange : List Operation → Environment → Prop
  | [], _ => True
  | operation :: rest, environment =>
    operation.InRange environment ∧
      ∀ after, operation.perform? environment = some after → AllInRange rest after

theorem AllInRange.cons {operation : Operation} {rest : List Operation}
    (hrange : operation.InRange environment)
    (hperform : operation.perform? environment = some after) (hrest : AllInRange rest after) :
    AllInRange (operation :: rest) environment := by
  refine ⟨hrange, fun other hother => ?_⟩
  obtain rfl := Option.some.inj (hother.symm.trans hperform)
  exact hrest

/-! ## What operations keep -/

/-- The environment is well-formed, and of all frames the global one alone has no parent. -/
structure Linked (environment : Environment) : Prop extends environment.WellFormed where
  parent_eq_none_iff : ∀ (index : Nat) (frame : Frame), environment.frames[index]? = some frame →
    (frame.parent = none ↔ index = 0)

namespace Linked

theorem initial : Linked initial where
  toWellFormed := initial_wellFormed
  parent_eq_none_iff := by
    intro index frame hframe
    cases index with
    | zero =>
        obtain rfl := Option.some.inj hframe
        exact iff_of_true rfl rfl
    | succ index => cases hframe

theorem of_sameShape (h : Linked first) (hsame : first.SameShape second) : Linked second where
  toWellFormed := hsame.wellFormed h.toWellFormed
  parent_eq_none_iff := by
    intro index frame hframe
    obtain ⟨other, hother, heq⟩ := hsame.symm.exists_frame hframe
    rw [← heq]
    exact h.parent_eq_none_iff index other hother

theorem push (h : Linked environment) (bindings : Table Int64) :
    Linked (environment.push bindings) where
  toWellFormed := h.toWellFormed.push bindings
  parent_eq_none_iff := by
    intro index frame hframe
    simp only [Environment.push, Array.getElem?_push] at hframe
    split at hframe
    next heq =>
      -- The new frame has a parent, and it is not the first one.
      obtain rfl := Option.some.inj hframe
      have hpos := h.size_pos
      exact iff_of_false (Option.some_ne_none _) (by omega)
    next => exact h.parent_eq_none_iff index frame hframe

theorem pop (h : Linked environment) (hcaller : caller < (environment.pop caller).frames.size) :
    Linked (environment.pop caller) := by
  -- The frames that are left were there before.
  have hleft : ∀ {index : Nat} {frame : Frame},
      (environment.pop caller).frames[index]? = some frame →
        environment.frames[index]? = some frame := by
    intro index frame hframe
    rw [getElem?_pop] at hframe
    split at hframe
    · cases hframe
    · exact hframe
  exact
    { current_lt := hcaller
      parent_lt := fun index frame parent hframe => h.parent_lt index frame parent (hleft hframe)
      parent_eq_none_iff := fun index frame hframe =>
        h.parent_eq_none_iff index frame (hleft hframe) }

theorem setAt (h : Linked environment) (index : Nat) (name : String) (value : Int64) :
    Linked (environment.setAt index name value) :=
  h.of_sameShape (setAt_sameShape environment index name value).symm

/-- From every frame the parents lead to the global one. -/
theorem exists_chainFrom (h : Linked environment) (hindex : index < environment.frames.size) :
    ∃ chain, ChainFrom environment.frames index chain ∧ chain.getLast? = some 0 := by
  induction index using Nat.strong_induction_on with
  | _ index ih =>
      have hframe := Array.getElem?_eq_getElem hindex
      cases hparent : environment.frames[index].parent with
      | none =>
          obtain rfl := (h.parent_eq_none_iff index _ hframe).mp hparent
          exact ⟨[0], .outermost hframe hparent, rfl⟩
      | some parent =>
          have hlt := h.parent_lt index _ parent hframe hparent
          obtain ⟨outer, houter, hlast⟩ := ih parent hlt (Nat.lt_trans hlt hindex)
          refine ⟨index :: outer, .inner hframe hparent houter, ?_⟩
          obtain ⟨rest, rfl⟩ := houter.exists_cons
          exact hlast

/-- The global frame is always there. -/
theorem exists_globals (h : Linked environment) :
    ∃ globals, environment.frames[0]? = some ⟨globals, none⟩ := by
  obtain ⟨frame, hframe⟩ : ∃ frame, environment.frames[0]? = some frame :=
    ⟨_, Array.getElem?_eq_getElem h.size_pos⟩
  obtain ⟨bindings, parent⟩ := frame
  obtain rfl : parent = none := (h.parent_eq_none_iff 0 _ hframe).mpr rfl
  exact ⟨bindings, hframe⟩

theorem exists_assign (h : Linked environment)
    (hchain : ChainFrom environment.frames environment.current chain) (name : String)
    (value : Int64) : ∃ after, environment.assign name value = some after ∧
      SetsOnly environment after
        ((environment.firstBinding? chain name).getD environment.current) name value := by
  have hfind := hchain.find_eq h.toWellFormed name
  rw [assign, target?, hfind]
  cases hfirst : environment.firstBinding? chain name with
  | none => exact ⟨_, rfl, setsOnly_setAt h.current_lt name value⟩
  | some index =>
      have hindex := hchain.lt_size index (List.mem_of_find?_eq_some hfirst)
      exact ⟨_, rfl, setsOnly_setAt hindex name value⟩

/-- One operation.  It comes to its end, and no global variable has another value unless that is
what the operation is about. -/
theorem exists_perform? (h : Linked environment) {operation : Operation}
    (hrange : operation.InRange environment) :
    ∃ after, operation.perform? environment = some after ∧ Linked after ∧
      ∀ key, operation.name? ≠ some key → after.global? key = environment.global? key := by
  have hset : ∀ (index : Nat) (name key : String) (value : Int64), some name ≠ some key →
      (environment.setAt index name value).global? key = environment.global? key := by
    intro index name key value hne
    rw [global?, valueAt?_setAt, if_neg fun heq => hne (congrArg some heq.2.1.symm)]
    rfl
  cases operation with
  | push bindings =>
      refine ⟨_, rfl, h.push bindings, fun key _ => ?_⟩
      rw [global?, valueAt?, getElem?_push_of_lt h.size_pos]
      rfl
  | pop caller =>
      refine ⟨_, rfl, h.pop hrange, fun key _ => ?_⟩
      rw [global?, valueAt?, getElem?_pop, if_neg (by omega)]
      rfl
  | assign name value =>
      obtain ⟨index, htarget⟩ := Option.ne_none_iff_exists'.mp (h.target?_ne_none name)
      refine ⟨environment.setAt index name value, ?_, h.setAt index name value, ?_⟩
      · rw [Operation.perform?, Environment.assign, htarget]
      · exact fun key hne => hset index name key value hne
  | defineGlobal name value =>
      exact ⟨_, rfl, h.setAt 0 name value, fun key hne => hset 0 name key value hne⟩
  | lookup name =>
      refine ⟨environment, ?_, h, fun _ _ => rfl⟩
      rw [Operation.perform?]
      cases hlookup : environment.lookup name with
      | found | unbound => rfl
      | astray => exact absurd hlookup (h.lookup_ne_astray name)

/-- A sequence of operations. -/
theorem exists_performAll (h : Linked environment) {operations : List Operation}
    (hrange : AllInRange operations environment) :
    ∃ after, performAll operations environment = some after ∧ Linked after := by
  induction operations generalizing environment with
  | nil => exact ⟨environment, rfl, h⟩
  | cons operation rest ih =>
      obtain ⟨next, hnext, hlinked, -⟩ := h.exists_perform? hrange.1
      obtain ⟨after, hafter, hlast⟩ := ih hlinked (hrange.2 next hnext)
      refine ⟨after, ?_, hlast⟩
      rw [performAll, hnext, Option.bind_some, hafter]

end Linked

end Environment

open Environment in
/-- Whatever callers do with a new environment, as long as they go back to frames that are left, the
current frame exists and parents come before their frames, up to the global one.  So a search goes
along the parents to the first frame that binds the name; an assignment sets the name there, or else
in the current frame, and nothing else; and the global frame is never dropped. -/
theorem frame_links_stay_wellFounded (operations : List Operation)
    (hrange : AllInRange operations .initial) :
    ∃ environment, performAll operations .initial = some environment ∧
      environment.current < environment.frames.size ∧
      (∀ (index : Nat) (frame : Frame) (parent : Nat), environment.frames[index]? = some frame →
        frame.parent = some parent → parent < index) ∧
      (∃ chain, ChainFrom environment.frames environment.current chain ∧
        (∀ index ∈ chain, index < environment.frames.size) ∧ chain.getLast? = some 0 ∧
        (∀ name, environment.find name = .ofOption (environment.firstBinding? chain name) ∧
          environment.lookup name = .ofOption (chain.findSome? (environment.valueAt? · name))) ∧
        ∀ name value, ∃ after, environment.assign name value = some after ∧
          SetsOnly environment after
            ((environment.firstBinding? chain name).getD environment.current) name value ∧
          after.lookup name = .found value ∧
          ∀ key, key ≠ name → after.lookup key = environment.lookup key) ∧
      (∃ globals, environment.frames[0]? = some ⟨globals, none⟩) ∧
      ∀ operation : Operation, operation.InRange environment →
        ∃ after, operation.perform? environment = some after ∧
          ∀ key, operation.name? ≠ some key → after.global? key = environment.global? key := by
  obtain ⟨environment, hperform, hlinked⟩ := Linked.initial.exists_performAll hrange
  have hwell := hlinked.toWellFormed
  obtain ⟨chain, hchain, hlast⟩ := hlinked.exists_chainFrom hlinked.current_lt
  refine ⟨environment, hperform, hlinked.current_lt, hlinked.parent_lt,
    ⟨chain, hchain, hchain.lt_size, hlast, ?_, ?_⟩, hlinked.exists_globals, ?_⟩
  · exact fun name => ⟨hchain.find_eq hwell name, hchain.lookup_eq hwell name⟩
  · intro name value
    obtain ⟨after, hassign, hsets⟩ := hlinked.exists_assign hchain name value
    exact ⟨after, hassign, hsets, hsets.lookup_self hwell hchain rfl,
      fun key hkey => hsets.lookup_of_ne hwell hchain hkey⟩
  · intro operation hoperation
    obtain ⟨after, hafter, -, hglobals⟩ := hlinked.exists_perform? hoperation
    exact ⟨after, hafter, hglobals⟩

open Environment in
/-- Two frames are pushed and one is dropped, but the global frame is the one to go back to.  What
is pushed then has the global one as its parent: it does not see the frame between them, and an
assignment does not get there. -/
theorem frame_links_stay_wellFounded_past_frame_between :
    AllInRange [.push ⟨[("x", 1)]⟩, .push .empty, .pop 0, .push .empty] .initial ∧
    ∃ environment after, performAll
        [.push ⟨[("x", 1)]⟩, .push .empty, .pop 0, .push .empty] .initial = some environment ∧
      environment.current = 2 ∧ environment.valueAt? 1 "x" = some 1 ∧
      environment.lookup "x" = .unbound ∧ environment.assign "x" 5 = some after ∧
      after.lookup "x" = .found 5 ∧ after.frames[1]? = environment.frames[1]? := by
  have hrange : AllInRange [.push ⟨[("x", 1)]⟩, .push .empty, .pop 0, .push .empty] .initial := by
    have hcaller : Operation.InRange ((Environment.initial.push ⟨[("x", 1)]⟩).push .empty)
        (.pop 0) := Nat.zero_lt_two
    exact .cons trivial rfl (.cons trivial rfl (.cons hcaller rfl (.cons trivial rfl trivial)))
  obtain ⟨environment, hperform, -, -, ⟨chain, -, -, -, -, hassign⟩, -, -⟩ :=
    frame_links_stay_wellFounded _ hrange
  obtain ⟨after, hafter, hsets, hlookup, -⟩ := hassign "x" 5
  refine ⟨hrange, environment, after, hperform, ?_⟩
  cases hperform
  exact ⟨rfl, rfl, rfl, hafter, hlookup, by cases hafter; rfl⟩

end IntScript
