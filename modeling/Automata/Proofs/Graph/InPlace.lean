import Automata.Graph.InPlace
import Automata.Proofs.Graph.Basic

namespace Automata

namespace Graph

/-- A stored graph with the result of an edit in its place, and the graph as it
was if the edit is refused. -/
def keep (g : Graph) : Except GraphError Graph → EStateM.Result GraphError Graph Unit
  | .ok after => .ok () after
  | .error cause => .error cause g

variable {g after : Graph} {result : Except GraphError Graph}

/-- An edit that is refused leaves the graph as it was. -/
theorem keep_eq_error_iff {cause : GraphError} :
    g.keep result = .error cause after ↔ result = .error cause ∧ after = g := by
  cases result <;> simp [keep, eq_comm]

/-- An edit that is carried out stores its result. -/
theorem keep_eq_ok_iff : g.keep result = .ok () after ↔ result = .ok after := by
  cases result <;> simp [keep]

theorem hasState_eq_isSome_findIdx? (g : Graph) (id : StateId) :
    g.hasState id = (g.states.findIdx? (·.id = id)).isSome := by
  rw [hasState, state?, List.findIdx?_isSome, Bool.eq_iff_iff, List.find?_isSome, List.any_eq_true]

/-- Changing the first state with a number is changing the state at its place. -/
theorem withVerdict_eq_modify {id : StateId} {accepting : Bool} {states : List State} {index : Nat}
    (hfound : states.findIdx? (·.id = id) = some index) :
    withVerdict id accepting states =
      states.modify index fun s => { s with isAccepting := accepting } := by
  induction states generalizing index with
  | nil => cases hfound
  | cons s states ih =>
    rw [List.findIdx?_cons] at hfound
    by_cases hid : s.id = id
    · obtain rfl : 0 = index := by simpa [hid] using hfound
      simp [withVerdict, hid]
    · obtain ⟨later, hlater, rfl⟩ : ∃ later, states.findIdx? (·.id = id) = some later ∧
          later + 1 = index := by simpa [hid] using hfound
      simp [withVerdict, hid, ih hlater]

end Graph

/-- Changing one more place at the end of those that were changed. -/
theorem modify_mapIdx_lt {α : Type} (f : α → α) (count : Nat) (as : List α) :
    (as.mapIdx fun index a => if index < count then f a else a).modify count f =
      as.mapIdx fun index a => if index < count + 1 then f a else a := by
  refine List.ext_getElem? fun index => ?_
  simp only [List.getElem?_modify, List.getElem?_mapIdx]
  cases as[index]? with
  | none => rfl
  | some a =>
    obtain hless | rfl | hmore := Nat.lt_trichotomy index count
    · simp [hless, Nat.ne_of_gt hless, Nat.lt_succ_of_lt hless]
    · simp
    · have hbeyond : ¬ index < count + 1 := Nat.not_lt.2 hmore
      simp [Nat.ne_of_lt hmore, Nat.not_lt_of_lt hmore, hbeyond]

namespace Editor

variable {g : Graph}

/-- Adding a state in place stores what adding it yields. -/
theorem run_addState (s : State) (g : Graph) : (addState s).run g = g.keep (g.addState s) := by
  unfold addState Graph.addState
  cases hknown : g.hasState s.id with
  | true => simp [hknown, Graph.keep]
  | false =>
    cases hmark : s.isStart with
    | false => cases g.start? <;> simp [hknown, Graph.keep]
    | true => cases hstart : g.start? <;> simp [hknown, hstart, Graph.keep]

/-- What is removed is the state that has the number. -/
theorem run_removeState (id : StateId) (g : Graph) :
    (removeState id).run g = .ok (g.state? id) (g.removeState id) := by
  unfold removeState Graph.removeState
  rw [Graph.hasState_eq_isSome_findIdx?, List.eraseP_eq_eraseIdx, Graph.state?,
    List.find?_eq_bind_findIdx?_getElem?]
  cases hfound : g.states.findIdx? (·.id = id) with
  | none =>
    simp only [EStateM.run_bind, EStateM.run_get, hfound]
    rfl
  | some index =>
    simp only [EStateM.run_bind, EStateM.run_get, hfound]
    rfl

/-- Once the first places have been visited, their states have their new marks
and the others their old ones. -/
theorem run_forM_markStart (id : StateId) (count : Nat) (g : Graph) :
    (forM (List.range count) (markStart id)).run g =
      .ok () { g with states := g.states.mapIdx fun index s =>
        if index < count then { s with isStart := decide (s.id = id) } else s } := by
  induction count with
  | zero =>
    have hsame : (g.states.mapIdx fun index s =>
        if index < 0 then { s with isStart := decide (s.id = id) } else s) = g.states := by
      simp [List.ext_getElem?_iff]
    rw [hsame]
    rfl
  | succ count ih =>
    rw [List.range_succ, List.forM_append, EStateM.run_bind, ih, ← modify_mapIdx_lt]
    rfl

/-- Marking the states one after another makes one of them the only start
state. -/
theorem run_setStart (id : StateId) (g : Graph) :
    (setStart id).run g = g.keep (g.setStart id) := by
  unfold setStart Graph.setStart
  cases hknown : g.hasState id with
  | false => simp [hknown, Graph.keep]
  | true =>
    have hall : (g.states.mapIdx fun index s =>
          if index < g.states.length then { s with isStart := decide (s.id = id) } else s) =
        g.states.map fun s => { s with isStart := decide (s.id = id) } := by
      refine List.ext_getElem (by simp) fun index hindex _ => ?_
      rw [List.getElem_mapIdx, List.getElem_map, if_pos (by simpa using hindex)]
    simp only [EStateM.run_bind, EStateM.run_get, hknown, Bool.not_true]
    exact (run_forM_markStart id g.states.length g).trans (by rw [hall]; rfl)

/-- Changing the state at the place of a number changes the first state with
that number. -/
theorem run_setAccepting (id : StateId) (accepting : Bool) (g : Graph) :
    (setAccepting id accepting).run g = g.keep (g.setAccepting id accepting) := by
  unfold setAccepting Graph.setAccepting
  rw [Graph.hasState_eq_isSome_findIdx?]
  cases hfound : g.states.findIdx? (·.id = id) with
  | none => simp [hfound, Graph.keep]
  | some index => simp [hfound, Graph.keep, Graph.withVerdict_eq_modify hfound]

/-- Both ends of a move are checked before anything is written. -/
theorem run_addTransition (t : Transition) (g : Graph) :
    (addTransition t).run g = g.keep (g.addTransition t) := by
  unfold addTransition requireEndpoint Graph.addTransition
  cases hsource : g.hasState t.source with
  | false => simp [hsource, Graph.keep]
  | true =>
    cases htarget : g.hasState t.target with
    | false => simp [hsource, htarget, Graph.keep]
    | true => simp [hsource, htarget, Graph.keep]

/-- The first of equal moves is taken away, and whether there was one is
told. -/
theorem run_removeTransition (t : Transition) (g : Graph) :
    (removeTransition t).run g = .ok (decide (t ∈ g.transitions)) (g.removeTransition t) := by
  unfold removeTransition Graph.removeTransition
  rw [List.erase_eq_eraseIdx]
  cases hfound : g.transitions.idxOf? t with
  | none =>
    have hmissing : t ∉ g.transitions := List.idxOf?_eq_none_iff.1 hfound
    simp only [EStateM.run_bind, EStateM.run_get, hfound, decide_eq_false hmissing]
    rfl
  | some index =>
    have hlisted : t ∈ g.transitions := List.isSome_idxOf?.1 (by rw [hfound]; rfl)
    simp only [EStateM.run_bind, EStateM.run_get, hfound, decide_eq_true hlisted]
    rfl

/-- Dropping the answer of an edit changes nothing about what is stored. -/
theorem run_discard {α : Type} {editor : Editor α} {a : α} {after : Graph}
    (hrun : editor.run g = .ok a after) : (discard editor).run g = .ok () after := by
  change EStateM.map (Function.const α ()) editor g = _
  unfold EStateM.map
  rw [show editor g = .ok a after from hrun]

end Editor

/-- An edit in place stores what the edit yields, and a refused one leaves the
graph as it was. -/
theorem Edit.run_inPlace (edit : Edit) (g : Graph) :
    edit.inPlace.run g = g.keep (g.apply edit) := by
  cases edit with
  | addState s => exact Editor.run_addState s g
  | removeState id => exact Editor.run_discard (Editor.run_removeState id g)
  | setStart id => exact Editor.run_setStart id g
  | setAccepting id accepting => exact Editor.run_setAccepting id accepting g
  | addTransition t => exact Editor.run_addTransition t g
  | removeTransition t => exact Editor.run_discard (Editor.run_removeTransition t g)

end Automata
