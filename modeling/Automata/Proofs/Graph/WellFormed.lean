import Automata.Graph.Edit
import Automata.Proofs.Graph.Basic

namespace Automata

namespace Graph

variable {g : Graph}

/-- Numbers are distinct, at most one state is marked as the start, and moves run
between listed states. -/
structure WellFormed (g : Graph) : Prop where
  nodup_ids : (g.states.map (·.id)).Nodup
  length_startIds_le : g.startIds.length ≤ 1
  hasState_source : ∀ t ∈ g.transitions, g.hasState t.source = true
  hasState_target : ∀ t ∈ g.transitions, g.hasState t.target = true

theorem hasState_iff {id : StateId} : g.hasState id = true ↔ id ∈ g.states.map (·.id) := by
  simp only [hasState, state?, List.find?_isSome, List.mem_map, decide_eq_true_eq]

/-- Only known numbers accept. -/
theorem hasState_of_isAccepting {id : StateId} (haccepting : g.isAccepting id = true) :
    g.hasState id = true := by
  obtain ⟨s, hs, rfl, _⟩ := exists_mem_of_isAccepting haccepting
  exact hasState_iff.2 (List.mem_map_of_mem hs)

/-- The start state is known. -/
theorem hasState_of_soleStart {origin : StateId} (hstart : g.soleStart = .ok origin) :
    g.hasState origin = true := by
  obtain ⟨s, hs, _, rfl⟩ := exists_start_of_soleStart hstart
  exact hasState_iff.2 (List.mem_map_of_mem hs)

/-- An unknown number does not accept. -/
theorem isAccepting_of_not_hasState {id : StateId} (hunknown : g.hasState id = false) :
    g.isAccepting id = false := by
  rw [← Bool.not_eq_true] at hunknown ⊢
  exact mt hasState_of_isAccepting hunknown

theorem start?_eq_none_iff : g.start? = none ↔ g.startIds = [] := by
  rw [start?, List.head?_eq_none_iff]

/-- A state is added if its number is new and it does not compete for the start
mark. -/
theorem addState_eq_ok {s : State} (hnew : s.id ∉ g.states.map (·.id))
    (hstart : s.isStart = true → g.startIds = []) :
    g.addState s = .ok { g with states := g.states ++ [s] } := by
  have hunknown : g.hasState s.id = false := by
    rw [← Bool.not_eq_true, hasState_iff]
    exact hnew
  rw [addState, hunknown, if_neg Bool.false_ne_true]
  cases hmark : s.isStart with
  | false => cases g.start? <;> rfl
  | true => rw [start?_eq_none_iff.2 (hstart hmark)]

/-- A move between known states is added. -/
theorem addTransition_eq_ok {t : Transition} (hsource : g.hasState t.source = true)
    (htarget : g.hasState t.target = true) :
    g.addTransition t = .ok { g with transitions := g.transitions ++ [t] } := by
  simp [addTransition, hsource, htarget]

/-- States with distinct numbers and at most one start mark among them are all
added. -/
theorem foldlM_addState (states : List State) (g : Graph)
    (hnodup : ((g.states ++ states).map (·.id)).Nodup)
    (hstarts : (({ g with states := g.states ++ states } : Graph).startIds).length ≤ 1) :
    states.foldlM addState g = .ok { g with states := g.states ++ states } := by
  induction states generalizing g with
  | nil => rw [List.append_nil]; rfl
  | cons s states ih =>
    have hadd : g.addState s = .ok { g with states := g.states ++ [s] } := by
      refine addState_eq_ok (fun hold => ?_) fun hmark => ?_
      · rw [List.map_append, List.map_cons, List.nodup_append] at hnodup
        exact hnodup.2.2 _ hold _ List.mem_cons_self rfl
      · simp only [startIds, List.filter_append, List.filter_cons, hmark, if_true, List.map_append,
          List.map_cons, List.length_append, List.length_cons] at hstarts
        exact List.length_eq_zero_iff.1 (by rw [startIds]; omega)
    rw [List.foldlM_cons, hadd]
    change states.foldlM addState { g with states := g.states ++ [s] } = _
    rw [ih]
    · simp
    · simpa using hnodup
    · simpa using hstarts

/-- Moves between listed states are all added. -/
theorem foldlM_addTransition (transitions : List Transition) (g : Graph)
    (hknown : ∀ t ∈ transitions, g.hasState t.source = true ∧ g.hasState t.target = true) :
    transitions.foldlM addTransition g =
      .ok { g with transitions := g.transitions ++ transitions } := by
  induction transitions generalizing g with
  | nil => rw [List.append_nil]; rfl
  | cons t transitions ih =>
    obtain ⟨⟨hsource, htarget⟩, hrest⟩ := List.forall_mem_cons.1 hknown
    rw [List.foldlM_cons, addTransition_eq_ok hsource htarget]
    change transitions.foldlM addTransition { g with transitions := g.transitions ++ [t] } = _
    rw [ih]
    · simp
    · exact hrest

/-- The states of a well-formed graph can be added in their order. -/
theorem WellFormed.foldlM_addState_eq_ok (hg : g.WellFormed) :
    g.states.foldlM addState {} = .ok { states := g.states } :=
  foldlM_addState g.states {} (by simpa using hg.nodup_ids)
    (by simpa [startIds] using hg.length_startIds_le)

/-- Its moves can then be added as well, which makes the same graph again. -/
theorem WellFormed.foldlM_addTransition_eq_ok (hg : g.WellFormed) :
    g.transitions.foldlM addTransition { states := g.states } = .ok g :=
  foldlM_addTransition g.transitions { states := g.states } fun t ht =>
    ⟨hg.hasState_source t ht, hg.hasState_target t ht⟩

/-- A well-formed graph can be put together from its own lists. -/
theorem WellFormed.ofParts_eq_ok (hg : g.WellFormed) : ofParts g.states g.transitions = .ok g := by
  rw [ofParts, hg.foldlM_addState_eq_ok]
  exact hg.foldlM_addTransition_eq_ok

end Graph

end Automata
