import Automata.Proofs.Graph.Editing

namespace Automata

/-- Why a state cannot follow the states that were added before it. A number that is taken counts
before a second start mark, and the first start state is the one that is named. -/
inductive State.RefusedAfter (earlier : List State) (s : State) : GraphError → Prop where
  | duplicate (htaken : s.id ∈ earlier.map (·.id)) :
      State.RefusedAfter earlier s (.duplicateState s.id)
  | secondStart {first : State} (hnew : s.id ∉ earlier.map (·.id)) (hmark : s.isStart = true)
      (hfirst : earlier.find? (·.isStart) = some first) :
      State.RefusedAfter earlier s (.secondStart first.id s.id)

/-- Why a move cannot be added to states with the given numbers. Of two unknown ends the source is
the one that is named. -/
inductive Transition.RefusedAmong (ids : List StateId) (t : Transition) : GraphError → Prop where
  | source (hunknown : t.source ∉ ids) :
      Transition.RefusedAmong ids t (.unknownEndpoint t.source t.target t.source)
  | target (hknown : t.source ∈ ids) (hunknown : t.target ∉ ids) :
      Transition.RefusedAmong ids t (.unknownEndpoint t.source t.target t.target)

/-- States that can be added one after the other. -/
structure Addable (states : List State) : Prop where
  nodup_ids : (states.map (·.id)).Nodup
  length_starts_le : (states.filter (·.isStart)).length ≤ 1

/-- Both ends of a move are among the given numbers. -/
def Transition.Joins (ids : List StateId) (t : Transition) : Prop := t.source ∈ ids ∧ t.target ∈ ids

/-- What is wrong with the first part, in the order of the lists, that does not fit the parts before
it. Moves are looked at once all states are in place. -/
inductive FirstFault (states : List State) (transitions : List Transition) : GraphError → Prop where
  | state {before : List State} {s : State} {after : List State} {cause : GraphError}
      (hsplit : states = before ++ s :: after) (hbefore : Addable before)
      (hrefused : s.RefusedAfter before cause) : FirstFault states transitions cause
  | transition {before : List Transition} {t : Transition} {after : List Transition}
      {cause : GraphError} (hstates : Addable states) (hsplit : transitions = before ++ t :: after)
      (hbefore : ∀ u ∈ before, u.Joins (states.map (·.id)))
      (hrefused : t.RefusedAmong (states.map (·.id)) cause) : FirstFault states transitions cause

namespace Graph

variable {g : Graph} {states : List State} {transitions : List Transition} {cause : GraphError}

/-- A graph is well formed exactly if its states can be added in turn and its
moves join its states. -/
theorem wellFormed_iff_addable :
    g.WellFormed ↔
      Addable g.states ∧ ∀ t ∈ g.transitions, t.Joins (g.states.map (·.id)) := by
  have hstarts : g.startIds.length = (g.states.filter (·.isStart)).length := by
    rw [startIds, List.length_map]
  constructor
  · intro hg
    refine ⟨⟨hg.nodup_ids, hstarts ▸ hg.length_startIds_le⟩, fun t ht => ?_⟩
    exact ⟨hasState_iff.1 (hg.hasState_source t ht), hasState_iff.1 (hg.hasState_target t ht)⟩
  · rintro ⟨hstates, hjoins⟩
    exact ⟨hstates.nodup_ids, hstarts ▸ hstates.length_starts_le,
      fun t ht => hasState_iff.2 (hjoins t ht).1, fun t ht => hasState_iff.2 (hjoins t ht).2⟩

theorem start?_eq_some_iff {id : StateId} :
    g.start? = some id ↔ ∃ first, g.states.find? (·.isStart) = some first ∧ first.id = id := by
  rw [start?, startIds, List.head?_map, List.head?_filter, Option.map_eq_some_iff]

/-- A state is refused for the reasons listed, and for no others. -/
theorem addState_eq_error_iff {s : State} :
    g.addState s = .error cause ↔ s.RefusedAfter g.states cause := by
  unfold addState
  by_cases htaken : g.hasState s.id = true
  · rw [if_pos htaken]
    have hmem := hasState_iff.1 htaken
    constructor
    · intro herror
      cases herror
      exact .duplicate hmem
    · intro hrefused
      cases hrefused with
      | duplicate => rfl
      | secondStart hnew => exact absurd hmem hnew
  · rw [if_neg htaken]
    have hnew : s.id ∉ g.states.map (·.id) := mt hasState_iff.2 htaken
    split
    · rename_i existing hstart hmark
      obtain ⟨first, hfirst, rfl⟩ := start?_eq_some_iff.1 hstart
      constructor
      · intro herror
        cases herror
        exact .secondStart hnew hmark hfirst
      · intro hrefused
        cases hrefused with
        | duplicate hmem => exact absurd hmem hnew
        | secondStart _ _ hother =>
          cases hfirst.symm.trans hother
          rfl
    · rename_i hfree
      constructor
      · intro herror
        cases herror
      · intro hrefused
        cases hrefused with
        | duplicate hmem => exact absurd hmem hnew
        | secondStart _ hmark hfirst =>
          exact (hfree _ (start?_eq_some_iff.2 ⟨_, hfirst, rfl⟩) hmark).elim

/-- A move is refused exactly if one of its ends is unknown, and the source is
named first. -/
theorem addTransition_eq_error_iff {t : Transition} :
    g.addTransition t = .error cause ↔ t.RefusedAmong (g.states.map (·.id)) cause := by
  by_cases hsource : g.hasState t.source = true
  · by_cases htarget : g.hasState t.target = true
    · rw [addTransition_eq_ok hsource htarget]
      constructor
      · intro herror
        cases herror
      · intro hrefused
        cases hrefused with
        | source hunknown => exact absurd (hasState_iff.1 hsource) hunknown
        | target _ hunknown => exact absurd (hasState_iff.1 htarget) hunknown
    · have hunknown : t.target ∉ g.states.map (·.id) := mt hasState_iff.2 htarget
      have hadd : g.addTransition t = .error (.unknownEndpoint t.source t.target t.target) := by
        simp [addTransition, hsource, htarget]
      rw [hadd]
      constructor
      · intro herror
        cases herror
        exact .target (hasState_iff.1 hsource) hunknown
      · intro hrefused
        cases hrefused with
        | source hother => exact absurd (hasState_iff.1 hsource) hother
        | target => rfl
  · have hunknown : t.source ∉ g.states.map (·.id) := mt hasState_iff.2 hsource
    have hadd : g.addTransition t = .error (.unknownEndpoint t.source t.target t.source) := by
      simp [addTransition, hsource]
    rw [hadd]
    constructor
    · intro herror
      cases herror
      exact .source hunknown
    · intro hrefused
      cases hrefused with
      | source => rfl
      | target hknown => exact absurd hknown hunknown

/-- States are all added exactly if they can be added in turn. -/
theorem foldlM_addState_eq_ok_iff :
    states.foldlM addState {} = .ok g ↔ Addable states ∧ g = { states } := by
  constructor
  · intro hadd
    obtain ⟨hg, rfl⟩ := WellFormed.empty.foldlM_addState hadd
    exact ⟨(wellFormed_iff_addable.1 hg).1, rfl⟩
  · rintro ⟨hstates, rfl⟩
    have hstarts := hstates.length_starts_le
    exact foldlM_addState states {} hstates.nodup_ids (by simpa [startIds] using hstarts)

/-- Moves are all added exactly if each joins known states. -/
theorem foldlM_addTransition_eq_ok_iff (hstates : Addable states) :
    transitions.foldlM addTransition { states } = .ok g ↔
      (∀ t ∈ transitions, t.Joins (states.map (·.id))) ∧ g = { states, transitions } := by
  have hempty : ({ states } : Graph).WellFormed := wellFormed_iff_addable.2 ⟨hstates, nofun⟩
  constructor
  · intro hadd
    obtain ⟨hg, rfl⟩ := hempty.foldlM_addTransition hadd
    exact ⟨(wellFormed_iff_addable.1 hg).2, rfl⟩
  · rintro ⟨hjoins, rfl⟩
    have hg : ({ states, transitions } : Graph).WellFormed :=
      wellFormed_iff_addable.2 ⟨hstates, hjoins⟩
    exact hg.foldlM_addTransition_eq_ok

/-- Lists make a graph exactly if they are the lists of a well-formed one, and
then make that graph. -/
theorem ofParts_eq_ok_iff :
    ofParts states transitions = .ok g ↔
      g = { states, transitions } ∧ ({ states, transitions } : Graph).WellFormed := by
  constructor
  · intro hparts
    have hg : ({ states, transitions } : Graph).WellFormed := exists_ofParts_iff.1 ⟨g, hparts⟩
    exact ⟨Except.ok.inj (hparts.symm.trans hg.ofParts_eq_ok), hg⟩
  · rintro ⟨rfl, hg⟩
    exact hg.ofParts_eq_ok

/-- Adding states fails at the first that cannot follow those before it, and for
its reason. -/
theorem foldlM_addState_eq_error_iff :
    states.foldlM addState {} = .error cause ↔
      ∃ before s after, states = before ++ s :: after ∧ Addable before ∧
        s.RefusedAfter before cause := by
  rw [foldlM_eq_error_iff]
  simp only [foldlM_addState_eq_ok_iff, addState_eq_error_iff]
  constructor
  · rintro ⟨before, s, after, _, hsplit, ⟨hbefore, rfl⟩, hrefused⟩
    exact ⟨before, s, after, hsplit, hbefore, hrefused⟩
  · rintro ⟨before, s, after, hsplit, hbefore, hrefused⟩
    exact ⟨before, s, after, _, hsplit, ⟨hbefore, rfl⟩, hrefused⟩

/-- Adding moves fails at the first that does not join known states, and for its
reason. -/
theorem foldlM_addTransition_eq_error_iff (hstates : Addable states) :
    transitions.foldlM addTransition { states } = .error cause ↔
      ∃ before t after, transitions = before ++ t :: after ∧
        (∀ u ∈ before, u.Joins (states.map (·.id))) ∧
        t.RefusedAmong (states.map (·.id)) cause := by
  rw [foldlM_eq_error_iff]
  simp only [foldlM_addTransition_eq_ok_iff hstates, addTransition_eq_error_iff]
  constructor
  · rintro ⟨before, t, after, _, hsplit, ⟨hbefore, rfl⟩, hrefused⟩
    exact ⟨before, t, after, hsplit, hbefore, hrefused⟩
  · rintro ⟨before, t, after, hsplit, hbefore, hrefused⟩
    exact ⟨before, t, after, _, hsplit, ⟨hbefore, rfl⟩, hrefused⟩

/-- The reason why lists make no graph is the first fault in them. -/
theorem ofParts_eq_error_iff :
    ofParts states transitions = .error cause ↔ FirstFault states transitions cause := by
  rw [ofParts, bind_eq_error_iff, foldlM_addState_eq_error_iff]
  simp only [foldlM_addState_eq_ok_iff]
  constructor
  · rintro (⟨before, s, after, hsplit, hbefore, hrefused⟩ | ⟨_, ⟨hstates, rfl⟩, hmoves⟩)
    · exact .state hsplit hbefore hrefused
    · obtain ⟨before, t, after, hsplit, hbefore, hrefused⟩ :=
        (foldlM_addTransition_eq_error_iff hstates).1 hmoves
      exact .transition hstates hsplit hbefore hrefused
  · intro hfault
    cases hfault with
    | state hsplit hbefore hrefused => exact .inl ⟨_, _, _, hsplit, hbefore, hrefused⟩
    | transition hstates hsplit hbefore hrefused =>
      exact .inr ⟨_, ⟨hstates, rfl⟩, (foldlM_addTransition_eq_error_iff hstates).2
        ⟨_, _, _, hsplit, hbefore, hrefused⟩⟩

end Graph

namespace Automaton

/-- What holds of graphs holds of automata: the kind plays no part. -/
theorem ofParts_eq_ok_iff {kind : Kind} {states : List State} {transitions : List Transition}
    {a : Automaton} :
    ofParts kind states transitions = .ok a ↔
      a = ofGraph { states, transitions } kind ∧
        ({ states, transitions } : Graph).WellFormed := by
  constructor
  · intro hparts
    obtain ⟨g, hgraph, rfl⟩ := exists_of_map_eq_ok hparts
    obtain ⟨rfl, hg⟩ := Graph.ofParts_eq_ok_iff.1 hgraph
    exact ⟨rfl, hg⟩
  · rintro ⟨rfl, hg⟩
    rw [ofParts, Graph.ofParts_eq_ok_iff.2 ⟨rfl, hg⟩]
    rfl

/-- An automaton is refused for the first fault in its lists, whatever its
kind. -/
theorem ofParts_eq_error_iff {kind : Kind} {states : List State} {transitions : List Transition}
    {cause : GraphError} :
    ofParts kind states transitions = .error cause ↔ FirstFault states transitions cause := by
  rw [← Graph.ofParts_eq_error_iff, ofParts]
  cases Graph.ofParts states transitions <;> simp [Except.map]

/-- An automaton can be put together from lists exactly if the numbers are distinct, at most one
state is marked as the start and all ends of moves are among the numbers. It then has these lists, in
their order. Otherwise the first fault is reported. So a graph can be put together anew from its own
lists exactly if it is well formed. -/
theorem ofParts_settled_by_first_fault (kind : Kind) (states : List State)
    (transitions : List Transition) :
    (∀ a, ofParts kind states transitions = .ok a ↔
      a = ofGraph { states, transitions } kind ∧ (states.map (·.id)).Nodup ∧
        (states.filter (·.isStart)).length ≤ 1 ∧
        ∀ t ∈ transitions, t.source ∈ states.map (·.id) ∧ t.target ∈ states.map (·.id)) ∧
    (∀ cause, ofParts kind states transitions = .error cause ↔
      FirstFault states transitions cause) ∧
    ∀ g : Graph, ofParts kind g.states g.transitions = .ok (ofGraph g kind) ↔ g.WellFormed := by
  refine ⟨fun a => ?_, fun cause => ofParts_eq_error_iff, fun g => ?_⟩
  · rw [ofParts_eq_ok_iff, Graph.wellFormed_iff_addable]
    constructor
    · rintro ⟨ha, hstates, hjoins⟩
      exact ⟨ha, hstates.nodup_ids, hstates.length_starts_le, hjoins⟩
    · rintro ⟨ha, hnodup, hstarts, hjoins⟩
      exact ⟨ha, ⟨hnodup, hstarts⟩, hjoins⟩
  · rw [ofParts_eq_ok_iff]
    exact and_iff_right rfl

-- a repeated start state breaks two rules, and the first fault of all is in the second state
example :
    ofParts .dfa [{ id := 0, isStart := true }, { id := 0, isStart := true }]
      [{ source := 1, target := 2, symbol := 'a' }] = .error (.duplicateState 0) :=
  rfl

end Automaton

end Automata
