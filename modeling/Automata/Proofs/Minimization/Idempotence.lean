import Automata.Proofs.Minimization.NormalForm

namespace Automata

namespace Graph

variable {g : Graph} {origin : StateId} {block : StateId → Nat}

/-- States that runs miss are gone after the second time. -/
theorem Classifies.length_states_minimized_lt (hblock : g.Classifies origin block)
    (hmissed : ¬ g.RunsCover origin) :
    ((g.minimized origin).minimized (block origin)).states.length <
      (g.minimized origin).states.length := by
  calc ((g.minimized origin).minimized (block origin)).states.length
      = (Table.ofGraphFrom (g.minimized origin) (block origin)).refine.count :=
        length_states_minimized _ _
    _ ≤ ((g.minimized origin).reachableStates (block origin)).length :=
        Table.length_rows_ofGraphFrom _ _ ▸ Table.count_refine_le _
    _ < (g.minimized origin).states.length := hblock.length_reachableStates_lt hmissed

/-- Minimizing a minimized graph gives the same graph, with every state mapped to
itself and none merged, exactly if each state that moves lead to in the graph that
was given first is indistinguishable from one that some word leads to. That is so
for every graph without silent and without competing moves. -/
theorem minimize_idempotent_iff_runsCover (g : Graph) {origin : StateId}
    (hstart : g.soleStart = .ok origin) :
    ∃ q q', g.minimize = .ok q ∧ q.graph.minimize = .ok q' ∧
      (g.RunsCover origin ↔
        q'.graph = q.graph ∧ q'.mapping = q.graph.states.map (fun s => (s.id, s.id)) ∧
          q'.isAlreadyMinimal = true) ∧
      (g.ChoiceFree → g.RunsCover origin) := by
  obtain ⟨block, hblock⟩ := g.exists_classifies origin
  refine ⟨_, _, minimize_of_soleStart hstart, minimize_of_soleStart hblock.soleStart_minimized,
    ⟨fun hcover => ?_, fun ⟨hsame, _⟩ => ?_⟩, fun hfree => hfree.runsCover origin⟩
  · have hnormal := hblock.normal_minimized hcover
    refine ⟨hnormal.minimized_eq, hnormal.mapping_eq, decide_eq_true ?_⟩
    have hgraph := congrArg (·.states.length) hnormal.minimized_eq
    have hrows : (Table.ofGraphFrom (g.minimized origin) (block origin)).rows.length =
        (g.minimized origin).states.length := by
      rw [Table.length_rows_ofGraphFrom, hnormal.reachableStates_eq, List.length_map]
    exact hgraph.trans hrows.symm
  · by_contra hmissed
    have hless := hblock.length_states_minimized_lt hmissed
    rw [show (g.minimized origin).minimized (block origin) = g.minimized origin from hsame] at hless
    exact Nat.lt_irrefl _ hless

/-- A graph whose start state is not the one with the least number, with two states
to merge and a state out of reach. -/
theorem minimize_idempotent_iff_runsCover_of_merge :
    let g : Graph :=
      { states := [{ id := 4, isStart := true }, { id := 1, isAccepting := true },
          { id := 2, isAccepting := true }, { id := 9 }]
        transitions := [
          { source := 4, target := 1, symbol := 'a' },
          { source := 4, target := 2, symbol := 'b' },
          { source := 1, target := 4, symbol := 'b' },
          { source := 2, target := 4, symbol := 'b' },
          { source := 9, target := 1, symbol := 'a' }] }
    g.soleStart = .ok 4 ∧
      ∃ q q', g.minimize = .ok q ∧ q.graph.minimize = .ok q' ∧
        (g.RunsCover 4 ↔
          q'.graph = q.graph ∧ q'.mapping = q.graph.states.map (fun s => (s.id, s.id)) ∧
            q'.isAlreadyMinimal = true) ∧
        (g.ChoiceFree → g.RunsCover 4) :=
  ⟨rfl, minimize_idempotent_iff_runsCover _ rfl⟩

/-- Without silent moves alone, a second minimization may still change the graph:
it drops a state that only a move led to which no run takes. -/
theorem minimize_not_idempotent_of_shadowed :
    shadowed.soleStart = .ok 0 ∧ (∀ t ∈ shadowed.transitions, t.isEpsilon = false) ∧
      ∃ q q', shadowed.minimize = .ok q ∧ q.graph.minimize = .ok q' ∧ q'.graph ≠ q.graph := by
  obtain ⟨block, hblock⟩ := shadowed.exists_classifies 0
  refine ⟨rfl, by decide, _, _, minimize_of_soleStart rfl,
    minimize_of_soleStart hblock.soleStart_minimized, fun hsame => ?_⟩
  have hless := hblock.length_states_minimized_lt not_runsCover_shadowed
  exact Nat.ne_of_lt hless (congrArg (·.states.length) hsame)

end Graph

end Automata
