import Automata.Proofs.Minimization.Quotient

namespace Automata

namespace Table

variable {g : Graph} {origin : StateId} {p : Partition} {colour : StateId → Nat}

/-- Every state within reach is mapped to the number of its block. -/
theorem mapping_quotient (hp : p.Colours (g.reachableStates origin) colour) :
    ((ofGraphFrom g origin).quotient g p).mapping =
      (g.reachableStates origin).map fun id => (id, (colour id : StateId)) := by
  rw [quotient, rows_ofGraphFrom, hp.blocks, List.zipWith_map, List.zipWith_self]
  rfl

/-- States out of reach are not mapped. -/
theorem lookup_mapping (hp : p.Colours (g.reachableStates origin) colour) (id : StateId) :
    ((ofGraphFrom g origin).quotient g p).mapping.lookup id =
      if id ∈ g.reachableStates origin then some (colour id : StateId) else none := by
  have hzip := List.zip_map' (f := fun id : StateId => id)
    (g := fun id => ((colour id : Nat) : StateId)) (l := g.reachableStates origin)
  rw [List.map_id'] at hzip
  rw [mapping_quotient hp, ← hzip]
  exact lookup_zip_map _ _ _

/-- Taking states to their blocks leads from the given graph into the quotient,
as far as the start state reaches. -/
theorem morphism_quotientGraph (hp : p.Colours (g.reachableStates origin) colour)
    (hstable : Stable g (g.reachableStates origin) colour) :
    Deterministic.Morphism g ((ofGraphFrom g origin).quotientGraph p)
      (· ∈ g.reachableStates origin) fun id => (colour id : StateId) where
  closed hid hsuccessor := successor_mem_reachableStates hid hsuccessor
  successor_eq c hid := successor_quotientGraph hp hstable hid c
  accepting_eq hid := isAccepting_quotientGraph hp hstable hid

end Table

/-- Minimization keeps the language, and the run on the minimized graph is in
the new state of the one that the given run is in, at every step; both get stuck
at the same symbol. The graph may list repeated numbers, moves to unknown
states, moves that read nothing, and several moves on a symbol. -/
theorem Graph.minimize_preserves_runs (g : Graph) {origin : StateId}
    (hstart : g.soleStart = .ok origin) :
    ∃ q start, g.minimize = .ok q ∧ q.graph.soleStart = .ok start ∧
      (∀ input, (Automaton.dfa q.graph).accepts input = (Automaton.dfa g).accepts input) ∧
      ∀ input k,
        let given := Nat.repeat (Deterministic.step g) k (Deterministic.start g origin input)
        let small := Nat.repeat (Deterministic.step q.graph) k
          (Deterministic.start q.graph start input)
        small.position = given.position ∧ small.halt = given.halt ∧
          small.verdict = given.verdict ∧
          q.mapping.lookup given.current = some small.current := by
  obtain ⟨colour, hcolours, hstable⟩ := Table.exists_stable_refine g origin
  have hmorphism := Table.morphism_quotientGraph hcolours hstable
  have horigin : origin ∈ g.reachableStates origin :=
    Table.mem_reachableStates_iff.2 (start_mem_reachable _ _)
  have hminimize : g.minimize =
      .ok ((Table.ofGraphFrom g origin).quotient g (Table.ofGraphFrom g origin).refine) := by
    rw [minimize, Table.ofGraph, hstart]
    rfl
  have hquotient := Table.soleStart_quotientGraph hcolours
  refine ⟨_, colour origin, hminimize, hquotient, fun input => ?_, fun input k => ?_⟩
  · have hsmall := Automaton.accepts_of_soleStart (a := .dfa (Table.quotientGraph _ _)) hquotient input
    have hgiven := Automaton.accepts_of_soleStart (a := .dfa g) hstart input
    exact hsmall.trans ((congrArg Except.ok (hmorphism.acceptsFrom_eq horigin input)).trans
      hgiven.symm)
  · obtain ⟨hinside, hmap⟩ := hmorphism.repeat_step_map horigin input k
    intro given small
    have hsmall : small = given.map fun id => (colour id : StateId) := hmap
    rw [hsmall, Table.lookup_mapping hcolours, if_pos hinside]
    exact ⟨rfl, rfl, rfl, rfl⟩

/-- A graph with a repeated number, two moves on a symbol, a silent move and a
move to an unknown state. -/
theorem Graph.minimize_preserves_runs_of_choice :
    let g : Graph :=
      { states := [{ id := 5, isStart := true }, { id := 2, isAccepting := true }, { id := 2 },
          { id := 4, isAccepting := true }]
        transitions := [
          { source := 5, target := 2, symbol := 'a' },
          { source := 5, target := 5, symbol := 'a' },
          { source := 5, target := 4, symbol := 'b' },
          { source := 2, target := 9, symbol := 'b' },
          { source := 2, target := 4, symbol := epsilon }] }
    g.soleStart = .ok 5 ∧
      ∃ q start, g.minimize = .ok q ∧ q.graph.soleStart = .ok start ∧
        (∀ input, (Automaton.dfa q.graph).accepts input = (Automaton.dfa g).accepts input) ∧
        ∀ input k,
          let given := Nat.repeat (Deterministic.step g) k (Deterministic.start g 5 input)
          let small := Nat.repeat (Deterministic.step q.graph) k
            (Deterministic.start q.graph start input)
          small.position = given.position ∧ small.halt = given.halt ∧
            small.verdict = given.verdict ∧
            q.mapping.lookup given.current = some small.current :=
  ⟨rfl, minimize_preserves_runs _ rfl⟩

end Automata
