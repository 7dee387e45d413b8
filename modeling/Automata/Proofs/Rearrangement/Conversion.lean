import Automata.Proofs.Determinization
import Automata.Proofs.Minimization.Indistinguishability
import Automata.Proofs.Rearrangement

namespace Automata

variable {g h : Graph} {origin : StateId}

namespace Graph.Rearranges

theorem alphabet_eq (hgh : g.Rearranges h) : g.alphabet = h.alphabet :=
  SortedSet.ext fun c => by simp only [mem_alphabet_iff, hgh.mem_transitions_iff]

theorem reachable_eq (hgh : g.Rearranges h) :
    reachable g.transitions = reachable h.transitions := by
  funext start
  exact reachable_eq_of_mem_iff (fun _ => hgh.mem_transitions_iff) start

/-- The sets of states that the subset construction explores, and so the order
in which it discovers them. -/
theorem followUpSets_eq (hgh : g.Rearranges h) (silence : Silence) (symbols : List Char) :
    Frontier.followUpSets silence g symbols = Frontier.followUpSets silence h symbols := by
  refine Expansion.eq_of_next_eq ?_
  funext f
  simp only [Frontier.followUpSets, Frontier.move_eq_of_rearranges hgh]

/-- Rearranged graphs have the same deterministic graph. -/
theorem determinizeFrom_eq (hgh : g.Rearranges h) (hnodup : (g.states.map (·.id)).Nodup)
    (silence : Silence) (origin : StateId) :
    g.determinizeFrom silence origin = h.determinizeFrom silence origin := by
  have htransition : Determinization.transition? silence g =
      Determinization.transition? silence h := by
    funext frontiers source f symbol
    rw [Determinization.transition?, Determinization.transition?,
      Frontier.move_eq_of_rearranges hgh]
  rw [determinizeFrom, determinizeFrom, hgh.alphabet_eq, hgh.followUpSets_eq,
    Frontier.initial_eq_of_rearranges hgh, Frontier.isAccepting_eq_of_rearranges hgh hnodup,
    htransition]

/-- Rearranged graphs have the same table. -/
theorem table_eq (hgh : g.Rearranges h) (hnodup : (g.states.map (·.id)).Nodup)
    (hunique : g.ReadsUniquely) (origin : StateId) :
    Table.ofGraphFrom g origin = Table.ofGraphFrom h origin := by
  have hsymbols (states : Frontier) :
      SortedSet.ofList ((g.transitions.filter fun t =>
          !t.isEpsilon && decide (t.source ∈ states)).map (·.symbol)) =
        SortedSet.ofList ((h.transitions.filter fun t =>
          !t.isEpsilon && decide (t.source ∈ states)).map (·.symbol)) := by
    refine SortedSet.ext fun c => ?_
    simp only [SortedSet.mem_ofList, List.mem_map, List.mem_filter, hgh.mem_transitions_iff]
  simp only [Table.ofGraphFrom, hgh.reachable_eq, hsymbols, hgh.isAccepting_eq hnodup,
    Deterministic.successor_eq_of_rearranges hgh hunique]

/-- Rearranged graphs have the same quotient. -/
theorem quotient_eq (hgh : g.Rearranges h) (t : Table) (p : Partition) :
    t.quotient g p = t.quotient h p := by
  rw [Table.quotient, Table.quotient, hgh.perm_states.length_eq]

end Graph.Rearranges

namespace Graph

/-- What conversions return does not depend on the order in which the states and
the moves of a graph are listed. The subset construction gives the same numbers
to the same sets and lists states and moves in the same order; if no state has
two moves on a symbol, minimization returns the same graph with the same
mapping, groups and counts. -/
theorem rearranged_conversions_agree (g h : Graph) (hnodup : (g.states.map (·.id)).Nodup)
    (hstart : g.soleStart = .ok origin) (hstates : h.states.Perm g.states)
    (htransitions : h.transitions.Perm g.transitions) :
    (∀ silence, ∃ d, g.determinize silence = .ok d ∧ h.determinize silence = .ok d) ∧
      (g.ReadsUniquely → ∃ q, g.minimize = .ok q ∧ h.minimize = .ok q) := by
  have hgh : g.Rearranges h := ⟨hstates.symm, htransitions.symm⟩
  have hstart' := hgh.soleStart_eq hstart
  constructor
  · intro silence
    refine ⟨g.determinizeFrom silence origin, determinize_of_soleStart hstart silence, ?_⟩
    rw [determinize_of_soleStart hstart' silence, hgh.determinizeFrom_eq hnodup]
  · intro hunique
    refine ⟨_, minimize_of_soleStart hstart, ?_⟩
    rw [minimize_of_soleStart hstart', hgh.table_eq hnodup hunique, hgh.quotient_eq]

/-- A graph with a cycle, a silent move, two states that no word tells apart, a
state out of reach and a move to an unknown state. -/
theorem rearranged_conversions_agree_of_reversal :
    let states : List State := [{ id := 4, isStart := true }, { id := 7, isAccepting := true },
      { id := 2, isAccepting := true }, { id := -3 }]
    let moves : List Transition := [
      { source := 4, target := 7, symbol := 'b' },
      { source := 4, target := 2, symbol := 'a' },
      { source := 7, target := 4, symbol := 'a' },
      { source := 2, target := 4, symbol := 'a' },
      { source := 2, target := 4, symbol := epsilon },
      { source := -3, target := 9, symbol := 'a' }]
    let g : Graph := { states, transitions := moves }
    let h : Graph := { states := states.reverse, transitions := moves.reverse }
    (g.states.map (·.id)).Nodup ∧ g.soleStart = .ok 4 ∧ h.states.Perm g.states ∧
      h.transitions.Perm g.transitions ∧ g.ReadsUniquely ∧
      (∀ silence, ∃ d, g.determinize silence = .ok d ∧ h.determinize silence = .ok d) ∧
      ∃ q, g.minimize = .ok q ∧ h.minimize = .ok q := by
  intro states moves g h
  have hnodup : (g.states.map (·.id)).Nodup := by decide
  have hunique : g.ReadsUniquely := readsUniquely_of_choiceIssues_eq_nil (by decide)
  have hagree := rearranged_conversions_agree g h hnodup rfl (List.reverse_perm _)
    (List.reverse_perm _)
  exact ⟨hnodup, rfl, List.reverse_perm _, List.reverse_perm _, hunique, hagree.1,
    hagree.2 hunique⟩

end Graph

end Automata
