import Automata.Proofs.Minimization.Minimized

namespace Automata

open Deterministic (Indistinguishable destination outcome)

namespace Graph

variable {g : Graph} {origin : StateId} {block : StateId → Nat}

/-- The runs from a state miss nothing: each state that moves lead to is
indistinguishable from one that some word leads to. -/
def RunsCover (g : Graph) (origin : StateId) : Prop :=
  ∀ p ∈ reachable g.transitions origin, ∃ word q,
    destination g origin word = some q ∧ Indistinguishable g p q

/-- Where moves do not compete, runs miss nothing. -/
theorem ChoiceFree.runsCover (hg : g.ChoiceFree) (origin : StateId) : g.RunsCover origin := by
  intro p hp
  obtain ⟨word, hword⟩ := hg.mem_reachable_iff.1 hp
  exact ⟨word, p, hword, .refl p⟩

namespace Classifies

/-- In the minimized graph moves lead to the blocks of the states that words lead
to. -/
theorem mem_reachableStates_minimized_iff (hblock : g.Classifies origin block) {b : StateId} :
    b ∈ (g.minimized origin).reachableStates (block origin) ↔
      ∃ word q, destination g origin word = some q ∧ (block q : StateId) = b := by
  have hmap (word : List Char) :=
    hblock.morphism.destination_map (g.origin_mem_reachableStates origin) word
  rw [Table.mem_reachableStates_iff, hblock.choiceFree_minimized.mem_reachable_iff]
  refine exists_congr fun word => ?_
  rw [hmap, Option.map_eq_some_iff]

/-- What can be reached in the minimized graph are states of it. -/
theorem hasState_of_mem_reachableStates (hblock : g.Classifies origin block) {b : StateId}
    (hb : b ∈ (g.minimized origin).reachableStates (block origin)) :
    (g.minimized origin).hasState b = true := by
  obtain ⟨word, q, hword, rfl⟩ := hblock.mem_reachableStates_minimized_iff.1 hb
  exact hblock.hasState_minimized_iff.2
    ⟨q, Deterministic.mem_reachable_of_destination hword, rfl⟩

/-- Runs miss nothing exactly if all states of the minimized graph can be
reached. -/
theorem runsCover_iff (hblock : g.Classifies origin block) :
    g.RunsCover origin ↔ ∀ b, (g.minimized origin).hasState b = true →
      b ∈ (g.minimized origin).reachableStates (block origin) := by
  constructor
  · intro hcover b hb
    obtain ⟨p, hp, rfl⟩ := hblock.hasState_minimized_iff.1 hb
    obtain ⟨word, q, hword, hsame⟩ := hcover p hp
    have hq := Deterministic.mem_reachable_of_destination hword
    refine hblock.mem_reachableStates_minimized_iff.2 ⟨word, q, hword, ?_⟩
    rw [(hblock.block_eq_iff p hp q hq).2 hsame]
  · intro hall p hp
    obtain ⟨word, q, hword, hq⟩ := hblock.mem_reachableStates_minimized_iff.1
      (hall _ (hblock.hasState_minimized_iff.2 ⟨p, hp, rfl⟩))
    have hqmem := Deterministic.mem_reachable_of_destination hword
    exact ⟨word, q, hword, (hblock.block_eq_iff p hp q hqmem).1 (Int.ofNat_inj.1 hq.symm)⟩

/-- If runs miss something, part of the minimized graph cannot be reached. -/
theorem length_reachableStates_lt (hblock : g.Classifies origin block)
    (hmissed : ¬ g.RunsCover origin) :
    ((g.minimized origin).reachableStates (block origin)).length <
      (g.minimized origin).states.length := by
  by_contra hall
  refine hmissed (hblock.runsCover_iff.2 fun b hb => ?_)
  have hsub : (g.minimized origin).reachableStates (block origin) ⊆
      (g.minimized origin).states.map (·.id) := fun b hb =>
    hasState_iff.1 (hblock.hasState_of_mem_reachableStates hb)
  have hnodup : ((g.minimized origin).reachableStates (block origin)).Nodup :=
    SortedSet.nodup_toList _
  have hperm := (hnodup.subperm hsub).perm_of_length_le (by rw [List.length_map]; omega)
  exact hperm.mem_iff.2 (hasState_iff.1 hb)

end Classifies

/-- A graph with a move that no run takes, since another one on its symbol comes
before it. Only that move leads to the accepting state. -/
def shadowed : Graph where
  states := [{ id := 0, isStart := true }, { id := 1, isAccepting := true }]
  transitions := [
    { source := 0, target := 0, symbol := 'a' },
    { source := 0, target := 1, symbol := 'a' }]

/-- The second move on the symbol is never taken. -/
theorem successor_shadowed (c : Char) :
    Deterministic.successor shadowed 0 c = if c = 'a' then some 0 else none := by
  by_cases hc : c = 'a'
  · rw [if_pos hc, hc]
    rfl
  · rw [if_neg hc, Deterministic.successor_eq_none_iff]
    simp [shadowed, Transition.reads, Ne.symm hc]

/-- So no word leads away from the first state. -/
theorem eq_zero_of_destination_shadowed {word : List Char} {q : StateId}
    (hdestination : destination shadowed 0 word = some q) : q = 0 := by
  induction word with
  | nil => exact (Option.some.inj hdestination).symm
  | cons c word ih =>
    rw [Deterministic.destination_cons, successor_shadowed] at hdestination
    split at hdestination
    · exact ih hdestination
    · cases hdestination

/-- The other state is within reach of the moves, but no run is ever in it. -/
theorem not_runsCover_shadowed : ¬ shadowed.RunsCover 0 := by
  intro hcover
  have hreached : (1 : StateId) ∈ reachable shadowed.transitions 0 :=
    reachable_closed (t := { source := 0, target := 1, symbol := 'a' }) (by decide)
      (start_mem_reachable _ _)
  obtain ⟨word, q, hword, hsame⟩ := hcover 1 hreached
  obtain rfl := eq_zero_of_destination_shadowed hword
  exact absurd hsame.accepting_eq (by decide)

end Graph

end Automata
