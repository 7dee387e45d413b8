import Automata.Proofs.Minimization.Indistinguishability
import Automata.Proofs.Run.ChoiceFree

namespace Automata

open Deterministic (Indistinguishable RunsAgree destination outcome)

/-- States are indistinguishable if every word has the same outcome from
both. -/
theorem Deterministic.indistinguishable_iff {g : Graph} {a b : StateId} :
    Indistinguishable g a b ↔ ∀ word, outcome g a word = outcome g b word := by
  refine forall_congr' fun word => ?_
  rw [outcome, outcome]
  cases destination g a word <;> cases destination g b word <;> simp

theorem Deterministic.Indistinguishable.refl {g : Graph} (a : StateId) : Indistinguishable g a a :=
  indistinguishable_iff.2 fun _ => rfl

namespace Graph

variable {g : Graph} {origin : StateId} {block : StateId → Nat}

/-- The graph that minimization leaves, given the start state. -/
def minimized (g : Graph) (origin : StateId) : Graph :=
  (Table.ofGraphFrom g origin).quotientGraph (Table.ofGraphFrom g origin).refine

/-- A numbering of the states by the blocks of the refined table, which are the
classes of indistinguishable states. -/
structure Classifies (g : Graph) (origin : StateId) (block : StateId → Nat) : Prop where
  colours : (Table.ofGraphFrom g origin).refine.Colours (g.reachableStates origin) block
  block_eq_iff : ∀ a ∈ g.reachableStates origin, ∀ b ∈ g.reachableStates origin,
    block a = block b ↔ Indistinguishable g a b

/-- The refined partition puts states together exactly if no word tells them
apart. -/
theorem exists_classifies (g : Graph) (origin : StateId) :
    ∃ block, g.Classifies origin block := by
  obtain ⟨block, hcolours, hmerged⟩ := Table.exists_colours_refine_iff g origin
  exact ⟨block, hcolours, hmerged⟩

theorem origin_mem_reachableStates (g : Graph) (origin : StateId) :
    origin ∈ g.reachableStates origin :=
  Table.mem_reachableStates_iff.2 (start_mem_reachable _ _)

theorem length_states_minimized (g : Graph) (origin : StateId) :
    (g.minimized origin).states.length = (Table.ofGraphFrom g origin).refine.count := by
  rw [minimized, Table.quotientGraph, List.length_map, List.length_range]

/-- The new states are numbered from 0 without gaps. -/
theorem ids_minimized (g : Graph) (origin : StateId) :
    (g.minimized origin).states.map (·.id) =
      (List.range (g.minimized origin).states.length).map fun n : Nat => (n : StateId) := by
  rw [length_states_minimized, minimized, Table.quotientGraph, List.map_map]
  rfl

/-- The new moves are those between blocks, in ascending order and each once. -/
theorem map_moveKey_minimized (g : Graph) (origin : StateId) :
    (g.minimized origin).transitions.map moveKey =
      ((Table.ofGraphFrom g origin).blockMoves (Table.ofGraphFrom g origin).refine).toList := by
  rw [minimized, Table.quotientGraph, List.map_map]
  exact List.map_id _

namespace Classifies

/-- No round splits the blocks any more. -/
theorem stable (hblock : g.Classifies origin block) :
    Table.Stable g (g.reachableStates origin) block := by
  refine ⟨fun a ha b hb hab => ((hblock.block_eq_iff a ha b hb).1 hab).accepting_eq,
    fun a ha b hb hab c => ?_⟩
  have hsame := (hblock.block_eq_iff a ha b hb).1 hab
  cases hnextA : Deterministic.successor g a c with
  | some a' =>
    obtain ⟨b', hnextB, hsame'⟩ := hsame.exists_successor hnextA
    rw [hnextB]
    have ha' := Table.successor_mem_reachableStates ha hnextA
    have hb' := Table.successor_mem_reachableStates hb hnextB
    exact congrArg some ((hblock.block_eq_iff a' ha' b' hb').2 hsame')
  | none =>
    cases hnextB : Deterministic.successor g b c with
    | none => rfl
    | some b' =>
      obtain ⟨a', hnext, _⟩ := hsame.symm.exists_successor hnextB
      rw [hnextA] at hnext
      cases hnext

/-- Taking states to their blocks leads from the graph into the minimized one, as
far as the start state reaches. -/
theorem morphism (hblock : g.Classifies origin block) :
    Deterministic.Morphism g (g.minimized origin) (· ∈ g.reachableStates origin)
      fun id => (block id : StateId) :=
  Table.morphism_quotientGraph hblock.colours hblock.stable

/-- The block of the start state is the new start state. -/
theorem soleStart_minimized (hblock : g.Classifies origin block) :
    (g.minimized origin).soleStart = .ok (block origin : StateId) :=
  Table.soleStart_quotientGraph hblock.colours

/-- The new states are the blocks of states within reach. -/
theorem hasState_minimized_iff (hblock : g.Classifies origin block) {b : StateId} :
    (g.minimized origin).hasState b = true ↔
      ∃ id ∈ g.reachableStates origin, (block id : StateId) = b := by
  rw [hasState_iff]
  constructor
  · intro hb
    simp only [minimized, Table.quotientGraph, List.map_map, List.mem_map, List.mem_range] at hb
    obtain ⟨n, hn, rfl⟩ := hb
    obtain ⟨id, hid, rfl⟩ := (hblock.colours.lt_count_iff n).1 hn
    exact ⟨id, hid, rfl⟩
  · rintro ⟨id, hid, rfl⟩
    exact List.mem_map_of_mem (Table.mem_quotientGraph_states hblock.colours hid)

/-- A block shows on every word what its members show. -/
theorem outcome_minimized (hblock : g.Classifies origin block) {id : StateId}
    (hid : id ∈ g.reachableStates origin) (word : List Char) :
    outcome (g.minimized origin) (block id) word = outcome g id word :=
  hblock.morphism.outcome_map hid word

/-- The minimized graph has the same runs. -/
theorem runsAgree_minimized (hblock : g.Classifies origin block) :
    RunsAgree g origin (g.minimized origin) (block origin) :=
  Deterministic.runsAgree_iff.2 fun input =>
    hblock.outcome_minimized (g.origin_mem_reachableStates origin) input

/-- Words tell all states of the minimized graph apart. -/
theorem eq_of_indistinguishable (hblock : g.Classifies origin block) {a b : StateId}
    (ha : (g.minimized origin).hasState a = true) (hb : (g.minimized origin).hasState b = true)
    (hab : Indistinguishable (g.minimized origin) a b) : a = b := by
  obtain ⟨p, hp, rfl⟩ := hblock.hasState_minimized_iff.1 ha
  obtain ⟨q, hq, rfl⟩ := hblock.hasState_minimized_iff.1 hb
  rw [Deterministic.indistinguishable_iff] at hab
  have hpq : Indistinguishable g p q := Deterministic.indistinguishable_iff.2 fun word => by
    rw [← hblock.outcome_minimized hp, ← hblock.outcome_minimized hq, hab]
  rw [(hblock.block_eq_iff p hp q hq).2 hpq]

/-- Moves of the minimized graph do not compete, even where those of the given
graph do. -/
theorem choiceFree_minimized (hblock : g.Classifies origin block) :
    (g.minimized origin).ChoiceFree := by
  refine ⟨fun t ht => ?_, fun t ht u hu hsource hsymbol => ?_⟩
  · obtain ⟨id, _, c, q, hsuccessor, rfl⟩ :=
      (Table.mem_quotientGraph_transitions_iff hblock.colours).1 ht
    obtain ⟨u, _, _, hreads, _⟩ := Deterministic.exists_move_of_successor hsuccessor
    obtain ⟨hepsilon, rfl⟩ := Transition.reads_iff.1 hreads
    exact hepsilon
  · obtain ⟨a, ha, c, a', hnextA, rfl⟩ :=
      (Table.mem_quotientGraph_transitions_iff hblock.colours).1 ht
    obtain ⟨b, hb, d, b', hnextB, rfl⟩ :=
      (Table.mem_quotientGraph_transitions_iff hblock.colours).1 hu
    obtain rfl : c = d := hsymbol
    have hsame := hblock.stable.successor_eq a ha b hb (Int.ofNat_inj.1 hsource) c
    rw [hnextA, hnextB] at hsame
    exact Int.ofNat_inj.2 (Option.some.inj hsame)

/-- Nothing is wrong with the minimized graph, whatever is wrong with the given
one. -/
theorem properDfa_minimized (hblock : g.Classifies origin block) :
    (g.minimized origin).ProperDfa := by
  have hmove {t : Transition} (ht : t ∈ (g.minimized origin).transitions) :=
    (Table.mem_quotientGraph_transitions_iff hblock.colours).1 ht
  have hstarts := soleStart_eq_ok_iff.1 hblock.soleStart_minimized
  refine ⟨⟨Table.nodup_quotientGraph_ids _ _, by simp [hstarts], fun t ht => ?_, fun t ht => ?_⟩,
    ⟨_, hblock.soleStart_minimized⟩, hblock.choiceFree_minimized.isEpsilon_eq_false,
    fun t ht => ?_, ?_⟩
  · obtain ⟨id, hid, c, q, _, rfl⟩ := hmove ht
    exact hblock.hasState_minimized_iff.2 ⟨id, hid, rfl⟩
  · obtain ⟨id, hid, c, q, hsuccessor, rfl⟩ := hmove ht
    exact hblock.hasState_minimized_iff.2
      ⟨q, Table.successor_mem_reachableStates hid hsuccessor, rfl⟩
  · obtain ⟨id, _, c, q, _, rfl⟩ := hmove ht
    rfl
  · refine hblock.choiceFree_minimized.nodup_choices ?_
    rw [map_moveKey_minimized]
    exact SortedSet.nodup_toList _

end Classifies

end Graph

end Automata
