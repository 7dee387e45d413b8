import Automata.Proofs.Minimization.Consistency

namespace Automata

namespace MinimizationCounts

theorem difference?_eq_some {larger smaller : Nat} (hle : smaller ≤ larger) :
    difference? larger smaller = some (larger - smaller) :=
  if_pos hle

/-- Counts that fit the refined table they were read from and the result built from it. The number of
blocks is that of the different numbers in the table, and none of the groups is empty. -/
structure Agree (counts : MinimizationCounts) (t : Table) (p : Partition) (q : Quotient) :
    Prop where
  given_eq : counts.given = q.givenCount
  reachable_eq : counts.reachable = q.reachableCount
  minimized_eq : counts.minimized = q.minimizedCount
  length_rows : t.rows.length = counts.reachable
  count_eq : p.count = counts.minimized
  length_groups : q.groups.length = p.count
  card_blocks : p.blocks.toFinset.card = p.count
  group_ne_empty : ∀ b members, (b, members) ∈ q.groups → members ≠ ∅

/-- At least one state is left and no more than are within reach, so that there is a number of states
that disappear by merging. -/
structure Bounded (counts : MinimizationCounts) : Prop where
  pos : 1 ≤ counts.minimized
  minimized_le : counts.minimized ≤ counts.reachable
  merged_eq : counts.merged? = some (counts.reachable - counts.minimized)

end MinimizationCounts

namespace Graph

variable {g : Graph} {origin : StateId} {block : StateId → Nat}

/-- Moves to listed states never leave the list. -/
theorem hasState_of_mem_reachableStates (hstart : g.hasState origin = true)
    (hknown : ∀ m ∈ g.transitions, g.hasState m.target = true) {id : StateId}
    (hid : id ∈ g.reachableStates origin) : g.hasState id = true := by
  have hpath := mem_reachable_iff.1 (Table.mem_reachableStates_iff.1 hid)
  induction hpath with
  | refl => exact hstart
  | tail _ hmove _ =>
    obtain ⟨m, hm, _, rfl⟩ := hmove
    exact hknown m hm

/-- No more states are within reach than are listed, whether or not their numbers are distinct. -/
theorem length_reachableStates_le (hstart : g.hasState origin = true)
    (hknown : ∀ m ∈ g.transitions, g.hasState m.target = true) :
    (g.reachableStates origin).length ≤ g.states.length := by
  have hsubset : g.reachableStates origin ⊆ g.states.map (·.id) := fun id hid =>
    hasState_iff.1 (hasState_of_mem_reachableStates hstart hknown hid)
  have hsubperm := (SortedSet.nodup_toList (reachable g.transitions origin)).subperm hsubset
  have hle := hsubperm.length_le
  rwa [List.length_map] at hle

/-- The counts read from the refined table of a graph. -/
def countsFrom (g : Graph) (origin : StateId) : MinimizationCounts where
  given := g.states.length
  reachable := (Table.ofGraphFrom g origin).rows.length
  minimized := (Table.ofGraphFrom g origin).refine.count

/-- With a single start state everything is counted from there. -/
theorem minimizationCounts_of_soleStart (hstart : g.soleStart = .ok origin) :
    g.minimizationCounts = .ok (g.countsFrom origin) := by
  rw [minimizationCounts, Table.ofGraph_of_soleStart hstart]
  rfl

/-- The counts of the table, of the refinement and of the new graph agree. -/
theorem Classifies.agree (hblock : g.Classifies origin block) :
    (g.countsFrom origin).Agree (Table.ofGraphFrom g origin) (Table.ofGraphFrom g origin).refine
      ((Table.ofGraphFrom g origin).quotient g (Table.ofGraphFrom g origin).refine) where
  given_eq := rfl
  reachable_eq := rfl
  minimized_eq := (length_states_minimized g origin).symm
  length_rows := rfl
  count_eq := rfl
  length_groups := by
    rw [Table.quotient, List.length_map, List.length_range]
  card_blocks := by
    have himage : ((g.reachableStates origin).map block).toFinset =
        (g.reachableStates origin).toFinset.image block := by
      ext b
      simp only [List.mem_toFinset, List.mem_map, Finset.mem_image]
    rw [hblock.colours.blocks, himage, hblock.colours.card_image]
  group_ne_empty _ _ hgroup := by
    obtain ⟨_, _, hne, _⟩ := Table.exists_colour_of_mem_groups hblock.colours hgroup
    exact hne

/-- At least one block is left and no more than there are states within reach,
so the number of merged states is never missing. -/
theorem Classifies.bounded (hblock : g.Classifies origin block) :
    (g.countsFrom origin).Bounded := by
  have hle : (g.countsFrom origin).minimized ≤ (g.countsFrom origin).reachable :=
    Table.count_refine_le _
  have hlt := (hblock.colours.lt_count_iff _).2 ⟨origin, g.origin_mem_reachableStates origin, rfl⟩
  exact ⟨Nat.succ_le_of_lt (Nat.zero_lt_of_lt hlt), hle,
    MinimizationCounts.difference?_eq_some hle⟩

/-- The counts of a graph with one start state are those of its minimized graph, and no difference
of theirs falls below zero; that of the given and the reachable states may only do so if some move
leads to a state that is not listed. -/
theorem minimization_counts_agree (g : Graph) {origin : StateId}
    (hstart : g.soleStart = .ok origin) :
    ∃ t p q counts, Table.ofGraph g = .ok t ∧ t.refineChecked = .ok p ∧
      g.minimizeChecked = .ok q ∧ g.minimizationCounts = .ok counts ∧
      counts.given = g.states.length ∧ counts.Agree t p q ∧ counts.Bounded ∧
      ((∀ m ∈ g.transitions, g.hasState m.target = true) →
        counts.reachable ≤ counts.given ∧
          counts.unreachable? = some (counts.given - counts.reachable)) := by
  obtain ⟨block, hblock⟩ := g.exists_classifies origin
  refine ⟨_, _, _, _, Table.ofGraph_of_soleStart hstart, Table.refineChecked_eq_ok g origin,
    minimizeChecked_of_soleStart hstart, minimizationCounts_of_soleStart hstart, rfl, hblock.agree,
    hblock.bounded, fun hknown => ?_⟩
  have hle : (g.countsFrom origin).reachable ≤ (g.countsFrom origin).given := by
    rw [countsFrom, Table.length_rows_ofGraphFrom]
    exact length_reachableStates_le (hasState_of_soleStart hstart) hknown
  exact ⟨hle, MinimizationCounts.difference?_eq_some hle⟩

/-- Two states that do the same and a state out of reach. -/
theorem minimization_counts_agree_of_twins :
    let g : Graph :=
      { states := [{ id := 1, isStart := true }, { id := 2 }, { id := 3 },
          { id := 4, isAccepting := true }, { id := 5 }]
        transitions := [
          { source := 1, target := 2, symbol := 'a' },
          { source := 1, target := 3, symbol := 'b' },
          { source := 2, target := 4, symbol := 'a' },
          { source := 3, target := 4, symbol := 'a' },
          { source := 5, target := 4, symbol := 'a' }] }
    g.soleStart = .ok 1 ∧ (∀ m ∈ g.transitions, g.hasState m.target = true) ∧
      ∃ t p q counts, Table.ofGraph g = .ok t ∧ t.refineChecked = .ok p ∧
        g.minimizeChecked = .ok q ∧ g.minimizationCounts = .ok counts ∧
        counts.given = 5 ∧ counts.Agree t p q ∧ counts.Bounded ∧ counts.reachable ≤ 5 ∧
        counts.unreachable? = some (5 - counts.reachable) := by
  intro g
  have hknown : ∀ m ∈ g.transitions, g.hasState m.target = true := by decide
  obtain ⟨t, p, q, counts, ht, hp, hq, hcounts, hgiven, hagree, hbounded, hreach⟩ :=
    minimization_counts_agree g (show g.soleStart = .ok 1 from rfl)
  obtain ⟨hle, hunreachable⟩ := hreach hknown
  rw [hgiven] at hle hunreachable
  exact ⟨rfl, hknown, t, p, q, counts, ht, hp, hq, hcounts, hgiven, hagree, hbounded, hle,
    hunreachable⟩

end Graph

end Automata
