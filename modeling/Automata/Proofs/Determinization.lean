import Automata.Determinization
import Automata.Proofs.Graph.Basic
import Automata.Proofs.Run.Deterministic
import Automata.Proofs.Run.Frontier

namespace Automata

namespace Frontier

variable {silence : Silence} {g : Graph}

/-- A symbol outside the alphabet leads nowhere. -/
theorem move_eq_empty_of_notMem_alphabet {f : Frontier} {c : Char} (hc : c ∉ g.alphabet) :
    move silence g f c = ∅ := by
  apply SortedSet.ext
  intro q
  simp only [SortedSet.notMem_empty, iff_false]
  intro hq
  obtain ⟨t, ht, hreads, _⟩ := mem_move_iff.1 hq
  exact hc (Graph.mem_alphabet_iff.2 ⟨t, ht, Transition.reads_iff.1 hreads⟩)

/-- A set follows another if a symbol leads to it and it has members. -/
theorem follows_followUpSets_iff {symbols : List Char} {e f : Frontier} :
    (followUpSets silence g symbols).Follows e f ↔
      ∃ c ∈ symbols, move silence g e c = f ∧ f ≠ ∅ := by
  simp only [Expansion.Follows, followUpSets, List.mem_filter, List.mem_map, Bool.not_eq_true',
    ← Bool.not_eq_true, SortedSet.isEmpty_iff]
  constructor
  · rintro ⟨⟨c, hc, hmove⟩, hempty⟩
    exact ⟨c, hc, hmove, hempty⟩
  · rintro ⟨c, hc, hmove, hempty⟩
    exact ⟨⟨c, hc, hmove⟩, hempty⟩

end Frontier

/-- With a single start state the subset construction begins there. -/
theorem Graph.determinize_of_soleStart {g : Graph} {origin : StateId}
    (hstart : g.soleStart = .ok origin) (silence : Silence) :
    g.determinize silence = .ok (g.determinizeFrom silence origin) := by
  rw [determinize, hstart]
  rfl

/-- A set has a move on a symbol if the symbol leads to a set with members, and
the move leads to the number of that set. -/
theorem Determinization.transition?_eq_some_iff {silence : Silence} {g : Graph}
    {frontiers : List Frontier} {n : Nat} {f : Frontier} {c : Char} {t : Transition} :
    transition? silence g frontiers n f c = some t ↔
      f.move silence g c ≠ ∅ ∧
        t = { source := n, target := frontiers.idxOf (f.move silence g c), symbol := c } := by
  simp only [transition?]
  by_cases hmove : f.move silence g c = ∅
  · simp [hmove, SortedSet.isEmpty_iff.2]
  · rw [if_neg (mt SortedSet.isEmpty_iff.1 hmove), Option.some.injEq, eq_comm]
    exact (and_iff_right hmove).symm

namespace Graph

variable {silence : Silence} {g : Graph} {origin : StateId}

/-- No set gets two numbers. -/
theorem nodup_frontiers : (g.determinizeFrom silence origin).frontiers.Nodup :=
  Expansion.nodup_reach _ _

/-- The start set has number 0. -/
theorem frontiers_zero :
    (g.determinizeFrom silence origin).frontiers[0]? = some (.initial silence g origin) := by
  rw [← List.head?_eq_getElem?]
  exact Expansion.head_reach_singleton _ _

/-- No set that a listed set moves to is missing from the list, whatever the
symbol. The empty set is left out. -/
theorem move_mem_frontiers {f : Frontier} {c : Char}
    (hf : f ∈ (g.determinizeFrom silence origin).frontiers) (hmove : f.move silence g c ≠ ∅) :
    f.move silence g c ∈ (g.determinizeFrom silence origin).frontiers := by
  refine Expansion.reach_closed hf (Frontier.follows_followUpSets_iff.2 ⟨c, ?_, rfl, hmove⟩)
  rw [SortedSet.mem_toList]
  by_contra hc
  exact hmove (Frontier.move_eq_empty_of_notMem_alphabet hc)

/-- The set that a listed set moves to stands at the place that the move is given. -/
theorem getElem?_idxOf_move {n : Nat} {f : Frontier} {c : Char}
    (hf : (g.determinizeFrom silence origin).frontiers[n]? = some f)
    (hmove : f.move silence g c ≠ ∅) :
    (g.determinizeFrom silence origin).frontiers[
      (g.determinizeFrom silence origin).frontiers.idxOf (f.move silence g c)]? =
        some (f.move silence g c) := by
  have hmem := move_mem_frontiers (List.mem_of_getElem? hf) hmove
  rw [List.getElem?_eq_getElem (List.idxOf_lt_length_of_mem hmem), List.getElem_idxOf]

/-- The states are the numbers of the sets, of which the first is the start, and
accept as the sets do. -/
theorem mem_determinizeFrom_states_iff {s : State} :
    s ∈ (g.determinizeFrom silence origin).graph.states ↔
      ∃ (n : Nat) (f : Frontier), (g.determinizeFrom silence origin).frontiers[n]? = some f ∧
        s = { id := n, isStart := n = 0, isAccepting := f.isAccepting g } := by
  simp only [determinizeFrom, List.mem_mapIdx, List.getElem?_eq_some_iff]
  constructor
  · rintro ⟨n, hn, rfl⟩
    exact ⟨n, _, ⟨hn, rfl⟩, rfl⟩
  · rintro ⟨n, f, ⟨hn, rfl⟩, rfl⟩
    exact ⟨n, hn, rfl⟩

/-- The states are numbered from 0 without gaps. -/
theorem map_id_determinizeFrom_states :
    (g.determinizeFrom silence origin).graph.states.map (·.id) =
      (List.range (g.determinizeFrom silence origin).frontiers.length).map
        fun n : Nat => (n : StateId) := by
  refine List.ext_getElem ?_ fun i _ _ => ?_
  · simp [determinizeFrom]
  · simp [determinizeFrom]

/-- The numbers of the states are distinct. -/
theorem nodup_determinizeFrom_ids :
    ((g.determinizeFrom silence origin).graph.states.map (·.id)).Nodup := by
  rw [map_id_determinizeFrom_states]
  exact List.nodup_range.map fun i j hij => Int.ofNat_inj.1 hij

/-- The start set is state 0, and no other state begins a run. -/
theorem soleStart_determinizeFrom : (g.determinizeFrom silence origin).graph.soleStart = .ok 0 := by
  refine soleStart_eq_ok_of_unique (s := ⟨0, true, (Frontier.initial silence g origin).isAccepting g⟩)
    nodup_determinizeFrom_ids ?_ rfl ?_
  · exact mem_determinizeFrom_states_iff.2 ⟨0, _, frontiers_zero, rfl⟩
  · intro u hu hstart
    obtain ⟨n, f, _, rfl⟩ := mem_determinizeFrom_states_iff.1 hu
    have hn : n = 0 := by simpa using hstart
    simp [hn]

/-- A state accepts if the set it stands for does. -/
theorem isAccepting_determinizeFrom {n : Nat} {f : Frontier}
    (hf : (g.determinizeFrom silence origin).frontiers[n]? = some f) :
    (g.determinizeFrom silence origin).graph.isAccepting n = f.isAccepting g :=
  isAccepting_eq_of_mem nodup_determinizeFrom_ids (mem_determinizeFrom_states_iff.2 ⟨n, f, hf, rfl⟩)

/-- The moves run between the numbers of sets of which a symbol leads from the
one to the other. -/
theorem mem_determinizeFrom_transitions_iff {t : Transition} :
    t ∈ (g.determinizeFrom silence origin).graph.transitions ↔
      ∃ (n : Nat) (f : Frontier) (c : Char),
        (g.determinizeFrom silence origin).frontiers[n]? = some f ∧ c ∈ g.alphabet ∧
        f.move silence g c ≠ ∅ ∧
        t = { source := n
              target := (g.determinizeFrom silence origin).frontiers.idxOf (f.move silence g c)
              symbol := c } := by
  simp only [determinizeFrom, List.mem_flatten, List.mem_mapIdx, List.getElem?_eq_some_iff]
  constructor
  · rintro ⟨_, ⟨n, hn, rfl⟩, ht⟩
    obtain ⟨c, hc, hsome⟩ := List.mem_filterMap.1 ht
    rw [Determinization.transition?_eq_some_iff] at hsome
    exact ⟨n, _, c, ⟨hn, rfl⟩, hc, hsome.1, hsome.2⟩
  · rintro ⟨n, f, c, ⟨hn, rfl⟩, hc, hmove, ht⟩
    refine ⟨_, ⟨n, hn, rfl⟩, List.mem_filterMap.2 ⟨c, hc, ?_⟩⟩
    exact Determinization.transition?_eq_some_iff.2 ⟨hmove, ht⟩

/-- A state that stands for a set moves to the state that stands for the next
set, and has no move where that set is empty. -/
theorem successor_determinizeFrom {n : Nat} {f : Frontier}
    (hf : (g.determinizeFrom silence origin).frontiers[n]? = some f) (c : Char) :
    Deterministic.successor (g.determinizeFrom silence origin).graph n c =
      if f.move silence g c = ∅ then none
      else some (((g.determinizeFrom silence origin).frontiers.idxOf (f.move silence g c) : Nat) :
        StateId) := by
  have hsource {t : Transition} (ht : t ∈ (g.determinizeFrom silence origin).graph.transitions)
      (hn : t.source = n) (hreads : t.reads c = true) :
      f.move silence g c ≠ ∅ ∧
        t.target = (g.determinizeFrom silence origin).frontiers.idxOf (f.move silence g c) := by
    obtain ⟨m, e, b, he, _, hmove, rfl⟩ := mem_determinizeFrom_transitions_iff.1 ht
    obtain rfl : m = n := Int.ofNat_inj.1 hn
    obtain rfl : e = f := Option.some.inj (he.symm.trans hf)
    obtain rfl : b = c := (Transition.reads_iff.1 hreads).2
    exact ⟨hmove, rfl⟩
  by_cases hmove : f.move silence g c = ∅
  · rw [if_pos hmove, Deterministic.successor_eq_none_iff]
    intro t ht hn
    by_contra hreads
    exact (hsource ht hn (by simpa using hreads)).1 hmove
  · rw [if_neg hmove]
    have hc : c ∈ g.alphabet := by
      by_contra hc
      exact hmove (Frontier.move_eq_empty_of_notMem_alphabet hc)
    have ht := mem_determinizeFrom_transitions_iff.2 ⟨n, f, c, hf, hc, hmove, rfl⟩
    refine Deterministic.successor_eq_some_of_agree ht ?_ fun u hu hn hreads => ?_
    · obtain ⟨u, _, hepsilon, rfl⟩ := mem_alphabet_iff.1 hc
      exact Transition.reads_iff.2 ⟨hepsilon, rfl⟩
    · exact (hsource hu hn hreads).2

end Graph

end Automata
