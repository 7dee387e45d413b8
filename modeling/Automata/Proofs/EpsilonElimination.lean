import Automata.EpsilonElimination
import Automata.Proofs.Acceptance
import Automata.Proofs.ClosureCache
import Automata.Proofs.Graph.WellFormed
import Automata.Proofs.Run.Deterministic

namespace Automata

namespace Graph

variable {g : Graph} {p q : StateId} {c : Char} {word : List Char}

/-- A state that accepts if its closure does. -/
def closedState (g : Graph) (s : State) : State :=
  { s with isAccepting := Frontier.isAccepting g (g.closureCache.closureOf g s.id).1 }

/-- The graph without silent moves, before it is checked. -/
def withoutEpsilon (g : Graph) : Graph where
  states := g.states.map g.closedState
  transitions :=
    (SortedSet.ofList (g.states.flatMap fun s => g.alphabet.toList.flatMap fun symbol =>
      (g.closedSuccessors g.closureCache s.id symbol).toList.map fun target =>
        (s.id, symbol, target))).toList.map fun (source, symbol, target) =>
    { source, target, symbol : Transition }

/-- Silent moves are removed by putting a graph together from the lists that the
closures give. -/
theorem eliminateEpsilon_eq (g : Graph) :
    g.eliminateEpsilon = ofParts g.withoutEpsilon.states g.withoutEpsilon.transitions :=
  rfl

/-- States keep their numbers and start marks, in order. -/
theorem marks_withoutEpsilon (g : Graph) :
    g.withoutEpsilon.states.map (fun s => (s.id, s.isStart)) =
      g.states.map fun s => (s.id, s.isStart) := by
  rw [withoutEpsilon, List.map_map]
  rfl

/-- The states keep their numbers and their order. -/
theorem ids_withoutEpsilon (g : Graph) :
    g.withoutEpsilon.states.map (·.id) = g.states.map (·.id) := by
  rw [withoutEpsilon, List.map_map]
  rfl

/-- No state is added or dropped. -/
theorem hasState_withoutEpsilon (g : Graph) (id : StateId) :
    g.withoutEpsilon.hasState id = g.hasState id := by
  rw [Bool.eq_iff_iff, hasState_iff, hasState_iff, ids_withoutEpsilon]

/-- The start marks stay. -/
theorem startIds_withoutEpsilon (g : Graph) : g.withoutEpsilon.startIds = g.startIds := by
  rw [startIds, withoutEpsilon, List.filter_map, List.map_map]
  rfl

/-- No two moves agree in source, symbol and target. -/
theorem nodup_withoutEpsilon_transitions (g : Graph) :
    (g.withoutEpsilon.transitions.map fun t => (t.source, t.symbol, t.target)).Nodup := by
  rw [withoutEpsilon, List.map_map]
  exact (List.map_id _).symm ▸ SortedSet.nodup_toList _

/-- The cache of all closures knows nothing but closures. -/
theorem sound_closureCache (g : Graph) : g.closureCache.Sound g := by
  have hfold (states : List State) (cache : ClosureCache) (hcache : cache.Sound g) :
      (states.foldl (fun cache s => (cache.closureOf g s.id).2) cache).Sound g := by
    induction states generalizing cache with
    | nil => exact hcache
    | cons s states ih => exact ih _ (hcache.closureOf s.id).2
  exact hfold g.states {} (ClosureCache.sound_empty g)

/-- What the cache answers is the closure of the state. -/
theorem closureOf_closureCache (g : Graph) (id : StateId) :
    (g.closureCache.closureOf g id).1 = g.epsilonClosure (.singleton id) :=
  (g.sound_closureCache.closureOf id).1

/-- What a state reads a symbol into, with the silent moves before and after. -/
theorem closedSuccessors_closureCache (g : Graph) (id : StateId) (symbol : Char) :
    g.closedSuccessors g.closureCache id symbol =
      g.epsilonClosure (Frontier.successors g (g.epsilonClosure (.singleton id)) symbol) := by
  rw [closedSuccessors, (g.sound_closureCache.closureOfSet _).1, closureOf_closureCache]

/-- The closure of a state holds the ends of its silent paths. -/
theorem mem_epsilonClosure_singleton_iff :
    q ∈ g.epsilonClosure (.singleton p) ↔ Path .followed g.transitions p [] q := by
  change q ∈ Frontier.initial .followed g p ↔ _
  exact Frontier.mem_initial_iff

/-- What a state reads a symbol into is what paths that spell the symbol lead
to: silent moves may come before and behind. -/
theorem mem_closedSuccessors_iff :
    q ∈ g.epsilonClosure (Frontier.successors g (g.epsilonClosure (.singleton p)) c) ↔
      Path .followed g.transitions p [c] q := by
  change q ∈ Frontier.after .followed g p [c] ↔ _
  exact Frontier.mem_after_iff

/-- A listed state reads a symbol into a state of the new graph exactly if the
given graph has a path that spells the symbol, also where it ends in a state that
is not listed. -/
theorem exists_mem_withoutEpsilon_iff :
    (∃ t ∈ g.withoutEpsilon.transitions, t.source = p ∧ t.symbol = c ∧ t.target = q) ↔
      g.hasState p = true ∧ Path .followed g.transitions p [c] q := by
  simp only [withoutEpsilon, List.mem_map, SortedSet.mem_toList, SortedSet.mem_ofList,
    List.mem_flatMap, closedSuccessors_closureCache, mem_closedSuccessors_iff]
  constructor
  · rintro ⟨_, ⟨_, ⟨s, hs, symbol, _, target, hpath, rfl⟩, rfl⟩, rfl, rfl, rfl⟩
    exact ⟨hasState_iff.2 (List.mem_map_of_mem hs), hpath⟩
  · rintro ⟨hknown, hpath⟩
    obtain ⟨s, hs, rfl⟩ := List.mem_map.1 (hasState_iff.1 hknown)
    obtain ⟨t, ht, _, hreads, _⟩ := hpath.exists_reads
    obtain ⟨hepsilon, hsymbol⟩ := Transition.reads_iff.1 hreads
    have hc : c ∈ g.alphabet := mem_alphabet_iff.2 ⟨t, ht, hepsilon, hsymbol⟩
    exact ⟨_, ⟨_, ⟨s, hs, c, hc, q, hpath, rfl⟩, rfl⟩, rfl, rfl, rfl⟩

/-- What the new graph needs to be well formed: of a path that reads one symbol
from a listed state, the end has to be listed, but not what lies on the way. -/
theorem wellFormed_withoutEpsilon_iff :
    g.withoutEpsilon.WellFormed ↔
      (g.states.map (·.id)).Nodup ∧ g.startIds.length ≤ 1 ∧
        ∀ p c q, g.hasState p = true → Path .followed g.transitions p [c] q →
          g.hasState q = true := by
  constructor
  · rintro ⟨hnodup, hstarts, _, htarget⟩
    rw [ids_withoutEpsilon] at hnodup
    rw [startIds_withoutEpsilon] at hstarts
    refine ⟨hnodup, hstarts, fun p c q hp hpath => ?_⟩
    obtain ⟨t, ht, _, _, rfl⟩ := exists_mem_withoutEpsilon_iff.2 ⟨hp, hpath⟩
    rw [← hasState_withoutEpsilon]
    exact htarget t ht
  · rintro ⟨hnodup, hstarts, htarget⟩
    have hpath (t : Transition) (ht : t ∈ g.withoutEpsilon.transitions) :=
      exists_mem_withoutEpsilon_iff.1 ⟨t, ht, rfl, rfl, rfl⟩
    refine ⟨g.ids_withoutEpsilon.symm ▸ hnodup, g.startIds_withoutEpsilon.symm ▸ hstarts,
      fun t ht => ?_, fun t ht => ?_⟩
    · rw [hasState_withoutEpsilon]
      exact (hpath t ht).1
    · rw [hasState_withoutEpsilon]
      exact htarget _ _ _ (hpath t ht).1 (hpath t ht).2

namespace WellFormed

/-- Only a listed state has moves. -/
theorem hasState_of_path (hg : g.WellFormed) {silence : Silence}
    (hpath : Path silence g.transitions p word q) (hne : word ≠ [] ∨ g.hasState q = true) :
    g.hasState p = true := by
  cases hpath with
  | nil => exact hne.resolve_left (not_not_intro rfl)
  | cons hmove _ _ => exact hg.hasState_source _ hmove

/-- In a well-formed graph paths lead to known states. -/
theorem hasState_target_of_path (hg : g.WellFormed) {silence : Silence}
    (hpath : Path silence g.transitions p word q) (hp : g.hasState p = true) :
    g.hasState q = true := by
  induction hpath with
  | nil => exact hp
  | cons hmove _ _ ih => exact ih (hg.hasState_target _ hmove)

/-- A state reads a symbol into a state of the new graph exactly if the given
graph has a path that spells the symbol. -/
theorem mem_withoutEpsilon_transitions_iff (hg : g.WellFormed) :
    (∃ t ∈ g.withoutEpsilon.transitions, t.source = p ∧ t.symbol = c ∧ t.target = q) ↔
      Path .followed g.transitions p [c] q := by
  rw [exists_mem_withoutEpsilon_iff]
  exact and_iff_right_of_imp fun hpath => hg.hasState_of_path hpath (.inl (List.cons_ne_nil _ _))

/-- A state accepts if its silent moves lead to one that did. -/
theorem isAccepting_withoutEpsilon_iff (hg : g.WellFormed) :
    g.withoutEpsilon.isAccepting p = true ↔
      ∃ q ∈ g.epsilonClosure (.singleton p), g.isAccepting q = true := by
  cases hknown : g.hasState p with
  | true =>
    obtain ⟨s, hs, rfl⟩ := List.mem_map.1 (hasState_iff.1 hknown)
    have hnodup : (g.withoutEpsilon.states.map (·.id)).Nodup :=
      g.ids_withoutEpsilon.symm ▸ hg.nodup_ids
    have hmem : g.closedState s ∈ g.withoutEpsilon.states := List.mem_map_of_mem hs
    have haccepting := isAccepting_eq_of_mem hnodup hmem
    change g.withoutEpsilon.isAccepting s.id = _ at haccepting
    rw [haccepting, closedState, closureOf_closureCache, Frontier.isAccepting_iff]
  | false =>
    rw [isAccepting_of_not_hasState ((g.hasState_withoutEpsilon p).trans hknown)]
    refine iff_of_false Bool.false_ne_true ?_
    rintro ⟨q, hq, haccepting⟩
    have hp := hg.hasState_of_path (mem_epsilonClosure_singleton_iff.1 hq)
      (.inr (hasState_of_isAccepting haccepting))
    rw [hknown] at hp
    cases hp

/-- Checking the new graph finds nothing wrong. -/
theorem withoutEpsilon (hg : g.WellFormed) : g.withoutEpsilon.WellFormed :=
  wellFormed_withoutEpsilon_iff.2 ⟨hg.nodup_ids, hg.length_startIds_le,
    fun _ _ _ hp hpath => hg.hasState_target_of_path hpath hp⟩

/-- No silent move is left. -/
theorem isEpsilon_withoutEpsilon (hg : g.WellFormed) {t : Transition}
    (ht : t ∈ g.withoutEpsilon.transitions) : t.isEpsilon = false := by
  have hpath := hg.mem_withoutEpsilon_transitions_iff.1 ⟨t, ht, rfl, rfl, rfl⟩
  have hsymbol : epsilon ≠ t.symbol := by simpa using hpath.epsilon_notMem
  exact decide_eq_false hsymbol.symm

/-- Whatever can be read from a state to an accepting one can be read from it in
the new graph, and nothing else. The ends of the paths may differ: the given
graph may go on silently after the last symbol. -/
theorem exists_accepting_path_iff (hg : g.WellFormed) :
    (∃ q, Path .ignored g.withoutEpsilon.transitions p word q ∧
        g.withoutEpsilon.isAccepting q = true) ↔
      ∃ q, Path .followed g.transitions p word q ∧ g.isAccepting q = true := by
  induction word generalizing p with
  | nil =>
    simp only [Path.nil_ignored_iff, exists_eq_left', hg.isAccepting_withoutEpsilon_iff,
      mem_epsilonClosure_singleton_iff]
  | cons c word ih =>
    constructor
    · rintro ⟨q, hpath, haccepting⟩
      obtain ⟨t, ht, hbefore, hreads, hafter⟩ := hpath.exists_reads
      obtain rfl := Path.nil_ignored_iff.1 hbefore
      obtain ⟨_, hsymbol⟩ := Transition.reads_iff.1 hreads
      have hfirst := hg.mem_withoutEpsilon_transitions_iff.1 ⟨t, ht, rfl, hsymbol, rfl⟩
      obtain ⟨q', hrest, haccepting'⟩ := ih.1 ⟨q, hafter, haccepting⟩
      exact ⟨q', hfirst.append hrest, haccepting'⟩
    · rintro ⟨q, hpath, haccepting⟩
      obtain ⟨t, ht, hbefore, hreads, hafter⟩ := hpath.exists_reads
      have hread : Path .followed g.transitions t.source [c] t.target :=
        Transition.label_of_reads hreads ▸ Path.single ht (Silence.takes_followed t)
      obtain ⟨u, hu, rfl, rfl, htarget⟩ :=
        hg.mem_withoutEpsilon_transitions_iff.2 (hbefore.append hread)
      obtain ⟨q', hrest, haccepting'⟩ := ih.2 ⟨q, hafter, haccepting⟩
      have hreadsU : u.reads u.symbol = true :=
        Transition.reads_iff.2 ⟨hg.isEpsilon_withoutEpsilon hu, rfl⟩
      have hfirst : Path .ignored g.withoutEpsilon.transitions u.source [u.symbol] u.target :=
        Transition.label_of_reads hreadsU ▸ Path.single hu (Silence.takes_of_reads _ hreadsU)
      exact ⟨q', hfirst.append (htarget ▸ hrest), haccepting'⟩

end WellFormed

/-- Removing silent moves keeps the language. A graph that checked editing
maintains is never refused; its states keep their numbers, order and start
marks, a state reads a symbol into the closure of what its closure reads it
into, and it accepts if its closure does. -/
theorem eliminateEpsilon_preserves_language (hg : g.WellFormed) {origin : StateId}
    (hstart : g.soleStart = .ok origin) :
    ∃ g', g.eliminateEpsilon = .ok g' ∧
      g'.states.map (fun s => (s.id, s.isStart)) = g.states.map (fun s => (s.id, s.isStart)) ∧
      (∀ t ∈ g'.transitions, t.isEpsilon = false) ∧
      (g'.transitions.map fun t => (t.source, t.symbol, t.target)).Nodup ∧
      (∀ p c q, (∃ t ∈ g'.transitions, t.source = p ∧ t.symbol = c ∧ t.target = q) ↔
        q ∈ g.epsilonClosure (Frontier.successors g (g.epsilonClosure (.singleton p)) c)) ∧
      (∀ p, g'.isAccepting p = true ↔
        ∃ q ∈ g.epsilonClosure (.singleton p), g.isAccepting q = true) ∧
      ∀ input, (Automaton.nfa g').accepts input = (Automaton.epsilonNfa g).accepts input := by
  have hstart' : g.withoutEpsilon.soleStart = .ok origin := by
    rw [soleStart_eq_ok_iff, startIds_withoutEpsilon, ← soleStart_eq_ok_iff, hstart]
  refine ⟨g.withoutEpsilon, g.eliminateEpsilon_eq.trans hg.withoutEpsilon.ofParts_eq_ok,
    g.marks_withoutEpsilon, fun t ht => hg.isEpsilon_withoutEpsilon ht,
    g.nodup_withoutEpsilon_transitions, fun p c q => ?_,
    fun p => hg.isAccepting_withoutEpsilon_iff, fun input => ?_⟩
  · rw [hg.mem_withoutEpsilon_transitions_iff, mem_closedSuccessors_iff]
  · have hnew := Silence.ignored.accepts_automaton hstart' input
    have hgiven := Silence.followed.accepts_automaton hstart input
    refine hnew.trans ((congrArg Except.ok ?_).trans hgiven.symm)
    rw [Bool.eq_iff_iff, Frontier.acceptsFrom_iff, Frontier.acceptsFrom_iff]
    exact hg.exists_accepting_path_iff

/-- A graph with a cycle of silent moves, one of which ends in an accepting
state, and a silent move after a symbol. -/
theorem eliminateEpsilon_preserves_language_of_cycle :
    let g : Graph :=
      { states := [{ id := 2, isStart := true }, { id := 0, isAccepting := true }, { id := 5 }]
        transitions := [
          { source := 2, target := 0, symbol := epsilon },
          { source := 0, target := 2, symbol := epsilon },
          { source := 0, target := 5, symbol := 'a' },
          { source := 5, target := 2, symbol := epsilon }] }
    g.WellFormed ∧ g.soleStart = .ok 2 ∧ ∃ g', g.eliminateEpsilon = .ok g' ∧
      g'.states.map (fun s => (s.id, s.isStart)) = g.states.map (fun s => (s.id, s.isStart)) ∧
      (∀ t ∈ g'.transitions, t.isEpsilon = false) ∧
      (g'.transitions.map fun t => (t.source, t.symbol, t.target)).Nodup ∧
      (∀ p c q, (∃ t ∈ g'.transitions, t.source = p ∧ t.symbol = c ∧ t.target = q) ↔
        q ∈ g.epsilonClosure (Frontier.successors g (g.epsilonClosure (.singleton p)) c)) ∧
      (∀ p, g'.isAccepting p = true ↔
        ∃ q ∈ g.epsilonClosure (.singleton p), g.isAccepting q = true) ∧
      ∀ input, (Automaton.nfa g').accepts input = (Automaton.epsilonNfa g).accepts input := by
  intro g
  have hg : g.WellFormed := ⟨by decide, by decide, by decide, by decide⟩
  exact ⟨hg, rfl, eliminateEpsilon_preserves_language hg rfl⟩

end Graph

end Automata
