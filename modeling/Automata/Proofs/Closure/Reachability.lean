import Automata.Closure.Traversal
import Automata.Proofs.Closure
import Automata.Proofs.Search

namespace Automata

variable {γ τ : Type} {store : EdgeStore γ}

theorem connects_cons_iff {t : Transition} {moves : List Transition} {p q : StateId} :
    Connects (t :: moves) p q ↔ t.source = p ∧ t.target = q ∨ Connects moves p q := by
  simp [Connects]

/-- A store has the edges of the moves that were added, whatever was added with them. -/
theorem EdgeStore.mem_neighbors_ofMoves_iff {moves : List Transition} {start p q : StateId} :
    q ∈ store.neighbors (store.ofMoves moves start) p ↔ Connects moves p q := by
  have hfold (edges : γ) : q ∈ store.neighbors
      (moves.foldl (fun edges t => store.addEdge edges t.source t.target) edges) p ↔
        q ∈ store.neighbors edges p ∨ Connects moves p q := by
    induction moves generalizing edges with
    | nil => simp [Connects]
    | cons t moves ih =>
      rw [List.foldl_cons, ih, store.mem_neighbors_addEdge_iff, connects_cons_iff, or_assoc,
        eq_comm (a := p), eq_comm (a := q)]
  rw [ofMoves, hfold, store.mem_neighbors_addNode_iff, store.neighbors_empty]
  exact or_iff_right List.not_mem_nil

namespace Traversal

variable {traversal : Traversal store τ} {edges : γ} {s : τ} {c : Collecting τ} {p q : StateId}
  {rest : List StateId} {moves : List Transition} {start : StateId}

/-- A traversal has no next step exactly if nothing is queued. -/
theorem next_eq_none_iff : traversal.next edges s = none ↔ traversal.queue s = [] := by
  refine ⟨fun hnone => ?_, traversal.next_eq_none edges s⟩
  cases hqueue : traversal.queue s with
  | nil => rfl
  | cons p rest =>
    obtain ⟨s', new, hsome, -⟩ := traversal.next_eq_some edges s p rest hqueue
    rw [hnone] at hsome
    cases hsome

theorem turn_of_queue_eq_nil (hqueue : traversal.queue c.position = []) :
    traversal.turn edges c = c := by
  rw [turn, traversal.next_eq_none edges _ hqueue]

/-- A step collects the first state of the queue. What it discovers is new and goes to the end of
the queue. -/
theorem exists_turn_eq (hqueue : traversal.queue c.position = p :: rest) :
    ∃ s' new, traversal.turn edges c = { position := s', collected := c.collected.insert p } ∧
      traversal.queue s' = rest ++ new ∧ new.Nodup ∧
      (∀ q, q ∈ new ↔ q ∈ store.neighbors edges p ∧ ¬ traversal.discovered c.position q) ∧
      ∀ q, traversal.discovered s' q ↔ traversal.discovered c.position q ∨ q ∈ new := by
  obtain ⟨s', new, hnext, hrest⟩ := traversal.next_eq_some edges c.position p rest hqueue
  refine ⟨s', new, ?_, hrest⟩
  rw [turn, hnext]

/-- The traversal as a search that visits the first state of its queue. -/
def search (traversal : Traversal store τ) (edges : γ) :
    Search (fun p q => q ∈ store.neighbors edges p) (Collecting τ) where
  turn := traversal.turn edges
  waiting c := traversal.queue c.position
  known c := traversal.discovered c.position
  turn_eq _ hempty := turn_of_queue_eq_nil hempty
  known_turn_iff c p rest hqueue q := by
    obtain ⟨s', new, hturn, -, -, hnew, hdiscovered⟩ := exists_turn_eq hqueue
    rw [hturn, hdiscovered, hnew]
    tauto
  mem_waiting_turn_iff c p rest hqueue q := by
    obtain ⟨s', new, hturn, hqueue', -, hnew, -⟩ := exists_turn_eq hqueue
    rw [hturn, hqueue', List.mem_append, hnew]
  nodup_waiting_turn c p rest hqueue hrest hknown := by
    obtain ⟨s', new, hturn, hqueue', hnodup, hnew, -⟩ := exists_turn_eq hqueue
    rw [hturn, hqueue']
    refine List.nodup_append.2 ⟨hrest, hnodup, ?_⟩
    rintro q hq _ hq' rfl
    exact ((hnew q).1 hq').2 (hknown q hq)

/-- What was discovered is what was collected and what waits in the queue. -/
def Complete (traversal : Traversal store τ) (c : Collecting τ) : Prop :=
  ∀ q, traversal.discovered c.position q ↔ q ∈ c.collected ∨ q ∈ traversal.queue c.position

/-- A step collects the state that leaves the queue, so nothing that was
discovered gets lost. -/
theorem Complete.turn (hcomplete : traversal.Complete c) (edges : γ) :
    traversal.Complete (traversal.turn edges c) := by
  cases hqueue : traversal.queue c.position with
  | nil => rwa [turn_of_queue_eq_nil hqueue]
  | cons p rest =>
    obtain ⟨s', new, hturn, hqueue', -, -, hdiscovered⟩ := exists_turn_eq hqueue
    rw [hturn]
    intro q
    simp only [hdiscovered, hcomplete q, hqueue, hqueue', SortedSet.mem_insert, List.mem_append,
      List.mem_cons]
    tauto

/-- At any time all that was discovered is collected or queued. -/
theorem complete_collectWithin (traversal : Traversal store τ) (moves : List Transition)
    (start : StateId) (n : Nat) : traversal.Complete (traversal.collectWithin moves start n) := by
  induction n with
  | zero =>
    intro q
    simp only [collectWithin, Nat.repeat, traversal.discovered_start_iff, traversal.queue_start,
      SortedSet.notMem_empty, false_or, List.mem_singleton]
  | succ n ih => exact ih.turn _

/-- The traversal from a state along some moves ends with the set collected, after as many steps as
the set has members. -/
structure Collects (traversal : Traversal store τ) (moves : List Transition) (start : StateId)
    (states : Frontier) : Prop where
  next_eq_none_iff : ∀ n, traversal.next (store.ofMoves moves start)
    (traversal.collectWithin moves start n).position = none ↔ states.size ≤ n
  collected_eq : ∀ n, traversal.next (store.ofMoves moves start)
      (traversal.collectWithin moves start n).position = none →
    (traversal.collectWithin moves start n).collected = states

/-- A traversal begins with its start state queued and nothing expanded. -/
theorem stage_start (traversal : Traversal store τ) (edges : γ) (start : StateId) :
    (traversal.search edges).Stage [start] [] { position := traversal.start edges start } :=
  Search.stage_nil (traversal.queue_start edges start) (List.nodup_singleton start) fun q =>
    (traversal.discovered_start_iff edges start q).trans List.mem_singleton.symm

/-- The reachable states list what can be reached along the edges of the store,
each state once. -/
theorem reachedFrom_reachable (store : EdgeStore γ) (moves : List Transition) (start : StateId) :
    Search.ReachedFrom (fun p q => q ∈ store.neighbors (store.ofMoves moves start) p) [start]
      (reachable moves start).toList where
  nodup := SortedSet.nodup_toList _
  mem_iff q := by
    simp only [EdgeStore.mem_neighbors_ofMoves_iff, List.mem_singleton, exists_eq_left]
    exact mem_reachable_iff

/-- Any traversal, in whatever order it meets neighbors, collects the reachable
states and is at its end then. -/
theorem collects_reachable (traversal : Traversal store τ) (moves : List Transition)
    (start : StateId) : traversal.Collects moves start (reachable moves start) where
  next_eq_none_iff n := Traversal.next_eq_none_iff.trans
    ((traversal.stage_start _ start).waiting_repeat_eq_nil_iff
      (reachedFrom_reachable store moves start) n)
  collected_eq n hnone := by
    have hempty := Traversal.next_eq_none_iff.1 hnone
    have hknown := (traversal.stage_start _ start).known_repeat_iff
      (reachedFrom_reachable store moves start) hempty
    refine SortedSet.ext fun q => ?_
    have hcomplete := traversal.complete_collectWithin moves start n q
    rw [hempty] at hcomplete
    exact (hcomplete.trans (or_iff_left List.not_mem_nil)).symm.trans (hknown q)

end Traversal

/-- The reachable states are exactly those that the moves lead to from the start, and the start
itself, whether or not the states that the moves join exist. The order of the moves is of no
account, and every breadth-first traversal of them comes to its end and collects these states. -/
theorem reachable_exact_in_any_order (moves : List Transition) (start : StateId) :
    (∀ id, id ∈ reachable moves start ↔ Relation.ReflTransGen (Connects moves) start id) ∧
      (∀ others : List Transition, (∀ t, t ∈ others ↔ t ∈ moves) →
        reachable others start = reachable moves start) ∧
      ∀ {γ τ : Type} (store : EdgeStore γ) (traversal : Traversal store τ),
        traversal.Collects moves start (reachable moves start) :=
  ⟨fun _ => mem_reachable_iff, fun _ hsame => reachable_eq_of_mem_iff hsame start,
    fun _ traversal => traversal.collects_reachable moves start⟩

/-- Moves in a circle, from a state to itself, listed twice, without a symbol and from a state out
of reach. No state is listed anywhere. -/
theorem reachable_exact_in_any_order_of_cycle :
    let moves : List Transition := [
      { source := 7, target := 3, symbol := 'a' },
      { source := 3, target := 3, symbol := 'b' },
      { source := 3, target := -2, symbol := epsilon },
      { source := -2, target := 7, symbol := 'a' },
      { source := 7, target := 3, symbol := 'a' },
      { source := 5, target := 7, symbol := 'a' }]
    reachable moves 7 = .ofList [-2, 3, 7] ∧ reachable moves.reverse 7 = .ofList [-2, 3, 7] ∧
      (Traversal.queued EdgeStore.list).Collects moves 7 (.ofList [-2, 3, 7]) ∧
      Relation.ReflTransGen (Connects moves) 7 (-2) ∧
      ¬ Relation.ReflTransGen (Connects moves) 7 5 := by
  intro moves
  obtain ⟨hexact, horder, hcollects⟩ := reachable_exact_in_any_order moves 7
  have hcollected := hcollects .list (.queued .list)
  have hfound : reachable moves 7 = .ofList [-2, 3, 7] :=
    (hcollected.collected_eq 3 rfl).symm.trans (by decide)
  have hmember (id : StateId) : Relation.ReflTransGen (Connects moves) 7 id ↔ id ∈ [-2, 3, 7] := by
    rw [← hexact, hfound, SortedSet.mem_ofList]
  rw [hfound] at hcollected
  refine ⟨hfound, (horder _ fun t => List.mem_reverse).trans hfound, hcollected, ?_, ?_⟩
  · exact (hmember (-2)).2 (by decide)
  · exact fun hpath => absurd ((hmember 5).1 hpath) (by decide)

end Automata
