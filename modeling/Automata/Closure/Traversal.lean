import Automata.Closure

namespace Automata

/-- A store of directed edges between states, of which no more is taken for
granted than this. States need not be added before their edges, an edge that
is added again changes nothing, and the neighbors of a state may come in any
order. -/
structure EdgeStore (γ : Type) where
  empty : γ
  addNode : γ → StateId → γ
  addEdge : γ → StateId → StateId → γ
  neighbors : γ → StateId → List StateId
  neighbors_empty : ∀ p, neighbors empty p = []
  mem_neighbors_addNode_iff : ∀ edges p q r,
    r ∈ neighbors (addNode edges p) q ↔ r ∈ neighbors edges q
  mem_neighbors_addEdge_iff : ∀ edges p q p' q',
    q' ∈ neighbors (addEdge edges p q) p' ↔ q' ∈ neighbors edges p' ∨ p' = p ∧ q' = q

/-- A breadth-first traversal of a store. A step visits the first state of the queue. Those of its
neighbors that were not discovered before are discovered and queued, each once. -/
structure Traversal {γ : Type} (store : EdgeStore γ) (τ : Type) where
  start : γ → StateId → τ
  next : γ → τ → Option (StateId × τ)
  queue : τ → List StateId
  discovered : τ → StateId → Prop
  queue_start : ∀ edges p, queue (start edges p) = [p]
  discovered_start_iff : ∀ edges p q, discovered (start edges p) q ↔ q = p
  next_eq_none : ∀ edges s, queue s = [] → next edges s = none
  next_eq_some : ∀ edges s p rest, queue s = p :: rest →
    ∃ s' new, next edges s = some (p, s') ∧ queue s' = rest ++ new ∧ new.Nodup ∧
      (∀ q, q ∈ new ↔ q ∈ store.neighbors edges p ∧ ¬ discovered s q) ∧
      ∀ q, discovered s' q ↔ discovered s q ∨ q ∈ new

/-- What is kept between two steps of a traversal: how far it has come, and what it has visited. -/
structure Collecting (τ : Type) where
  position : τ
  collected : Frontier := ∅

variable {γ τ : Type}

/-- The edges of some moves, added in order to a store that holds the start state. -/
def EdgeStore.ofMoves (store : EdgeStore γ) (moves : List Transition) (start : StateId) : γ :=
  moves.foldl (fun edges t => store.addEdge edges t.source t.target)
    (store.addNode store.empty start)

namespace Traversal

variable {store : EdgeStore γ}

/-- One step: the state that is visited is collected. Nothing is left to do once the traversal has
come to its end. -/
def turn (traversal : Traversal store τ) (edges : γ) (c : Collecting τ) : Collecting τ :=
  match traversal.next edges c.position with
  | none => c
  | some (id, position) => { position, collected := c.collected.insert id }

/-- What is kept after so many steps from a state along some moves. -/
def collectWithin (traversal : Traversal store τ) (moves : List Transition) (start : StateId)
    (n : Nat) : Collecting τ :=
  let edges := store.ofMoves moves start
  Nat.repeat (traversal.turn edges) n { position := traversal.start edges start }

end Traversal

/-- The states at the far ends of the listed edges from a state. -/
def listedNeighbors (edges : List (StateId × StateId)) (p : StateId) : List StateId :=
  (edges.filter (·.1 = p)).map (·.2)

theorem mem_listedNeighbors_iff {edges : List (StateId × StateId)} {p q : StateId} :
    q ∈ listedNeighbors edges p ↔ (p, q) ∈ edges := by
  simp [listedNeighbors]

/-- A list of edges is such a store. -/
def EdgeStore.list : EdgeStore (List (StateId × StateId)) where
  empty := []
  addNode edges _ := edges
  addEdge edges p q := if (p, q) ∈ edges then edges else edges ++ [(p, q)]
  neighbors := listedNeighbors
  neighbors_empty _ := rfl
  mem_neighbors_addNode_iff _ _ _ _ := Iff.rfl
  mem_neighbors_addEdge_iff edges p q p' q' := by
    simp only [mem_listedNeighbors_iff]
    split <;> simp_all

/-- A queue and a list of the discovered states make up such a traversal. -/
def Traversal.queued (store : EdgeStore γ) : Traversal store (List StateId × List StateId) where
  start _ p := ([p], [p])
  next edges s :=
    match s.1 with
    | [] => none
    | p :: rest =>
      let new := fresh s.2 (store.neighbors edges p)
      some (p, rest ++ new, new ++ s.2)
  queue s := s.1
  discovered s q := q ∈ s.2
  queue_start _ _ := rfl
  discovered_start_iff _ _ _ := List.mem_singleton
  next_eq_none edges s hempty := by rw [hempty]
  next_eq_some edges s p rest hqueue := by
    refine ⟨_, fresh s.2 (store.neighbors edges p), by rw [hqueue], rfl, nodup_fresh,
      fun q => mem_fresh, fun q => ?_⟩
    rw [List.mem_append, or_comm]

end Automata
