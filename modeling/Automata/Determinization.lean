import Automata.Run.Frontier

namespace Automata

/-- All lists that keep some of the entries of a list, in order. -/
def sublists {α : Type} : List α → List (List α)
  | [] => [[]]
  | a :: as => (sublists as).map (a :: ·) ++ sublists as

/-- What is left of a list when some entries are dropped is one of its
sublists. -/
theorem filter_mem_sublists {α : Type} (p : α → Bool) (as : List α) :
    as.filter p ∈ sublists as := by
  induction as with
  | nil => simp [sublists]
  | cons a as ih =>
    rw [List.filter_cons, sublists, List.mem_append]
    split
    · exact .inl (List.mem_map_of_mem ih)
    · exact .inr ih

namespace Frontier

/-- What a move leads to is the target of some move of the graph. -/
theorem mem_targets_of_mem_move {silence : Silence} {g : Graph} {f : Frontier} {symbol : Char}
    {id : StateId} (h : id ∈ move silence g f symbol) : id ∈ g.transitions.map (·.target) := by
  have direct : ∀ {x}, x ∈ successors g f symbol → x ∈ g.transitions.map (·.target) := by
    intro x hx
    obtain ⟨t, ht, rfl⟩ := List.mem_map.1 (SortedSet.mem_ofList.1 hx)
    exact List.mem_map_of_mem (List.mem_filter.1 ht).1
  cases silence with
  | ignored => exact direct h
  | followed =>
    rcases Expansion.mem_reach (SortedSet.mem_ofList.1 h) with h | ⟨a, h⟩
    · exact direct h
    · obtain ⟨t, ht, rfl⟩ := List.mem_map.1 h
      have := (List.mem_filter.1 ht).1
      exact List.mem_map_of_mem (List.mem_filter.1 this).1

/-- The sets that follow a set on one of the given symbols, in the order of the symbols. -/
def followUpSets (silence : Silence) (g : Graph) (symbols : List Char) : Expansion Frontier where
  next f := (symbols.map (move silence g f)).filter (!·.isEmpty)
  finite := by
    refine ⟨(sublists (g.transitions.map (·.target))).map .ofList, fun f f' h => ?_⟩
    obtain ⟨symbol, -, rfl⟩ := List.mem_map.1 (List.mem_filter.1 h).1
    refine List.mem_map.2 ⟨_, filter_mem_sublists (· ∈ move silence g f symbol) _, ?_⟩
    refine SortedSet.ext fun id => ?_
    rw [SortedSet.mem_ofList, List.mem_filter, decide_eq_true_eq]
    exact and_iff_right_of_imp mem_targets_of_mem_move

end Frontier

/-- A deterministic graph, and for each of its states the set of states it
stands for. The start set is state 0, and further sets are numbered in the order
of their discovery. The empty set gets no state: a missing move rejects just as
well. -/
structure Determinization where
  graph : Graph
  frontiers : List Frontier

/-- The move from a numbered set on a symbol, unless it leads nowhere. -/
def Determinization.transition? (silence : Silence) (g : Graph) (frontiers : List Frontier)
    (source : Nat) (f : Frontier) (symbol : Char) : Option Transition :=
  let next := Frontier.move silence g f symbol
  if next.isEmpty then none
  else some { source := source, target := frontiers.idxOf next, symbol := symbol }

/-- The deterministic graph of the sets that can be reached from a start state. -/
def Graph.determinizeFrom (g : Graph) (silence : Silence) (origin : StateId) : Determinization :=
  let symbols := g.alphabet.toList
  let frontiers :=
    (Frontier.followUpSets silence g symbols).reach [Frontier.initial silence g origin]
  { frontiers := frontiers
    graph :=
      { states := frontiers.mapIdx fun i f =>
          { id := i, isStart := i = 0, isAccepting := Frontier.isAccepting g f }
        transitions := (frontiers.mapIdx fun i f =>
          symbols.filterMap (Determinization.transition? silence g frontiers i f)).flatten } }

/-- The deterministic graph of the sets that can be reached from the start state, of which there
must be exactly one. -/
def Graph.determinize (g : Graph) (silence : Silence) : Except GraphError Determinization :=
  g.soleStart.map (g.determinizeFrom silence)

end Automata
