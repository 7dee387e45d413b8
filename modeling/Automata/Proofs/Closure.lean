import Automata.Closure
import Automata.Proofs.Exploration

namespace Automata

/-- Some move of a list leads from the first state to the second. Neither has
to be a state of a graph. -/
def Connects (moves : List Transition) (p q : StateId) : Prop :=
  ∃ t ∈ moves, t.source = p ∧ t.target = q

/-- A state follows another if a move connects them. -/
theorem follows_followUp_iff {moves : List Transition} {p q : StateId} :
    (followUp moves).Follows p q ↔ Connects moves p q := by
  simp only [Expansion.Follows, followUp, Connects, List.mem_map, List.mem_filter,
    decide_eq_true_eq, and_assoc]

/-- The search from some states finds what chains of moves lead to. -/
theorem mem_followUp_reach_iff {moves : List Transition} {seeds : List StateId} {q : StateId} :
    q ∈ (followUp moves).reach seeds ↔
      ∃ p ∈ seeds, Relation.ReflTransGen (Connects moves) p q := by
  have hfollows : (followUp moves).Follows = Connects moves := by
    funext p q
    exact propext follows_followUp_iff
  rw [Expansion.mem_reach_iff, hfollows]

/-- Reachability is the reflexive and transitive closure of the listed moves,
whatever their labels and however often they are listed. -/
theorem mem_reachable_iff {moves : List Transition} {start q : StateId} :
    q ∈ reachable moves start ↔ Relation.ReflTransGen (Connects moves) start q := by
  rw [reachable, SortedSet.mem_ofList, mem_followUp_reach_iff]
  simp

/-- What is reached does not depend on how often or in which order moves are listed. -/
theorem reachable_eq_of_mem_iff {moves others : List Transition}
    (hsame : ∀ t, t ∈ others ↔ t ∈ moves) (start : StateId) :
    reachable others start = reachable moves start := by
  have hconnects : Connects others = Connects moves := by
    funext p q
    simp only [Connects, hsame]
  refine SortedSet.ext fun q => ?_
  rw [mem_reachable_iff, mem_reachable_iff, hconnects]

theorem start_mem_reachable (moves : List Transition) (start : StateId) :
    start ∈ reachable moves start :=
  mem_reachable_iff.2 .refl

/-- No move leads out of what can be reached. -/
theorem reachable_closed {moves : List Transition} {start : StateId} {t : Transition}
    (ht : t ∈ moves) (hsource : t.source ∈ reachable moves start) :
    t.target ∈ reachable moves start :=
  mem_reachable_iff.2 ((mem_reachable_iff.1 hsource).tail ⟨t, ht, rfl, rfl⟩)

namespace Graph

theorem mem_epsilonMoves_iff {g : Graph} {t : Transition} :
    t ∈ g.epsilonMoves ↔ t ∈ g.transitions ∧ t.isEpsilon = true :=
  List.mem_filter

/-- The closure of some states holds what chains of epsilon moves lead to. -/
theorem mem_epsilonClosure_iff {g : Graph} {seeds : Frontier} {q : StateId} :
    q ∈ g.epsilonClosure seeds ↔
      ∃ p ∈ seeds, Relation.ReflTransGen (Connects g.epsilonMoves) p q := by
  rw [epsilonClosure, SortedSet.mem_ofList, mem_followUp_reach_iff]
  rfl

end Graph

end Automata
