import Automata.Closure.DepthFirst
import Automata.Proofs.ClosureCache
import Automata.Proofs.Search
import Mathlib.Order.Bounds.Basic

namespace Automata

namespace DepthFirst

variable {g : Graph} {d : DepthFirst} {t : Transition} {moves : List Transition} {id p q : StateId}
  {rest : List StateId}

/-- One of the moves reads nothing and leads to the state. -/
def LeadsTo (moves : List Transition) (id : StateId) : Prop :=
  ∃ t ∈ moves, t.isEpsilon = true ∧ t.target = id

theorem leadsTo_nil : ¬ LeadsTo [] id := by
  rintro ⟨t, ht, -⟩
  exact List.not_mem_nil ht

theorem leadsTo_cons_iff :
    LeadsTo (t :: moves) id ↔ (t.isEpsilon = true ∧ t.target = id) ∨ LeadsTo moves id := by
  simp [LeadsTo]

/-- The moves of a state lead without reading to the states that its epsilon
moves connect it with. -/
theorem leadsTo_movesFrom_iff : LeadsTo (g.movesFrom p) q ↔ Connects g.epsilonMoves p q := by
  simp only [LeadsTo, Connects, Graph.movesFrom, Graph.mem_epsilonMoves_iff, List.mem_filter,
    decide_eq_true_eq]
  constructor
  · rintro ⟨t, ⟨ht, hsource⟩, hsilent, htarget⟩
    exact ⟨t, ⟨ht, hsilent⟩, hsource, htarget⟩
  · rintro ⟨t, ⟨ht, hsilent⟩, hsource, htarget⟩
    exact ⟨t, ⟨ht, hsource⟩, hsilent, htarget⟩

/-- What following a move does: it pushes a state that was not found before, or nothing. -/
theorem follow_cases (d : DepthFirst) (t : Transition) :
    (t.isEpsilon = true ∧ t.target ∉ d.found ∧
        d.follow t = { found := d.found.insert t.target, stack := t.target :: d.stack }) ∨
      ((t.isEpsilon = true → t.target ∈ d.found) ∧ d.follow t = d) := by
  by_cases hnew : t.isEpsilon = true ∧ t.target ∉ d.found
  · exact .inl ⟨hnew.1, hnew.2, if_pos hnew⟩
  · exact .inr ⟨fun hsilent => Classical.not_not.1 fun h => hnew ⟨hsilent, h⟩, if_neg hnew⟩

/-- Following a move finds the state that it leads to, if it reads nothing. -/
theorem mem_found_follow_iff :
    id ∈ (d.follow t).found ↔ id ∈ d.found ∨ t.isEpsilon = true ∧ t.target = id := by
  obtain ⟨hsilent, -, hfollow⟩ | ⟨hknown, hfollow⟩ := d.follow_cases t
  · rw [hfollow, SortedSet.mem_insert, or_comm, eq_comm, and_iff_right hsilent]
  · rw [hfollow]
    refine (or_iff_left_of_imp ?_).symm
    rintro ⟨hsilent, rfl⟩
    exact hknown hsilent

/-- Only a state that is new goes on the stack. -/
theorem mem_stack_follow_iff :
    id ∈ (d.follow t).stack ↔
      id ∈ d.stack ∨ (t.isEpsilon = true ∧ t.target = id) ∧ id ∉ d.found := by
  obtain ⟨hsilent, hnew, hfollow⟩ | ⟨hknown, hfollow⟩ := d.follow_cases t
  · rw [hfollow, List.mem_cons, or_comm, eq_comm, and_iff_right hsilent]
    refine or_congr_right (iff_self_and.2 ?_)
    rintro rfl
    exact hnew
  · rw [hfollow]
    refine (or_iff_left ?_).symm
    rintro ⟨⟨hsilent, rfl⟩, hnew⟩
    exact hnew (hknown hsilent)

/-- Every state on the stack was found, and none is on it twice. -/
structure Proper (d : DepthFirst) : Prop where
  nodup : d.stack.Nodup
  found : ∀ id ∈ d.stack, id ∈ d.found

/-- Following a move keeps the stack among the states that were found. -/
theorem Proper.follow (hd : d.Proper) (t : Transition) : (d.follow t).Proper := by
  obtain ⟨-, hnew, hfollow⟩ | ⟨-, hfollow⟩ := d.follow_cases t
  · rw [hfollow]
    refine ⟨List.nodup_cons.2 ⟨fun hmem => hnew (hd.found _ hmem), hd.nodup⟩, fun id hid => ?_⟩
    obtain rfl | hid := List.mem_cons.1 hid
    · exact SortedSet.mem_insert.2 (.inl rfl)
    · exact SortedSet.mem_insert.2 (.inr (hd.found id hid))
  · rwa [hfollow]

/-- Following several moves finds all that they lead to without reading. -/
theorem mem_found_foldl_follow_iff :
    id ∈ (moves.foldl follow d).found ↔ id ∈ d.found ∨ LeadsTo moves id := by
  induction moves generalizing d with
  | nil => exact (or_iff_left leadsTo_nil).symm
  | cons t moves ih => rw [List.foldl_cons, ih, mem_found_follow_iff, leadsTo_cons_iff, or_assoc]

/-- Of the states that several moves lead to, those that were not found before
go on the stack. -/
theorem mem_stack_foldl_follow_iff :
    id ∈ (moves.foldl follow d).stack ↔ id ∈ d.stack ∨ LeadsTo moves id ∧ id ∉ d.found := by
  induction moves generalizing d with
  | nil => simp [leadsTo_nil]
  | cons t moves ih =>
    rw [List.foldl_cons, ih, mem_stack_follow_iff, mem_found_follow_iff, leadsTo_cons_iff]
    tauto

/-- Following any number of moves keeps the stack proper. -/
theorem Proper.foldl_follow (hd : d.Proper) (moves : List Transition) :
    (moves.foldl DepthFirst.follow d).Proper := by
  induction moves generalizing d with
  | nil => exact hd
  | cons t moves ih => exact ih (hd.follow t)

/-- A turn follows the moves of the state on top of the stack. -/
theorem turn_of_stack (hstack : d.stack = id :: rest) :
    d.turn g = (g.movesFrom id).foldl follow { d with stack := rest } := by
  simp only [turn, hstack]

/-- The search as one that visits the top of its stack first. -/
def search (g : Graph) : Search (Connects g.epsilonMoves) DepthFirst where
  turn := turn g
  waiting := stack
  known d id := id ∈ d.found
  turn_eq d hempty := by simp only [turn, hempty]
  known_turn_iff d id rest hstack q := by
    rw [turn_of_stack hstack, mem_found_foldl_follow_iff, leadsTo_movesFrom_iff]
  mem_waiting_turn_iff d id rest hstack q := by
    rw [turn_of_stack hstack, mem_stack_foldl_follow_iff, leadsTo_movesFrom_iff]
  nodup_waiting_turn d id rest hstack hnodup hfound := by
    rw [turn_of_stack hstack]
    exact (Proper.foldl_follow ⟨hnodup, hfound⟩ _).nodup

/-- The search from some seeds ends with the set, after as many turns as the set has members. -/
structure Finds (g : Graph) (seeds : List StateId) (closure : Frontier) : Prop where
  stack_eq_nil_iff : ∀ n, (g.closureWithin seeds n).stack = [] ↔ closure.size ≤ n
  found_eq : ∀ n, (g.closureWithin seeds n).stack = [] → (g.closureWithin seeds n).found = closure

/-- The search begins with the seeds on its stack and nothing expanded. -/
theorem stage_start (g : Graph) (seeds : List StateId) :
    (search g).Stage (start seeds).stack [] (start seeds) :=
  Search.stage_nil rfl (List.nodup_reverse.2 (SortedSet.nodup_toList _)) fun _ =>
    List.mem_reverse.symm

/-- The closure lists what can be reached from the seeds without reading, each
state once. -/
theorem reachedFrom_epsilonClosure (g : Graph) (seeds : List StateId) :
    Search.ReachedFrom (Connects g.epsilonMoves) (start seeds).stack
      (g.epsilonClosure (.ofList seeds)).toList where
  nodup := SortedSet.nodup_toList _
  mem_iff id := by
    simp only [start, List.mem_reverse, SortedSet.mem_toList]
    exact Graph.mem_epsilonClosure_iff

/-- The depth-first search comes to its end after as many turns as the closure
has members, and has found exactly these. -/
theorem finds_epsilonClosure (g : Graph) (seeds : List StateId) :
    Finds g seeds (g.epsilonClosure (.ofList seeds)) where
  stack_eq_nil_iff n :=
    (stage_start g seeds).waiting_repeat_eq_nil_iff (reachedFrom_epsilonClosure g seeds) n
  found_eq _ hempty := SortedSet.ext fun id =>
    (stage_start g seeds).known_repeat_iff (reachedFrom_epsilonClosure g seeds) hempty id

end DepthFirst

namespace Graph

/-- No silent move leads out of the set. The states that moves join need not be listed. -/
def SilentlyClosed (g : Graph) (states : Set StateId) : Prop :=
  ∀ t ∈ g.transitions, t.isEpsilon = true → t.source ∈ states → t.target ∈ states

/-- No silent move leads out of a closure. -/
theorem silentlyClosed_epsilonClosure (g : Graph) (seeds : Frontier) :
    g.SilentlyClosed {id | id ∈ g.epsilonClosure seeds} := by
  intro t ht hsilent hsource
  obtain ⟨p, hp, hpath⟩ := mem_epsilonClosure_iff.1 hsource
  exact mem_epsilonClosure_iff.2
    ⟨p, hp, hpath.tail ⟨t, mem_epsilonMoves_iff.2 ⟨ht, hsilent⟩, rfl, rfl⟩⟩

/-- A set that silent moves do not leave holds whatever they lead to from one of its members. -/
theorem SilentlyClosed.mem_of_path {g : Graph} {states : Set StateId}
    (hclosed : g.SilentlyClosed states) {p q : StateId} (hp : p ∈ states)
    (hpath : Relation.ReflTransGen (Connects g.epsilonMoves) p q) : q ∈ states := by
  induction hpath with
  | refl => exact hp
  | tail _ hmove ih =>
    obtain ⟨t, ht, rfl, rfl⟩ := hmove
    obtain ⟨ht, hsilent⟩ := mem_epsilonMoves_iff.1 ht
    exact hclosed t ht hsilent ih

/-- The closure is the least set with the seeds that no silent move leaves. -/
theorem isLeast_epsilonClosure (g : Graph) (seeds : List StateId) :
    IsLeast {states : Set StateId | (∀ id ∈ seeds, id ∈ states) ∧ g.SilentlyClosed states}
      {id | id ∈ g.epsilonClosure (.ofList seeds)} := by
  refine ⟨⟨fun id hid => ?_, g.silentlyClosed_epsilonClosure _⟩, ?_⟩
  · exact mem_epsilonClosure_iff.2 ⟨id, SortedSet.mem_ofList.2 hid, .refl⟩
  · rintro states ⟨hseeds, hclosed⟩ id hid
    obtain ⟨p, hp, hpath⟩ := mem_epsilonClosure_iff.1 hid
    exact hclosed.mem_of_path (hseeds p (SortedSet.mem_ofList.1 hp)) hpath

/-- The closure of some seeds is the least set that holds them and that no silent move leaves,
whatever the graph is like. The depth-first search comes to its end and finds it, and a cache
answers every question with the closure that was asked for, however many were asked before. -/
theorem epsilonClosure_least_and_remembered (g : Graph) :
    (∀ seeds : List StateId,
      IsLeast {states : Set StateId | (∀ id ∈ seeds, id ∈ states) ∧ g.SilentlyClosed states}
          {id | id ∈ g.epsilonClosure (.ofList seeds)} ∧
        DepthFirst.Finds g seeds (g.epsilonClosure (.ofList seeds))) ∧
      ∀ queries, ({} : ClosureCache).answers g queries =
        queries.map fun query => g.epsilonClosure query.seeds :=
  ⟨fun seeds => ⟨g.isLeast_epsilonClosure seeds, DepthFirst.finds_epsilonClosure g seeds⟩,
    (ClosureCache.sound_empty g).answers_eq⟩

/-- Silent moves in a circle, from a state to itself, listed twice and through a state that is not
listed. -/
theorem epsilonClosure_least_and_remembered_of_cycle :
    let g : Graph :=
      { states := [{ id := 0, isStart := true }, { id := 1 }, { id := 2 }, { id := 3 }]
        transitions := [
          { source := 0, target := 1, symbol := epsilon },
          { source := 0, target := 1, symbol := epsilon },
          { source := 1, target := 1, symbol := epsilon },
          { source := 1, target := 9, symbol := epsilon },
          { source := 9, target := 0, symbol := epsilon },
          { source := 9, target := 2, symbol := 'a' },
          { source := 2, target := 3, symbol := epsilon }] }
    IsLeast {states : Set StateId | (∀ id ∈ [0], id ∈ states) ∧ g.SilentlyClosed states}
        {id | id ∈ SortedSet.ofList [0, 1, 9]} ∧
      (g.closureWithin [0] 2).stack ≠ [] ∧ (g.closureWithin [0] 3).stack = [] ∧
      ({} : ClosureCache).answers g [.state 0, .list [2, 9, 2], .set (.singleton 3), .state 0] =
        [.ofList [0, 1, 9], .ofList [0, 1, 2, 3, 9], .ofList [3], .ofList [0, 1, 9]] := by
  intro g
  obtain ⟨hclosures, hanswers⟩ := epsilonClosure_least_and_remembered g
  have hfound (seeds : List StateId) (n : Nat) (hempty : (g.closureWithin seeds n).stack = []) :
      g.epsilonClosure (.ofList seeds) = (g.closureWithin seeds n).found :=
    ((hclosures seeds).2.found_eq n hempty).symm
  have hfirst : g.epsilonClosure (.ofList [0]) = .ofList [0, 1, 9] :=
    (hfound [0] 3 (by decide)).trans (by decide)
  obtain ⟨hleast, hfinds⟩ := hclosures [0]
  rw [hfirst] at hleast hfinds
  refine ⟨hleast, mt (hfinds.stack_eq_nil_iff 2).1 (by decide),
    (hfinds.stack_eq_nil_iff 3).2 (by decide), ?_⟩
  rw [hanswers]
  have hsecond : g.epsilonClosure (.ofList [2, 9, 2]) = .ofList [0, 1, 2, 3, 9] :=
    (hfound [2, 9, 2] 5 (by decide)).trans (by decide)
  have hthird : g.epsilonClosure (.ofList [3]) = .ofList [3] :=
    (hfound [3] 1 (by decide)).trans (by decide)
  exact congrArg₂ _ hfirst (congrArg₂ _ hsecond (congrArg₂ _ hthird (congrArg₂ _ hfirst rfl)))

end Graph

end Automata
