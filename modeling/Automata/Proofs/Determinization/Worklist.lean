import Automata.Determinization.Worklist
import Automata.Proofs.Determinization.Checked

namespace Automata

/-- The set that each state of the result stands for. -/
def Determinization.mapping (d : Determinization) : List (StateId × Frontier) :=
  d.frontiers.mapIdx fun n f => ((n : StateId), f)

/-- The number of each set of the result. -/
def Determinization.numbers (d : Determinization) : List (Frontier × StateId) :=
  d.frontiers.mapIdx fun n f => (f, (n : StateId))

/-- A value is found under its place. -/
theorem lookup_mapIdx_eq {α β : Type} [DecidableEq α] (place : Nat → β) (as : List α) (a : α) :
    (as.mapIdx fun n a => (a, place n)).lookup a = (as.idxOf? a).map place := by
  induction as generalizing place with
  | nil => rfl
  | cons b as ih =>
    rw [List.mapIdx_cons, List.lookup_cons, List.idxOf?_cons, ih fun n => place (n + 1)]
    by_cases hab : a = b
    · simp [hab]
    · simp [beq_eq_false_iff_ne.2 hab, beq_eq_false_iff_ne.2 (Ne.symm hab), Function.comp_def]

namespace Worklist

variable {silence : Silence} {g : Graph} {d d' : Determinization} {f : Frontier}
  {queue : List Frontier}

/-- The loop when this much is put together and these sets are still to be
expanded. -/
def holding (d : Determinization) (queue : List Frontier) : Worklist :=
  { graph := d.graph, numbers := d.numbers, frontiers := d.mapping, queue }

/-- What is stored under a set is its place among the sets met so far. -/
theorem lookup_numbers (d : Determinization) (f : Frontier) :
    d.numbers.lookup f = (d.frontiers.idxOf? f).map fun n : Nat => (n : StateId) :=
  lookup_mapIdx_eq _ _ _

/-- A set that is entered goes to the end of every list. -/
theorem enter_holding {isStart : Bool} (henter : d.enter g isStart f = .ok d')
    (queue : List Frontier) :
    d'.frontiers = d.frontiers ++ [f] ∧
      (holding d queue).enter g isStart f = .ok (holding d' (queue ++ [f])) := by
  obtain ⟨graph, hadd, hd'⟩ := exists_of_bind_eq_ok henter
  cases hd'
  refine ⟨rfl, bind_eq_ok (a := graph) ?_ ?_⟩
  · simpa [holding, Determinization.numbers] using hadd
  · simp [holding, Determinization.numbers, Determinization.mapping, List.mapIdx_append, pure,
      Except.pure]

/-- The loop gives a set the number that it has in the result so far, and queues
it if it is new. -/
theorem numbered_holding {n : Nat} (hnumbered : d.numbered g f = .ok (n, d'))
    (queue : List Frontier) :
    ∃ new, d'.frontiers = d.frontiers ++ new ∧
      (holding d queue).numbered g f = .ok ((n : StateId), holding d' (queue ++ new)) := by
  have hlookup := lookup_numbers d f
  rw [Determinization.numbered] at hnumbered
  cases hindex : d.frontiers.idxOf? f with
  | some m =>
    rw [hindex] at hnumbered hlookup
    cases hnumbered
    refine ⟨[], (List.append_nil _).symm, ?_⟩
    rw [numbered, show (holding d queue).numbers = d.numbers from rfl, hlookup, List.append_nil]
    rfl
  | none =>
    rw [hindex] at hnumbered hlookup
    obtain ⟨entered, henter, hpair⟩ := exists_of_bind_eq_ok hnumbered
    cases hpair
    obtain ⟨hfrontiers, hholding⟩ := enter_holding henter queue
    refine ⟨[f], hfrontiers, ?_⟩
    rw [numbered, show (holding d queue).numbers = d.numbers from rfl, hlookup]
    refine bind_eq_ok hholding ?_
    simp [Determinization.numbers, pure, Except.pure]

/-- Following one symbol does to the graph what it does there, and queues the
set that is new. -/
theorem expandOn_holding {n : Nat} {symbol : Char}
    (hexpand : Determinization.expandOn silence g n f d symbol = .ok d') (queue : List Frontier) :
    ∃ new, d'.frontiers = d.frontiers ++ new ∧
      expandOn silence g n f (holding d queue) symbol = .ok (holding d' (queue ++ new)) := by
  rw [Determinization.expandOn] at hexpand
  rw [expandOn]
  cases hempty : (Frontier.move silence g f symbol).isEmpty with
  | true =>
    simp only [hempty, if_true] at hexpand ⊢
    cases hexpand
    exact ⟨[], (List.append_nil _).symm, by rw [List.append_nil]; rfl⟩
  | false =>
    simp only [hempty, Bool.false_eq_true, if_false] at hexpand ⊢
    obtain ⟨⟨m, entered⟩, hnumbered, hrest⟩ := exists_of_bind_eq_ok hexpand
    obtain ⟨graph, hadd, hd'⟩ := exists_of_bind_eq_ok hrest
    cases hd'
    obtain ⟨new, hfrontiers, hholding⟩ := numbered_holding hnumbered queue
    exact ⟨new, hfrontiers, bind_eq_ok hholding (bind_eq_ok hadd rfl)⟩

/-- So does following all symbols, one after another. -/
theorem foldlM_expandOn_holding {n : Nat} (symbols : List Char)
    (hexpand : symbols.foldlM (Determinization.expandOn silence g n f) d = .ok d')
    (queue : List Frontier) :
    ∃ new, d'.frontiers = d.frontiers ++ new ∧
      symbols.foldlM (expandOn silence g n f) (holding d queue) =
        .ok (holding d' (queue ++ new)) := by
  induction symbols generalizing d queue with
  | nil =>
    cases hexpand
    exact ⟨[], (List.append_nil _).symm, by rw [List.append_nil]; rfl⟩
  | cons symbol symbols ih =>
    rw [List.foldlM_cons] at hexpand ⊢
    obtain ⟨next, hnext, hexpand⟩ := exists_of_bind_eq_ok hexpand
    obtain ⟨first, hfirst, hholding⟩ := expandOn_holding hnext queue
    obtain ⟨rest, hrest, hfold⟩ := ih hexpand (queue ++ first)
    refine ⟨first ++ rest, ?_, bind_eq_ok hholding ?_⟩
    · rw [hrest, hfirst, List.append_assoc]
    · rw [hfold, List.append_assoc]

/-- A turn expands the first set of the queue. What the sets met so far grow by is
queued. -/
theorem turn_holding (hexpand : d.expand silence g g.alphabet.toList f = .ok d')
    (queue : List Frontier) :
    ∃ new, d'.frontiers = d.frontiers ++ new ∧
      turn silence g (holding d (f :: queue)) = .ok (holding d' (queue ++ new)) := by
  obtain ⟨n, hnumber, hfold⟩ := exists_of_bind_eq_ok hexpand
  have hlookup : d.numbers.lookup f = some (n : StateId) := by
    rw [lookup_numbers]
    rw [Determinization.number] at hnumber
    split at hnumber
    · rename_i hindex
      cases hnumber
      rw [hindex]
      rfl
    · cases hnumber
  obtain ⟨new, hfrontiers, hholding⟩ := foldlM_expandOn_holding _ hfold queue
  refine ⟨new, hfrontiers, ?_⟩
  simp only [turn, holding, hlookup]
  exact hholding

/-- Nothing changes once the queue is empty. -/
theorem turns_of_queue_eq_nil {w : Worklist} (hqueue : w.queue = []) (n : Nat) :
    w.turns silence g n = .ok w := by
  induction n with
  | zero => rfl
  | succ n ih =>
    rw [turns, turn, hqueue]
    exact ih

/-- The loop with these sets expanded, latest first, and these in its queue. Moves
are numbered by the places in the final list. -/
def stage (silence : Silence) (g : Graph) (final visited queue : List Frontier) : Worklist :=
  let expanded := visited.reverse
  holding (.assembled g (expanded ++ queue)
    (Determinization.movesOf silence g g.alphabet.toList final expanded)) queue

/-- A turn is one step of the search through all reachable sets. -/
theorem turn_stage {final visited : List Frontier} (hnodup : (visited ++ f :: queue).Nodup) :
    let found := fresh (f :: visited ++ queue)
      ((Frontier.followUpSets silence g g.alphabet.toList).next f)
    (f :: visited).reverse ++ (queue ++ found) <+: final →
      turn silence g (stage silence g final visited (f :: queue)) =
        .ok (stage silence g final (f :: visited) (queue ++ found)) := by
  intro found hfinal
  have hmet : visited.reverse ++ f :: queue ++ fresh (visited.reverse ++ f :: queue)
      (Determinization.followers silence g g.alphabet.toList f) =
        (f :: visited).reverse ++ (queue ++ found) :=
    visited_append_fresh visited queue f _
  have hn : (visited.reverse ++ f :: queue)[visited.reverse.length]? = some f := by simp
  have hdistinct : (visited.reverse ++ f :: queue).Nodup :=
    ((List.reverse_perm visited).append_right _).nodup_iff.2 hnodup
  obtain ⟨new, hnew, hturn⟩ :=
    turn_holding (Determinization.expand_assembled hn hdistinct (hmet ▸ hfinal)) queue
  -- what the turn has queued is what the search finds
  obtain rfl : fresh (visited.reverse ++ f :: queue)
      (Determinization.followers silence g g.alphabet.toList f) = new :=
    List.append_cancel_left hnew
  have hfound : queue ++ fresh (visited.reverse ++ f :: queue)
      (Determinization.followers silence g g.alphabet.toList f) = queue ++ found := by
    have hqueue := hmet
    rw [List.reverse_cons, List.append_assoc, List.append_assoc] at hqueue
    exact (List.cons.inj (List.append_cancel_left hqueue)).2
  rw [hmet, hfound, ← Determinization.movesOf_concat, ← List.reverse_cons] at hturn
  exact hturn

/-- Where some sets have been expanded and others wait in the queue, every further
turn succeeds. The queue is empty after as many turns as there are sets left to
expand, and then the result is put together. -/
theorem turns_stage (silence : Silence) (g : Graph) (visited queue : List Frontier)
    (hnodup : (visited ++ queue).Nodup) (k : Nat) :
    let final := (Frontier.followUpSets silence g g.alphabet.toList).visit visited queue
    ∃ w, turns silence g k (stage silence g final visited queue) = .ok w ∧
      (w.queue = [] ↔ final.length ≤ visited.length + k) ∧
      (w.queue = [] → w = stage silence g final final.reverse []) := by
  fun_induction Expansion.visit (Frontier.followUpSets silence g g.alphabet.toList) visited queue
    generalizing k with
  | case1 visited =>
    intro final
    refine ⟨_, turns_of_queue_eq_nil rfl k, ?_, fun _ => ?_⟩
    · simp [stage, holding, final]
    · rw [List.reverse_reverse]
  | case2 visited f queue ih =>
    intro final
    have hbegins := (Frontier.followUpSets silence g g.alphabet.toList).prefix_visit (f :: visited)
      (queue ++ fresh (f :: visited ++ queue)
        ((Frontier.followUpSets silence g g.alphabet.toList).next f))
    cases k with
    | zero =>
      have hlonger : visited.length < final.length := by
        have hlength : _ ≤ final.length := hbegins.length_le
        rw [List.length_append, List.length_reverse, List.length_cons] at hlength
        omega
      have hwaiting : (stage silence g final visited (f :: queue)).queue ≠ [] :=
        List.cons_ne_nil f queue
      exact ⟨_, rfl, iff_of_false hwaiting (Nat.not_le.2 hlonger),
        fun hempty => absurd hempty hwaiting⟩
    | succ k =>
      obtain ⟨w, hturns, hqueue, hfinal⟩ := ih (Expansion.nodup_advance hnodup _) k
      refine ⟨w, bind_eq_ok (turn_stage hnodup hbegins) hturns, hqueue.trans ?_, hfinal⟩
      rw [List.length_cons, Nat.add_right_comm, Nat.add_assoc]

end Worklist

/-- No turn of the loop fails. The queue runs empty after as many turns as the
result has states, and the result is what the loop has put together then. -/
theorem Graph.determinizeWithin_of_soleStart {g : Graph} {origin : StateId}
    (hstart : g.soleStart = .ok origin) (silence : Silence) (k : Nat) :
    ∃ w, g.determinizeWithin silence k = .ok w ∧
      (w.queue = [] ↔ (g.determinizeFrom silence origin).frontiers.length ≤ k) ∧
      (w.queue = [] → w = .holding (g.determinizeFrom silence origin) []) := by
  let first := Frontier.initial silence g origin
  obtain ⟨_, henter⟩ := Worklist.enter_holding (Determinization.enter_first g first) []
  obtain ⟨w, hturns, hqueue, hfinal⟩ :=
    Worklist.turns_stage silence g [] [first] (List.nodup_singleton first) k
  rw [List.length_nil, Nat.zero_add] at hqueue
  refine ⟨w, ?_, hqueue, fun hempty => (hfinal hempty).trans ?_⟩
  · refine bind_eq_ok (a := origin) ?_ (bind_eq_ok henter hturns)
    rw [hstart]
    rfl
  · simp only [Worklist.stage, List.reverse_reverse, List.append_nil]
    rfl

end Automata
