import Automata.Determinization.Checked
import Automata.Proofs.Determinization
import Automata.Proofs.Graph.WellFormed
import Automata.Proofs.Result

namespace Automata

section Fresh

variable {α : Type} [DecidableEq α]

/-- The visited and the queued values, in the order of their discovery, before and
after the first value has left the queue. -/
theorem visited_append_fresh (visited queue : List α) (a : α) (candidates : List α) :
    visited.reverse ++ a :: queue ++ fresh (visited.reverse ++ a :: queue) candidates =
      (a :: visited).reverse ++ (queue ++ fresh (a :: visited ++ queue) candidates) := by
  have hknown (b : α) : b ∈ visited.reverse ++ a :: queue ↔ b ∈ a :: visited ++ queue := by
    simp only [List.mem_append, List.mem_reverse, List.mem_cons, List.cons_append]
    tauto
  rw [fresh_congr hknown]
  simp

theorem idxOf?_of_mem {a : α} {as : List α} (ha : a ∈ as) : as.idxOf? a = some (as.idxOf a) :=
  List.findIdx?_eq_some_iff_findIdx_eq.2 ⟨List.idxOf_lt_length_of_mem ha, rfl⟩

/-- A value keeps its place when others are appended. -/
theorem idxOf_eq_of_begins {as bs : List α} (hbegins : as <+: bs) {a : α} (ha : a ∈ as) :
    bs.idxOf a = as.idxOf a := by
  obtain ⟨rest, rfl⟩ := hbegins
  exact List.idxOf_append_of_mem ha

end Fresh

namespace Determinization

variable {silence : Silence} {g : Graph} {symbols : List Char} {met final : List Frontier}
  {moves : List Transition} {f : Frontier} {n : Nat}

/-- A state for each set met so far, and the moves found so far. -/
def assembled (g : Graph) (met : List Frontier) (moves : List Transition) : Determinization where
  frontiers := met
  graph :=
    { states := met.mapIdx fun i f =>
        { id := i, isStart := i = 0, isAccepting := Frontier.isAccepting g f }
      transitions := moves }

/-- The moves from the sets that have left the queue, by their places in the final
list. -/
def movesOf (silence : Silence) (g : Graph) (symbols : List Char) (final expanded : List Frontier) :
    List Transition :=
  (expanded.mapIdx fun i f => symbols.filterMap (transition? silence g final i f)).flatten

/-- A graph that is put together so far has the numbers of the sets met so
far. -/
theorem hasState_assembled_iff {id : StateId} :
    (assembled g met moves).graph.hasState id = true ↔ ∃ i < met.length, (i : StateId) = id := by
  simp only [Graph.hasState_iff, assembled, List.mem_map, List.mem_mapIdx]
  constructor
  · rintro ⟨_, ⟨i, hi, rfl⟩, rfl⟩
    exact ⟨i, hi, rfl⟩
  · rintro ⟨i, hi, rfl⟩
    exact ⟨_, ⟨i, hi, rfl⟩, rfl⟩

/-- A set gets a number that no state has. -/
theorem enter_assembled (met : List Frontier) (moves : List Transition) (f : Frontier) :
    enter g (met.length = 0) f (assembled g met moves) = .ok (assembled g (met ++ [f]) moves) := by
  have hadd : (assembled g met moves).graph.addState
      { id := met.length, isStart := met.length = 0, isAccepting := Frontier.isAccepting g f } =
      .ok (assembled g (met ++ [f]) moves).graph := by
    refine (Graph.addState_eq_ok ?_ ?_).trans ?_
    · rw [← Graph.hasState_iff, hasState_assembled_iff]
      rintro ⟨i, hi, heq⟩
      exact Nat.ne_of_lt hi (Int.ofNat_inj.1 heq)
    · intro hfirst
      obtain rfl := List.length_eq_zero_iff.1 (of_decide_eq_true hfirst)
      rfl
    · simp [assembled, List.mapIdx_append]
  change (Except.mapError Fault.graph _ >>= _) = _
  rw [show (assembled g met moves).frontiers = met from rfl, hadd]
  rfl

/-- The start set gets the first number. -/
theorem enter_first (g : Graph) (f : Frontier) :
    enter g true f ⟨{}, []⟩ = .ok (assembled g [f] []) :=
  enter_assembled [] [] f

/-- A set gets its place in the final list, whether or not it was met before. -/
theorem numbered_assembled (hnonempty : met ≠ []) (hfinal : met ++ fresh met [f] <+: final) :
    numbered g f (assembled g met moves) =
      .ok (final.idxOf f, assembled g (met ++ fresh met [f]) moves) := by
  have hfrontiers : (assembled g met moves).frontiers = met := rfl
  by_cases hf : f ∈ met
  · have hindex : met.idxOf? f = some (final.idxOf f) := by
      rw [idxOf_eq_of_begins ((List.prefix_append _ _).trans hfinal) hf, idxOf?_of_mem hf]
    rw [numbered, hfrontiers, hindex]
    simp [fresh, hf, pure, Except.pure]
  · have hindex : met.idxOf? f = none := List.idxOf?_eq_none_iff.2 hf
    have hfresh : fresh met [f] = [f] := by simp [fresh, hf]
    rw [hfresh] at hfinal ⊢
    have hplace : final.idxOf f = met.length := by
      rw [idxOf_eq_of_begins hfinal (List.mem_append_right _ List.mem_cons_self),
        List.idxOf_append_of_notMem hf]
      simp
    have hrest : (met.length = 0 : Bool) = false := by simpa using hnonempty
    have henter := enter_assembled (g := g) met moves f
    rw [hrest] at henter
    rw [numbered, hfrontiers, hindex, hplace]
    change (enter g false f _ >>= _) = _
    rw [henter]
    rfl

/-- A move between sets that were met passes the checks. -/
theorem addTransition_assembled {source target : Nat} {symbol : Char}
    (hsource : source < met.length) (htarget : target < met.length) :
    let t : Transition := { source, target, symbol }
    (assembled g met moves).graph.addTransition t = .ok (assembled g met (moves ++ [t])).graph :=
  Graph.addTransition_eq_ok (hasState_assembled_iff.2 ⟨source, hsource, rfl⟩)
    (hasState_assembled_iff.2 ⟨target, htarget, rfl⟩)

/-- The sets that follow a set on some symbols. -/
def followers (silence : Silence) (g : Graph) (symbols : List Char) (f : Frontier) :
    List Frontier :=
  (symbols.map (Frontier.move silence g f)).filter (!·.isEmpty)

/-- Following one symbol meets the set that it leads to, if it has members and
is new, and adds the move to it. -/
theorem expandOn_assembled {symbol : Char} (hn : n < met.length)
    (hfinal : met ++ fresh met (followers silence g [symbol] f) <+: final) :
    expandOn silence g n f (assembled g met moves) symbol =
      .ok (assembled g (met ++ fresh met (followers silence g [symbol] f))
        (moves ++ [symbol].filterMap (transition? silence g final n f))) := by
  have hnonempty : met ≠ [] := List.ne_nil_of_length_pos (Nat.zero_lt_of_lt hn)
  cases hempty : (Frontier.move silence g f symbol).isEmpty with
  | true => simp [expandOn, transition?, followers, fresh, hempty, pure, Except.pure]
  | false =>
    have hfollowers : followers silence g [symbol] f = [Frontier.move silence g f symbol] := by
      simp [followers, hempty]
    rw [hfollowers] at hfinal ⊢
    have htarget : final.idxOf (Frontier.move silence g f symbol) <
        (met ++ fresh met [Frontier.move silence g f symbol]).length := by
      have hmet : Frontier.move silence g f symbol ∈
          met ++ fresh met [Frontier.move silence g f symbol] := by
        rw [List.mem_append, mem_fresh]
        tauto
      rw [idxOf_eq_of_begins hfinal hmet]
      exact List.idxOf_lt_length_of_mem hmet
    have hsource : n < (met ++ fresh met [Frontier.move silence g f symbol]).length :=
      Nat.lt_of_lt_of_le hn (List.prefix_append _ _).length_le
    have htransition : [symbol].filterMap (transition? silence g final n f) =
        [{ source := n, target := final.idxOf (Frontier.move silence g f symbol), symbol }] := by
      simp [transition?, hempty]
    simp only [expandOn, hempty, numbered_assembled hnonempty hfinal, bind, Except.bind,
      addTransition_assembled hsource htarget, htransition]
    rfl

/-- A set that leaves the queue adds its moves, and the sets they lead to that
were not met before. -/
theorem foldlM_expandOn (symbols : List Char) (hn : n < met.length)
    (hfinal : met ++ fresh met (followers silence g symbols f) <+: final) :
    symbols.foldlM (expandOn silence g n f) (assembled g met moves) =
      .ok (assembled g (met ++ fresh met (followers silence g symbols f))
        (moves ++ symbols.filterMap (transition? silence g final n f))) := by
  induction symbols generalizing met moves with
  | nil => simp [followers, fresh, pure, Except.pure]
  | cons symbol symbols ih =>
    have hfollowers : followers silence g (symbol :: symbols) f =
        followers silence g [symbol] f ++ followers silence g symbols f := by
      rw [followers, List.map_cons, ← List.singleton_append, List.filter_append]
      rfl
    rw [hfollowers, fresh_append, ← List.append_assoc] at hfinal ⊢
    rw [List.foldlM_cons, expandOn_assembled hn ((List.prefix_append _ _).trans hfinal)]
    refine (ih ?_ hfinal).trans ?_
    · exact Nat.lt_of_lt_of_le hn (List.prefix_append _ _).length_le
    · rw [List.append_assoc moves, ← List.filterMap_append, List.singleton_append]

/-- The number of a set is looked up when it leaves the queue, and it is the place
where the set stands in it. -/
theorem expand_assembled (hn : met[n]? = some f) (hnodup : met.Nodup)
    (hfinal : met ++ fresh met (followers silence g symbols f) <+: final) :
    expand silence g symbols (assembled g met moves) f =
      .ok (assembled g (met ++ fresh met (followers silence g symbols f))
        (moves ++ symbols.filterMap (transition? silence g final n f))) := by
  obtain ⟨hlt, rfl⟩ := List.getElem?_eq_some_iff.1 hn
  have hnumber : (assembled g met moves).number met[n] = .ok n := by
    have hindex : (assembled g met moves).frontiers.idxOf? met[n] = some n := by
      rw [show (assembled g met moves).frontiers = met from rfl,
        idxOf?_of_mem (List.getElem_mem hlt), hnodup.idxOf_getElem]
    rw [number, hindex]
  rw [expand, hnumber]
  exact foldlM_expandOn symbols hlt hfinal

theorem movesOf_concat (silence : Silence) (g : Graph) (symbols : List Char)
    (final expanded : List Frontier) (f : Frontier) :
    movesOf silence g symbols final (expanded ++ [f]) =
      movesOf silence g symbols final expanded ++
        symbols.filterMap (transition? silence g final expanded.length f) := by
  simp [movesOf, List.mapIdx_append]

/-- Once some sets have left the queue, those that are still to leave it add the
rest of the final graph. -/
theorem foldlM_expand (silence : Silence) (g : Graph) (symbols : List Char)
    (visited queue : List Frontier) {rest : List Frontier} (hnodup : (visited ++ queue).Nodup)
    (hrest : (Frontier.followUpSets silence g symbols).visit visited queue =
      visited.reverse ++ rest) :
    let final := (Frontier.followUpSets silence g symbols).visit visited queue
    rest.foldlM (expand silence g symbols) (assembled g (visited.reverse ++ queue)
        (movesOf silence g symbols final visited.reverse)) =
      .ok (assembled g final (movesOf silence g symbols final final)) := by
  fun_induction Expansion.visit (Frontier.followUpSets silence g symbols) visited queue
    generalizing rest with
  | case1 visited =>
    obtain rfl : rest = [] := by simpa using hrest
    simp only [List.append_nil]
    rfl
  | case2 visited f queue ih =>
    have hmet := visited_append_fresh visited queue f (followers silence g symbols f)
    obtain ⟨later, hlater⟩ := (Frontier.followUpSets silence g symbols).prefix_visit (f :: visited)
      (queue ++ fresh (f :: visited ++ queue) (followers silence g symbols f))
    obtain rfl : rest = f :: (queue ++
        fresh (f :: visited ++ queue) (followers silence g symbols f) ++ later) := by
      have hsplit := hrest.symm.trans hlater.symm
      rw [List.reverse_cons, List.append_assoc, List.append_assoc] at hsplit
      exact List.append_cancel_left hsplit
    have hn : (visited.reverse ++ f :: queue)[visited.reverse.length]? = some f := by simp
    have hdistinct : (visited.reverse ++ f :: queue).Nodup :=
      ((List.reverse_perm visited).append_right _).nodup_iff.2 hnodup
    intro final
    have hfinal : visited.reverse ++ f :: queue ++
        fresh (visited.reverse ++ f :: queue) (followers silence g symbols f) <+: final :=
      ⟨later, hmet ▸ hlater⟩
    rw [List.foldlM_cons, expand_assembled hn hdistinct hfinal, hmet, ← movesOf_concat,
      ← List.reverse_cons]
    exact ih (Expansion.nodup_advance hnodup _) (hlater.symm.trans (List.append_assoc _ _ _))

end Determinization

/-- Every check of the subset construction succeeds once there is one start state,
and the result is the graph of the sets that can be reached. -/
theorem Graph.determinizeChecked_of_soleStart {g : Graph} {origin : StateId}
    (hstart : g.soleStart = .ok origin) (silence : Silence) :
    g.determinizeChecked silence = .ok (g.determinizeFrom silence origin) := by
  let symbols := g.alphabet.toList
  let first := Frontier.initial silence g origin
  have hexpand := Determinization.foldlM_expand silence g symbols [] [first]
    (List.nodup_singleton first) (List.nil_append _).symm
  refine bind_eq_ok (a := origin) ?_
    (bind_eq_ok (Determinization.enter_first g first) hexpand)
  rw [hstart]
  rfl

end Automata
