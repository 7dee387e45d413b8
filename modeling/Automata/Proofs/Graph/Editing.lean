import Automata.Proofs.Graph.InPlace
import Automata.Proofs.Issue
import Automata.Proofs.Result

namespace Automata

namespace Graph

variable {g : Graph}

/-- A state is added only if its number is new and it does not compete for the
start mark. -/
theorem exists_of_addState_eq_ok {s : State} {after : Graph} (hadd : g.addState s = .ok after) :
    s.id ∉ g.states.map (·.id) ∧ (s.isStart = true → g.startIds = []) ∧
      after = { g with states := g.states ++ [s] } := by
  unfold addState at hadd
  cases hknown : g.hasState s.id with
  | true =>
    rw [hknown] at hadd
    cases hadd
  | false =>
    rw [hknown, if_neg Bool.false_ne_true] at hadd
    have hnew : s.id ∉ g.states.map (·.id) := by
      rw [← hasState_iff, hknown]
      exact Bool.false_ne_true
    split at hadd
    · cases hadd
    · rename_i hfree
      refine ⟨hnew, fun hmark => ?_, (Except.ok.inj hadd).symm⟩
      cases hstart : g.start? with
      | none => exact start?_eq_none_iff.1 hstart
      | some existing => exact (hfree existing hstart hmark).elim

/-- A move is added only between listed states. -/
theorem exists_of_addTransition_eq_ok {t : Transition} {after : Graph}
    (hadd : g.addTransition t = .ok after) :
    g.hasState t.source = true ∧ g.hasState t.target = true ∧
      after = { g with transitions := g.transitions ++ [t] } := by
  unfold addTransition at hadd
  cases hsource : g.hasState t.source with
  | false => simp [hsource] at hadd
  | true =>
    cases htarget : g.hasState t.target with
    | false => simp [hsource, htarget] at hadd
    | true => exact ⟨rfl, rfl, by simpa [hsource, htarget] using hadd.symm⟩

/-- Among states with distinct numbers, those with one number make one start
state at most. -/
theorem length_startIds_le_one (hnodup : (g.states.map (·.id)).Nodup) (id : StateId)
    (hmarked : ∀ s ∈ g.states, s.isStart = true → s.id = id) : g.startIds.length ≤ 1 := by
  have hall : ∀ other ∈ g.startIds, other = id := by
    intro other hother
    obtain ⟨s, hs, rfl⟩ := List.mem_map.1 hother
    exact hmarked s (List.mem_filter.1 hs).1 (List.mem_filter.1 hs).2
  have hdistinct : g.startIds.Nodup := hnodup.sublist (List.filter_sublist.map _)
  rwa [List.eq_replicate_of_mem hall, List.nodup_replicate] at hdistinct

/-- Changing a verdict changes no number. -/
theorem map_id_withVerdict (id : StateId) (accepting : Bool) (states : List State) :
    (withVerdict id accepting states).map (·.id) = states.map (·.id) := by
  induction states with
  | nil => rfl
  | cons s states ih =>
    rw [withVerdict]
    split
    · rfl
    · rw [List.map_cons, List.map_cons, ih]

/-- Among distinct numbers the first state with a number is the only one. -/
theorem withVerdict_eq_map {id : StateId} {accepting : Bool} {states : List State}
    (hnodup : (states.map (·.id)).Nodup) : withVerdict id accepting states =
      states.map fun s => if s.id = id then { s with isAccepting := accepting } else s := by
  induction states with
  | nil => rfl
  | cons s states ih =>
    rw [List.map_cons, List.nodup_cons] at hnodup
    obtain ⟨hnew, hrest⟩ := hnodup
    rw [withVerdict, List.map_cons]
    split
    · rename_i hid
      have hothers : ∀ u ∈ states,
          (if u.id = id then { u with isAccepting := accepting } else u) = u := by
        intro u hu
        apply if_neg
        rintro rfl
        exact hnew (hid ▸ List.mem_map_of_mem hu)
      rw [List.map_congr_left hothers, List.map_id']
    · rw [ih hrest]

/-- Verdicts have no part in which states are marked as the start. -/
theorem filter_isStart_withVerdict (id : StateId) (accepting : Bool) (states : List State) :
    ((withVerdict id accepting states).filter (·.isStart)).map (·.id) =
      (states.filter (·.isStart)).map (·.id) := by
  induction states with
  | nil => rfl
  | cons s states ih =>
    rw [withVerdict]
    split
    · simp only [List.filter_cons]
      split <;> rfl
    · simp only [List.filter_cons]
      split
      · rw [List.map_cons, List.map_cons, ih]
      · exact ih

namespace WellFormed

/-- The empty graph breaks no rule. -/
theorem empty : ({} : Graph).WellFormed where
  nodup_ids := List.nodup_nil
  length_startIds_le := Nat.zero_le 1
  hasState_source := nofun
  hasState_target := nofun

/-- Only the numbers of the states decide which moves fit. -/
theorem of_states {states : List State} (hg : g.WellFormed)
    (hids : states.map (·.id) = g.states.map (·.id))
    (hstarts : ({ g with states } : Graph).startIds.length ≤ 1) :
    ({ g with states } : Graph).WellFormed := by
  have hknown (id : StateId) (h : g.hasState id = true) :
      ({ g with states } : Graph).hasState id = true := by
    rw [hasState_iff] at h ⊢
    rwa [hids]
  refine ⟨?_, hstarts, fun t ht => ?_, fun t ht => ?_⟩
  · rw [hids]
    exact hg.nodup_ids
  · exact hknown _ (hg.hasState_source t ht)
  · exact hknown _ (hg.hasState_target t ht)

/-- A state that passes the checks keeps a graph well formed. -/
theorem addState (hg : g.WellFormed) {s : State} {after : Graph}
    (hadd : g.addState s = .ok after) : after.WellFormed := by
  obtain ⟨hnew, hfree, rfl⟩ := exists_of_addState_eq_ok hadd
  have hknown (id : StateId) (h : g.hasState id = true) :
      ({ g with states := g.states ++ [s] } : Graph).hasState id = true := by
    rw [hasState_iff] at h ⊢
    exact List.mem_map.2 ((List.mem_map.1 h).imp fun u hu => ⟨List.mem_append_left _ hu.1, hu.2⟩)
  refine ⟨?_, ?_, fun t ht => ?_, fun t ht => ?_⟩
  · rw [List.map_append, List.nodup_append]
    refine ⟨hg.nodup_ids, List.nodup_singleton _, fun id hid other hother hsame => hnew ?_⟩
    obtain rfl : s.id = other := (List.mem_singleton.1 hother).symm
    rwa [← hsame]
  · cases hmark : s.isStart with
    | false => simpa [startIds, hmark] using hg.length_startIds_le
    | true =>
      have hnone := hfree hmark
      rw [startIds] at hnone
      simp [startIds, hmark, hnone]
  · exact hknown _ (hg.hasState_source t ht)
  · exact hknown _ (hg.hasState_target t ht)

/-- A state goes together with the moves that touch it, so no move loses an
end. -/
theorem removeState (hg : g.WellFormed) (id : StateId) : (g.removeState id).WellFormed := by
  unfold Graph.removeState
  split
  · have hsublist : (g.states.eraseP (·.id = id)).Sublist g.states := List.eraseP_sublist
    have hknown (other : StateId) (hother : other ≠ id) (h : g.hasState other = true) :
        other ∈ (g.states.eraseP (·.id = id)).map (·.id) := by
      obtain ⟨s, hs, rfl⟩ := List.mem_map.1 (hasState_iff.1 h)
      exact List.mem_map_of_mem ((List.mem_eraseP_of_neg (by simpa using hother)).2 hs)
    refine ⟨hg.nodup_ids.sublist (hsublist.map _), ?_, fun t ht => ?_, fun t ht => ?_⟩
    · exact Nat.le_trans ((hsublist.filter _).map _).length_le hg.length_startIds_le
    · obtain ⟨hlisted, happart⟩ := List.mem_filter.1 ht
      have happart := of_decide_eq_true happart
      exact hasState_iff.2 (hknown _ happart.1 (hg.hasState_source t hlisted))
    · obtain ⟨hlisted, happart⟩ := List.mem_filter.1 ht
      have happart := of_decide_eq_true happart
      exact hasState_iff.2 (hknown _ happart.2 (hg.hasState_target t hlisted))
  · exact hg

/-- All states are marked anew, and no two have the number that is marked. -/
theorem setStart (hg : g.WellFormed) {id : StateId} {after : Graph}
    (hset : g.setStart id = .ok after) : after.WellFormed := by
  unfold Graph.setStart at hset
  split at hset
  · cases hset
    have hids : (g.states.map fun s => { s with isStart := decide (s.id = id) }).map (·.id) =
        g.states.map (·.id) := by simp
    refine hg.of_states hids (length_startIds_le_one (hids ▸ hg.nodup_ids) id fun s hs hmark => ?_)
    obtain ⟨u, _, rfl⟩ := List.mem_map.1 hs
    exact of_decide_eq_true hmark
  · cases hset

/-- Verdicts play no part in the rules. -/
theorem setAccepting (hg : g.WellFormed) {id : StateId} {accepting : Bool} {after : Graph}
    (hset : g.setAccepting id accepting = .ok after) : after.WellFormed := by
  unfold Graph.setAccepting at hset
  split at hset
  · cases hset
    refine hg.of_states (map_id_withVerdict id accepting g.states) ?_
    rw [startIds, filter_isStart_withVerdict]
    exact hg.length_startIds_le
  · cases hset

/-- A move that passes the checks keeps a graph well formed. -/
theorem addTransition (hg : g.WellFormed) {t : Transition} {after : Graph}
    (hadd : g.addTransition t = .ok after) : after.WellFormed := by
  obtain ⟨hsource, htarget, rfl⟩ := exists_of_addTransition_eq_ok hadd
  refine ⟨hg.nodup_ids, hg.length_startIds_le, fun u hu => ?_, fun u hu => ?_⟩
  · obtain hold | hnew := List.mem_append.1 hu
    · exact hg.hasState_source u hold
    · exact List.mem_singleton.1 hnew ▸ hsource
  · obtain hold | hnew := List.mem_append.1 hu
    · exact hg.hasState_target u hold
    · exact List.mem_singleton.1 hnew ▸ htarget

/-- Taking away a move breaks no rule. -/
theorem removeTransition (hg : g.WellFormed) (t : Transition) :
    (g.removeTransition t).WellFormed :=
  ⟨hg.nodup_ids, hg.length_startIds_le,
    fun u hu => hg.hasState_source u (List.mem_of_mem_erase hu),
    fun u hu => hg.hasState_target u (List.mem_of_mem_erase hu)⟩

/-- Every edit that is carried out keeps a graph well formed. -/
theorem apply (hg : g.WellFormed) {edit : Edit} {after : Graph}
    (happly : g.apply edit = .ok after) : after.WellFormed := by
  cases edit with
  | addState s => exact hg.addState happly
  | removeState id => exact Except.ok.inj happly ▸ hg.removeState id
  | setStart id => exact hg.setStart happly
  | setAccepting id accepting => exact hg.setAccepting happly
  | addTransition t => exact hg.addTransition happly
  | removeTransition t => exact Except.ok.inj happly ▸ hg.removeTransition t

/-- Every edit in place keeps the stored graph well formed, also one that is
refused. -/
theorem stored (hg : g.WellFormed) (edit : Edit) : (edit.inPlace.stored g).WellFormed := by
  unfold Editor.stored
  rw [edit.run_inPlace]
  cases happly : g.apply edit with
  | error cause => exact hg
  | ok after => exact hg.apply happly

/-- So does any number of edits. -/
theorem edited (hg : g.WellFormed) (edits : List Edit) : (g.edited edits).WellFormed := by
  induction edits generalizing g with
  | nil => exact hg
  | cons edit edits ih => exact ih (hg.stored edit)

/-- States that pass the checks one after another end up behind the others, in a
well-formed graph. -/
theorem foldlM_addState (hg : g.WellFormed) {states : List State} {after : Graph}
    (hadd : states.foldlM Graph.addState g = .ok after) :
    after.WellFormed ∧ after = { g with states := g.states ++ states } := by
  induction states generalizing g with
  | nil =>
    cases hadd
    exact ⟨hg, by rw [List.append_nil]⟩
  | cons s states ih =>
    obtain ⟨next, hnext, hrest⟩ := exists_of_bind_eq_ok hadd
    obtain ⟨hafter, rfl⟩ := ih (hg.addState hnext) hrest
    obtain ⟨_, _, rfl⟩ := exists_of_addState_eq_ok hnext
    exact ⟨hafter, by rw [List.append_assoc, List.singleton_append]⟩

/-- So do moves. -/
theorem foldlM_addTransition (hg : g.WellFormed) {transitions : List Transition} {after : Graph}
    (hadd : transitions.foldlM Graph.addTransition g = .ok after) :
    after.WellFormed ∧ after = { g with transitions := g.transitions ++ transitions } := by
  induction transitions generalizing g with
  | nil =>
    cases hadd
    exact ⟨hg, by rw [List.append_nil]⟩
  | cons t transitions ih =>
    obtain ⟨next, hnext, hrest⟩ := exists_of_bind_eq_ok hadd
    obtain ⟨hafter, rfl⟩ := ih (hg.addTransition hnext) hrest
    obtain ⟨_, _, rfl⟩ := exists_of_addTransition_eq_ok hnext
    exact ⟨hafter, by rw [List.append_assoc, List.singleton_append]⟩

/-- All that can be reported of a well-formed graph is that it lacks a start
state. -/
theorem structuralIssues_eq (hg : g.WellFormed) :
    g.structuralIssues = if g.start?.isSome then [] else [.badStart .noStart] := by
  have hrepeated := repeated_eq_nil_iff.2 hg.nodup_ids
  have hendpoints := endpointIssues_eq_nil_iff.2 fun t ht =>
    ⟨hg.hasState_source t ht, hg.hasState_target t ht⟩
  rw [structuralIssues, hrepeated, hendpoints, List.map_nil, List.nil_append, List.append_nil]
  cases hstarts : g.startIds with
  | nil => simp [soleStart, start?, hstarts]
  | cons first others =>
    have hbound := hg.length_startIds_le
    rw [hstarts, List.length_cons] at hbound
    obtain rfl : others = [] := List.length_eq_zero_iff.1 (by omega)
    simp [soleStart, start?, hstarts]

end WellFormed

/-- A graph can be put together from its own lists exactly if it is well formed. -/
theorem exists_ofParts_iff :
    (∃ after, ofParts g.states g.transitions = .ok after) ↔ g.WellFormed := by
  refine ⟨?_, fun hg => ⟨g, hg.ofParts_eq_ok⟩⟩
  rintro ⟨after, hparts⟩
  obtain ⟨next, hstates, htransitions⟩ := exists_of_bind_eq_ok hparts
  obtain ⟨hnext, rfl⟩ := WellFormed.empty.foldlM_addState hstates
  obtain ⟨hafter, rfl⟩ := hnext.foldlM_addTransition htransitions
  exact hafter

/-- A graph edited from nothing, by any edits in any order, is well formed, and
nothing can be reported of it but a missing start state. A further edit that is
refused leaves it as it is. -/
theorem edits_keep_wellFormed (edits : List Edit) :
    let g := Graph.edited {} edits
    g.WellFormed ∧
      g.structuralIssues.map Issue.message =
        (if g.start?.isSome then [] else ["The automaton has no start state"]) ∧
      ∀ edit : Edit,
        (∀ cause after, edit.inPlace.run g = .error cause after ↔
          g.apply edit = .error cause ∧ after = g) ∧
        ∀ after, edit.inPlace.run g = .ok () after ↔ g.apply edit = .ok after := by
  intro g
  have hg : g.WellFormed := WellFormed.empty.edited edits
  refine ⟨hg, ?_, fun edit => ?_⟩
  · rw [hg.structuralIssues_eq]
    split <;> rfl
  · rw [edit.run_inPlace]
    exact ⟨fun _ _ => keep_eq_error_iff, fun _ => keep_eq_ok_iff⟩

/-- Of these edits all but the first and the third are refused. -/
example : Graph.edited {} [
    .addState { id := 3, isStart := true }, .addState { id := 3 }, .addState { id := -1 },
    .addState { id := 4, isStart := true }, .setStart 5,
    .addTransition { source := 3, target := 6, symbol := 'a' }] =
      { states := [{ id := 3, isStart := true }, { id := -1 }] } := by
  decide

end Graph

end Automata
