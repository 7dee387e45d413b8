import Automata.Graph.Basic
import Mathlib.Data.List.Nodup

namespace Automata

theorem Transition.hasStackEffect_eq_false_iff {t : Transition} :
    t.hasStackEffect = false ↔ t.pop = none ∧ t.push = [] := by
  simp [hasStackEffect]

namespace Graph

variable {g : Graph}

/-- A graph can be run exactly if one state is marked as the start. -/
theorem soleStart_eq_ok_iff {origin : StateId} : g.soleStart = .ok origin ↔ g.startIds = [origin] := by
  unfold soleStart
  split
  · rename_i hnone
    simp [hnone]
  · rename_i hone
    simp [hone]
  · rename_i hmany
    exact iff_of_false nofun (hmany origin)

/-- The start state is listed. -/
theorem exists_start_of_soleStart {origin : StateId} (hstart : g.soleStart = .ok origin) :
    ∃ s ∈ g.states, s.isStart = true ∧ s.id = origin := by
  have hmem : origin ∈ g.startIds := by simp [soleStart_eq_ok_iff.1 hstart]
  obtain ⟨s, hs, hid⟩ := List.mem_map.1 hmem
  obtain ⟨hlisted, hmark⟩ := List.mem_filter.1 hs
  exact ⟨s, hlisted, hmark, hid⟩

/-- Every state with the start mark has the number of the start state. -/
theorem id_eq_of_isStart {origin : StateId} (hstart : g.soleStart = .ok origin) {s : State}
    (hs : s ∈ g.states) (hmark : s.isStart = true) : s.id = origin := by
  have hmem : s.id ∈ g.startIds := List.mem_map_of_mem (List.mem_filter.2 ⟨hs, hmark⟩)
  rwa [soleStart_eq_ok_iff.1 hstart, List.mem_singleton] at hmem

/-- Distinct numbers make the state that was listed the one that is found. -/
theorem state?_eq_of_mem (hnodup : (g.states.map (·.id)).Nodup) {s : State} (hs : s ∈ g.states) :
    g.state? s.id = some s := by
  rw [state?]
  cases hfound : g.states.find? (·.id = s.id) with
  | none => simpa using List.find?_eq_none.1 hfound s hs
  | some found =>
    have hid : found.id = s.id := by simpa using List.find?_some hfound
    rw [List.inj_on_of_nodup_map hnodup (List.mem_of_find?_eq_some hfound) hs hid]

/-- With distinct numbers the verdict on a number is that of its state. -/
theorem isAccepting_eq_of_mem (hnodup : (g.states.map (·.id)).Nodup) {s : State}
    (hs : s ∈ g.states) : g.isAccepting s.id = s.isAccepting := by
  rw [isAccepting, state?_eq_of_mem hnodup hs]
  rfl

/-- A number that accepts is the number of an accepting state. -/
theorem exists_mem_of_isAccepting {id : StateId} (haccepting : g.isAccepting id = true) :
    ∃ s ∈ g.states, s.id = id ∧ s.isAccepting = true := by
  obtain ⟨s, hfound, haccepts⟩ := (Option.any_eq_true _ _).1 haccepting
  exact ⟨s, List.mem_of_find?_eq_some hfound, by simpa using List.find?_some hfound, haccepts⟩

/-- Among states with distinct numbers, the only one with a start mark is the
start state. -/
theorem soleStart_eq_ok_of_unique (hnodup : (g.states.map (·.id)).Nodup) {s : State}
    (hs : s ∈ g.states) (hstart : s.isStart = true)
    (hunique : ∀ u ∈ g.states, u.isStart = true → u.id = s.id) : g.soleStart = .ok s.id := by
  rw [soleStart_eq_ok_iff, startIds]
  have hstarts : g.states.filter (·.isStart) = [s] := by
    have hsub : g.states.filter (·.isStart) ⊆ [s] := by
      intro u hu
      obtain ⟨hmem, hmark⟩ := List.mem_filter.1 hu
      simpa using List.inj_on_of_nodup_map hnodup hmem hs (hunique u hmem hmark)
    have hmem : s ∈ g.states.filter (·.isStart) := List.mem_filter.2 ⟨hs, hstart⟩
    have hperm : (g.states.filter (·.isStart)).Perm [s] := by
      rw [List.perm_ext_iff_of_nodup (hnodup.of_map.filter _) (List.nodup_singleton s)]
      intro u
      exact ⟨fun hu => hsub hu, fun hu => List.mem_singleton.1 hu ▸ hmem⟩
    exact List.perm_singleton.1 hperm
  rw [hstarts]
  rfl

/-- The alphabet holds the symbols that some move reads. -/
theorem mem_alphabet_iff {c : Char} :
    c ∈ g.alphabet ↔ ∃ t ∈ g.transitions, t.isEpsilon = false ∧ t.symbol = c := by
  simp only [alphabet, SortedSet.mem_ofList, List.mem_map, List.mem_filter, Bool.not_eq_true',
    and_assoc]

end Graph

end Automata
