import Automata.Proofs.Graph.Basic
import Automata.Proofs.Stepping
import Automata.Proofs.Wire.Execution

namespace Automata

/-- The state numbers have 32 bits. -/
structure Graph.Fits (g : Graph) : Prop where
  id : ∀ s ∈ g.states, fitsStateId s.id = true
  source : ∀ t ∈ g.transitions, fitsStateId t.source = true
  target : ∀ t ∈ g.transitions, fitsStateId t.target = true

theorem Graph.Fits.soleStart {g : Graph} (hfits : g.Fits) {origin : StateId}
    (hstart : g.soleStart = .ok origin) : fitsStateId origin = true := by
  obtain ⟨s, hs, _, rfl⟩ := Graph.exists_start_of_soleStart hstart
  exact hfits.id s hs

namespace Automaton

/-- A property of configurations that holds throughout the runs of a machine, and
with which an execution fits. -/
structure FitsThroughout {C : Type} (m : Machine C) (wrap : Run C → Execution) (Q : C → Prop) :
    Prop where
  start : ∀ origin, fitsStateId origin = true → ∀ input, (m.start origin input).Throughout Q
  keeps : m.Keeps (Run.Throughout Q)
  fits : ∀ r : Run C, r.position ≤ Json.maxNat → r.Throughout Q → (wrap r).Fits

section Machines

variable {g : Graph}

/-- The states of a run are targets of moves, so that they fit whenever the
graph does. -/
theorem fitsThroughout_deterministic (hfits : g.Fits) :
    FitsThroughout (Deterministic.machine g) .deterministic fun id => fitsStateId id = true where
  start _ horigin input := Deterministic.throughout_start horigin input
  keeps := Deterministic.keeps_throughout hfits.target
  fits _ hposition hr := ⟨hposition, hr⟩

/-- The members of a frontier are targets of moves, or the start. -/
theorem fitsThroughout_frontier (silence : Silence) (hfits : g.Fits) :
    FitsThroughout (Frontier.machine silence g) .frontier
      fun f => ∀ id ∈ f, fitsStateId id = true where
  start _ horigin input := Frontier.throughout_start hfits.target horigin input
  keeps := Frontier.keeps_throughout hfits.target
  fits _ hposition hr := ⟨hposition, hr⟩

/-- The states of a run are targets of moves, and its stacks are texts of any
length. -/
theorem fitsThroughout_pushdown (limits : Limits) (hfits : g.Fits) :
    FitsThroughout (Pushdown.machine g limits) .stack fun c => fitsStateId c.state = true where
  start _ horigin input :=
    Pushdown.throughout_start (P := fun id => fitsStateId id = true) hfits.target horigin input
  keeps := Pushdown.keeps_throughout (P := fun id => fitsStateId id = true) hfits.target
  fits _ hposition hr := ⟨hposition, hr⟩

end Machines

/-- The runs of an automaton mention states of its graph only. -/
theorem exists_fitsThroughout (a : Automaton) (hfits : a.graph.Fits) :
    ∃ (C : Type) (m : Machine C) (wrap : Run C → Execution) (Q : C → Prop), m.Lawful ∧
      a.DrivenBy m wrap ∧ FitsThroughout m wrap Q := by
  cases a with
  | dfa g =>
    exact ⟨_, _, _, _, Deterministic.lawful_machine g, drivenBy_dfa g,
      fitsThroughout_deterministic hfits⟩
  | nfa g =>
    exact ⟨_, _, _, _, Frontier.lawful_machine .ignored g, drivenBy_nfa g,
      fitsThroughout_frontier .ignored hfits⟩
  | epsilonNfa g =>
    exact ⟨_, _, _, _, Frontier.lawful_machine .followed g, drivenBy_epsilonNfa g,
      fitsThroughout_frontier .followed hfits⟩
  | pda g limits =>
    exact ⟨_, _, _, _, Pushdown.lawful_machine g limits, drivenBy_pda g limits,
      fitsThroughout_pushdown limits hfits⟩

/-- Whatever has been done to a run since its start, it is well formed and fits. -/
theorem exists_fitting_of_actions (a : Automaton) (hfits : a.graph.Fits) {origin : StateId}
    (hstart : a.graph.soleStart = .ok origin) {input : List Char}
    (hinput : input.length ≤ Json.maxNat) :
    ∃ first, a.start input = .ok first ∧ ∀ actions : List Action,
      ∃ e, actions.foldlM a.perform first = .ok e ∧ e.WellFormed ∧ e.Fits := by
  obtain ⟨C, m, wrap, Q, hm, hdriven, hthroughout⟩ := a.exists_fitsThroughout hfits
  refine ⟨_, hdriven.start_eq hstart input, fun actions => ?_⟩
  have hkeeps := (hm.keeps_wellFormed.and (hm.keeps_input input)).and hthroughout.keeps
  have hbegins := hm.begins origin input
  have hfirst := hthroughout.start origin (hfits.soleStart hstart) input
  obtain ⟨r, ⟨⟨hr, hsame⟩, hstates⟩, hreached⟩ := hdriven.foldlM_perform_of_keeps hkeeps actions
    ⟨⟨hbegins.wellFormed, hbegins.input_eq⟩, hfirst⟩
  have hposition : r.position ≤ Json.maxNat := by
    refine Nat.le_trans hr.2 ?_
    rwa [hsame]
  refine ⟨wrap r, hreached, ?_, hthroughout.fits r hposition hstates⟩
  rwa [Execution.WellFormed, hdriven.fold]

/-- At any moment a run can be written down and read back: what is read is the
same run, so whatever is done to it afterwards has the same result. Conversely,
a record whose fields can all be read is refused exactly if its position lies
beyond its input or its history does not account for its position. -/
theorem reload_restores :
    (∀ (a : Automaton) (origin : StateId) (input : List Char), a.graph.Fits →
      a.graph.soleStart = .ok origin → input.length ≤ Json.maxNat →
      ∃ first, a.start input = .ok first ∧ ∀ actions : List Action,
        ∃ e, actions.foldlM a.perform first = .ok e ∧
          ∃ reloaded, Execution.ofJson e.toJson = .ok reloaded ∧ reloaded = e ∧
            ∀ more : List Action, more.foldlM a.perform reloaded = more.foldlM a.perform e) ∧
    ∀ (j : Json) (raw : Execution), Execution.ofFields j = .ok raw →
      ((∃ e, Execution.ofJson j = .ok e) ↔
        raw.position ≤ raw.input.length ∧ raw.historyLength = raw.position) := by
  constructor
  · intro a origin input hfits hstart hinput
    obtain ⟨first, hfirst, hreach⟩ := a.exists_fitting_of_actions hfits hstart hinput
    refine ⟨first, hfirst, fun actions => ?_⟩
    obtain ⟨e, he, hwell, hsizes⟩ := hreach actions
    exact ⟨e, he, e, Execution.ofJson_toJson hwell hsizes, rfl, fun _ => rfl⟩
  · intro j raw hraw
    rw [and_comm, ← Execution.wellFormed_iff]
    constructor
    · rintro ⟨e, hread⟩
      obtain ⟨hfields, he⟩ := Execution.ofJson_eq_ok_iff.1 hread
      rw [hraw] at hfields
      cases hfields
      exact he
    · intro hwell
      exact ⟨raw, Execution.ofJson_eq_ok_iff.2 ⟨hraw, hwell⟩⟩

/-- A pushdown automaton that takes a silent move with the first symbol and gets
stuck at the second, and a record with one history entry too few. -/
theorem reload_restores_of_pushdown :
    let a : Automaton := .pda
      { states := [{ id := 0, isStart := true }, { id := -1, isAccepting := true }]
        transitions := [
          .pushdown 0 0 'a' none ['X', 'Y'],
          .pushdown 0 (-1) epsilon (some 'X') [],
          .pushdown (-1) (-1) 'b' (some 'X') []] }
      { epsilonIterations := 2, stackGrowth := 3 }
    let j : Json := .obj [("kind", "deterministic"), ("state", .obj [
      ("input", "ab"), ("position", .int 1), ("current", .int 0), ("history", .arr [])])]
    let raw : Execution := .deterministic { input := ['a', 'b'], position := 1, current := 0 }
    a.graph.Fits ∧ a.graph.soleStart = .ok 0 ∧ ['a', 'b'].length ≤ Json.maxNat ∧
      (∃ first, a.start ['a', 'b'] = .ok first ∧ ∀ actions : List Action,
        ∃ e, actions.foldlM a.perform first = .ok e ∧
          ∃ reloaded, Execution.ofJson e.toJson = .ok reloaded ∧ reloaded = e ∧
            ∀ more : List Action, more.foldlM a.perform reloaded = more.foldlM a.perform e) ∧
      Execution.ofFields j = .ok raw ∧
      ((∃ e, Execution.ofJson j = .ok e) ↔
        raw.position ≤ raw.input.length ∧ raw.historyLength = raw.position) := by
  intro a j raw
  have hfits : a.graph.Fits := ⟨by decide, by decide, by decide⟩
  have hinput : ['a', 'b'].length ≤ Json.maxNat := by decide
  have hfields : Execution.ofFields j = .ok raw := rfl
  exact ⟨hfits, rfl, hinput, reload_restores.1 a 0 _ hfits rfl hinput, hfields,
    reload_restores.2 j raw hfields⟩

end Automaton

end Automata
