import Automata.Proofs.Pushdown.Acceptance
import Automata.Proofs.Stepping

namespace Automata

/-- Bounds are compared one by one: more moves in a pass, and more room on the
stack. -/
instance : LE Limits where
  le limits limits' := limits.epsilonIterations ≤ limits'.epsilonIterations ∧
    limits.stackGrowth ≤ limits'.stackGrowth

instance (limits limits' : Limits) : Decidable (limits ≤ limits') :=
  inferInstanceAs (Decidable (_ ∧ _))

/-- The run was stopped by a bound. -/
def Run.CutOff {C : Type} (r : Run C) : Prop := ∃ limit, r.halt = some (.limitExceeded limit)

theorem Run.CutOff.isFinished {C : Type} {r : Run C} (hcut : r.CutOff) : r.isFinished = true := by
  obtain ⟨limit, hhalt⟩ := hcut
  rw [Run.isFinished, hhalt]
  rfl

namespace Pushdown

variable {g : Graph} {limits limits' : Limits} {c d : Configuration} {r : Run Configuration}
  {origin : StateId} {input : List Char}

/-- What stays within some bounds stays within wider ones. -/
theorem Within.mono (hle : limits ≤ limits') {events : List Event}
    (hwithin : Within limits events) : Within limits' events where
  length_le series hpart := (hwithin.length_le series hpart).trans hle.1
  height_le d hd := (hwithin.height_le d hd).trans (Nat.succ_le_succ hle.2)

/-- What is accepted within some bounds is accepted within wider ones. -/
theorem AcceptsWithin.mono (hle : limits ≤ limits') {rest : List Char}
    (haccepts : AcceptsWithin g limits c rest) : AcceptsWithin g limits' c rest := by
  obtain ⟨events, last, hcomputes, hstuck, haccepting, hstack, hwithin⟩ := haccepts
  exact ⟨events, last, hcomputes, hstuck, haccepting, hstack, hwithin.mono hle⟩

/-- A pass that ends of itself takes the same moves under bounds that allow
more. -/
theorem closingPass_mono (hle : limits ≤ limits') {next : Option Char}
    (hpass : closingPass g limits next c = (d, none)) :
    closingPass g limits' next c = (d, none) := by
  have hnext : next.toList.head? = next := Option.head?_toList
  rw [closingPass, ← hnext] at hpass ⊢
  obtain ⟨hend, series, hcomputes, hlength, hheights⟩ := exists_series_of_pass hpass
  exact pass_of_series hcomputes (hlength.trans hle.1)
    (fun d hd => (hheights d hd).trans (Nat.succ_le_succ hle.2)) hend

/-- A closing pass that is not cut off is the same under wider bounds. -/
theorem settle_eq_of_not_cutOff (hle : limits ≤ limits') (hkept : ¬ (settle g limits r).CutOff) :
    settle g limits' r = settle g limits r := by
  obtain ⟨d, limit?, hpass, ⟨limit, rfl, hsettle⟩ | ⟨rfl, hend, hsettle⟩ | ⟨rfl, hmore, hsettle⟩⟩ :=
    settle_cases g limits r
  · rw [hsettle] at hkept
    exact absurd ⟨limit, rfl⟩ hkept
  · rw [hsettle, settle_of_atEnd (closingPass_mono hle hpass) hend]
  · rw [hsettle, settle_of_not_atEnd (closingPass_mono hle hpass) hmore]

/-- A step that is not cut off is the same under wider bounds. -/
theorem step_eq_of_not_cutOff (hle : limits ≤ limits') (hkept : ¬ (step g limits r).CutOff) :
    step g limits' r = step g limits r := by
  cases hopen : r.isFinished with
  | true => rw [step_of_isFinished hopen, step_of_isFinished hopen]
  | false =>
    cases hsymbol : r.symbol? with
    | none =>
      rw [step_of_symbol?_eq_none hopen hsymbol] at hkept
      rw [step_of_symbol?_eq_none hopen hsymbol, step_of_symbol?_eq_none hopen hsymbol,
        settle_eq_of_not_cutOff hle hkept]
    | some a =>
      rw [step_of_symbol?_eq_some hopen hsymbol] at hkept
      rw [step_of_symbol?_eq_some hopen hsymbol, step_of_symbol?_eq_some hopen hsymbol]
      cases hselect : r.current.select g a with
      | none => rfl
      | some t =>
        rw [hselect] at hkept
        exact settle_eq_of_not_cutOff hle hkept

/-- A run that no bound has stopped so far has been the same run under bounds
that allow more. Stopping is final, so no earlier run was stopped either. -/
theorem trace_eq_of_not_cutOff (hle : limits ≤ limits') {k : Nat}
    (hkept : ¬ ((machine g limits).trace origin input k).CutOff) :
    (machine g limits').trace origin input k = (machine g limits).trace origin input k := by
  induction k with
  | zero => exact settle_eq_of_not_cutOff hle hkept
  | succ k ih =>
    change ¬ (step g limits ((machine g limits).trace origin input k)).CutOff at hkept
    have hbefore : ¬ ((machine g limits).trace origin input k).CutOff := by
      intro hcut
      rw [step_of_isFinished hcut.isFinished] at hkept
      exact hkept hcut
    change step g limits' ((machine g limits').trace origin input k) =
      step g limits ((machine g limits).trace origin input k)
    rw [ih hbefore, step_eq_of_not_cutOff hle hkept]

/-- If no bound stopped the run at its end, none stopped it anywhere. -/
theorem not_cutOff_trace
    (hkept : ¬ ((machine g limits).complete ((machine g limits).start origin input)).CutOff)
    (k : Nat) : ¬ ((machine g limits).trace origin input k).CutOff := by
  intro hcut
  rw [← (lawful_machine g limits).repeat_step_eq_complete hcut.isFinished] at hkept
  exact hkept hcut

/-- A run that ends without being cut off ends the same way under wider
bounds. -/
theorem complete_eq_of_not_cutOff (hle : limits ≤ limits')
    (hkept : ¬ ((machine g limits).complete ((machine g limits).start origin input)).CutOff) :
    (machine g limits').complete ((machine g limits').start origin input) =
      (machine g limits).complete ((machine g limits).start origin input) := by
  refine (lawful_machine g limits).complete_eq_of_trace_eq (f := id) (lawful_machine g limits')
    (fun _ => rfl) fun k => ?_
  exact trace_eq_of_not_cutOff hle (not_cutOff_trace hkept k)

/-- An input whose run is not cut off has the same verdict under wider
bounds. -/
theorem acceptsFrom_eq_of_not_cutOff (hle : limits ≤ limits')
    (hkept : ¬ ((machine g limits).complete ((machine g limits).start origin input)).CutOff) :
    (machine g limits').acceptsFrom origin input = (machine g limits).acceptsFrom origin input := by
  rw [Machine.acceptsFrom, Machine.acceptsFrom, complete_eq_of_not_cutOff hle hkept]

/-- Wider bounds accept whatever narrower ones accept, since a run that is cut
off rejects. -/
theorem acceptsFrom_mono (hle : limits ≤ limits')
    (haccepted : (machine g limits).acceptsFrom origin input = true) :
    (machine g limits').acceptsFrom origin input = true := by
  rw [acceptsFrom_iff] at haccepted ⊢
  exact haccepted.mono hle

end Pushdown

namespace Automaton

/-- Bounds on silent moves only cut runs off. A run that no bound stopped goes
through the same runs, step by step, under bounds that allow more, and ends with
the same verdict. What is accepted stays accepted, and a verdict can only differ
where the tighter bounds stopped the run. -/
theorem limits_only_cut_off (g : Graph) {origin : StateId} (hstart : g.soleStart = .ok origin)
    {limits limits' : Limits} (hle : limits ≤ limits') (input : List Char) :
    ∃ (run run' : Nat → Run Configuration) (last last' : Run Configuration)
      (verdict verdict' : Bool),
      (pda g limits).RunsThrough input (fun k => .stack (run k)) ∧
      (pda g limits').RunsThrough input (fun k => .stack (run' k)) ∧
      (pda g limits).complete (.stack (run 0)) = .ok (.stack last) ∧
      (pda g limits').complete (.stack (run' 0)) = .ok (.stack last') ∧
      (pda g limits).accepts input = .ok verdict ∧ (pda g limits').accepts input = .ok verdict' ∧
      (¬ last.CutOff → (∀ k, run' k = run k) ∧ last' = last ∧ verdict' = verdict) ∧
      (verdict = true → verdict' = true) ∧ (verdict' ≠ verdict → last.CutOff) := by
  refine ⟨_, _, _, _, _, _, (drivenBy_pda g limits).runsThrough hstart input,
    (drivenBy_pda g limits').runsThrough hstart input,
    (drivenBy_pda g limits).complete_eq (Pushdown.lawful_machine g limits) _,
    (drivenBy_pda g limits').complete_eq (Pushdown.lawful_machine g limits') _,
    accepts_of_soleStart (a := .pda g limits) hstart input,
    accepts_of_soleStart (a := .pda g limits') hstart input, fun hkept => ?_,
    Pushdown.acceptsFrom_mono hle, fun hdiffer => ?_⟩
  · exact ⟨fun k => Pushdown.trace_eq_of_not_cutOff hle (Pushdown.not_cutOff_trace hkept k),
      Pushdown.complete_eq_of_not_cutOff hle hkept,
      Pushdown.acceptsFrom_eq_of_not_cutOff hle hkept⟩
  · by_contra hkept
    exact hdiffer (Pushdown.acceptsFrom_eq_of_not_cutOff hle hkept)

/-- A pass that just keeps to the tighter bounds: it takes all the moves and all
the room that they allow. -/
theorem limits_only_cut_off_of_emptying :
    let g : Graph :=
      { states := [{ id := 0, isStart := true }, { id := 1, isAccepting := true }]
        transitions := [
          .pushdown 0 1 epsilon none ['X'],
          .pushdown 1 1 epsilon (some 'X') [],
          .pushdown 1 0 'a' (some '#') ['#']] }
    let limits : Limits := { epsilonIterations := 2, stackGrowth := 1 }
    let limits' : Limits := { epsilonIterations := 2, stackGrowth := 5 }
    g.soleStart = .ok 0 ∧ limits ≤ limits' ∧
      ∃ (run run' : Nat → Run Configuration) (last last' : Run Configuration)
        (verdict verdict' : Bool),
        (pda g limits).RunsThrough ['a'] (fun k => .stack (run k)) ∧
        (pda g limits').RunsThrough ['a'] (fun k => .stack (run' k)) ∧
        (pda g limits).complete (.stack (run 0)) = .ok (.stack last) ∧
        (pda g limits').complete (.stack (run' 0)) = .ok (.stack last') ∧
        (pda g limits).accepts ['a'] = .ok verdict ∧
        (pda g limits').accepts ['a'] = .ok verdict' ∧
        (¬ last.CutOff → (∀ k, run' k = run k) ∧ last' = last ∧ verdict' = verdict) ∧
        (verdict = true → verdict' = true) ∧ (verdict' ≠ verdict → last.CutOff) :=
  ⟨rfl, by decide, limits_only_cut_off _ rfl (by decide) _⟩

end Automaton

end Automata
