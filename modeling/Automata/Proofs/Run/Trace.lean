import Automata.Proofs.Run.Step
import Mathlib.Data.Nat.Find

namespace Automata

namespace Run

variable {C : Type} {r s : Run C}

/-- What holds of a run and all that it came from: there is a configuration for
every symbol that was read, and as long as the run is not finished nothing is
decided and something is left to read. -/
structure Traced (r : Run C) : Prop where
  length_history : r.history.length = r.position
  undecided : r.isFinished = false → r.halt = none ∧ r.verdict = none ∧ r.atEnd = false

/-- A run is stuck exactly if it stopped for want of a move. -/
theorem isStuck_iff : r.isStuck = true ↔ r.halt = some .noTransition := by
  cases hhalt : r.halt with
  | none => simp [isStuck, hhalt]
  | some halt => cases halt <;> simp [isStuck, hhalt, Halt.advanced]

theorem isStuck_finish {halt : Halt} (hadvanced : halt.advanced = true) (verdict : Bool) :
    (r.finish halt verdict).isStuck = false := by
  simp [isStuck, finish, hadvanced]

/-- The beginning of a run has nothing to trace back. -/
theorem Begins.traced {input : List Char} (hr : Begins input r) : r.Traced := by
  cases hr with
  | decided current _ verdict => exact ⟨rfl, nofun⟩
  | opened current hmore => exact ⟨rfl, fun _ => ⟨rfl, rfl, by simpa [atEnd] using hmore⟩⟩

/-- At the start there is no step to undo, finished or not. -/
theorem Begins.stepBack_eq {input : List Char} (hr : Begins input r) : r.stepBack = r := by
  cases hr with
  | decided current hadvanced verdict =>
    rw [stepBack, isStuck_finish hadvanced]
    rfl
  | opened current hmore => rfl

/-- A step adds one configuration to the history, or none if it is stuck. -/
theorem StepsTo.traced (hr : r.Traced) (hopen : r.isFinished = false) (hstep : r.StepsTo s) :
    s.Traced := by
  obtain ⟨hhalt, hverdict, _⟩ := hr.undecided hopen
  cases hstep with
  | stuck _ => exact ⟨hr.length_history, nofun⟩
  | stops _ next _ verdict => exact ⟨congrArg (· + 1) hr.length_history, nofun⟩
  | goesOn _ next hmore =>
    exact ⟨congrArg (· + 1) hr.length_history, fun _ => ⟨hhalt, hverdict, hmore⟩⟩
  | decided _ last _ verdict => exact ⟨hr.length_history, nofun⟩

/-- Stepping back undoes a step completely. -/
theorem StepsTo.stepBack_eq (hr : r.Traced) (hopen : r.isFinished = false) (hstep : r.StepsTo s) :
    s.stepBack = r := by
  obtain ⟨hhalt, hverdict, hmore⟩ := hr.undecided hopen
  obtain ⟨input, position, verdict, halt, current, history⟩ := r
  obtain rfl : halt = none := hhalt
  obtain rfl : verdict = none := hverdict
  cases hstep with
  | stuck _ => rfl
  | stops _ next hadvanced verdict =>
    rw [stepBack, isStuck_finish hadvanced]
    rfl
  | goesOn _ next _ => rfl
  | decided hend _ _ _ =>
    rw [hend] at hmore
    cases hmore

/-- How many steps led to a run: one for every symbol that was read, and one if
the next symbol could not be read. -/
def stepsTaken (r : Run C) : Nat := if r.isStuck then r.position + 1 else r.position

/-- No step has been taken at the beginning. -/
theorem Begins.stepsTaken_eq {input : List Char} (hr : Begins input r) : r.stepsTaken = 0 := by
  cases hr with
  | decided current hadvanced verdict =>
    rw [stepsTaken, isStuck_finish hadvanced]
    rfl
  | opened current hmore => rfl

/-- Each step counts as one, whether or not it read a symbol. -/
theorem StepsTo.stepsTaken_eq (hr : r.Traced) (hopen : r.isFinished = false)
    (hstep : r.StepsTo s) : s.stepsTaken = r.stepsTaken + 1 := by
  obtain ⟨hhalt, _, hmore⟩ := hr.undecided hopen
  have hunstuck : r.isStuck = false := by simp [isStuck, hhalt]
  have hbefore : r.stepsTaken = r.position := by simp [stepsTaken, hunstuck]
  rw [hbefore]
  cases hstep with
  | stuck _ => rfl
  | stops _ next hadvanced verdict =>
    rw [stepsTaken, isStuck_finish hadvanced]
    rfl
  | goesOn _ next _ =>
    have hafter : (r.advance next).isStuck = false := hunstuck
    rw [stepsTaken, hafter]
    rfl
  | decided hend _ _ _ =>
    rw [hend] at hmore
    cases hmore

end Run

namespace Machine

variable {C : Type} {m : Machine C} {origin : StateId} {input : List Char} {last : Nat}

/-- The run after a number of steps. -/
def trace (m : Machine C) (origin : StateId) (input : List Char) (k : Nat) : Run C :=
  Nat.repeat m.step k (m.start origin input)

/-- A number of steps is the least after which the run is finished. -/
structure EndsAt (m : Machine C) (origin : StateId) (input : List Char) (last : Nat) : Prop where
  finished : (m.trace origin input last).isFinished = true
  unfinished : ∀ k < last, (m.trace origin input k).isFinished = false

namespace Lawful

/-- There is a first time at which a run is finished, and it is at most one step
later than there are symbols left. -/
theorem exists_first_finished (hm : m.Lawful) (r : Run C) :
    ∃ n ≤ r.remaining.length + 1, (Nat.repeat m.step n r).isFinished = true ∧
      ∀ k < n, (Nat.repeat m.step k r).isFinished = false := by
  have hcomplete := hm.progresses.isFinished_complete r
  have hends : ∃ k, (Nat.repeat m.step k r).isFinished = true := ⟨_, hcomplete⟩
  refine ⟨Nat.find hends, Nat.find_le hcomplete, Nat.find_spec hends, fun k hk => ?_⟩
  simpa using Nat.find_min hends hk

/-- Every run ends. -/
theorem exists_endsAt (hm : m.Lawful) (origin : StateId) (input : List Char) :
    ∃ last, m.EndsAt origin input last := by
  obtain ⟨last, _, hfinished, hunfinished⟩ := hm.exists_first_finished (m.start origin input)
  exact ⟨last, hfinished, hunfinished⟩

/-- Behind its end the trace stays the same. -/
theorem trace_of_le (hm : m.Lawful) (hlast : m.EndsAt origin input last) {k : Nat}
    (hk : last ≤ k) : m.trace origin input k = m.trace origin input last :=
  hm.repeat_step_of_le hk hlast.finished

/-- Up to its end the trace goes on step by step. -/
theorem stepsTo_trace (hm : m.Lawful) (hlast : m.EndsAt origin input last) {k : Nat}
    (hk : k < last) : (m.trace origin input k).StepsTo (m.trace origin input (k + 1)) :=
  hm.stepsTo _ (hlast.unfinished k hk)

/-- The history of every run on a trace is what the trace passed through. -/
theorem traced_trace (hm : m.Lawful) (origin : StateId) (input : List Char) (k : Nat) :
    (m.trace origin input k).Traced := by
  induction k with
  | zero => exact (hm.begins origin input).traced
  | succ k ih =>
    cases hopen : (m.trace origin input k).isFinished with
    | true =>
      change (m.step (m.trace origin input k)).Traced
      rwa [hm.step_of_isFinished _ hopen]
    | false => exact (hm.stepsTo _ hopen).traced ih hopen

/-- Stepping back leads to the run before, on the same trace. -/
theorem stepBack_trace (hm : m.Lawful) (hlast : m.EndsAt origin input last) {k : Nat}
    (hk : k ≤ last) : (m.trace origin input k).stepBack = m.trace origin input (k - 1) := by
  cases k with
  | zero => exact (hm.begins origin input).stepBack_eq
  | succ k =>
    exact (hm.stepsTo_trace hlast hk).stepBack_eq (hm.traced_trace origin input k)
      (hlast.unfinished k hk)

/-- Several steps back lead as many runs back. -/
theorem repeat_stepBack_trace (hm : m.Lawful) (hlast : m.EndsAt origin input last) {k : Nat}
    (hk : k ≤ last) (j : Nat) :
    Nat.repeat Run.stepBack j (m.trace origin input k) = m.trace origin input (k - j) := by
  induction j with
  | zero => rfl
  | succ j ih =>
    rw [Nat.repeat, ih, hm.stepBack_trace hlast (by omega), Nat.sub_sub]

/-- The place of a run on its trace can be read off the run. -/
theorem stepsTaken_trace (hm : m.Lawful) (hlast : m.EndsAt origin input last) {k : Nat}
    (hk : k ≤ last) : (m.trace origin input k).stepsTaken = k := by
  induction k with
  | zero => exact (hm.begins origin input).stepsTaken_eq
  | succ k ih =>
    rw [(hm.stepsTo_trace hlast hk).stepsTaken_eq (hm.traced_trace origin input k)
      (hlast.unfinished k hk), ih (by omega)]

/-- A run that is not stuck can be taken back to any run that had read less. -/
theorem rewindTo_trace_of_unstuck (hm : m.Lawful) (hlast : m.EndsAt origin input last) {k : Nat}
    (hk : k ≤ last) (hunstuck : (m.trace origin input k).isStuck = false) (n : Nat) :
    (m.trace origin input k).position = k ∧
      (m.trace origin input k).rewindTo n = m.trace origin input (min n k) := by
  have hposition : (m.trace origin input k).position = k := by
    simpa [Run.stepsTaken, hunstuck] using hm.stepsTaken_trace hlast hk
  have hlength := (hm.traced_trace origin input k).length_history
  refine ⟨hposition, ?_⟩
  rw [Run.rewindTo, hunstuck, Bool.false_and, if_neg Bool.false_ne_true, hlength, hposition,
    Nat.min_eq_left (Nat.sub_le k n), hm.repeat_stepBack_trace hlast hk]
  congr 1
  omega

/-- A run that is stuck is taken back one step further, to the run before it
that had read as much. -/
theorem rewindTo_trace_of_stuck (hm : m.Lawful) (hlast : m.EndsAt origin input last) {k : Nat}
    (hk : k ≤ last) (hstuck : (m.trace origin input k).isStuck = true) (n : Nat) :
    (m.trace origin input k).position + 1 = k ∧
      (m.trace origin input k).rewindTo n = m.trace origin input (if n < k then n else k) := by
  have hposition : (m.trace origin input k).position + 1 = k := by
    simpa [Run.stepsTaken, hstuck] using hm.stepsTaken_trace hlast hk
  refine ⟨hposition, ?_⟩
  have hopen : (m.trace origin input (k - 1)).isStuck = false := by
    have hhalt := (hm.traced_trace origin input (k - 1)).undecided
      (hlast.unfinished (k - 1) (by omega))
    simp [Run.isStuck, hhalt.1]
  by_cases hn : n < k
  · obtain ⟨hbefore, hrewind⟩ :=
      hm.rewindTo_trace_of_unstuck hlast (k := k - 1) (by omega) hopen n
    rw [Run.rewindTo, hopen, Bool.false_and, if_neg Bool.false_ne_true] at hrewind
    have hwithin : decide (n ≤ (m.trace origin input k).position) = true :=
      decide_eq_true (by omega)
    rw [Run.rewindTo, hstuck, hwithin, Bool.true_and, if_pos rfl, hm.stepBack_trace hlast hk,
      hrewind, if_pos hn, Nat.min_eq_left (by omega)]
  · have hbeyond : decide (n ≤ (m.trace origin input k).position) = false :=
      decide_eq_false (by omega)
    rw [Run.rewindTo, hbeyond, Bool.and_false, if_neg Bool.false_ne_true,
      Nat.sub_eq_zero_of_le (by omega), Nat.zero_min, if_neg hn]
    rfl

/-- Rewinding leads to the run that had read as many symbols as are asked for,
unless there are not as many to give back. -/
theorem rewindTo_trace (hm : m.Lawful) (hlast : m.EndsAt origin input last) {k : Nat}
    (hk : k ≤ last) (n : Nat) :
    (m.trace origin input k).rewindTo n =
      if n < (m.trace origin input k).position ∨
          (n = (m.trace origin input k).position ∧
            (m.trace origin input k).halt = some .noTransition)
        then m.trace origin input n else m.trace origin input k := by
  simp only [← Run.isStuck_iff]
  cases hstuck : (m.trace origin input k).isStuck with
  | false =>
    obtain ⟨hposition, hrewind⟩ := hm.rewindTo_trace_of_unstuck hlast hk hstuck n
    rw [hrewind, hposition]
    by_cases hn : n < k
    · rw [if_pos (.inl hn), Nat.min_eq_left (Nat.le_of_lt hn)]
    · rw [if_neg (by simp [hn]), Nat.min_eq_right (Nat.le_of_not_lt hn)]
  | true =>
    obtain ⟨hposition, hrewind⟩ := hm.rewindTo_trace_of_stuck hlast hk hstuck n
    rw [hrewind]
    by_cases hn : n < k
    · have hwithin : n < (m.trace origin input k).position ∨
          n = (m.trace origin input k).position := by omega
      rw [if_pos hn, if_pos (hwithin.imp_right fun hsame => ⟨hsame, rfl⟩)]
    · have hbeyond : (m.trace origin input k).position < n := by omega
      rw [if_neg hn, if_neg (by simp [Nat.not_lt_of_lt hbeyond, Nat.ne_of_gt hbeyond])]

/-- Running to the end leads to the last run from wherever it starts. -/
theorem complete_trace (hm : m.Lawful) (hlast : m.EndsAt origin input last) (k : Nat) :
    m.complete (m.trace origin input k) = m.trace origin input last := by
  rw [trace, trace, hm.repeat_step_eq_complete hlast.finished]
  induction k with
  | zero => rfl
  | succ k ih => rw [Nat.repeat, hm.complete_step, ih]

/-- A step leads to the next run of the trace, up to the last. -/
theorem step_trace (hm : m.Lawful) (hlast : m.EndsAt origin input last) {k : Nat}
    (hk : k ≤ last) :
    m.step (m.trace origin input k) = m.trace origin input (min (k + 1) last) := by
  change m.trace origin input (k + 1) = _
  obtain hless | rfl := Nat.lt_or_eq_of_le hk
  · rw [Nat.min_eq_left hless]
  · rw [Nat.min_eq_right (Nat.le_succ k), hm.trace_of_le hlast (Nat.le_succ k)]

/-- Machines whose runs are the same up to a map complete them to runs that are
the same up to the map, if it keeps which runs are finished: both are finished
after the same number of steps. -/
theorem complete_eq_of_trace_eq {D : Type} {n : Machine D} {f : Run C → Run D} {origin' : StateId}
    (hm : m.Lawful) (hn : n.Lawful) (hfinished : ∀ r, (f r).isFinished = r.isFinished)
    (hsame : ∀ k, n.trace origin' input k = f (m.trace origin input k)) :
    n.complete (n.start origin' input) = f (m.complete (m.start origin input)) := by
  obtain ⟨last, hlast⟩ := hm.exists_endsAt origin input
  have hend : (n.trace origin' input last).isFinished = true := by
    rw [hsame, hfinished, hlast.finished]
  rw [← hn.repeat_step_eq_complete hend, ← hm.repeat_step_eq_complete hlast.finished]
  exact hsame last

end Lawful

end Machine

end Automata
