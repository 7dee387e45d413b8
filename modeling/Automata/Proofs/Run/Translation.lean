import Automata.Proofs.Run.Trace

namespace Automata

namespace Machine

variable {C D : Type} {m : Machine C} {n : Machine D} {f : Run C → Run D}

/-- What the map makes of a run is begun and continued by the second machine as
the run is by the first. The map keeps what is decided. -/
structure Translates (m : Machine C) (n : Machine D) (f : Run C → Run D) : Prop where
  start : ∀ origin input, n.start origin input = f (m.start origin input)
  step : ∀ r, n.step (f r) = f (m.step r)
  isFinished : ∀ r, (f r).isFinished = r.isFinished
  verdict : ∀ r, (f r).verdict = r.verdict

namespace Translates

/-- A translation takes the trace of one machine to that of the other. -/
theorem trace_eq (hf : m.Translates n f) (origin : StateId) (input : List Char) (k : Nat) :
    n.trace origin input k = f (m.trace origin input k) := by
  induction k with
  | zero => exact hf.start origin input
  | succ k ih =>
    change n.step (n.trace origin input k) = f (m.step (m.trace origin input k))
    rw [ih, hf.step]

/-- Both machines accept the same inputs. -/
theorem acceptsFrom_eq (hf : m.Translates n f) (hm : m.Lawful) (hn : n.Lawful) (origin : StateId)
    (input : List Char) : n.acceptsFrom origin input = m.acceptsFrom origin input := by
  have hcomplete := hm.complete_eq_of_trace_eq hn hf.isFinished (hf.trace_eq origin input)
  rw [acceptsFrom, acceptsFrom, hcomplete, hf.verdict]

end Translates

end Machine

end Automata
