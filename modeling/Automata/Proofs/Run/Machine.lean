import Automata.Run.Machine

namespace Automata

/-- Repetitions add up. -/
theorem repeat_add {α : Type} (f : α → α) (a : α) (k j : Nat) :
    Nat.repeat f j (Nat.repeat f k a) = Nat.repeat f (k + j) a := by
  induction j with
  | zero => rfl
  | succ j ih => rw [Nat.repeat, ih]; rfl

namespace Run

variable {C : Type}

theorem isFinished_eq_false_iff {r : Run C} : r.isFinished = false ↔ r.halt = none := by
  simp [isFinished]

theorem symbol?_eq_none_iff {r : Run C} : r.symbol? = none ↔ r.atEnd = true := by
  simp [symbol?, atEnd]

/-- Reading a symbol moves it from the unread part of the input to the read
part. -/
theorem take_succ_of_symbol? {r : Run C} {c : Char} (hsymbol : r.symbol? = some c) :
    r.input.take (r.position + 1) = r.input.take r.position ++ [c] := by
  rw [List.take_add_one]
  simp only [symbol?] at hsymbol
  rw [hsymbol]
  rfl

theorem position_lt_of_symbol? {r : Run C} {c : Char} (hsymbol : r.symbol? = some c) :
    r.position < r.input.length := by
  simp only [symbol?] at hsymbol
  exact (List.getElem?_eq_some_iff.1 hsymbol).1

theorem length_remaining (r : Run C) : r.remaining.length = r.input.length - r.position := by
  simp [remaining]

/-- Reading a symbol leaves less to be read. -/
theorem length_remaining_advance_lt {r : Run C} {c : Char} (hsymbol : r.symbol? = some c)
    (next : C) : (r.advance next).remaining.length < r.remaining.length := by
  have hposition := position_lt_of_symbol? hsymbol
  simp only [length_remaining, advance]
  omega

end Run

namespace Machine

variable {C : Type}

/-- A finished run stays as it is, and a step of any other run stops it or
leaves less of the input unread. -/
structure Progresses (m : Machine C) : Prop where
  step_of_isFinished : ∀ r : Run C, r.isFinished = true → m.step r = r
  step_progress : ∀ r : Run C, r.isFinished = false →
    (m.step r).isFinished = true ∨ (m.step r).remaining.length < r.remaining.length

/-- After any number of steps a run is finished, or has read as many symbols. -/
theorem Progresses.repeat_step {m : Machine C} (hm : m.Progresses) (r : Run C) (k : Nat) :
    (Nat.repeat m.step k r).isFinished = true ∨
      (Nat.repeat m.step k r).remaining.length + k ≤ r.remaining.length := by
  induction k with
  | zero => exact .inr (Nat.le_refl _)
  | succ k ih =>
    rw [Nat.repeat]
    cases hfinished : (Nat.repeat m.step k r).isFinished with
    | true => exact .inl (by rw [hm.step_of_isFinished _ hfinished, hfinished])
    | false =>
      rw [hfinished] at ih
      obtain ih | ih := ih
      · cases ih
      · obtain hstop | hless := hm.step_progress _ hfinished
        · exact .inl hstop
        · exact .inr (by omega)

/-- Driving a run to its end ends it: the number of steps taken is enough. -/
theorem Progresses.isFinished_complete {m : Machine C} (hm : m.Progresses) (r : Run C) :
    (m.complete r).isFinished = true := by
  obtain hfinished | hless := hm.repeat_step r (r.remaining.length + 1)
  · exact hfinished
  · omega

/-- Two machines that are in step at first, and that a step keeps in step, are
in step all along. The relation may depend on the number of steps. -/
theorem repeat_step_related {D : Type} {m : Machine C} {n : Machine D}
    {R : Nat → Run C → Run D → Prop}
    (hstep : ∀ k r s, R k r s → R (k + 1) (m.step r) (n.step s))
    {r : Run C} {s : Run D} (hfirst : R 0 r s) (k : Nat) :
    R k (Nat.repeat m.step k r) (Nat.repeat n.step k s) := by
  induction k with
  | zero => exact hfirst
  | succ k ih => exact hstep k _ _ ih

/-- Machines that stay in step accept alike if runs that are in step have the
same verdict. -/
theorem acceptsFrom_eq_of_related {D : Type} {m : Machine C} {n : Machine D}
    {R : Nat → Run C → Run D → Prop}
    (hstep : ∀ k r s, R k r s → R (k + 1) (m.step r) (n.step s))
    (hverdict : ∀ k r s, R k r s → s.verdict = r.verdict)
    {p q : StateId} {input : List Char} (hfirst : R 0 (m.start p input) (n.start q input))
    (hremaining : (n.start q input).remaining.length = (m.start p input).remaining.length) :
    n.acceptsFrom q input = m.acceptsFrom p input := by
  have hlast := repeat_step_related hstep hfirst ((m.start p input).remaining.length + 1)
  have hagree := hverdict _ _ _ hlast
  simp only [acceptsFrom, complete, hremaining]
  rw [hagree]

end Machine

end Automata
