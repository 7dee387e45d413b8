import Automata.Proofs.Pushdown.Computation
import Mathlib.Order.Bounds.Defs

namespace Automata

namespace Pushdown

variable {g : Graph} {limits : Limits} {next : Option Char} {c d e : Configuration} {i n : Nat}
  {t : Transition} {stop : Option Limit}

/-- A number of silent moves, each of them the one to be chosen, leads from one
configuration to another. Whether the next symbol could be read is not asked. -/
inductive Silently (g : Graph) (c : Configuration) : Nat → Configuration → Prop where
  | refl : Silently g c 0 c
  | step {i : Nat} {d e : Configuration} {t : Transition} (hbefore : Silently g c i d)
    (hchooses : Chooses g d epsilon t) (hfires : Fires t d e) : Silently g c (i + 1) e

/-- No silent move is taken: some move reads the next symbol, or no silent move is
possible. -/
def Blocked (g : Graph) (next : Option Char) (c : Configuration) : Prop :=
  (∃ symbol ∈ next, ∃ t ∈ g.transitions, Enabled c symbol t) ∨
    ∀ t ∈ g.transitions, ¬ Enabled c epsilon t

/-- The reasons to stop in a configuration that is reached after a number of
silent moves, with the bound that is reported. -/
inductive Stops (g : Graph) (limits : Limits) (next : Option Char) (c : Configuration) (n : Nat) :
    Option Limit → Prop where
  | blocked (hblocked : Blocked g next c) : Stops g limits next c n none
  | exhausted (hfree : ¬ Blocked g next c) (hlast : n = limits.epsilonIterations) :
    Stops g limits next c n (some .epsilonIterations)
  | tooHigh {t : Transition} {d : Configuration} (hfree : ¬ Blocked g next c)
    (hmore : n ≠ limits.epsilonIterations) (hchooses : Chooses g c epsilon t)
    (hfires : Fires t c d) (hheight : limits.stackGrowth + 1 < d.stack.length) :
    Stops g limits next c n (some .stackGrowth)

/-- A pass of silent moves in a run, with the bound that stopped it. -/
def close (g : Graph) (limits : Limits) (r : Run Configuration) :
    Run Configuration × Option Limit :=
  let (c, stop) := closingPass g limits r.symbol? r.current
  ({ r with current := c }, stop)

/-- Settling a run is a pass, and then a look at how it ended. -/
theorem settle_eq_close (g : Graph) (limits : Limits) (r : Run Configuration) :
    settle g limits r = match close g limits r with
      | (closed, some limit) => closed.finish (.limitExceeded limit) false
      | (closed, none) =>
        if closed.atEnd then closed.finish .endOfInput (closed.current.isAccepting g)
        else closed := by
  rw [close, closingPass, settle]
  generalize pass g r.symbol? (limits.stackGrowth + 1) limits.epsilonIterations r.current = passed
  obtain ⟨c, _ | limit⟩ := passed
  · rfl
  · rfl

namespace Silently

/-- A number of silent moves leads to one configuration only. -/
theorem unique (hd : Silently g c i d) (he : Silently g c i e) : d = e := by
  induction hd generalizing e with
  | refl =>
    cases he
    rfl
  | step _ hchooses hfires ih =>
    cases he with
    | step hbefore hchooses' hfires' =>
      obtain rfl := ih hbefore
      obtain rfl := hchooses.unique hchooses'
      rw [hfires.eq_fire, hfires'.eq_fire]

/-- A silent move more at the beginning. -/
theorem cons (hchooses : Chooses g c epsilon t) (hfires : Fires t c d) (hrest : Silently g d i e) :
    Silently g c (i + 1) e := by
  induction hrest with
  | refl => exact .step .refl hchooses hfires
  | step _ hchooses' hfires' ih => exact .step ih hchooses' hfires'

end Silently

/-- A configuration is blocked exactly if it makes no silent move. -/
theorem blocked_iff : Blocked g next c ↔ silentMove g next c = none := by
  rw [Option.eq_none_iff_forall_ne_some]
  simp only [ne_eq, silentMove_eq_some_iff, not_and]
  constructor
  · rintro (⟨symbol, hsymbol, t, ht, henabled⟩ | hnone) u hunread hchooses
    · exact hunread symbol hsymbol t ht henabled
    · exact hnone u hchooses.mem hchooses.enabled
  · intro hnone
    by_contra hfree
    simp only [Blocked, not_or, not_exists, not_and, not_forall, not_not] at hfree
    obtain ⟨hunread, t, ht, henabled⟩ := hfree
    obtain ⟨u, hchooses⟩ := Chooses.exists_of_enabled ht henabled
    exact hnone u hunread hchooses

/-- What a pass has to show for a configuration that it has come to: the silent
moves that led there, that there was no reason to stop before, and that the moves
kept to the bound on the stack. -/
structure ComesTo (g : Graph) (limits : Limits) (next : Option Char) (c : Configuration) (i : Nat)
    (d : Configuration) : Prop where
  silently : Silently g c i d
  not_stops : ∀ j < i, ∀ e stop, Silently g c j e → ¬ Stops g limits next e j stop
  height_le : i = 0 ∨ d.stack.length ≤ limits.stackGrowth + 1

/-- A move for which there is no reason to stop is taken. -/
theorem ComesTo.fire (hd : ComesTo g limits next c i d) (hsilent : silentMove g next d = some t)
    (hmore : i ≠ limits.epsilonIterations) (hheight : ¬ limits.stackGrowth + 1 < d.heightAfter t) :
    ComesTo g limits next c (i + 1) (d.fire t) := by
  obtain ⟨hsilently, hbefore, _⟩ := hd
  have hchooses := (silentMove_eq_some_iff.1 hsilent).2
  rw [heightAfter_eq] at hheight
  refine ⟨.step hsilently hchooses hchooses.enabled.fires, fun j hj e stop he hstops => ?_,
    .inr (Nat.le_of_not_lt hheight)⟩
  obtain hj | rfl := Nat.lt_or_eq_of_le (Nat.le_of_lt_succ hj)
  · exact hbefore j hj e stop he hstops
  · obtain rfl := hsilently.unique he
    cases hstops with
    | blocked hblocked =>
      rw [blocked_iff, hsilent] at hblocked
      cases hblocked
    | exhausted _ hlast => exact hmore hlast
    | tooHigh _ _ hother hfires hhigh =>
      obtain rfl := hchooses.unique hother
      rw [hfires.eq_fire] at hhigh
      exact hheight hhigh

/-- From wherever a pass has come to with some moves left to take, it goes on to
where there is a reason to stop. -/
theorem exists_stops_of_comesTo {budget : Nat} (hd : ComesTo g limits next c i d)
    (hbudget : i + budget = limits.epsilonIterations) :
    ∃ n e stop, pass g next (limits.stackGrowth + 1) budget d = (e, stop) ∧
      ComesTo g limits next c n e ∧ Stops g limits next e n stop ∧
      n ≤ limits.epsilonIterations := by
  have hfree {d : Configuration} {t : Transition} (hsilent : silentMove g next d = some t) :
      ¬ Blocked g next d := by
    rw [blocked_iff, hsilent]
    nofun
  fun_induction pass g next (limits.stackGrowth + 1) budget d generalizing i with
  | case1 budget d hsilent =>
    exact ⟨i, d, none, rfl, hd, .blocked (blocked_iff.2 hsilent), by omega⟩
  | case2 d t hsilent =>
    -- a move is possible, but none is left to take
    exact ⟨i, d, _, rfl, hd, .exhausted (hfree hsilent) hbudget, by omega⟩
  | case3 d t budget hsilent hheight =>
    -- the next move would leave the stack too high
    have hmore : i ≠ limits.epsilonIterations := by omega
    have hchooses := (silentMove_eq_some_iff.1 hsilent).2
    rw [heightAfter_eq] at hheight
    exact ⟨i, d, _, rfl, hd,
      .tooHigh (hfree hsilent) hmore hchooses hchooses.enabled.fires hheight, by omega⟩
  | case4 d t budget hsilent hheight ih =>
    exact ih (hd.fire hsilent (by omega) hheight) (by omega)

/-- A bound on the height that no stack reaches may as well be lower. -/
theorem pass_min_of_heights_le {maxHeight top budget : Nat}
    (htop : ∀ i d e t, Silently g c i d → Chooses g d epsilon t → Fires t d e →
      e.stack.length ≤ top) :
    pass g next (min maxHeight top) budget c = pass g next maxHeight budget c := by
  fun_induction pass g next maxHeight budget c with
  | case1 budget c hsilent => exact pass_of_silentMove_eq_none hsilent budget
  | case2 c t hsilent => exact pass_zero hsilent
  | case3 c t budget hsilent hheight => rw [pass_succ hsilent, if_pos (by omega)]
  | case4 c t budget hsilent hheight ih =>
    have hchooses := (silentMove_eq_some_iff.1 hsilent).2
    have hfires := hchooses.enabled.fires
    have hlow := htop 0 c _ t .refl hchooses hfires
    rw [← heightAfter_eq] at hlow
    rw [pass_succ hsilent, if_neg (by omega)]
    exact ih fun i d e u hd => htop (i + 1) d e u (.cons hchooses hfires hd)

/-- A pass ends in the configuration that silent moves lead to first at which
there is a reason to stop, and reports the bound that was the reason, if one was.
It never takes more moves than it may, and unless it takes none it leaves the
stack within its bound, since the height that is foretold for a move is the height
that the move leads to. Nothing but the configuration changes in the run, and
settling the run is all that looks at how the pass ended. It makes no difference
to it if the bound on the height is cut down to what no stack exceeds. -/
theorem close_stops_first (g : Graph) (limits : Limits) (r : Run Configuration) :
    ∃ n d stop, close g limits r = ({ r with current := d }, stop) ∧
      Silently g r.current n d ∧ Stops g limits r.symbol? d n stop ∧
      IsLeast {i | ∃ e stop, Silently g r.current i e ∧ Stops g limits r.symbol? e i stop} n ∧
      n ≤ limits.epsilonIterations ∧
      ((n = 0 ∧ d = r.current) ∨ d.stack.length ≤ limits.stackGrowth + 1) ∧
      (∀ (c : Configuration) (t : Transition), c.heightAfter t = (c.fire t).stack.length) ∧
      settle g limits r = (match stop with
        | some limit =>
          ({ r with current := d } : Run Configuration).finish (.limitExceeded limit) false
        | none =>
          if r.atEnd then
            ({ r with current := d } : Run Configuration).finish .endOfInput (d.isAccepting g)
          else { r with current := d }) ∧
      ∀ top, (∀ i c c' t, Silently g r.current i c → Chooses g c epsilon t → Fires t c c' →
          c'.stack.length ≤ top) →
        pass g r.symbol? (min (limits.stackGrowth + 1) top) limits.epsilonIterations r.current =
          (d, stop) := by
  have hstart : ComesTo g limits r.symbol? r.current 0 r.current := ⟨.refl, nofun, .inl rfl⟩
  obtain ⟨n, d, stop, hpass, hcomes, hstops, hle⟩ :=
    exists_stops_of_comesTo hstart (Nat.zero_add limits.epsilonIterations)
  have hclose : close g limits r = ({ r with current := d }, stop) := by
    rw [close, closingPass, hpass]
  refine ⟨n, d, stop, hclose, hcomes.silently, hstops, ⟨⟨d, stop, hcomes.silently, hstops⟩, ?_⟩,
    hle, ?_, heightAfter_eq, ?_, fun top htop => ?_⟩
  · rintro i ⟨e, stop', he, hstops'⟩
    by_contra hless
    exact hcomes.not_stops i (Nat.lt_of_not_le hless) e stop' he hstops'
  · refine hcomes.height_le.imp_left ?_
    rintro rfl
    exact ⟨rfl, Silently.unique hcomes.silently .refl⟩
  · rw [settle_eq_close, hclose]
    cases stop <;> rfl
  · rw [pass_min_of_heights_le htop, hpass]

end Pushdown

end Automata
