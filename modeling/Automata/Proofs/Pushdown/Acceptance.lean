import Automata.Proofs.Acceptance
import Automata.Proofs.Pushdown.Computation
import Automata.Proofs.Run.Step

namespace Automata

/-- A part of a list that avoids one of its entries lies on one side of it. -/
theorem infix_append_cons_of_notMem {α : Type} {y : α} {l xs ys : List α} (hy : y ∉ l)
    (hpart : l <:+: xs ++ y :: ys) : l <:+: xs ∨ l <:+: ys := by
  have hbeginning {p : List α} (hp : y ∉ p) (hbegins : p <+: y :: ys) : p = [] := by
    obtain hnil | ⟨t, rfl, _⟩ := List.prefix_cons_iff.1 hbegins
    · exact hnil
    · exact absurd List.mem_cons_self hp
  obtain hleft | hright | ⟨p, q, rfl, hends, hbegins⟩ := List.infix_append_iff.1 hpart
  · exact .inl hleft
  · obtain hbegins | hright := List.infix_cons_iff.1 hright
    · rw [hbeginning hy hbegins]
      exact .inl (List.nil_infix)
    · exact .inr hright
  · rw [hbeginning (fun hq => hy (List.mem_append_right _ hq)) hbegins, List.append_nil]
    exact .inl hends.isInfix

namespace Pushdown

variable {g : Graph} {limits : Limits} {c d : Configuration} {rest : List Char}

/-- One move at a time and within the bounds on silent moves, the machine reads
its whole input and gets stuck in an accepting state with nothing but the marker
on the stack. -/
def AcceptsWithin (g : Graph) (limits : Limits) (c : Configuration) (rest : List Char) : Prop :=
  ∃ events last, Computes g c rest events last [] ∧ Stuck g last [] ∧
    g.isAccepting last.state = true ∧ last.stack = [bottomMarker] ∧ Within limits events

/-- A series of silent moves stays within the bounds if it is not too long and
no stack in it too high. -/
theorem within_series_iff {series : List Configuration} :
    Within limits (series.map .silent) ↔ series.length ≤ limits.epsilonIterations ∧
      ∀ d ∈ series, d.stack.length ≤ limits.stackGrowth + 1 := by
  constructor
  · intro hwithin
    exact ⟨hwithin.length_le series (List.infix_rfl),
      fun d hd => hwithin.height_le d (List.mem_map_of_mem hd)⟩
  · rintro ⟨hlength, hheights⟩
    refine ⟨fun shorter hpart => ?_, fun d hd => ?_⟩
    · have hle := hpart.length_le
      rw [List.length_map, List.length_map] at hle
      omega
    · obtain ⟨e, he, hsame⟩ := List.mem_map.1 hd
      cases hsame
      exact hheights d he

/-- Reading a symbol ends a series of silent moves, so the bounds hold before it
and after it independently. -/
theorem within_append_read_iff {series : List Configuration} {symbol : Char}
    {events : List Event} :
    Within limits (series.map .silent ++ .read symbol :: events) ↔
      Within limits (series.map .silent) ∧ Within limits events := by
  constructor
  · rintro ⟨hlength, hheights⟩
    refine ⟨⟨fun shorter hpart => ?_, fun d hd => ?_⟩, ⟨fun shorter hpart => ?_, fun d hd => ?_⟩⟩
    · exact hlength shorter (hpart.trans (List.prefix_append _ _).isInfix)
    · exact hheights d (List.mem_append_left _ hd)
    · have hafter : events <:+ series.map .silent ++ .read symbol :: events :=
        (List.suffix_cons _ _).trans (List.suffix_append _ _)
      exact hlength shorter (hpart.trans hafter.isInfix)
    · exact hheights d (List.mem_append_right _ (List.mem_cons_of_mem _ hd))
  · rintro ⟨hbefore, hafter⟩
    refine ⟨fun shorter hpart => ?_, fun d hd => ?_⟩
    · have hsilent : Event.read symbol ∉ shorter.map .silent := by simp
      obtain hpart | hpart := infix_append_cons_of_notMem hsilent hpart
      · exact hbefore.length_le shorter hpart
      · exact hafter.length_le shorter hpart
    · obtain hd | hd := List.mem_append.1 hd
      · exact hbefore.height_le d hd
      · exact hafter.height_le d ((List.mem_cons.1 hd).resolve_left nofun)

/-- Acceptance pass by pass: the silent moves end within the bounds, and then
either nothing is left to read and the machine accepts where it is, or a move
reads the next symbol and the machine accepts the rest. -/
theorem acceptsWithin_iff :
    AcceptsWithin g limits c rest ↔ ∃ d, closingPass g limits rest.head? c = (d, none) ∧
        ((rest = [] ∧ d.isAccepting g = true) ∨ ∃ symbol rest' t, rest = symbol :: rest' ∧
          d.select g symbol = some t ∧ AcceptsWithin g limits (d.fire t) rest') := by
  constructor
  · rintro ⟨events, last, hcomputes, hstuck, haccepting, hstack, hwithin⟩
    obtain ⟨series, d, hseries, hlater⟩ := hcomputes.exists_series
    obtain ⟨rfl, rfl, rfl⟩ | ⟨symbol, rest', t, events', rfl, hselect, rfl, hafter⟩ := hlater
    · obtain ⟨hlength, hheights⟩ := within_series_iff.1 hwithin
      have hpass := pass_of_series hseries hlength hheights (stuck_nil_iff.1 hstuck)
      exact ⟨d, hpass, .inl ⟨rfl, isAccepting_iff.2 ⟨haccepting, hstack⟩⟩⟩
    · obtain ⟨hbefore, hwithin⟩ := within_append_read_iff.1 hwithin
      obtain ⟨hlength, hheights⟩ := within_series_iff.1 hbefore
      -- where a symbol is read, no silent move is possible
      have hend : silentMove g (symbol :: rest').head? d = none := by
        simp [silentMove, hselect]
      exact ⟨d, pass_of_series hseries hlength hheights hend, .inr ⟨symbol, rest', t, rfl, hselect,
        events', last, hafter, hstuck, haccepting, hstack, hwithin⟩⟩
  · rintro ⟨d, hpass, ⟨rfl, haccepting⟩ | ⟨symbol, rest', t, rfl, hselect, haccepts⟩⟩
    · obtain ⟨hend, series, hcomputes, hbounds⟩ := exists_series_of_pass hpass
      obtain ⟨hstate, hstack⟩ := isAccepting_iff.1 haccepting
      exact ⟨_, d, hcomputes, stuck_nil_iff.2 hend, hstate, hstack, within_series_iff.2 hbounds⟩
    · obtain ⟨_, series, hcomputes, hbounds⟩ := exists_series_of_pass hpass
      obtain ⟨events, last, hafter, hstuck, hstate, hstack, hwithin⟩ := haccepts
      have hread : Moves g d (symbol :: rest') (.read symbol) (d.fire t) rest' :=
        moves_iff.2 (.inl ⟨symbol, t, rfl, hselect, rfl, rfl⟩)
      exact ⟨_, last, hcomputes.append (.step hread hafter), hstuck, hstate, hstack,
        within_append_read_iff.2 ⟨within_series_iff.2 hbounds, hwithin⟩⟩

/-- Nothing more to read is accepted where the closing pass ends in an accepting
configuration. -/
theorem acceptsWithin_nil_iff (hpass : closingPass g limits none c = (d, none)) :
    AcceptsWithin g limits c [] ↔ d.isAccepting g = true := by
  rw [acceptsWithin_iff, List.head?_nil, hpass]
  simp

/-- A symbol and what comes after it are accepted if the closing pass is
followed by a move that reads the symbol, and the rest is accepted from
there. -/
theorem acceptsWithin_cons_iff {symbol : Char}
    (hpass : closingPass g limits (some symbol) c = (d, none)) :
    AcceptsWithin g limits c (symbol :: rest) ↔
      ∃ t, d.select g symbol = some t ∧ AcceptsWithin g limits (d.fire t) rest := by
  rw [acceptsWithin_iff, List.head?_cons, hpass]
  simp

variable {r : Run Configuration}

theorem symbol?_eq_head? (r : Run Configuration) : r.symbol? = r.remaining.head? := by
  simp [Run.symbol?, Run.remaining]

/-- A closing pass that reaches a bound rejects, and nothing within the bounds
accepts. -/
theorem verdict_settle_iff_of_limit {limit : Limit}
    (hpass : closingPass g limits r.symbol? r.current = (d, some limit)) :
    ((machine g limits).complete (settle g limits r)).verdict = some true ↔
      AcceptsWithin g limits r.current r.remaining := by
  rw [settle_of_limit hpass, (lawful_machine g limits).complete_of_isFinished rfl]
  refine iff_of_false nofun fun haccepts => ?_
  obtain ⟨e, hend, _⟩ := acceptsWithin_iff.1 haccepts
  rw [← symbol?_eq_head?, hpass] at hend
  cases hend

/-- A run that is about to settle accepts exactly if the machine does, one move
at a time, from where the run is. -/
theorem verdict_settle_iff (hopen : r.isFinished = false) :
    ((machine g limits).complete (settle g limits r)).verdict = some true ↔
      AcceptsWithin g limits r.current r.remaining := by
  have hlawful := lawful_machine g limits
  obtain ⟨rest, hrest⟩ : ∃ rest, r.remaining = rest := ⟨_, rfl⟩
  induction rest generalizing r with
  | nil =>
    have hsymbol : r.symbol? = none := by rw [symbol?_eq_head?, hrest, List.head?_nil]
    have hend := Run.symbol?_eq_none_iff.1 hsymbol
    obtain ⟨d, limit?, hpass⟩ : ∃ d limit?,
      closingPass g limits r.symbol? r.current = (d, limit?) := ⟨_, _, rfl⟩
    cases limit? with
    | some limit => exact verdict_settle_iff_of_limit hpass
    | none =>
      rw [settle_of_atEnd hpass hend, hlawful.complete_of_isFinished rfl, hrest,
        acceptsWithin_nil_iff (hsymbol ▸ hpass)]
      exact Option.some_inj
  | cons symbol rest ih =>
    have hsymbol : r.symbol? = some symbol := by rw [symbol?_eq_head?, hrest, List.head?_cons]
    have hmore : r.atEnd = false := by
      rw [← Bool.not_eq_true, ← Run.symbol?_eq_none_iff, hsymbol]
      nofun
    obtain ⟨d, limit?, hpass⟩ : ∃ d limit?,
      closingPass g limits r.symbol? r.current = (d, limit?) := ⟨_, _, rfl⟩
    cases limit? with
    | some limit => exact verdict_settle_iff_of_limit hpass
    | none =>
      let settled : Run Configuration := { r with current := d }
      have hstep : (machine g limits).step settled = (d.select g symbol).elim
          (settled.finish .noTransition false)
          fun t => settle g limits (settled.advance (d.fire t)) :=
        step_of_symbol?_eq_some (r := settled) hopen hsymbol
      rw [settle_of_not_atEnd hpass hmore, hrest, acceptsWithin_cons_iff (hsymbol ▸ hpass),
        ← hlawful.complete_step, hstep]
      cases d.select g symbol with
      | none =>
        rw [Option.elim_none, hlawful.complete_of_isFinished rfl]
        exact iff_of_false nofun nofun
      | some t =>
        have hafter : (settled.advance (d.fire t)).remaining = rest := by
          have hdrop := congrArg List.tail hrest
          simpa [Run.remaining, Run.advance] using hdrop
        have hnext := ih (r := settled.advance (d.fire t)) hopen hafter
        rw [hafter] at hnext
        rw [Option.elim_some]
        refine hnext.trans ⟨fun haccepts => ⟨t, rfl, haccepts⟩, ?_⟩
        rintro ⟨_, hsame, haccepts⟩
        cases hsame
        exact haccepts

/-- The machine accepts exactly what is accepted within the bounds. -/
theorem acceptsFrom_iff (g : Graph) (limits : Limits) (origin : StateId) (input : List Char) :
    (machine g limits).acceptsFrom origin input = true ↔
      AcceptsWithin g limits (.initial origin) input := by
  have hverdict :
      ((machine g limits).complete ((machine g limits).start origin input)).verdict = some true ↔
        AcceptsWithin g limits (.initial origin) input :=
    verdict_settle_iff (r := { input := input, current := .initial origin }) rfl
  rw [Machine.acceptsFrom, ← hverdict, Option.getD_eq_iff]
  simp

end Pushdown

/-- A pushdown automaton accepts exactly the inputs that the machine accepts that
takes one move at a time: it reads the next symbol if a move reads it and takes
a silent move otherwise, until no move is possible. A series of silent moves
that is longer than the bound rejects, and so does a silent move that leaves the
stack higher above its marker than the bound. Nothing is asked of the input: an
epsilon in it is a symbol that silent moves happen to read. -/
theorem Automaton.pda_accepts_iff_computes (g : Graph) {origin : StateId}
    (hstart : g.soleStart = .ok origin) (limits : Limits) (input : List Char) :
    ∃ verdict, (Automaton.pda g limits).accepts input = .ok verdict ∧
      (verdict = true ↔ ∃ events last,
        Pushdown.Computes g ⟨origin, [bottomMarker]⟩ input events last [] ∧
        Pushdown.Stuck g last [] ∧ g.isAccepting last.state = true ∧
        last.stack = [bottomMarker] ∧ Pushdown.Within limits events) :=
  ⟨_, accepts_of_soleStart (a := .pda g limits) hstart input,
    Pushdown.acceptsFrom_iff g limits origin input⟩

/-- A machine that prefers a move that demands a symbol on the stack, and that
empties its stack by silent moves once the input is read. -/
theorem Automaton.pda_accepts_iff_computes_of_emptying :
    let g : Graph :=
      { states := [{ id := 0, isStart := true }, { id := 1, isAccepting := true }]
        transitions := [
          .pushdown 0 0 'a' none ['X'],
          .pushdown 0 1 'a' (some 'X') ['X', 'X'],
          .pushdown 1 1 epsilon (some 'X') []] }
    let limits : Limits := { epsilonIterations := 2, stackGrowth := 1 }
    g.soleStart = .ok 0 ∧
      ∃ verdict, (Automaton.pda g limits).accepts ['a', 'a'] = .ok verdict ∧
        (verdict = true ↔ ∃ events last,
          Pushdown.Computes g ⟨0, [bottomMarker]⟩ ['a', 'a'] events last [] ∧
          Pushdown.Stuck g last [] ∧ g.isAccepting last.state = true ∧
          last.stack = [bottomMarker] ∧ Pushdown.Within limits events) :=
  ⟨rfl, pda_accepts_iff_computes _ rfl _ _⟩

end Automata
