import Automata.Run.Pushdown
import Mathlib.Data.List.Basic

namespace Automata

namespace Pushdown

variable {g : Graph} {c c' : Configuration} {symbol : Char} {t : Transition}

/-- A move takes a symbol off the stack only if it demands one, and then that
very symbol. What it pushes ends up above the rest, the first symbol on top. -/
inductive Fires (t : Transition) : Configuration → Configuration → Prop where
  | pop {demanded : Char} {stack : List Char} (hpop : t.pop = some demanded) :
    Fires t ⟨t.source, demanded :: stack⟩ ⟨t.target, t.push ++ stack⟩
  | keep {stack : List Char} (hpop : t.pop = none) :
    Fires t ⟨t.source, stack⟩ ⟨t.target, t.push ++ stack⟩

/-- A move on a symbol that can be taken from a configuration. -/
def Enabled (c : Configuration) (symbol : Char) (t : Transition) : Prop :=
  t.symbol = symbol ∧ ∃ c', Fires t c c'

/-- The move taken on a symbol: the first in the list of those that demand a
symbol on the stack, or if none of these is enabled, the first of the others. -/
inductive Chooses (g : Graph) (c : Configuration) (symbol : Char) : Transition → Prop where
  | demanding {before after : List Transition} {t : Transition}
    (hlist : g.transitions = before ++ t :: after) (henabled : Enabled c symbol t)
    (hdemands : t.pop ≠ none) (hfirst : ∀ u ∈ before, Enabled c symbol u → u.pop = none) :
    Chooses g c symbol t
  | undemanding {before after : List Transition} {t : Transition}
    (hlist : g.transitions = before ++ t :: after) (henabled : Enabled c symbol t)
    (hothers : ∀ u ∈ g.transitions, Enabled c symbol u → u.pop = none)
    (hfirst : ∀ u ∈ before, ¬ Enabled c symbol u) : Chooses g c symbol t

/-- Making a move has one result only. -/
theorem Fires.eq_fire (hfires : Fires t c c') : c' = c.fire t := by
  cases hfires with
  | pop hpop => simp [Configuration.fire, hpop]
  | keep hpop => simp [Configuration.fire, hpop]

/-- A move can be made from its source whenever it can fire. -/
theorem exists_fires_iff : (∃ c', Fires t c c') ↔ t.source = c.state ∧ c.canFire t = true := by
  obtain ⟨state, stack⟩ := c
  constructor
  · rintro ⟨c', hfires⟩
    cases hfires with
    | pop hpop => simp [Configuration.canFire, Configuration.top?, hpop]
    | keep hpop => simp [Configuration.canFire, hpop]
  · rintro ⟨rfl, hcan⟩
    cases hpop : t.pop with
    | none => exact ⟨_, .keep hpop⟩
    | some demanded =>
      rw [Configuration.canFire, hpop] at hcan
      have htop : stack.head? = some demanded := of_decide_eq_true hcan
      obtain ⟨rest, rfl⟩ := List.head?_eq_some_iff.1 htop
      exact ⟨_, .pop hpop⟩

theorem Enabled.fires (henabled : Enabled c symbol t) : Fires t c (c.fire t) := by
  obtain ⟨_, c', hfires⟩ := henabled
  rwa [hfires.eq_fire] at hfires

/-- A move is enabled at its source, on its symbol, when it can fire. -/
theorem enabled_iff :
    Enabled c symbol t ↔ t.source = c.state ∧ t.symbol = symbol ∧ c.canFire t = true := by
  rw [Enabled, exists_fires_iff]
  exact and_left_comm

instance : Decidable (Enabled c symbol t) := decidable_of_iff _ enabled_iff.symm

theorem fires_iff :
    Fires t c c' ↔ t.source = c.state ∧ c.canFire t = true ∧ c' = c.fire t := by
  constructor
  · intro hfires
    obtain ⟨hsource, hcan⟩ := exists_fires_iff.1 ⟨c', hfires⟩
    exact ⟨hsource, hcan, hfires.eq_fire⟩
  · rintro ⟨hsource, hcan, rfl⟩
    obtain ⟨c', hfires⟩ := exists_fires_iff.2 ⟨hsource, hcan⟩
    rwa [hfires.eq_fire] at hfires

/-- The height that is foretold for the stack is the one it gets. -/
theorem heightAfter_eq (c : Configuration) (t : Transition) :
    c.heightAfter t = (c.fire t).stack.length := by
  rw [Configuration.heightAfter, Configuration.fire]
  split <;> simp <;> omega

/-- A move that pops is preferred to one that does not, and otherwise the first
in the list is taken. -/
theorem select_eq (g : Graph) (c : Configuration) (symbol : Char) :
    c.select g symbol =
      (g.transitions.find? fun t => Enabled c symbol t && t.pop.isSome).or
        (g.transitions.find? fun t => Enabled c symbol t) := by
  have hpossible : ((g.movesFrom c.state).filter fun t => t.symbol = symbol && c.canFire t) =
      g.transitions.filter fun t => Enabled c symbol t := by
    rw [Graph.movesFrom, List.filter_filter]
    congr 1
    funext t
    simp only [enabled_iff, Bool.decide_and, Bool.decide_eq_true]
    exact Bool.and_comm _ _
  rw [Configuration.select, hpossible, List.find?_filter, List.head?_filter]
  simp only [Bool.decide_and, Bool.decide_eq_true]

/-- Nothing is selected exactly if no move is enabled. -/
theorem select_eq_none_iff :
    c.select g symbol = none ↔ ∀ t ∈ g.transitions, ¬ Enabled c symbol t := by
  rw [select_eq, Option.or_eq_none_iff]
  simp only [List.find?_eq_none, Bool.and_eq_true, decide_eq_true_eq, not_and]
  exact and_iff_right_of_imp fun hnone t ht henabled => absurd henabled (hnone t ht)

/-- The selected move is the one to be chosen. -/
theorem select_eq_some_iff : c.select g symbol = some t ↔ Chooses g c symbol t := by
  rw [select_eq, Option.or_eq_some_iff]
  simp only [List.find?_eq_some_iff_append, List.find?_eq_none, Bool.and_eq_true,
    decide_eq_true_eq, Option.isSome_iff_ne_none]
  constructor
  · rintro (⟨⟨henabled, hdemands⟩, before, after, hlist, hfirst⟩ |
      ⟨hothers, henabled, before, after, hlist, hfirst⟩)
    · refine .demanding hlist henabled hdemands fun u hu hother => ?_
      simpa [hother] using hfirst u hu
    · refine .undemanding hlist henabled (fun u hu hother => ?_) fun u hu => ?_
      · simpa [hother] using hothers u hu
      · simpa using hfirst u hu
  · intro hchooses
    cases hchooses with
    | demanding hlist henabled hdemands hfirst =>
      refine .inl ⟨⟨henabled, hdemands⟩, _, _, hlist, fun u hu => ?_⟩
      by_cases hother : Enabled c symbol u
      · simp [hfirst u hu hother]
      · simp [hother]
    | undemanding hlist henabled hothers hfirst =>
      refine .inr ⟨fun u hu hboth => hboth.2 (hothers u hu hboth.1), henabled, _, _, hlist,
        fun u hu => ?_⟩
      simpa using hfirst u hu

theorem Chooses.enabled (hchooses : Chooses g c symbol t) : Enabled c symbol t := by
  cases hchooses <;> assumption

theorem Chooses.mem (hchooses : Chooses g c symbol t) : t ∈ g.transitions := by
  cases hchooses with
  | demanding hlist => simp [hlist]
  | undemanding hlist => simp [hlist]

/-- At most one move is chosen. -/
theorem Chooses.unique {u : Transition} (ht : Chooses g c symbol t)
    (hu : Chooses g c symbol u) : t = u := by
  rw [← select_eq_some_iff] at ht hu
  exact Option.some.inj (ht.symm.trans hu)

/-- If some move is enabled, one is chosen. -/
theorem Chooses.exists_of_enabled (ht : t ∈ g.transitions)
    (henabled : Enabled c symbol t) : ∃ u, Chooses g c symbol u := by
  cases hselect : c.select g symbol with
  | none => exact absurd henabled (select_eq_none_iff.1 hselect t ht)
  | some u => exact ⟨u, select_eq_some_iff.1 hselect⟩

end Pushdown

namespace Transition

open Automata.Pushdown (Fires fires_iff)

/-- Two moves that no run tells apart: they read the same, and lead from the same
configurations to the same. -/
def ActsAlike (t u : Transition) : Prop :=
  t.symbol = u.symbol ∧ ∀ c c', Fires t c c' ↔ Fires u c c'

variable {t u : Transition}

theorem ActsAlike.symm (hsame : t.ActsAlike u) : u.ActsAlike t :=
  ⟨hsame.1.symm, fun c c' => (hsame.2 c c').symm⟩

/-- On an empty stack only a move that demands nothing is possible. -/
theorem ActsAlike.pop_eq_none (hsame : t.ActsAlike u) (hpop : t.pop = none) : u.pop = none := by
  have hfires : Fires t ⟨t.source, []⟩ ((⟨t.source, []⟩ : Configuration).fire t) :=
    fires_iff.2 ⟨rfl, by rw [Configuration.canFire, hpop]; rfl, rfl⟩
  obtain ⟨_, hcan, _⟩ := fires_iff.1 ((hsame.2 _ _).1 hfires)
  cases hdemanded : u.pop with
  | none => rfl
  | some symbol => simp [Configuration.canFire, Configuration.top?, hdemanded] at hcan

/-- Moves that act alike are the same move. What a move does to a stack of just
the symbol it demands says all about it. -/
theorem actsAlike_iff_eq : t.ActsAlike u ↔ t = u := by
  refine ⟨fun hsame => ?_, fun heq => heq ▸ ⟨rfl, fun _ _ => .rfl⟩⟩
  let c : Configuration := ⟨t.source, t.pop.toList⟩
  have hcan : c.canFire t = true := by
    cases hpop : t.pop <;> simp [c, Configuration.canFire, Configuration.top?, hpop]
  obtain ⟨hsource, hcan', hfire⟩ := fires_iff.1 ((hsame.2 c _).1 (fires_iff.2 ⟨rfl, hcan, rfl⟩))
  have hpop : t.pop = u.pop := by
    cases hdemanded : u.pop with
    | none => exact hsame.symm.pop_eq_none hdemanded
    | some symbol =>
      have htop : t.pop.toList.head? = some symbol := by
        simpa [c, Configuration.canFire, Configuration.top?, hdemanded] using hcan'
      cases hpop : t.pop with
      | none => simp [hpop] at htop
      | some demanded => simpa [hpop] using htop
  have hends : t.source = u.source ∧ t.target = u.target :=
    ⟨hsource.symm, congrArg Configuration.state hfire⟩
  have hpush : t.push = u.push := by
    have hstack := congrArg Configuration.stack hfire
    simpa only [Configuration.fire, hpop, List.append_left_inj] using hstack
  refine key_injective ?_
  rw [key, key, hends.1, hends.2, hsame.1, hpop, hpush]

end Transition

end Automata
