import Automata.Proofs.Run.ChoiceFree
import Automata.Proofs.Run.Frontier

namespace Automata

open Deterministic (destination outcome)

theorem mem_reachable_trans {moves : List Transition} {p q r : StateId}
    (hq : q ∈ reachable moves p) (hr : r ∈ reachable moves q) : r ∈ reachable moves p :=
  mem_reachable_iff.2 ((mem_reachable_iff.1 hq).trans (mem_reachable_iff.1 hr))

namespace Deterministic

variable {g : Graph} {p : StateId}

/-- A word has an outcome if its first symbol leads on and the rest has that
outcome. -/
theorem outcome_cons_eq_some_iff {c : Char} {word : List Char} {accepting : Bool} :
    outcome g p (c :: word) = some accepting ↔
      ∃ q, successor g p c = some q ∧ outcome g q word = some accepting := by
  rw [outcome, destination_cons]
  cases successor g p c <;> simp [outcome]

end Deterministic

namespace Graph

variable {g : Graph} {p q : StateId}

/-- Whether moves lead from a state to an accepting one. -/
def isLive (g : Graph) (id : StateId) : Bool :=
  Frontier.isAccepting g (reachable g.transitions id)

theorem isLive_iff :
    g.isLive p = true ↔ ∃ q ∈ reachable g.transitions p, g.isAccepting q = true :=
  Frontier.isAccepting_iff

/-- What reaches a live state is live. -/
theorem isLive_of_mem_reachable (hq : q ∈ reachable g.transitions p) (hlive : g.isLive q = true) :
    g.isLive p = true := by
  obtain ⟨r, hr, haccepting⟩ := isLive_iff.1 hlive
  exact isLive_iff.2 ⟨r, mem_reachable_trans hq hr, haccepting⟩

theorem isLive_of_isAccepting (haccepting : g.isAccepting p = true) : g.isLive p = true :=
  isLive_iff.2 ⟨p, start_mem_reachable _ _, haccepting⟩

theorem isLive_source {t : Transition} (ht : t ∈ g.transitions)
    (hlive : g.isLive t.target = true) : g.isLive t.source = true :=
  isLive_of_mem_reachable (reachable_closed ht (start_mem_reachable _ _)) hlive

namespace ChoiceFree

/-- Where moves do not compete, every move is taken on its symbol. -/
theorem successor_eq_some_iff (hg : g.ChoiceFree) {c : Char} :
    Deterministic.successor g p c = some q ↔
      ∃ t ∈ g.transitions, t.source = p ∧ t.symbol = c ∧ t.target = q := by
  constructor
  · intro hsuccessor
    obtain ⟨t, ht, hsource, hreads, htarget⟩ := Deterministic.exists_move_of_successor hsuccessor
    exact ⟨t, ht, hsource, (Transition.reads_iff.1 hreads).2, htarget⟩
  · rintro ⟨t, ht, rfl, rfl, rfl⟩
    exact hg.successor_eq ht

/-- From a live state some word is accepted. -/
theorem isLive_iff_outcome (hg : g.ChoiceFree) :
    g.isLive p = true ↔ ∃ word, outcome g p word = some true := by
  rw [isLive_iff]
  constructor
  · rintro ⟨q, hq, haccepting⟩
    obtain ⟨word, hword⟩ := hg.mem_reachable_iff.1 hq
    exact ⟨word, Deterministic.outcome_eq_some_iff.2 ⟨q, hword, haccepting⟩⟩
  · rintro ⟨word, houtcome⟩
    obtain ⟨q, hword, haccepting⟩ := Deterministic.outcome_eq_some_iff.1 houtcome
    exact ⟨q, Deterministic.mem_reachable_of_destination hword, haccepting⟩

end ChoiceFree

/-- The graph without its dead states and the moves into them. The start state
stays, dead or not. -/
def trim (g : Graph) : Graph where
  states := g.states.filter fun s => s.isStart || g.isLive s.id
  transitions := g.transitions.filter fun t => g.isLive t.target

/-- The start state stays, even if it is dead. -/
theorem startIds_trim (g : Graph) : g.trim.startIds = g.startIds := by
  rw [startIds, startIds, trim, List.filter_filter]
  refine congrArg (List.map State.id) (List.filter_congr fun s _ => ?_)
  cases s.isStart <;> rfl

/-- A graph begins its runs where it did before dead states were dropped. -/
theorem soleStart_trim (g : Graph) : g.trim.soleStart = g.soleStart := by
  unfold soleStart
  rw [startIds_trim]

/-- Live states stay. -/
theorem hasState_trim (hp : g.hasState p = true) (hlive : g.isLive p = true) :
    g.trim.hasState p = true := by
  obtain ⟨s, hs, rfl⟩ := List.mem_map.1 (hasState_iff.1 hp)
  exact hasState_iff.2 (List.mem_map_of_mem (List.mem_filter.2 ⟨hs, by simp [hlive]⟩))

/-- A dead state other than the start makes the trimmed graph smaller. -/
theorem length_states_trim_lt {s : State} (hs : s ∈ g.states) (hmark : s.isStart = false)
    (hdead : g.isLive s.id = false) : g.trim.states.length < g.states.length :=
  List.length_filter_lt_length_iff_exists.2 ⟨s, hs, by simp [hmark, hdead]⟩

namespace ProperDfa

/-- Nothing is wrong with what is left. -/
theorem trim (hg : g.ProperDfa) : g.trim.ProperDfa := by
  have hmove {t : Transition} (ht : t ∈ g.trim.transitions) :
      t ∈ g.transitions ∧ g.isLive t.target = true := List.mem_filter.1 ht
  refine ⟨⟨?_, ?_, fun t ht => ?_, fun t ht => ?_⟩, ?_, fun t ht => ?_, fun t ht => ?_, ?_⟩
  · exact hg.nodup_ids.sublist (List.filter_sublist.map _)
  · rw [startIds_trim]
    exact hg.length_startIds_le
  · obtain ⟨hmem, hlive⟩ := hmove ht
    exact hasState_trim (hg.hasState_source t hmem) (isLive_source hmem hlive)
  · obtain ⟨hmem, hlive⟩ := hmove ht
    exact hasState_trim (hg.hasState_target t hmem) hlive
  · rw [soleStart_trim]
    exact hg.exists_soleStart
  · exact hg.isEpsilon_eq_false t (hmove ht).1
  · exact hg.hasStackEffect_eq_false t (hmove ht).1
  · exact hg.nodup_choices.sublist (List.filter_sublist.map _)

/-- The same numbers accept, since dead states do not. -/
theorem isAccepting_trim_iff (hg : g.ProperDfa) :
    g.trim.isAccepting p = true ↔ g.isAccepting p = true := by
  constructor
  · intro haccepting
    obtain ⟨s, hs, rfl, hmark⟩ := exists_mem_of_isAccepting haccepting
    rw [isAccepting_eq_of_mem hg.nodup_ids (List.mem_filter.1 hs).1, hmark]
  · intro haccepting
    have hlive := isLive_of_isAccepting haccepting
    obtain ⟨s, hs, rfl, hmark⟩ := exists_mem_of_isAccepting haccepting
    have hkept : s ∈ g.trim.states := List.mem_filter.2 ⟨hs, by simp [hlive]⟩
    rw [isAccepting_eq_of_mem hg.trim.nodup_ids hkept, hmark]

/-- What is left of the moves are those to live states. -/
theorem successor_trim_iff (hg : g.ProperDfa) {c : Char} :
    Deterministic.successor g.trim p c = some q ↔
      Deterministic.successor g p c = some q ∧ g.isLive q = true := by
  rw [hg.trim.choiceFree.successor_eq_some_iff, hg.choiceFree.successor_eq_some_iff]
  constructor
  · rintro ⟨t, ht, hsource, hsymbol, rfl⟩
    obtain ⟨hmem, hlive⟩ := List.mem_filter.1 ht
    exact ⟨⟨t, hmem, hsource, hsymbol, rfl⟩, hlive⟩
  · rintro ⟨⟨t, ht, hsource, hsymbol, rfl⟩, hlive⟩
    exact ⟨t, List.mem_filter.2 ⟨ht, hlive⟩, hsource, hsymbol, rfl⟩

/-- The same words are accepted, from every state. -/
theorem outcome_trim_iff (hg : g.ProperDfa) {word : List Char} :
    outcome g.trim p word = some true ↔ outcome g p word = some true := by
  induction word generalizing p with
  | nil => simpa [outcome] using hg.isAccepting_trim_iff
  | cons c word ih =>
    simp only [Deterministic.outcome_cons_eq_some_iff, hg.successor_trim_iff, ih]
    constructor
    · rintro ⟨q, ⟨hsuccessor, _⟩, haccepted⟩
      exact ⟨q, hsuccessor, haccepted⟩
    · rintro ⟨q, hsuccessor, haccepted⟩
      exact ⟨q, ⟨hsuccessor, hg.choiceFree.isLive_iff_outcome.2 ⟨word, haccepted⟩⟩, haccepted⟩

end ProperDfa

end Graph

end Automata
