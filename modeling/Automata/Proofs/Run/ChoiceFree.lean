import Automata.Proofs.Closure
import Automata.Proofs.Issue
import Automata.Proofs.Run.Destination

namespace Automata

namespace Deterministic

variable {g : Graph} {p q : StateId}

/-- Whatever a word leads to is reached along moves. -/
theorem mem_reachable_of_destination {word : List Char}
    (hdestination : destination g p word = some q) : q ∈ reachable g.transitions p := by
  rw [mem_reachable_iff]
  induction word generalizing p with
  | nil =>
    cases hdestination
    exact .refl
  | cons c word ih =>
    rw [destination_cons] at hdestination
    obtain ⟨next, hsuccessor, hrest⟩ := Option.bind_eq_some_iff.1 hdestination
    obtain ⟨t, ht, hsource, _, htarget⟩ := exists_move_of_successor hsuccessor
    exact .head ⟨t, ht, hsource, htarget⟩ (ih hrest)

end Deterministic

namespace Graph

open Deterministic (destination)

variable {g : Graph} {p q : StateId}

/-- What a move that leaves the stack alone is determined by. -/
def moveKey (t : Transition) : StateId × Char × StateId := (t.source, t.symbol, t.target)

/-- No move is silent, and the moves that a state has on a symbol lead to one
state. -/
structure ChoiceFree (g : Graph) : Prop where
  isEpsilon_eq_false : ∀ t ∈ g.transitions, t.isEpsilon = false
  target_eq : ∀ t ∈ g.transitions, ∀ u ∈ g.transitions,
    t.source = u.source → t.symbol = u.symbol → t.target = u.target

theorem ProperDfa.choiceFree (hg : g.ProperDfa) : g.ChoiceFree where
  isEpsilon_eq_false := hg.isEpsilon_eq_false
  target_eq t ht u hu hsource hsymbol := by
    have hsame : (t.source, t.symbol) = (u.source, u.symbol) := Prod.ext hsource hsymbol
    rw [List.inj_on_of_nodup_map hg.nodup_choices ht hu hsame]

namespace ChoiceFree

/-- Every move is taken when its symbol is read. -/
theorem successor_eq (hg : g.ChoiceFree) {t : Transition} (ht : t ∈ g.transitions) :
    Deterministic.successor g t.source t.symbol = some t.target := by
  have hreads : t.reads t.symbol = true :=
    Transition.reads_iff.2 ⟨hg.isEpsilon_eq_false t ht, rfl⟩
  refine Deterministic.successor_eq_some_of_agree ht hreads fun u hu hsource hureads => ?_
  exact hg.target_eq u hu t ht hsource (Transition.reads_iff.1 hureads).2

/-- Moves that are listed once do not compete. -/
theorem nodup_choices (hg : g.ChoiceFree)
    (hnodup : (g.transitions.map moveKey).Nodup) :
    (g.transitions.map fun t => (t.source, t.symbol)).Nodup := by
  rw [List.Nodup, List.pairwise_map] at hnodup ⊢
  refine hnodup.imp_of_mem fun {t u} ht hu hdistinct hchoice => hdistinct ?_
  obtain ⟨hsource, hsymbol⟩ := Prod.ext_iff.1 hchoice
  exact Prod.ext hsource (Prod.ext hsymbol (hg.target_eq t ht u hu hsource hsymbol))

/-- A state is reachable exactly if some word leads to it. -/
theorem mem_reachable_iff (hg : g.ChoiceFree) :
    q ∈ reachable g.transitions p ↔ ∃ word, destination g p word = some q := by
  constructor
  · intro hreached
    rw [Automata.mem_reachable_iff] at hreached
    induction hreached with
    | refl => exact ⟨[], rfl⟩
    | tail _ hmove ih =>
      obtain ⟨word, hword⟩ := ih
      obtain ⟨t, ht, rfl, rfl⟩ := hmove
      refine ⟨word ++ [t.symbol], ?_⟩
      rw [Deterministic.destination_append, hword]
      simp [hg.successor_eq ht]
  · rintro ⟨word, hword⟩
    exact Deterministic.mem_reachable_of_destination hword

end ChoiceFree

end Graph

end Automata
