import Automata.Proofs.Minimization.Language
import Automata.Proofs.Run.Destination

namespace Automata

namespace Deterministic

variable {g : Graph}

/-- No word tells two states apart: it can be read from both or from neither,
and if it can, the states it leads to accept alike. -/
def Indistinguishable (g : Graph) (a b : StateId) : Prop :=
  ∀ word, ((destination g a word).isSome ↔ (destination g b word).isSome) ∧
    ∀ p q, destination g a word = some p → destination g b word = some q →
      g.isAccepting p = g.isAccepting q

namespace Indistinguishable

variable {a b : StateId}

/-- Whichever of two states comes first, a word tells them apart or does not. -/
theorem symm (hab : Indistinguishable g a b) : Indistinguishable g b a := by
  intro word
  refine ⟨(hab word).1.symm, fun p q hp hq => ?_⟩
  exact ((hab word).2 q p hq hp).symm

theorem accepting_eq (hab : Indistinguishable g a b) : g.isAccepting a = g.isAccepting b :=
  (hab []).2 a b rfl rfl

/-- Whatever one of the states reads, the other reads as well, and what they
lead to is indistinguishable again. -/
theorem exists_successor (hab : Indistinguishable g a b) {c : Char} {p : StateId}
    (hp : successor g a c = some p) :
    ∃ q, successor g b c = some q ∧ Indistinguishable g p q := by
  have hread : (successor g b c).isSome := by
    simpa [hp, Option.bind_some] using (hab [c]).1
  obtain ⟨q, hq⟩ := Option.isSome_iff_exists.1 hread
  refine ⟨q, hq, fun word => ?_⟩
  simpa [hp, hq] using hab (c :: word)

end Indistinguishable

end Deterministic

open Deterministic (Indistinguishable destination)

namespace Partition

/-- A partition has one colouring, as far as the listed states go. -/
theorem Colours.colour_eq {p : Partition} {states : List StateId} {colour colour' : StateId → Nat}
    (hp : p.Colours states colour) (hp' : p.Colours states colour') {id : StateId}
    (hid : id ∈ states) : colour id = colour' id :=
  List.map_inj_left.1 (hp.blocks.symm.trans hp'.blocks) id hid

end Partition

namespace Table

variable {g : Graph} {origin : StateId} {p : Partition} {colour : StateId → Nat}

/-- A word leads states of one colour to states of one colour. -/
theorem Stable.destination_eq (hstable : Stable g (g.reachableStates origin) colour)
    {a b : StateId} (ha : a ∈ g.reachableStates origin) (hb : b ∈ g.reachableStates origin)
    (hcolour : colour a = colour b) (word : List Char) :
    (destination g a word).map (fun id => (colour id, g.isAccepting id)) =
      (destination g b word).map fun id => (colour id, g.isAccepting id) := by
  induction word generalizing a b with
  | nil => simp [hcolour, hstable.accepting_eq a ha b hb hcolour]
  | cons c word ih =>
    have hsame := hstable.successor_eq a ha b hb hcolour c
    rw [Deterministic.destination_cons, Deterministic.destination_cons]
    cases hnextA : Deterministic.successor g a c with
    | none =>
      rw [hnextA] at hsame
      rw [Option.map_eq_none_iff.1 hsame.symm]
    | some a' =>
      rw [hnextA] at hsame
      obtain ⟨b', hnextB, hcolour'⟩ := Option.map_eq_some_iff.1 hsame.symm
      rw [hnextB]
      exact ih (successor_mem_reachableStates ha hnextA) (successor_mem_reachableStates hb hnextB)
        hcolour'.symm

/-- No word tells apart states of one block that no round splits. -/
theorem Stable.indistinguishable (hstable : Stable g (g.reachableStates origin) colour)
    {a b : StateId} (ha : a ∈ g.reachableStates origin) (hb : b ∈ g.reachableStates origin)
    (hcolour : colour a = colour b) : Indistinguishable g a b := by
  intro word
  have hsame := hstable.destination_eq ha hb hcolour word
  refine ⟨?_, fun p q hp hq => ?_⟩
  · simpa using congrArg Option.isSome hsame
  · rw [hp, hq] at hsame
    exact congrArg Prod.snd (Option.some.inj hsame)

/-- A colouring that never splits indistinguishable states. -/
def Coarse (g : Graph) (states : List StateId) (colour : StateId → Nat) : Prop :=
  ∀ a ∈ states, ∀ b ∈ states, Indistinguishable g a b → colour a = colour b

/-- What a round looks at in a state cannot tell indistinguishable states apart,
as long as the colours cannot. -/
theorem Coarse.signatureOf_eq (hcoarse : Coarse g (g.reachableStates origin) colour)
    {a b : StateId} (ha : a ∈ g.reachableStates origin) (hb : b ∈ g.reachableStates origin)
    (hab : Indistinguishable g a b) :
    signatureOf g origin colour a = signatureOf g origin colour b := by
  refine Prod.ext (hcoarse a ha b hb hab) (List.map_congr_left fun c _ => ?_)
  cases hnextA : Deterministic.successor g a c with
  | some a' =>
    obtain ⟨b', hnextB, hab'⟩ := hab.exists_successor hnextA
    rw [hnextB]
    exact congrArg some (hcoarse a' (successor_mem_reachableStates ha hnextA) b'
      (successor_mem_reachableStates hb hnextB) hab')
  | none =>
    cases hnextB : Deterministic.successor g b c with
    | none => rfl
    | some b' =>
      obtain ⟨a', hnext, _⟩ := hab.symm.exists_successor hnextB
      rw [hnextA] at hnext
      cases hnext

/-- Rounds of refinement never split indistinguishable states: each of them is
decided by what a word could tell. -/
theorem exists_coarse_refineFrom (hp : p.Colours (g.reachableStates origin) colour)
    (hcoarse : Coarse g (g.reachableStates origin) colour) :
    ∃ colour', ((ofGraphFrom g origin).refineFrom p).Colours (g.reachableStates origin) colour' ∧
      Coarse g (g.reachableStates origin) colour' := by
  fun_induction refineFrom (ofGraphFrom g origin) p generalizing colour with
  | case1 p next hmore =>
    rename_i ih
    obtain ⟨colour', hround, hsignature⟩ := exists_colours_round hp
    exact ih hround fun a ha b hb hab =>
      (hsignature a ha b hb).2 (hcoarse.signatureOf_eq ha hb hab)
  | case2 p next =>
    obtain ⟨colour', hround, hsignature⟩ := exists_colours_round hp
    exact ⟨colour', hround, fun a ha b hb hab =>
      (hsignature a ha b hb).2 (hcoarse.signatureOf_eq ha hb hab)⟩

/-- The blocks of the refined table are the classes of indistinguishable
states. -/
theorem exists_colours_refine_iff (g : Graph) (origin : StateId) :
    ∃ colour, (ofGraphFrom g origin).refine.Colours (g.reachableStates origin) colour ∧
      ∀ a ∈ g.reachableStates origin, ∀ b ∈ g.reachableStates origin,
        colour a = colour b ↔ Indistinguishable g a b := by
  obtain ⟨first, hfirst, haccepting⟩ := exists_colours_initialPartition g origin
  have hcoarseFirst : Coarse g (g.reachableStates origin) first := fun a ha b hb hab =>
    (haccepting a ha b hb).2 hab.accepting_eq
  obtain ⟨colour, hcolours, hcoarse⟩ := exists_coarse_refineFrom hfirst hcoarseFirst
  obtain ⟨colour', hcolours', hstable⟩ := exists_stable_refine g origin
  refine ⟨colour, hcolours, fun a ha b hb => ⟨fun hab => ?_, hcoarse a ha b hb⟩⟩
  apply hstable.indistinguishable ha hb
  rw [← hcolours.colour_eq hcolours' ha, ← hcolours.colour_eq hcolours' hb, hab]

/-- With a single start state the table is that of the states within its
reach. -/
theorem ofGraph_of_soleStart (hstart : g.soleStart = .ok origin) :
    ofGraph g = .ok (ofGraphFrom g origin) := by
  rw [ofGraph, hstart]
  rfl

end Table

/-- With a single start state minimization yields the quotient by the refined
partition. -/
theorem Graph.minimize_of_soleStart {g : Graph} {origin : StateId}
    (hstart : g.soleStart = .ok origin) :
    g.minimize =
      .ok ((Table.ofGraphFrom g origin).quotient g (Table.ofGraphFrom g origin).refine) := by
  rw [minimize, Table.ofGraph_of_soleStart hstart]
  rfl

/-- Minimization sends two reachable states to one new state exactly if no word
tells them apart. Being unable to read a word tells a state from one that can,
whatever the verdicts. -/
theorem Graph.minimize_merges_iff_indistinguishable (g : Graph) {origin : StateId}
    (hstart : g.soleStart = .ok origin) :
    ∃ q, g.minimize = .ok q ∧
      ∀ a ∈ reachable g.transitions origin, ∀ b ∈ reachable g.transitions origin,
        ∃ m n, q.mapping.lookup a = some m ∧ q.mapping.lookup b = some n ∧
          (m = n ↔ Indistinguishable g a b) := by
  obtain ⟨colour, hcolours, hmerged⟩ := Table.exists_colours_refine_iff g origin
  refine ⟨_, minimize_of_soleStart hstart, fun a ha b hb => ?_⟩
  refine ⟨colour a, colour b, ?_, ?_, ?_⟩
  · rw [Table.lookup_mapping hcolours, if_pos (Table.mem_reachableStates_iff.2 ha)]
  · rw [Table.lookup_mapping hcolours, if_pos (Table.mem_reachableStates_iff.2 hb)]
  · rw [Int.ofNat_inj]
    exact hmerged a ha b hb

/-- A graph in which a state without moves and one with a move into a rejecting
trap have to be told apart, and two accepting states do not. -/
theorem Graph.minimize_merges_iff_indistinguishable_of_trap :
    let g : Graph :=
      { states := [{ id := 0, isStart := true }, { id := 1 }, { id := 2 },
          { id := 3, isAccepting := true }, { id := 4, isAccepting := true }]
        transitions := [
          { source := 0, target := 1, symbol := 'a' },
          { source := 0, target := 2, symbol := 'b' },
          { source := 2, target := 1, symbol := 'a' },
          { source := 0, target := 3, symbol := 'c' },
          { source := 0, target := 4, symbol := 'd' }] }
    g.soleStart = .ok 0 ∧
      ∃ q, g.minimize = .ok q ∧
        ∀ a ∈ reachable g.transitions 0, ∀ b ∈ reachable g.transitions 0,
          ∃ m n, q.mapping.lookup a = some m ∧ q.mapping.lookup b = some n ∧
            (m = n ↔ Indistinguishable g a b) :=
  ⟨rfl, minimize_merges_iff_indistinguishable _ rfl⟩

end Automata
