import Automata.Proofs.Closure
import Automata.Proofs.Minimization.Partition
import Automata.Proofs.Run.Deterministic

namespace Automata

/-- A value listed together with its image is looked up as its image. -/
theorem lookup_zip_map {α β : Type} [BEq α] [LawfulBEq α] [DecidableEq α] (as : List α)
    (f : α → β) (a : α) : (as.zip (as.map f)).lookup a = if a ∈ as then some (f a) else none := by
  induction as with
  | nil => rfl
  | cons b as ih =>
    rw [List.map_cons, List.zip_cons_cons, List.lookup_cons, ih]
    by_cases hab : a = b
    · simp [hab]
    · simp [hab, beq_false_of_ne hab]

/-- The states that can be reached, in ascending order. A table has a row for each. -/
def Graph.reachableStates (g : Graph) (origin : StateId) : List StateId :=
  (reachable g.transitions origin).toList

/-- A list beside what a function makes of it has each member beside its own
value. -/
theorem mem_zip_map_iff {α β : Type} {as : List α} {f : α → β} {a : α} {b : β} :
    (a, b) ∈ as.zip (as.map f) ↔ a ∈ as ∧ b = f a := by
  have hzip : as.zip (as.map f) = as.map fun a => (a, f a) := by
    simpa using List.zip_map' (f := id) (g := f) (l := as)
  rw [hzip, List.mem_map]
  constructor
  · rintro ⟨_, ha, heq⟩
    cases heq
    exact ⟨ha, rfl⟩
  · rintro ⟨ha, rfl⟩
    exact ⟨a, ha, rfl⟩

namespace Table

variable {g : Graph} {origin : StateId} {p : Partition} {colour : StateId → Nat}

/-- The row of a state in the table of a graph. -/
def rowOf (g : Graph) (origin id : StateId) : Row where
  state := id
  isInitial := id = origin
  isFinal := g.isAccepting id
  successors := (ofGraphFrom g origin).symbols.map (Deterministic.successor g id)

/-- The table has a row for every state within reach, in ascending order. -/
theorem rows_ofGraphFrom (g : Graph) (origin : StateId) :
    (ofGraphFrom g origin).rows = (g.reachableStates origin).map (rowOf g origin) :=
  rfl

/-- The rows stand in the order of their states. -/
theorem map_state_rows (g : Graph) (origin : StateId) :
    (ofGraphFrom g origin).rows.map (·.state) = g.reachableStates origin := by
  rw [rows_ofGraphFrom, List.map_map]
  exact List.map_id _

/-- The states within reach are those that moves lead to from the start. -/
theorem mem_reachableStates_iff {id : StateId} :
    id ∈ g.reachableStates origin ↔ id ∈ reachable g.transitions origin :=
  .rfl

/-- A symbol leads from a state within reach to one within reach. -/
theorem successor_mem_reachableStates {id q : StateId} {c : Char}
    (hid : id ∈ g.reachableStates origin)
    (hsuccessor : Deterministic.successor g id c = some q) :
    q ∈ g.reachableStates origin := by
  obtain ⟨t, ht, rfl, _, rfl⟩ := Deterministic.exists_move_of_successor hsuccessor
  exact mem_reachableStates_iff.2 (reachable_closed ht (mem_reachableStates_iff.1 hid))

/-- The symbols of the table are all that its states can read. -/
theorem mem_symbols_of_successor {id q : StateId} {c : Char}
    (hid : id ∈ g.reachableStates origin)
    (hsuccessor : Deterministic.successor g id c = some q) :
    c ∈ (ofGraphFrom g origin).symbols := by
  obtain ⟨t, ht, rfl, hreads, _⟩ := Deterministic.exists_move_of_successor hsuccessor
  obtain ⟨hepsilon, hsymbol⟩ := Transition.reads_iff.1 hreads
  simp only [ofGraphFrom, SortedSet.mem_toList, SortedSet.mem_ofList, List.mem_map,
    List.mem_filter, Bool.and_eq_true, Bool.not_eq_true', decide_eq_true_eq]
  exact ⟨t, ⟨ht, hepsilon, mem_reachableStates_iff.1 hid⟩, hsymbol⟩

/-- The states within reach have the blocks of their colours, and no other state
has a block. -/
theorem blockOf?_eq (hp : p.Colours (g.reachableStates origin) colour) (id : StateId) :
    (ofGraphFrom g origin).blockOf? p id =
      if id ∈ g.reachableStates origin then some (colour id) else none := by
  rw [blockOf?, hp.blocks, map_state_rows]
  exact lookup_zip_map (g.reachableStates origin) colour id

/-- What a round looks at in a state: its colour and those of its successors. -/
def signatureOf (g : Graph) (origin : StateId) (colour : StateId → Nat) (id : StateId) :
    Nat × List (Option Nat) :=
  (colour id, (ofGraphFrom g origin).symbols.map fun c =>
    (Deterministic.successor g id c).map colour)

/-- A round looks at each state with the colours of the states it leads to. -/
theorem signatures_eq (hp : p.Colours (g.reachableStates origin) colour) :
    (ofGraphFrom g origin).signatures p =
      (g.reachableStates origin).map (signatureOf g origin colour) := by
  rw [signatures, rows_ofGraphFrom, hp.blocks, List.zipWith_map, List.zipWith_self]
  apply List.map_congr_left
  intro id hid
  refine Prod.ext rfl ?_
  simp only [rowOf, signatureOf, List.map_map]
  apply List.map_congr_left
  intro c _
  simp only [Function.comp_apply]
  cases hsuccessor : Deterministic.successor g id c with
  | none => rfl
  | some q =>
    change (ofGraphFrom g origin).blockOf? p q = some (colour q)
    rw [blockOf?_eq hp, if_pos (successor_mem_reachableStates hid hsuccessor)]

/-- The first partition tells accepting states from others. -/
theorem exists_colours_initialPartition (g : Graph) (origin : StateId) :
    ∃ colour, (ofGraphFrom g origin).initialPartition.Colours (g.reachableStates origin) colour ∧
      ∀ a ∈ g.reachableStates origin, ∀ b ∈ g.reachableStates origin,
        colour a = colour b ↔ g.isAccepting a = g.isAccepting b := by
  have hinitial : (ofGraphFrom g origin).initialPartition =
      .ofKeys ((g.reachableStates origin).map g.isAccepting) := by
    rw [initialPartition, rows_ofGraphFrom, List.map_map]
    rfl
  rw [hinitial]
  exact ⟨_, Partition.colours_ofKeys _ _, fun a ha b hb => Partition.colour_ofKeys_eq_iff ha hb⟩

/-- A round tells apart exactly the states with different signatures. -/
theorem exists_colours_round (hp : p.Colours (g.reachableStates origin) colour) :
    ∃ colour', ((ofGraphFrom g origin).round p).Colours (g.reachableStates origin) colour' ∧
      ∀ a ∈ g.reachableStates origin, ∀ b ∈ g.reachableStates origin,
        colour' a = colour' b ↔ signatureOf g origin colour a = signatureOf g origin colour b := by
  rw [round, signatures_eq hp]
  exact ⟨_, Partition.colours_ofKeys _ _, fun a ha b hb => Partition.colour_ofKeys_eq_iff ha hb⟩

/-- States of one colour accept alike. -/
def SeparatesAccepting (g : Graph) (states : List StateId) (colour : StateId → Nat) : Prop :=
  ∀ a ∈ states, ∀ b ∈ states, colour a = colour b → g.isAccepting a = g.isAccepting b

/-- States of one colour accept alike and lead, on every symbol, into states of
one colour. A missing move is an outcome of its own. -/
structure Stable (g : Graph) (states : List StateId) (colour : StateId → Nat) : Prop where
  accepting_eq : SeparatesAccepting g states colour
  successor_eq : ∀ a ∈ states, ∀ b ∈ states, colour a = colour b → ∀ c,
    (Deterministic.successor g a c).map colour = (Deterministic.successor g b c).map colour

/-- Equal signatures agree on every symbol: those that the table leaves out are
read by none of its states. -/
theorem successor_eq_of_signatureOf_eq {a b : StateId}
    (ha : a ∈ g.reachableStates origin) (hb : b ∈ g.reachableStates origin)
    (hsignature : signatureOf g origin colour a = signatureOf g origin colour b) (c : Char) :
    (Deterministic.successor g a c).map colour = (Deterministic.successor g b c).map colour := by
  by_cases hc : c ∈ (ofGraphFrom g origin).symbols
  · exact List.map_inj_left.1 (congrArg Prod.snd hsignature) c hc
  · have hnone {id : StateId} (hid : id ∈ g.reachableStates origin) :
        Deterministic.successor g id c = none := by
      cases hsuccessor : Deterministic.successor g id c with
      | none => rfl
      | some q => exact absurd (mem_symbols_of_successor hid hsuccessor) hc
    rw [hnone ha, hnone hb]

/-- A round that adds no block splits no block, so what it looked at already
agrees inside the blocks. -/
theorem stable_round {colour' : StateId → Nat}
    (hp : p.Colours (g.reachableStates origin) colour)
    (haccepting : SeparatesAccepting g (g.reachableStates origin) colour)
    (hround : ((ofGraphFrom g origin).round p).Colours (g.reachableStates origin) colour')
    (hsignature : ∀ a ∈ g.reachableStates origin, ∀ b ∈ g.reachableStates origin,
      colour' a = colour' b ↔ signatureOf g origin colour a = signatureOf g origin colour b)
    (hcount : ((ofGraphFrom g origin).round p).count ≤ p.count) :
    Stable g (g.reachableStates origin) colour' := by
  have hfiner : ∀ a ∈ g.reachableStates origin, ∀ b ∈ g.reachableStates origin,
      colour' a = colour' b → colour a = colour b := by
    intro a ha b hb hab
    exact congrArg Prod.fst ((hsignature a ha b hb).1 hab)
  have hsame := hp.samePartition_of_count_le hround hfiner hcount
  refine ⟨fun a ha b hb hab => haccepting a ha b hb (hfiner a ha b hb hab), ?_⟩
  intro a ha b hb hab c
  have hold := successor_eq_of_signatureOf_eq ha hb ((hsignature a ha b hb).1 hab) c
  cases hnextA : Deterministic.successor g a c with
  | none =>
    rw [hnextA] at hold
    rw [Option.map_eq_none_iff.1 hold.symm]
  | some q =>
    rw [hnextA] at hold
    obtain ⟨r, hnextB, hcolour⟩ := Option.map_eq_some_iff.1 hold.symm
    have hq := successor_mem_reachableStates ha hnextA
    have hr := successor_mem_reachableStates hb hnextB
    rw [hnextB]
    exact congrArg some ((hsame q hq r hr).1 hcolour.symm)

/-- Refinement that begins with a partition by acceptance, or a finer one, ends
with a stable one. -/
theorem exists_stable_refineFrom (hp : p.Colours (g.reachableStates origin) colour)
    (haccepting : SeparatesAccepting g (g.reachableStates origin) colour) :
    ∃ colour', ((ofGraphFrom g origin).refineFrom p).Colours (g.reachableStates origin) colour' ∧
      Stable g (g.reachableStates origin) colour' := by
  fun_induction refineFrom (ofGraphFrom g origin) p generalizing colour with
  | case1 p next hmore =>
    rename_i ih
    obtain ⟨colour', hround, hsignature⟩ := exists_colours_round hp
    refine ih hround fun a ha b hb hab => haccepting a ha b hb ?_
    exact congrArg Prod.fst ((hsignature a ha b hb).1 hab)
  | case2 p next =>
    rename_i hmore
    obtain ⟨colour', hround, hsignature⟩ := exists_colours_round hp
    exact ⟨colour', hround, stable_round hp haccepting hround hsignature (Nat.le_of_not_lt hmore)⟩

/-- Refinement ends with blocks that no round splits. -/
theorem exists_stable_refine (g : Graph) (origin : StateId) :
    ∃ colour, (ofGraphFrom g origin).refine.Colours (g.reachableStates origin) colour ∧
      Stable g (g.reachableStates origin) colour := by
  obtain ⟨colour, hcolours, haccepting⟩ := exists_colours_initialPartition g origin
  exact exists_stable_refineFrom hcolours fun a ha b hb => (haccepting a ha b hb).1

end Table

end Automata
