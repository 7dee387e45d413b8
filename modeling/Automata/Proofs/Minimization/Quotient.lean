import Automata.Minimization.Quotient
import Automata.Proofs.Acceptance
import Automata.Proofs.Graph.Basic
import Automata.Proofs.Minimization.Refinement
import Automata.Proofs.Run.Morphism

namespace Automata

namespace Table

variable {g : Graph} {origin : StateId} {p : Partition} {colour : StateId → Nat}

/-- The members of a block are the rows of its states. -/
theorem mem_members_iff (hp : p.Colours (g.reachableStates origin) colour) {b : Nat} {row : Row} :
    row ∈ (ofGraphFrom g origin).members p b ↔
      ∃ id ∈ g.reachableStates origin, colour id = b ∧ row = rowOf g origin id := by
  rw [members, rows_ofGraphFrom, hp.blocks, List.zip_map']
  simp only [List.mem_map, List.mem_filter, decide_eq_true_eq]
  constructor
  · rintro ⟨_, ⟨⟨id, hid, rfl⟩, hb⟩, rfl⟩
    exact ⟨id, hid, hb, rfl⟩
  · rintro ⟨id, hid, hb, rfl⟩
    exact ⟨_, ⟨⟨id, hid, rfl⟩, hb⟩, rfl⟩

/-- Some row of a block has a property if it holds of a state of the block. -/
theorem any_members_iff (hp : p.Colours (g.reachableStates origin) colour) {b : Nat}
    {f : Row → Bool} :
    ((ofGraphFrom g origin).members p b).any f = true ↔
      ∃ id ∈ g.reachableStates origin, colour id = b ∧ f (rowOf g origin id) = true := by
  simp only [List.any_eq_true, mem_members_iff hp]
  constructor
  · rintro ⟨_, ⟨id, hid, hb, rfl⟩, hf⟩
    exact ⟨id, hid, hb, hf⟩
  · rintro ⟨id, hid, hb, hf⟩
    exact ⟨_, ⟨id, hid, hb, rfl⟩, hf⟩

/-- A group lists the states of a block. -/
theorem mem_group_iff (hp : p.Colours (g.reachableStates origin) colour) {b : Nat}
    {id : StateId} :
    id ∈ SortedSet.ofList (((ofGraphFrom g origin).members p b).map (·.state)) ↔
      id ∈ g.reachableStates origin ∧ colour id = b := by
  simp only [SortedSet.mem_ofList, List.mem_map, mem_members_iff hp]
  constructor
  · rintro ⟨_, ⟨a, ha, hb, rfl⟩, rfl⟩
    exact ⟨ha, hb⟩
  · rintro ⟨hid, hb⟩
    exact ⟨_, ⟨id, hid, hb, rfl⟩, rfl⟩

/-- Blocks are joined by the images of the moves of their members. -/
theorem mem_blockMoves_iff (hp : p.Colours (g.reachableStates origin) colour)
    {source target : StateId} {c : Char} :
    (source, c, target) ∈ (ofGraphFrom g origin).blockMoves p ↔
      ∃ id ∈ g.reachableStates origin, ∃ q, Deterministic.successor g id c = some q ∧
        source = colour id ∧ target = colour q := by
  rw [blockMoves, SortedSet.mem_ofList, rows_ofGraphFrom, hp.blocks, List.zip_map']
  simp only [List.mem_flatMap, List.mem_map, List.mem_filterMap]
  constructor
  · rintro ⟨_, ⟨id, hid, rfl⟩, ⟨b, next⟩, hzip, hmove⟩
    obtain ⟨_, rfl⟩ := mem_zip_map_iff.1 hzip
    obtain ⟨q, hsuccessor, hmove⟩ := Option.bind_eq_some_iff.1 hmove
    have hq := successor_mem_reachableStates hid hsuccessor
    rw [blockOf?_eq hp, if_pos hq] at hmove
    simp only [Option.bind_eq_bind, Option.bind_some, Option.pure_def, Option.some.injEq,
      Prod.mk.injEq] at hmove
    obtain ⟨rfl, rfl, rfl⟩ := hmove
    exact ⟨id, hid, q, hsuccessor, rfl, rfl⟩
  · rintro ⟨id, hid, q, hsuccessor, rfl, rfl⟩
    have hc := mem_symbols_of_successor hid hsuccessor
    refine ⟨_, ⟨id, hid, rfl⟩, (c, some q), mem_zip_map_iff.2 ⟨hc, hsuccessor.symm⟩, ?_⟩
    have hq := successor_mem_reachableStates hid hsuccessor
    simp only [Option.bind_eq_bind, Option.bind_some, blockOf?_eq hp, if_pos hq, Option.pure_def]

/-- The moves of the quotient are the moves between blocks. -/
theorem mem_quotientGraph_transitions_iff (hp : p.Colours (g.reachableStates origin) colour)
    {t : Transition} :
    t ∈ ((ofGraphFrom g origin).quotientGraph p).transitions ↔
      ∃ id ∈ g.reachableStates origin, ∃ c q, Deterministic.successor g id c = some q ∧
        t = { source := colour id, target := colour q, symbol := c } := by
  simp only [quotientGraph, List.mem_map, SortedSet.mem_toList]
  constructor
  · rintro ⟨⟨source, c, target⟩, hmove, rfl⟩
    obtain ⟨id, hid, q, hsuccessor, rfl, rfl⟩ := (mem_blockMoves_iff hp).1 hmove
    exact ⟨id, hid, c, q, hsuccessor, rfl⟩
  · rintro ⟨id, hid, c, q, hsuccessor, rfl⟩
    exact ⟨_, (mem_blockMoves_iff hp).2 ⟨id, hid, q, hsuccessor, rfl, rfl⟩, rfl⟩

/-- The numbers of blocks are distinct. -/
theorem nodup_quotientGraph_ids (t : Table) (p : Partition) :
    ((t.quotientGraph p).states.map (·.id)).Nodup := by
  simp only [quotientGraph, List.map_map]
  exact List.nodup_range.map fun i j hij => Int.ofNat_inj.1 hij

/-- The block of a state within reach becomes a state. -/
theorem mem_quotientGraph_states {id : StateId}
    (hp : p.Colours (g.reachableStates origin) colour) (hid : id ∈ g.reachableStates origin) :
    { id := colour id
      isStart := ((ofGraphFrom g origin).members p (colour id)).any (·.isInitial)
      isAccepting := ((ofGraphFrom g origin).members p (colour id)).any (·.isFinal) : State } ∈
      ((ofGraphFrom g origin).quotientGraph p).states :=
  List.mem_map.2 ⟨colour id, List.mem_range.2 ((hp.lt_count_iff _).2 ⟨id, hid, rfl⟩), rfl⟩

/-- A block accepts as its states do. -/
theorem isAccepting_quotientGraph (hp : p.Colours (g.reachableStates origin) colour)
    (hstable : Stable g (g.reachableStates origin) colour) {id : StateId}
    (hid : id ∈ g.reachableStates origin) :
    ((ofGraphFrom g origin).quotientGraph p).isAccepting (colour id) = g.isAccepting id := by
  have hstate := Graph.isAccepting_eq_of_mem (nodup_quotientGraph_ids _ _)
    (mem_quotientGraph_states hp hid)
  rw [hstate, Bool.eq_iff_iff, any_members_iff hp]
  constructor
  · rintro ⟨q, hq, hcolour, haccepting⟩
    rw [hstable.accepting_eq id hid q hq hcolour.symm]
    exact haccepting
  · intro haccepting
    exact ⟨id, hid, rfl, haccepting⟩

/-- The block of the start state is the only start state. -/
theorem soleStart_quotientGraph (hp : p.Colours (g.reachableStates origin) colour) :
    ((ofGraphFrom g origin).quotientGraph p).soleStart = .ok (colour origin : StateId) := by
  have horigin : origin ∈ g.reachableStates origin :=
    mem_reachableStates_iff.2 (start_mem_reachable _ _)
  refine Graph.soleStart_eq_ok_of_unique (nodup_quotientGraph_ids _ _)
    (mem_quotientGraph_states hp horigin) ?_ fun u hu hstart => ?_
  · exact (any_members_iff hp).2 ⟨origin, horigin, rfl, by simp [rowOf]⟩
  · obtain ⟨b, _, rfl⟩ := List.mem_map.1 hu
    obtain ⟨id, _, rfl, hinitial⟩ := (any_members_iff hp).1 hstart
    rw [of_decide_eq_true hinitial]

/-- A block moves to the block of the successor of any of its members. -/
theorem successor_quotientGraph (hp : p.Colours (g.reachableStates origin) colour)
    (hstable : Stable g (g.reachableStates origin) colour) {id : StateId}
    (hid : id ∈ g.reachableStates origin) (c : Char) :
    Deterministic.successor ((ofGraphFrom g origin).quotientGraph p) (colour id) c =
      (Deterministic.successor g id c).map fun q => (colour q : StateId) := by
  have hagree {t : Transition} (ht : t ∈ ((ofGraphFrom g origin).quotientGraph p).transitions)
      (hsource : t.source = colour id) (hreads : t.reads c = true) :
      some t.target = (Deterministic.successor g id c).map fun q => (colour q : StateId) := by
    obtain ⟨id', hid', b, q, hsuccessor, rfl⟩ := (mem_quotientGraph_transitions_iff hp).1 ht
    obtain rfl : b = c := (Transition.reads_iff.1 hreads).2
    have hsame := hstable.successor_eq id' hid' id hid (Int.ofNat_inj.1 hsource) b
    rw [hsuccessor] at hsame
    obtain ⟨r, hr, hcolour⟩ := Option.map_eq_some_iff.1 hsame.symm
    rw [hr]
    exact congrArg (fun n : Nat => some (n : StateId)) hcolour.symm
  cases hsuccessor : Deterministic.successor g id c with
  | none =>
    rw [Option.map_none, Deterministic.successor_eq_none_iff]
    intro t ht hsource
    by_contra hreads
    have hnone := hagree ht hsource (by simpa using hreads)
    rw [hsuccessor] at hnone
    cases hnone
  | some q =>
    obtain ⟨u, _, _, hreads, _⟩ := Deterministic.exists_move_of_successor hsuccessor
    obtain ⟨hepsilon, hsymbol⟩ := Transition.reads_iff.1 hreads
    have ht := (mem_quotientGraph_transitions_iff hp).2 ⟨id, hid, c, q, hsuccessor, rfl⟩
    refine Deterministic.successor_eq_some_of_agree ht ?_ fun t ht hsource hreads => ?_
    · exact Transition.reads_iff.2 ⟨by rw [← hepsilon, ← hsymbol]; rfl, rfl⟩
    · have hsome := hagree ht hsource hreads
      rw [hsuccessor] at hsome
      exact Option.some.inj hsome

end Table

end Automata
