import Automata.Minimization.Checked
import Automata.Proofs.Minimization.Minimized
import Automata.Proofs.Result

namespace Automata

namespace Table

variable {g : Graph} {origin : StateId} {p : Partition} {colour : StateId → Nat}

/-- Every state within reach has a block. -/
theorem blockAt_eq_ok (hp : p.Colours (g.reachableStates origin) colour) (fault : Fault)
    {id : StateId} (hid : id ∈ g.reachableStates origin) :
    (ofGraphFrom g origin).blockAt p fault id = .ok (colour id) := by
  rw [blockAt, blockOf?_eq hp, if_pos hid]

/-- Every state within reach has a row. -/
theorem rowAt_eq_ok {id : StateId} (hid : id ∈ g.reachableStates origin) :
    (ofGraphFrom g origin).rowAt id = .ok (rowOf g origin id) := by
  let rows := (g.reachableStates origin).map (rowOf g origin)
  have hsome : (rows.find? (·.state = id)).isSome = true :=
    List.find?_isSome.2 ⟨_, List.mem_map_of_mem hid, decide_eq_true rfl⟩
  obtain ⟨row, hrow⟩ := Option.isSome_iff_exists.1 hsome
  -- a row is determined by its state
  obtain ⟨found, _, rfl⟩ := List.mem_map.1 (List.mem_of_find?_eq_some hrow)
  have hfound := List.find?_some hrow
  obtain rfl : found = id := of_decide_eq_true hfound
  rw [rowAt, rows_ofGraphFrom, hrow]

/-- A row only leads to states that have a block. -/
theorem rowSignature_eq_ok (hp : p.Colours (g.reachableStates origin) colour) {id : StateId}
    (hid : id ∈ g.reachableStates origin) :
    (ofGraphFrom g origin).rowSignature p (rowOf g origin id) (colour id) =
      .ok (signatureOf g origin colour id) := by
  refine bind_eq_ok (mapM_eq_ok_of_forall (h := (·.map colour)) fun successor? hsuccessor => ?_) ?_
  · obtain ⟨c, _, rfl⟩ := List.mem_map.1 hsuccessor
    cases hnext : Deterministic.successor g id c with
    | none => rfl
    | some q =>
      have hq := successor_mem_reachableStates hid hnext
      exact congrArg (some <$> ·) (blockAt_eq_ok hp .missingKey hq)
  · rw [signatureOf, rowOf, List.map_map]
    rfl

/-- A round looks up the blocks of states that are in the table. -/
theorem roundChecked_eq_ok (hp : p.Colours (g.reachableStates origin) colour) :
    (ofGraphFrom g origin).roundChecked p = .ok ((ofGraphFrom g origin).round p) := by
  have hkeys : (ofGraphFrom g origin).signaturesChecked p =
      .ok ((ofGraphFrom g origin).signatures p) := by
    rw [signaturesChecked, signatures_eq hp, rows_ofGraphFrom, hp.blocks, List.zip_map',
      List.mapM_map]
    exact mapM_eq_ok_of_forall fun id hid => rowSignature_eq_ok hp hid
  rw [roundChecked, hkeys]
  rfl

/-- Refinement goes on with the partition of a round as long as its blocks
become more. -/
theorem refineCheckedFrom_of_round {t : Table} {next : Partition}
    (hround : t.roundChecked p = .ok next) :
    t.refineCheckedFrom p =
      if p.count < next.count then t.refineCheckedFrom next else .ok next := by
  rw [refineCheckedFrom]
  split
  · rename_i fault hfault
    rw [hround] at hfault
    cases hfault
  · rename_i next' hnext
    obtain rfl : next = next' := Except.ok.inj (hround.symm.trans hnext)
    rfl

/-- Every round is carried out as it should be, so the rounds end with the same
partition. -/
theorem refineCheckedFrom_eq_ok (hp : p.Colours (g.reachableStates origin) colour) :
    (ofGraphFrom g origin).refineCheckedFrom p = .ok ((ofGraphFrom g origin).refineFrom p) := by
  fun_induction refineFrom (ofGraphFrom g origin) p generalizing colour with
  | case1 p next hmore =>
    rename_i ih
    obtain ⟨colour', hround, _⟩ := exists_colours_round hp
    rw [refineCheckedFrom_of_round (roundChecked_eq_ok hp), if_pos hmore]
    exact ih hround
  | case2 p next =>
    rename_i hdone
    rw [refineCheckedFrom_of_round (roundChecked_eq_ok hp), if_neg hdone]

/-- Checked refinement yields the refined partition. -/
theorem refineChecked_eq_ok (g : Graph) (origin : StateId) :
    (ofGraphFrom g origin).refineChecked = .ok (ofGraphFrom g origin).refine := by
  obtain ⟨colour, hcolours, _⟩ := exists_colours_initialPartition g origin
  exact refineCheckedFrom_eq_ok hcolours

/-- The members of a block are found in the table, and the block becomes the state
it has in the quotient. -/
theorem blockState_eq_ok (hp : p.Colours (g.reachableStates origin) colour) (b : Nat) :
    (ofGraphFrom g origin).blockState b
        (.ofList (((ofGraphFrom g origin).members p b).map (·.state))) =
      .ok { id := b
            isStart := ((ofGraphFrom g origin).members p b).any (·.isInitial)
            isAccepting := ((ofGraphFrom g origin).members p b).any (·.isFinal) } := by
  let group : Frontier := .ofList (((ofGraphFrom g origin).members p b).map (·.state))
  have hgroup (id : StateId) :
      id ∈ group.toList ↔ id ∈ g.reachableStates origin ∧ colour id = b :=
    mem_group_iff hp
  have hrows : group.toList.mapM (ofGraphFrom g origin).rowAt =
      .ok (group.toList.map (rowOf g origin)) :=
    mapM_eq_ok_of_forall fun id hid => rowAt_eq_ok ((hgroup id).1 hid).1
  have hany (f : Row → Bool) : (group.toList.map (rowOf g origin)).any f =
      ((ofGraphFrom g origin).members p b).any f := by
    rw [Bool.eq_iff_iff, any_members_iff hp]
    simp only [List.any_map, List.any_eq_true, hgroup, Function.comp_apply, and_assoc]
  refine bind_eq_ok hrows ?_
  rw [hany, hany]
  rfl

/-- The moves between blocks that the moves of a state stand for. -/
def movesOf (g : Graph) (origin : StateId) (colour : StateId → Nat) (id : StateId) :
    List (StateId × Char × StateId) :=
  (((ofGraphFrom g origin).symbols.zip (rowOf g origin id).successors).filterMap
    fun (symbol, successor?) => successor?.map fun q => (symbol, q)).map
      fun (symbol, q) => ((colour id : StateId), symbol, (colour q : StateId))

/-- A row lists the states that its state leads to, by symbol. -/
theorem mem_moves_iff {id q : StateId} {c : Char} (hid : id ∈ g.reachableStates origin) :
    (c, q) ∈ ((ofGraphFrom g origin).symbols.zip (rowOf g origin id).successors).filterMap
        (fun (symbol, successor?) => successor?.map fun q => (symbol, q)) ↔
      Deterministic.successor g id c = some q := by
  simp only [List.mem_filterMap, Prod.exists, Option.map_eq_some_iff, Prod.mk.injEq]
  constructor
  · rintro ⟨c', successor?, hzip, q', hq', rfl, rfl⟩
    obtain ⟨_, rfl⟩ := mem_zip_map_iff.1 hzip
    exact hq'
  · intro hsuccessor
    have hc := mem_symbols_of_successor hid hsuccessor
    exact ⟨c, _, mem_zip_map_iff.2 ⟨hc, rfl⟩, q, hsuccessor, rfl, rfl⟩

/-- The moves of a row run between blocks. -/
theorem rowMoves_eq_ok (hp : p.Colours (g.reachableStates origin) colour) {id : StateId}
    (hid : id ∈ g.reachableStates origin) :
    (ofGraphFrom g origin).rowMoves p (rowOf g origin id) = .ok (movesOf g origin colour id) := by
  refine mapM_eq_ok_of_forall fun move hmove => ?_
  have hq := successor_mem_reachableStates hid ((mem_moves_iff hid).1 hmove)
  exact bind_eq_ok (blockAt_eq_ok hp _ hid) (bind_eq_ok (blockAt_eq_ok hp _ hq) rfl)

/-- Rows stand for the moves between their blocks. -/
theorem ofList_moves_eq (hp : p.Colours (g.reachableStates origin) colour) :
    SortedSet.ofList ((g.reachableStates origin).map (movesOf g origin colour)).flatten =
      (ofGraphFrom g origin).blockMoves p := by
  refine SortedSet.ext fun (source, c, target) => ?_
  rw [mem_blockMoves_iff hp]
  simp only [SortedSet.mem_ofList, List.mem_flatten, List.mem_map, movesOf]
  constructor
  · rintro ⟨_, ⟨id, hid, rfl⟩, hmove⟩
    obtain ⟨⟨symbol, q⟩, hq, heq⟩ := List.mem_map.1 hmove
    cases heq
    exact ⟨id, hid, q, (mem_moves_iff hid).1 hq, rfl, rfl⟩
  · rintro ⟨id, hid, q, hsuccessor, rfl, rfl⟩
    exact ⟨_, ⟨id, hid, rfl⟩, List.mem_map_of_mem ((mem_moves_iff hid).2 hsuccessor)⟩

/-- The blocks of a refined table are put together without a fault, whatever is
wrong with the graph. -/
theorem quotientChecked_eq_ok (g : Graph) (origin : StateId) :
    (ofGraphFrom g origin).quotientChecked g (ofGraphFrom g origin).refine =
      .ok ((ofGraphFrom g origin).quotient g (ofGraphFrom g origin).refine) := by
  obtain ⟨block, hblock⟩ := g.exists_classifies origin
  have hp := hblock.colours
  have hg := hblock.properDfa_minimized.toWellFormed
  have hlength :
      (ofGraphFrom g origin).refine.blocks.length = (ofGraphFrom g origin).rows.length := by
    rw [hp.blocks, rows_ofGraphFrom, List.length_map, List.length_map]
  have hstates : ((ofGraphFrom g origin).quotient g (ofGraphFrom g origin).refine).groups.foldlM
      (ofGraphFrom g origin).addBlock {} = .ok { states := (g.minimized origin).states } := by
    have hadd (b : Nat) (graph : Graph) := congrArg (· >>= fun s =>
      (graph.addState s).mapError Fault.graph) (blockState_eq_ok hp b)
    rw [quotient, List.foldlM_map]
    exact foldlM_eq_ok_of_map Fault.graph (fun b _ graph => hadd b graph) hg.foldlM_addState_eq_ok
  have hmoves : (ofGraphFrom g origin).rows.mapM
      ((ofGraphFrom g origin).rowMoves (ofGraphFrom g origin).refine) =
      .ok ((g.reachableStates origin).map (movesOf g origin block)) := by
    rw [rows_ofGraphFrom, List.mapM_map]
    exact mapM_eq_ok_of_forall fun id hid => rowMoves_eq_ok hp hid
  rw [quotientChecked, if_neg (not_not_intro hlength)]
  refine bind_eq_ok hstates (bind_eq_ok hmoves ?_)
  rw [ofList_moves_eq hp]
  have htransitions := foldlM_eq_ok_of_map Fault.graph (fun _ _ _ => rfl)
    hg.foldlM_addTransition_eq_ok
  exact bind_eq_ok htransitions rfl

end Table

/-- No check of minimization fails once there is one start state. -/
theorem Graph.minimizeChecked_of_soleStart {g : Graph} {origin : StateId}
    (hstart : g.soleStart = .ok origin) :
    g.minimizeChecked =
      .ok ((Table.ofGraphFrom g origin).quotient g (Table.ofGraphFrom g origin).refine) := by
  have htable : (Table.ofGraph g).mapError Fault.graph = .ok (Table.ofGraphFrom g origin) := by
    rw [Table.ofGraph_of_soleStart hstart]
    rfl
  exact bind_eq_ok htable (bind_eq_ok (Table.refineChecked_eq_ok g origin)
    (Table.quotientChecked_eq_ok g origin))

end Automata
