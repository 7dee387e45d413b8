import Automata.Proofs.Minimization.Coverage

namespace Automata

/-- Distinct candidates that are all new are all fresh. -/
theorem fresh_of_nodup {κ : Type} [DecidableEq κ] {known keys : List κ} (hnodup : keys.Nodup)
    (hnew : ∀ k ∈ keys, k ∉ known) : fresh known keys = keys := by
  induction keys generalizing known with
  | nil => rfl
  | cons k keys ih =>
    obtain ⟨hk, hrest⟩ := List.nodup_cons.1 hnodup
    obtain ⟨hknew, hrestNew⟩ := List.forall_mem_cons.1 hnew
    rw [fresh, if_neg hknew, ih hrest fun j hj hknown => ?_]
    obtain rfl | hold := List.mem_cons.1 hknown
    · exact hk hj
    · exact hrestNew j hj hold

/-- Values that are all different are numbered as they stand. -/
theorem Partition.ofKeys_of_nodup {κ : Type} [DecidableEq κ] {keys : List κ}
    (hnodup : keys.Nodup) : ofKeys keys = ⟨List.range keys.length, keys.length⟩ := by
  have hfirsts : fresh [] keys = keys := fresh_of_nodup hnodup fun _ _ => List.not_mem_nil
  have hblocks : keys.map (keys.idxOf ·) = List.range keys.length := by
    refine List.ext_getElem (by simp) fun i hi _ => ?_
    rw [List.getElem_map, List.getElem_range]
    exact hnodup.idxOf_getElem i (by simpa using hi)
  rw [ofKeys, hfirsts]
  exact congrArg (Partition.mk · keys.length) hblocks

namespace Table

/-- Refinement ends with a round. -/
theorem exists_round_refineFrom (t : Table) (p : Partition) :
    ∃ p', t.refineFrom p = t.round p' := by
  fun_induction refineFrom t p with
  | case1 p next hmore ih => exact ih
  | case2 p next hmore => exact ⟨p, rfl⟩

theorem length_rows_ofGraphFrom (g : Graph) (origin : StateId) :
    (ofGraphFrom g origin).rows.length = (g.reachableStates origin).length := by
  rw [rows_ofGraphFrom, List.length_map]

/-- There are no more blocks than rows. -/
theorem count_refine_le (t : Table) : t.refine.count ≤ t.rows.length := by
  obtain ⟨p, hround⟩ := t.exists_round_refineFrom t.initialPartition
  rw [refine, hround]
  exact t.count_round_le p

/-- A table whose rows all end up in blocks of their own has them numbered as they
stand. -/
theorem refine_eq_of_nodup (t : Table) (hnodup : t.refine.blocks.Nodup) :
    t.refine = ⟨List.range t.refine.blocks.length, t.refine.blocks.length⟩ := by
  obtain ⟨p, hround⟩ := t.exists_round_refineFrom t.initialPartition
  have hkeys : t.refine = .ofKeys (t.signatures p) := hround
  rw [hkeys] at hnodup ⊢
  have hlength : (Partition.ofKeys (t.signatures p)).blocks.length = (t.signatures p).length := by
    rw [Partition.ofKeys, List.length_map]
  rw [hlength, ← Partition.ofKeys_of_nodup (hnodup.of_map _)]

end Table

namespace Graph

variable {g : Graph} {origin : StateId} {block : StateId → Nat}

/-- With distinct numbers and one start state, the marks of a state follow from its
number. -/
theorem states_eq_map (hnodup : (g.states.map (·.id)).Nodup) (hstart : g.soleStart = .ok origin) :
    g.states = (g.states.map (·.id)).map fun id =>
      { id := id, isStart := decide (id = origin), isAccepting := g.isAccepting id } := by
  rw [List.map_map]
  refine (List.map_id _).symm.trans (List.map_congr_left fun s hs => ?_)
  have hmark : s.isStart = decide (s.id = origin) := by
    rw [Bool.eq_iff_iff, decide_eq_true_eq]
    refine ⟨id_eq_of_isStart hstart hs, fun hid => ?_⟩
    obtain ⟨u, hu, hmarked, hsame⟩ := exists_start_of_soleStart hstart
    rwa [List.inj_on_of_nodup_map hnodup hs hu (hid.trans hsame.symm)]
  obtain ⟨id, isStart, isAccepting⟩ := s
  obtain rfl : isStart = decide (id = origin) := hmark
  obtain rfl : g.isAccepting id = isAccepting := isAccepting_eq_of_mem hnodup hs
  rfl

/-- A move that leaves the stack alone is determined by its ends and its
symbol. -/
theorem eq_of_hasStackEffect_eq_false {t : Transition} (hplain : t.hasStackEffect = false) :
    t = { source := t.source, target := t.target, symbol := t.symbol } := by
  rw [Transition.hasStackEffect_eq_false_iff] at hplain
  obtain ⟨source, target, symbol, pop, push⟩ := t
  obtain ⟨rfl, rfl⟩ := hplain
  rfl

/-- The form in which minimization leaves a graph: states are numbered as they are
listed, moves lead to all of them and words tell them apart, and the moves are in
ascending order. -/
structure Normal (g : Graph) (origin : StateId) : Prop extends g.ProperDfa where
  soleStart : g.soleStart = .ok origin
  ids_eq : g.states.map (·.id) = (List.range g.states.length).map fun n : Nat => (n : StateId)
  reachableStates_eq : g.reachableStates origin = g.states.map (·.id)
  eq_of_indistinguishable : ∀ a, g.hasState a = true → ∀ b, g.hasState b = true →
    Deterministic.Indistinguishable g a b → a = b
  ascending : (g.transitions.map moveKey).Pairwise fun x y => Ranked.before x y = true

namespace Normal

/-- In a graph in normal form all states are within reach. -/
theorem mem_reachableStates_iff (hg : g.Normal origin) {id : StateId} :
    id ∈ g.reachableStates origin ↔ g.hasState id = true := by
  rw [hg.reachableStates_eq, hasState_iff]

/-- The numbers of a graph in normal form are natural numbers. -/
theorem toNat_cast (hg : g.Normal origin) {id : StateId} (hid : id ∈ g.reachableStates origin) :
    ((id.toNat : Nat) : StateId) = id := by
  rw [hg.reachableStates_eq, hg.ids_eq] at hid
  obtain ⟨n, _, rfl⟩ := List.mem_map.1 hid
  rfl

/-- Every state is a block of its own. -/
theorem refine_eq (hg : g.Normal origin) :
    (Table.ofGraphFrom g origin).refine = ⟨List.range g.states.length, g.states.length⟩ := by
  obtain ⟨block, hblock⟩ := g.exists_classifies origin
  have hlength : (Table.ofGraphFrom g origin).refine.blocks.length = g.states.length := by
    rw [hblock.colours.blocks, List.length_map, hg.reachableStates_eq, List.length_map]
  have hnodup : (Table.ofGraphFrom g origin).refine.blocks.Nodup := by
    rw [hblock.colours.blocks]
    refine (SortedSet.nodup_toList _).map_on fun a ha b hb hab => ?_
    exact hg.eq_of_indistinguishable a (hg.mem_reachableStates_iff.1 ha) b
      (hg.mem_reachableStates_iff.1 hb) ((hblock.block_eq_iff a ha b hb).1 hab)
  rw [Table.refine_eq_of_nodup _ hnodup, hlength]

/-- Every state has its own block, with its own number. -/
theorem classifies (hg : g.Normal origin) : g.Classifies origin Int.toNat := by
  have hstates : g.reachableStates origin =
      (List.range g.states.length).map fun n : Nat => (n : StateId) :=
    hg.reachableStates_eq.trans hg.ids_eq
  refine ⟨⟨?_, fun b => ?_⟩, fun a ha b hb => ?_⟩
  · rw [hg.refine_eq, hstates, List.map_map]
    exact (List.map_id _).symm
  · rw [hg.refine_eq, hstates]
    simp
  · constructor
    · intro hab
      rw [← hg.toNat_cast ha, ← hg.toNat_cast hb, hab]
      exact .refl _
    · intro hab
      rw [hg.eq_of_indistinguishable a (hg.mem_reachableStates_iff.1 ha) b
        (hg.mem_reachableStates_iff.1 hb) hab]

/-- The moves between blocks are the moves of the graph. -/
theorem mem_blockMoves_iff (hg : g.Normal origin) {x : StateId × Char × StateId} :
    x ∈ (Table.ofGraphFrom g origin).blockMoves (Table.ofGraphFrom g origin).refine ↔
      x ∈ g.transitions.map moveKey := by
  obtain ⟨source, c, target⟩ := x
  rw [Table.mem_blockMoves_iff hg.classifies.colours, List.mem_map]
  constructor
  · rintro ⟨p, hp, q, hsuccessor, rfl, rfl⟩
    rw [hg.toNat_cast hp, hg.toNat_cast (Table.successor_mem_reachableStates hp hsuccessor)]
    obtain ⟨t, ht, rfl, hreads, rfl⟩ := Deterministic.exists_move_of_successor hsuccessor
    obtain ⟨_, rfl⟩ := Transition.reads_iff.1 hreads
    exact ⟨t, ht, rfl⟩
  · rintro ⟨t, ht, heq⟩
    cases heq
    have hsource := hg.mem_reachableStates_iff.2 (hg.hasState_source t ht)
    have htarget := hg.mem_reachableStates_iff.2 (hg.hasState_target t ht)
    exact ⟨t.source, hsource, t.target, hg.choiceFree.successor_eq ht,
      (hg.toNat_cast hsource).symm, (hg.toNat_cast htarget).symm⟩

/-- The states stay as they are. -/
theorem states_minimized (hg : g.Normal origin) : (g.minimized origin).states = g.states := by
  have hstart : (g.minimized origin).soleStart = .ok origin := by
    rw [hg.classifies.soleStart_minimized, hg.toNat_cast (g.origin_mem_reachableStates origin)]
  have hids : (g.minimized origin).states.map (·.id) = g.states.map (·.id) := by
    rw [ids_minimized, length_states_minimized, hg.refine_eq, hg.ids_eq]
  rw [states_eq_map hg.classifies.properDfa_minimized.nodup_ids hstart,
    states_eq_map hg.nodup_ids hg.soleStart, hids]
  refine List.map_congr_left fun id hid => ?_
  have hmem : id ∈ g.reachableStates origin := hg.reachableStates_eq ▸ hid
  have haccepting := hg.classifies.morphism.accepting_eq hmem
  simp only [hg.toNat_cast hmem] at haccepting
  rw [haccepting]

/-- The moves stay as they are, in their order. -/
theorem transitions_minimized (hg : g.Normal origin) :
    (g.minimized origin).transitions = g.transitions := by
  have hkeys : ((Table.ofGraphFrom g origin).blockMoves (Table.ofGraphFrom g origin).refine).toList =
      g.transitions.map moveKey :=
    SortedSet.eq_of_ascending_of_mem_iff (SortedSet.ascending _) hg.ascending
      fun x => hg.mem_blockMoves_iff
  rw [minimized, Table.quotientGraph]
  simp only [hkeys, List.map_map]
  refine (List.map_congr_left fun t ht => ?_).trans (List.map_id _)
  exact (eq_of_hasStackEffect_eq_false (hg.hasStackEffect_eq_false t ht)).symm

/-- Minimization leaves a graph in normal form as it is. -/
theorem minimized_eq (hg : g.Normal origin) : g.minimized origin = g := by
  have hstates := hg.states_minimized
  have htransitions := hg.transitions_minimized
  generalize g.minimized origin = small at *
  obtain ⟨states, transitions⟩ := small
  cases hstates
  cases htransitions
  rfl

/-- Every state of a graph in normal form is mapped to itself. -/
theorem mapping_eq (hg : g.Normal origin) :
    ((Table.ofGraphFrom g origin).quotient g (Table.ofGraphFrom g origin).refine).mapping =
      g.states.map fun s => (s.id, s.id) := by
  rw [Table.mapping_quotient hg.classifies.colours]
  calc (g.reachableStates origin).map (fun id => (id, ((id.toNat : Nat) : StateId)))
      = (g.reachableStates origin).map fun id => (id, id) :=
        List.map_congr_left fun id hid => by rw [hg.toNat_cast hid]
    _ = g.states.map fun s => (s.id, s.id) := by
        rw [hg.reachableStates_eq, List.map_map]
        rfl

end Normal

/-- If runs miss nothing of a graph, its minimized graph is in normal form. -/
theorem Classifies.normal_minimized (hblock : g.Classifies origin block)
    (hcover : g.RunsCover origin) : (g.minimized origin).Normal (block origin) := by
  have hascending : ((g.minimized origin).states.map (·.id)).Pairwise
      fun a b => Ranked.before a b = true := by
    rw [ids_minimized, List.pairwise_map]
    refine List.pairwise_lt_range.imp fun hlt => ?_
    exact decide_eq_true (Int.ofNat_lt.2 hlt)
  refine ⟨hblock.properDfa_minimized, hblock.soleStart_minimized, g.ids_minimized origin, ?_,
    fun a ha b hb => hblock.eq_of_indistinguishable ha hb, ?_⟩
  · refine SortedSet.eq_of_ascending_of_mem_iff (SortedSet.ascending _) hascending fun b => ?_
    rw [← hasState_iff]
    exact ⟨hblock.hasState_of_mem_reachableStates, hblock.runsCover_iff.1 hcover b⟩
  · rw [map_moveKey_minimized]
    exact SortedSet.ascending _

end Graph

end Automata
