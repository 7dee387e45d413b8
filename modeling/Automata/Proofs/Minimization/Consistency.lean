import Automata.Proofs.Minimization.Checked
import Automata.Proofs.Minimization.NormalForm
import Mathlib.Order.Bounds.Defs

namespace Automata

/-- A set that is not empty has a least member. -/
theorem exists_isLeast_of_ne_empty {members : Frontier} (hne : members ≠ ∅) :
    ∃ id, IsLeast {x | x ∈ members} id := by
  obtain ⟨ids, hascending⟩ := members
  cases ids with
  | nil => exact absurd rfl hne
  | cons id rest =>
    refine ⟨id, List.mem_cons_self, fun x hx => ?_⟩
    obtain rfl | hrest := List.mem_cons.1 hx
    · exact Int.le_refl _
    · exact Int.le_of_lt (of_decide_eq_true (List.rel_of_pairwise_cons hascending hrest))

/-- What holds of a group if and only if it holds of each member. -/
theorem iff_exists_and_iff_forall {members : Frontier} (hne : members ≠ ∅) {P : Prop}
    {Q : StateId → Prop} (hsame : ∀ id ∈ members, P ↔ Q id) :
    (P ↔ ∃ id ∈ members, Q id) ∧ (P ↔ ∀ id ∈ members, Q id) := by
  obtain ⟨id, hid, _⟩ := exists_isLeast_of_ne_empty hne
  refine ⟨⟨fun hP => ⟨id, hid, (hsame id hid).1 hP⟩, ?_⟩,
    ⟨fun hP other hother => (hsame other hother).1 hP, fun hall => (hsame id hid).2 (hall id hid)⟩⟩
  rintro ⟨other, hother, hQ⟩
  exact (hsame other hother).2 hQ

namespace Partition

/-- Every number shows up before any that is higher. -/
def Ordered (p : Partition) : Prop :=
  ∀ b ∈ p.blocks, ∀ c ∈ p.blocks, b < c →
    ∃ before after, p.blocks = before ++ b :: after ∧ c ∉ before

/-- Of two keys the one that was met first has the lower number. -/
theorem exists_before_of_idxOf_fresh_lt {κ : Type} [DecidableEq κ] {known keys : List κ} {k j : κ}
    (hk : k ∈ fresh known keys) (hj : j ∈ fresh known keys)
    (hlt : (fresh known keys).idxOf k < (fresh known keys).idxOf j) :
    ∃ before after, keys = before ++ k :: after ∧ j ∉ before := by
  induction keys generalizing known with
  | nil => cases hk
  | cons x keys ih =>
    have hjnew : j ∉ known := (mem_fresh.1 hj).2
    by_cases hx : x ∈ known
    · simp only [fresh, if_pos hx] at hk hj hlt
      obtain ⟨before, after, rfl, hbefore⟩ := ih hk hj hlt
      have hjx : j ≠ x := fun heq => hjnew (heq ▸ hx)
      exact ⟨x :: before, after, rfl, List.not_mem_cons_of_ne_of_not_mem hjx hbefore⟩
    · simp only [fresh, if_neg hx] at hk hj hlt
      by_cases hkx : k = x
      · exact ⟨[], keys, by rw [hkx]; rfl, List.not_mem_nil⟩
      · have hjx : j ≠ x := by
          rintro rfl
          rw [List.idxOf_cons_self] at hlt
          exact Nat.not_lt_zero _ hlt
        rw [List.idxOf_cons_ne _ (Ne.symm hkx), List.idxOf_cons_ne _ (Ne.symm hjx)] at hlt
        obtain ⟨before, after, rfl, hbefore⟩ := ih ((List.mem_cons.1 hk).resolve_left hkx)
          ((List.mem_cons.1 hj).resolve_left hjx) (Nat.lt_of_succ_lt_succ hlt)
        exact ⟨x :: before, after, rfl, List.not_mem_cons_of_ne_of_not_mem hjx hbefore⟩

/-- Blocks that are numbered as they appear first are ordered by where they
appear first. -/
theorem ordered_ofKeys {κ : Type} [DecidableEq κ] (keys : List κ) : (ofKeys keys).Ordered := by
  intro b hb c hc hlt
  obtain ⟨k, hk, rfl⟩ := List.mem_map.1 hb
  obtain ⟨j, hj, rfl⟩ := List.mem_map.1 hc
  obtain ⟨before, after, hkeys, hbefore⟩ := exists_before_of_idxOf_fresh_lt
    (mem_fresh.2 ⟨hk, List.not_mem_nil⟩) (mem_fresh.2 ⟨hj, List.not_mem_nil⟩) hlt
  have hblocks := congrArg (List.map ((fresh [] keys).idxOf ·)) hkeys
  rw [List.map_append, List.map_cons] at hblocks
  refine ⟨_, _, hblocks, fun hmem => ?_⟩
  obtain ⟨x, hx, hsame⟩ := List.mem_map.1 hmem
  have hxkeys : x ∈ keys := by
    rw [hkeys]
    exact List.mem_append_left _ hx
  exact hbefore ((idxOf_fresh_inj hxkeys hj).1 hsame ▸ hx)

/-- In a list in ascending order, some state of the lower colour comes before all
states of the higher one. -/
theorem Colours.exists_lt {p : Partition} {states : List StateId} {colour : StateId → Nat}
    (hp : p.Colours states colour) (hordered : p.Ordered) (hascending : states.Pairwise (· < ·))
    {a b : StateId} (ha : a ∈ states) (hb : b ∈ states) (hlt : colour a < colour b) :
    ∃ first ∈ states, colour first = colour a ∧
      ∀ later ∈ states, colour later = colour b → first < later := by
  have hblock {id : StateId} (hid : id ∈ states) : colour id ∈ p.blocks := by
    rw [hp.blocks]
    exact List.mem_map_of_mem hid
  obtain ⟨before, after, hblocks, hbefore⟩ := hordered _ (hblock ha) _ (hblock hb) hlt
  rw [hp.blocks] at hblocks
  obtain ⟨front, rest, rfl, rfl, hrest⟩ := List.map_eq_append_iff.1 hblocks
  obtain ⟨first, back, rfl, hfirst, rfl⟩ := List.map_eq_cons_iff.1 hrest
  refine ⟨first, List.mem_append_right _ List.mem_cons_self, hfirst, fun later hlater hcolour => ?_⟩
  obtain hfront | hrest := List.mem_append.1 hlater
  · exact absurd (hcolour ▸ List.mem_map_of_mem hfront) hbefore
  · obtain rfl | hback := List.mem_cons.1 hrest
    · omega
    · exact List.rel_of_pairwise_cons (List.pairwise_append.1 hascending).2.1 hback

end Partition

/-- Refinement numbers its blocks in the order of their first rows. -/
theorem Table.ordered_refine (t : Table) : t.refine.Ordered := by
  obtain ⟨p, hround⟩ := t.exists_round_refineFrom t.initialPartition
  rw [refine, hround]
  exact Partition.ordered_ofKeys _

namespace Quotient

/-- The mapping and the groups are one partition of the states that can be reached:
the groups are the fibres of the mapping, numbered in the order of their least
members. -/
structure Partitions (q : Quotient) (g : Graph) (origin : StateId) : Prop where
  keys_mapping : q.mapping.map (·.1) = (reachable g.transitions origin).toList
  keys_groups : q.groups.map (·.1) = (List.range q.groups.length).map fun n : Nat => (n : StateId)
  mapped : ∀ id b, q.mapping.lookup id = some b → b ∈ q.groups.map (·.1)
  mem_group_iff : ∀ b members, (b, members) ∈ q.groups →
    ∀ id, id ∈ members ↔ q.mapping.lookup id = some b
  group_ne_empty : ∀ b members, (b, members) ∈ q.groups → members ≠ ∅
  least_lt : ∀ b members, (b, members) ∈ q.groups → ∀ c others, (c, others) ∈ q.groups → b < c →
    ∃ first second, IsLeast {id | id ∈ members} first ∧ IsLeast {id | id ∈ others} second ∧
      first < second

/-- The groups are the states of the graph, and what one member does all members
and their state do. -/
structure Collapses (q : Quotient) (g : Graph) (origin : StateId) : Prop where
  ids_eq : q.graph.states.map (·.id) = q.groups.map (·.1)
  issues_eq : (Automaton.dfa q.graph).issues = []
  start : ∃ b, q.mapping.lookup origin = some b ∧ q.graph.soleStart = .ok b
  accepting_iff : ∀ b members, (b, members) ∈ q.groups →
    (q.graph.isAccepting b = true ↔ ∃ id ∈ members, g.isAccepting id = true) ∧
    (q.graph.isAccepting b = true ↔ ∀ id ∈ members, g.isAccepting id = true)
  move_iff : ∀ b members, (b, members) ∈ q.groups → ∀ c others, (c, others) ∈ q.groups →
    ∀ symbol,
    ({ source := b, target := c, symbol : Transition } ∈ q.graph.transitions ↔
      ∃ id ∈ members, ∃ next ∈ others, Deterministic.successor g id symbol = some next) ∧
    ({ source := b, target := c, symbol : Transition } ∈ q.graph.transitions ↔
      ∀ id ∈ members, ∃ next ∈ others, Deterministic.successor g id symbol = some next)

/-- The parts of a result of minimization fit together. -/
structure Consistent (q : Quotient) (g : Graph) (origin : StateId) : Prop extends
    q.Partitions g origin, q.Collapses g origin where
  reachableCount_eq : q.reachableCount = (reachable g.transitions origin).toList.length
  isAlreadyMinimal_iff : q.isAlreadyMinimal = true ↔ ∀ id other b,
    q.mapping.lookup id = some b → q.mapping.lookup other = some b → id = other

end Quotient

namespace Table

variable {g : Graph} {origin : StateId} {p : Partition} {colour : StateId → Nat}

/-- The groups are named by the numbers of the blocks, in order. -/
theorem map_fst_groups (t : Table) (g : Graph) (p : Partition) :
    (t.quotient g p).groups.map (·.1) = (List.range p.count).map fun n : Nat => (n : StateId) := by
  rw [quotient, List.map_map]
  rfl

/-- The mapping knows the states within reach, and gives each the number of its
block. -/
theorem lookup_mapping_eq_some_iff (hp : p.Colours (g.reachableStates origin) colour)
    {id b : StateId} :
    ((ofGraphFrom g origin).quotient g p).mapping.lookup id = some b ↔
      id ∈ g.reachableStates origin ∧ (colour id : StateId) = b := by
  rw [lookup_mapping hp]
  simp

/-- A group consists of the states of one colour, and there is one at least. -/
theorem exists_colour_of_mem_groups (hp : p.Colours (g.reachableStates origin) colour) {b : StateId}
    {members : Frontier} (hgroup : (b, members) ∈ ((ofGraphFrom g origin).quotient g p).groups) :
    ∃ n : Nat, (n : StateId) = b ∧ members ≠ ∅ ∧
      ∀ id, id ∈ members ↔ id ∈ g.reachableStates origin ∧ colour id = n := by
  obtain ⟨n, hn, heq⟩ := List.mem_map.1 hgroup
  obtain ⟨rfl, rfl⟩ := Prod.mk.inj heq
  refine ⟨n, rfl, fun hempty => ?_, fun _ => mem_group_iff hp⟩
  obtain ⟨id, hid, hcolour⟩ := (hp.lt_count_iff n).1 (List.mem_range.1 hn)
  have hmember := (mem_group_iff hp).2 ⟨hid, hcolour⟩
  rw [hempty] at hmember
  exact SortedSet.notMem_empty hmember

/-- The states within reach are listed in ascending order. -/
theorem pairwise_lt_reachableStates (g : Graph) (origin : StateId) :
    (g.reachableStates origin).Pairwise (· < ·) :=
  (SortedSet.ascending _).imp of_decide_eq_true

/-- Mapping and groups are two views of one partition of the states within
reach. -/
theorem partitions_quotient (hp : p.Colours (g.reachableStates origin) colour)
    (hordered : p.Ordered) : ((ofGraphFrom g origin).quotient g p).Partitions g origin where
  keys_mapping := by
    rw [mapping_quotient hp, List.map_map]
    exact List.map_id _
  keys_groups := by
    have hlength := congrArg List.length (map_fst_groups (ofGraphFrom g origin) g p)
    rw [List.length_map, List.length_map, List.length_range] at hlength
    rw [map_fst_groups, hlength]
  mapped id b hlookup := by
    obtain ⟨hid, rfl⟩ := (lookup_mapping_eq_some_iff hp).1 hlookup
    rw [map_fst_groups]
    exact List.mem_map_of_mem (List.mem_range.2 ((hp.lt_count_iff _).2 ⟨id, hid, rfl⟩))
  mem_group_iff b members hgroup id := by
    obtain ⟨n, rfl, _, hmembers⟩ := exists_colour_of_mem_groups hp hgroup
    rw [hmembers, lookup_mapping_eq_some_iff hp, Int.ofNat_inj]
  group_ne_empty b members hgroup := by
    obtain ⟨n, _, hne, _⟩ := exists_colour_of_mem_groups hp hgroup
    exact hne
  least_lt b members hgroup c others hgroup' hlt := by
    obtain ⟨n, rfl, hne, hmembers⟩ := exists_colour_of_mem_groups hp hgroup
    obtain ⟨m, rfl, hne', hothers⟩ := exists_colour_of_mem_groups hp hgroup'
    obtain ⟨first, hfirst⟩ := exists_isLeast_of_ne_empty hne
    obtain ⟨second, hsecond⟩ := exists_isLeast_of_ne_empty hne'
    obtain ⟨hfirstMem, rfl⟩ := (hmembers first).1 hfirst.1
    obtain ⟨hsecondMem, rfl⟩ := (hothers second).1 hsecond.1
    -- some member of the first group comes before the whole of the second
    obtain ⟨early, hearly, hcolour, hbefore⟩ := hp.exists_lt hordered
      (pairwise_lt_reachableStates g origin) hfirstMem hsecondMem (Int.ofNat_lt.1 hlt)
    refine ⟨first, second, hfirst, hsecond, ?_⟩
    calc first ≤ early := hfirst.2 ((hmembers early).2 ⟨hearly, hcolour⟩)
      _ < second := hbefore second hsecondMem rfl

/-- A block moves to another on a symbol exactly if the successor of any given
member is in the other. -/
theorem quotientGraph_move_iff (hp : p.Colours (g.reachableStates origin) colour)
    (hstable : Stable g (g.reachableStates origin) colour) {id : StateId}
    (hid : id ∈ g.reachableStates origin) {target : StateId} {symbol : Char} :
    { source := colour id, target, symbol : Transition } ∈
        ((ofGraphFrom g origin).quotientGraph p).transitions ↔
      ∃ next, Deterministic.successor g id symbol = some next ∧
        (colour next : StateId) = target := by
  rw [mem_quotientGraph_transitions_iff hp]
  constructor
  · rintro ⟨other, hother, c, q, hsuccessor, heq⟩
    injection heq with hsource htarget hsymbol
    subst hsymbol htarget
    have hsame := hstable.successor_eq id hid other hother (Int.ofNat_inj.1 hsource) symbol
    rw [hsuccessor] at hsame
    obtain ⟨next, hnext, hcolour⟩ := Option.map_eq_some_iff.1 hsame
    exact ⟨next, hnext, congrArg Nat.cast hcolour⟩
  · rintro ⟨next, hnext, rfl⟩
    exact ⟨id, hid, symbol, next, hnext, rfl⟩

end Table

namespace Graph

variable {g : Graph} {origin : StateId} {block : StateId → Nat}

/-- The new graph has a state for every block, and a move for every move between
blocks. -/
theorem Classifies.collapses (hblock : g.Classifies origin block) :
    ((Table.ofGraphFrom g origin).quotient g (Table.ofGraphFrom g origin).refine).Collapses
      g origin where
  ids_eq := by
    rw [Table.map_fst_groups, ← length_states_minimized]
    exact g.ids_minimized origin
  issues_eq := issues_dfa_eq_nil_iff.2 hblock.properDfa_minimized
  start := ⟨block origin, (Table.lookup_mapping_eq_some_iff hblock.colours).2
    ⟨g.origin_mem_reachableStates origin, rfl⟩, hblock.soleStart_minimized⟩
  accepting_iff b members hgroup := by
    obtain ⟨n, rfl, hne, hmembers⟩ := Table.exists_colour_of_mem_groups hblock.colours hgroup
    refine iff_exists_and_iff_forall hne fun id hid => ?_
    obtain ⟨hreached, rfl⟩ := (hmembers id).1 hid
    exact Bool.eq_iff_iff.1
      (Table.isAccepting_quotientGraph hblock.colours hblock.stable hreached)
  move_iff b members hgroup c others hgroup' symbol := by
    obtain ⟨n, rfl, hne, hmembers⟩ := Table.exists_colour_of_mem_groups hblock.colours hgroup
    obtain ⟨m, rfl, _, hothers⟩ := Table.exists_colour_of_mem_groups hblock.colours hgroup'
    refine iff_exists_and_iff_forall hne fun id hid => ?_
    obtain ⟨hreached, rfl⟩ := (hmembers id).1 hid
    refine (Table.quotientGraph_move_iff hblock.colours hblock.stable hreached).trans
      (exists_congr fun next => ?_)
    rw [hothers, Int.ofNat_inj]
    constructor
    · rintro ⟨hnext, hcolour⟩
      exact ⟨⟨Table.successor_mem_reachableStates hreached hnext, hcolour⟩, hnext⟩
    · rintro ⟨⟨_, hcolour⟩, hnext⟩
      exact ⟨hnext, hcolour⟩

/-- As many blocks as states means that no two states share one. -/
theorem Classifies.isAlreadyMinimal_iff (hblock : g.Classifies origin block) :
    ((Table.ofGraphFrom g origin).quotient g
        (Table.ofGraphFrom g origin).refine).isAlreadyMinimal = true ↔
      ∀ a ∈ g.reachableStates origin, ∀ b ∈ g.reachableStates origin,
        block a = block b → a = b := by
  have hminimized : ((Table.ofGraphFrom g origin).quotient g
      (Table.ofGraphFrom g origin).refine).minimizedCount =
        ((g.reachableStates origin).toFinset.image block).card := by
    rw [hblock.colours.card_image]
    exact g.length_states_minimized origin
  have hreachable : ((Table.ofGraphFrom g origin).quotient g
      (Table.ofGraphFrom g origin).refine).reachableCount =
        (g.reachableStates origin).toFinset.card := by
    have hnodup : (g.reachableStates origin).Nodup := SortedSet.nodup_toList _
    rw [List.toFinset_card_of_nodup hnodup]
    exact Table.length_rows_ofGraphFrom g origin
  rw [Quotient.isAlreadyMinimal, decide_eq_true_eq, hminimized, hreachable, Finset.card_image_iff]
  simp only [Set.InjOn, Finset.mem_coe, List.mem_toFinset]

/-- Minimization succeeds for every graph with one start state, and what it
returns fits together. -/
theorem minimize_is_consistent (g : Graph) {origin : StateId}
    (hstart : g.soleStart = .ok origin) :
    ∃ q, g.minimizeChecked = .ok q ∧ g.minimize = .ok q ∧ q.Consistent g origin := by
  obtain ⟨block, hblock⟩ := g.exists_classifies origin
  refine ⟨_, minimizeChecked_of_soleStart hstart, minimize_of_soleStart hstart,
    { Table.partitions_quotient hblock.colours (Table.ordered_refine _), hblock.collapses with
      reachableCount_eq := Table.length_rows_ofGraphFrom g origin
      isAlreadyMinimal_iff := ?_ }⟩
  rw [hblock.isAlreadyMinimal_iff]
  simp only [Table.lookup_mapping_eq_some_iff hblock.colours]
  constructor
  · rintro hinj id other _ ⟨hid, rfl⟩ ⟨hother, hsame⟩
    exact hinj id hid other hother (Int.ofNat_inj.1 hsame.symm)
  · intro hinj a ha b hb hsame
    exact hinj a b _ ⟨ha, rfl⟩ ⟨hb, by rw [hsame]⟩

/-- A graph with a repeated number, two moves on a symbol, a silent move and a move
to an unknown state. -/
theorem minimize_is_consistent_of_dangling :
    let g : Graph :=
      { states := [{ id := 5, isStart := true }, { id := 2, isAccepting := true }, { id := 2 },
          { id := 7, isAccepting := true }, { id := 8 }]
        transitions := [
          { source := 5, target := 2, symbol := 'a' },
          { source := 5, target := 8, symbol := 'a' },
          { source := 5, target := 7, symbol := 'b' },
          { source := 2, target := 9, symbol := 'b' },
          { source := 7, target := 9, symbol := 'b' },
          { source := 9, target := 3, symbol := epsilon }] }
    g.soleStart = .ok 5 ∧
      ∃ q, g.minimizeChecked = .ok q ∧ g.minimize = .ok q ∧ q.Consistent g 5 :=
  ⟨rfl, minimize_is_consistent _ rfl⟩

end Graph

end Automata
