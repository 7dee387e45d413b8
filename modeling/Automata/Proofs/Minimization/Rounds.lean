import Automata.Proofs.Exploration
import Automata.Proofs.Minimization.Consistency
import Automata.Proofs.Run.Machine

namespace Automata

namespace Partition

/-- Rows with one number have one number in the other partition as well. -/
structure Refines (p q : Partition) : Prop where
  length_eq : p.blocks.length = q.blocks.length
  together : ∀ (i j b : Nat), p.blocks[i]? = some b → p.blocks[j]? = some b →
    q.blocks[i]? = q.blocks[j]?

/-- The numbers are those below the count, given out in the order of first appearance: what stands
before the first place of a number are exactly the lower ones. -/
structure Canonical (p : Partition) : Prop where
  mem_blocks_iff : ∀ b, b ∈ p.blocks ↔ b < p.count
  mem_iff_lt_of_new : ∀ before b after, p.blocks = before ++ b :: after → b ∉ before →
    ∀ c, c ∈ before ↔ c < b

variable {p q : Partition} {states : List StateId} {colour colour' : StateId → Nat}

/-- A finer colouring makes a finer partition. -/
theorem Colours.refines (hp : p.Colours states colour) (hq : q.Colours states colour')
    (hfiner : ∀ a ∈ states, ∀ b ∈ states, colour a = colour b → colour' a = colour' b) :
    p.Refines q := by
  refine ⟨by rw [hp.blocks, hq.blocks, List.length_map, List.length_map], fun i j n hi hj => ?_⟩
  rw [hp.blocks, List.getElem?_map, Option.map_eq_some_iff] at hi hj
  obtain ⟨a, ha, rfl⟩ := hi
  obtain ⟨b, hb, hsame⟩ := hj
  rw [hq.blocks, List.getElem?_map, List.getElem?_map, ha, hb]
  exact congrArg some
    (hfiner a (List.mem_of_getElem? ha) b (List.mem_of_getElem? hb) hsame.symm)

/-- A key keeps its number whatever keys come later. -/
theorem idxOf_fresh_append {κ : Type} [DecidableEq κ] (front rest : List κ) {k : κ}
    (hk : k ∈ front) : (fresh [] (front ++ rest)).idxOf k = (fresh [] front).idxOf k := by
  rw [fresh_append]
  exact List.idxOf_append_of_mem (mem_fresh.2 ⟨hk, List.not_mem_nil⟩)

/-- A new key gets the number of the keys met so far. -/
theorem idxOf_fresh_of_new {κ : Type} [DecidableEq κ] {front : List κ} (rest : List κ) {k : κ}
    (hk : k ∉ front) : (fresh [] (front ++ k :: rest)).idxOf k = (ofKeys front).count := by
  have hnew : k ∉ fresh [] front := fun hmet => hk (mem_fresh.1 hmet).1
  rw [fresh_append, List.nil_append, List.idxOf_append_of_notMem hnew, fresh, if_neg hnew,
    List.idxOf_cons_self]
  rfl

/-- Blocks that are numbered as they appear first are numbered canonically. -/
theorem canonical_ofKeys {κ : Type} [DecidableEq κ] (keys : List κ) : (ofKeys keys).Canonical where
  mem_blocks_iff _ := mem_blocks_ofKeys_iff
  mem_iff_lt_of_new before b after hblocks hnew c := by
    obtain ⟨front, rest, rfl, rfl, hrest⟩ := List.map_eq_append_iff.1 hblocks
    obtain ⟨k, back, rfl, rfl, rfl⟩ := List.map_eq_cons_iff.1 hrest
    have hk : k ∉ front := fun hmet => hnew (List.mem_map_of_mem hmet)
    have hfront : front.map ((fresh [] (front ++ k :: back)).idxOf ·) = (ofKeys front).blocks :=
      List.map_congr_left fun j hj => idxOf_fresh_append front _ hj
    rw [hfront, idxOf_fresh_of_new back hk]
    exact mem_blocks_ofKeys_iff

/-- Numbers that are new after the same beginning are the same. -/
theorem Canonical.eq_of_new (hp : p.Canonical) (hq : q.Canonical) {before after after' : List Nat}
    {b c : Nat} (hblocks : p.blocks = before ++ b :: after)
    (hblocks' : q.blocks = before ++ c :: after') (hb : b ∉ before) (hc : c ∉ before) : b = c := by
  refine eq_of_forall_lt_iff fun d => ?_
  rw [← hp.mem_iff_lt_of_new before b after hblocks hb,
    hq.mem_iff_lt_of_new before c after' hblocks' hc]

/-- A row with a number from before has a number from before in the coarser partition as well. -/
theorem Refines.eq_of_mem (hpq : p.Refines q) {before after after' : List Nat} {b c : Nat}
    (hblocks : p.blocks = before ++ b :: after) (hblocks' : q.blocks = before ++ c :: after')
    (hb : b ∈ before) : b = c := by
  obtain ⟨i, hi⟩ := List.mem_iff_getElem?.1 hb
  have hlt : i < before.length := (List.getElem?_eq_some_iff.1 hi).1
  have hsame := hpq.together i before.length b (by rw [hblocks, List.getElem?_append_left hlt, hi])
    (by rw [hblocks]; simp)
  rw [hblocks', List.getElem?_append_left hlt, hi] at hsame
  simpa using hsame

/-- After the same beginning the numbers of two partitions that refine each other go on alike. -/
theorem Canonical.rest_eq (hp : p.Canonical) (hq : q.Canonical) (hpq : p.Refines q)
    (hqp : q.Refines p) {before rest rest' : List Nat} (hblocks : p.blocks = before ++ rest)
    (hblocks' : q.blocks = before ++ rest') (hlength : rest.length = rest'.length) :
    rest = rest' := by
  induction rest generalizing before rest' with
  | nil => exact (List.length_eq_zero_iff.1 hlength.symm).symm
  | cons b rest ih =>
    obtain ⟨c, rest', rfl⟩ := List.exists_cons_of_length_eq_add_one hlength.symm
    obtain rfl : b = c := by
      by_cases hb : b ∈ before
      · exact hpq.eq_of_mem hblocks hblocks' hb
      · by_cases hc : c ∈ before
        · exact (hqp.eq_of_mem hblocks' hblocks hc).symm
        · exact hp.eq_of_new hq hblocks hblocks' hb hc
    rw [List.append_cons] at hblocks hblocks'
    exact congrArg (b :: ·) (ih hblocks hblocks' (Nat.succ.inj hlength))

/-- Rows that are put together alike are numbered alike. -/
theorem Canonical.eq_of_refines (hp : p.Canonical) (hq : q.Canonical) (hpq : p.Refines q)
    (hqp : q.Refines p) : p = q := by
  have hblocks : p.blocks = q.blocks :=
    hp.rest_eq hq hpq hqp (List.nil_append _).symm (List.nil_append _).symm hpq.length_eq
  have hcount : p.count = q.count := eq_of_forall_lt_iff fun b => by
    rw [← hp.mem_blocks_iff, ← hq.mem_blocks_iff, hblocks]
  obtain ⟨blocks, count⟩ := p
  obtain ⟨rfl, rfl⟩ := And.intro hblocks hcount
  rfl

end Partition

namespace Table

/-- The partition after some rounds. Before the first it is the one by acceptance. -/
def rounds (t : Table) (k : Nat) : Partition := Nat.repeat t.round k t.initialPartition

/-- Every state that a row leads into has a row. -/
def Closed (t : Table) : Prop :=
  ∀ row ∈ t.rows, ∀ id, some id ∈ row.successors → id ∈ t.rows.map (·.state)

/-- The given round is the first that leaves the count as it is. -/
structure StopsAfter (t : Table) (n : Nat) : Prop where
  pos : 0 < n
  count_eq : (t.rounds n).count = (t.rounds (n - 1)).count
  count_ne : ∀ k, 0 < k → k < n → (t.rounds k).count ≠ (t.rounds (k - 1)).count

/-- Refinement takes the given number of rounds. None of them looks up a state without a row or
joins blocks, and another round would change nothing. -/
structure RefinedAfter (t : Table) (n : Nat) : Prop extends t.StopsAfter n where
  roundChecked_eq_ok : ∀ k, t.roundChecked (t.rounds k) = .ok (t.rounds (k + 1))
  refines : ∀ k, (t.rounds (k + 1)).Refines (t.rounds k)
  refineChecked_eq_ok : t.refineChecked = .ok (t.rounds n)
  length_eq : (t.rounds n).blocks.length = t.rows.length
  canonical : (t.rounds n).Canonical
  round_eq : t.round (t.rounds n) = t.rounds n

/-- Every round numbers its blocks canonically. -/
theorem canonical_rounds (t : Table) (k : Nat) : (t.rounds k).Canonical := by
  cases k with
  | zero => exact Partition.canonical_ofKeys _
  | succ k => exact Partition.canonical_ofKeys _

/-- No round makes more blocks than there are rows. -/
theorem count_rounds_le (t : Table) (k : Nat) : (t.rounds k).count ≤ t.rows.length := by
  cases k with
  | zero =>
    have hle := length_fresh_le [] (t.rows.map (·.isFinal))
    rwa [List.length_map] at hle
  | succ k => exact t.count_round_le _

/-- The rounds end as soon as the blocks have not become more. -/
theorem exists_rounds_refineFrom (t : Table) (p : Partition) :
    ∃ n, t.refineFrom p = Nat.repeat t.round (n + 1) p ∧
      (Nat.repeat t.round (n + 1) p).count ≤ (Nat.repeat t.round n p).count ∧
      ∀ k < n, (Nat.repeat t.round k p).count < (Nat.repeat t.round (k + 1) p).count := by
  fun_induction refineFrom t p with
  | case1 p next hmore ih =>
    obtain ⟨n, hrefine, hlast, hgrow⟩ := ih
    have hshift (k : Nat) : Nat.repeat t.round k next = Nat.repeat t.round (k + 1) p := by
      rw [Nat.add_comm]
      exact repeat_add t.round p 1 k
    simp only [hshift] at hrefine hlast hgrow
    refine ⟨n + 1, hrefine, hlast, fun k hk => ?_⟩
    cases k with
    | zero => exact hmore
    | succ k => exact hgrow k (Nat.lt_of_succ_lt_succ hk)
  | case2 p next hmore =>
    exact ⟨0, rfl, Nat.le_of_not_lt hmore, fun k hk => absurd hk (Nat.not_lt_zero k)⟩

/-- Every round that adds a block leaves one block more to be bounded. -/
theorem lt_count_rounds {t : Table} {n : Nat} (hpos : 0 < (t.rounds 0).count)
    (hgrow : ∀ k < n, (t.rounds k).count < (t.rounds (k + 1)).count) : n < (t.rounds n).count := by
  induction n with
  | zero => exact hpos
  | succ n ih =>
    calc n + 1 ≤ (t.rounds n).count := ih fun k hk => hgrow k (Nat.lt_succ_of_lt hk)
      _ < (t.rounds (n + 1)).count := hgrow n (Nat.lt_succ_self n)

variable {g : Graph} {origin : StateId} {p : Partition} {colour : StateId → Nat}

/-- What a row leads to has a row. -/
theorem closed_ofGraphFrom (g : Graph) (origin : StateId) : (ofGraphFrom g origin).Closed := by
  intro row hrow id hid
  rw [rows_ofGraphFrom] at hrow
  obtain ⟨source, hsource, rfl⟩ := List.mem_map.1 hrow
  obtain ⟨c, _, hsuccessor⟩ := List.mem_map.1 hid
  rw [map_state_rows]
  exact successor_mem_reachableStates hsource hsuccessor

/-- The blocks of every round colour the states within reach. -/
theorem exists_colours_rounds (g : Graph) (origin : StateId) (k : Nat) :
    ∃ colour, ((ofGraphFrom g origin).rounds k).Colours (g.reachableStates origin) colour := by
  induction k with
  | zero =>
    obtain ⟨colour, hcolour, _⟩ := exists_colours_initialPartition g origin
    exact ⟨colour, hcolour⟩
  | succ k ih =>
    obtain ⟨colour, hcolour⟩ := ih
    obtain ⟨colour', hcolour', _⟩ := exists_colours_round hcolour
    exact ⟨colour', hcolour'⟩

/-- A round splits blocks and joins none. If it adds no block it splits none. -/
theorem refines_round (hp : p.Colours (g.reachableStates origin) colour) :
    ((ofGraphFrom g origin).round p).Refines p ∧
      (((ofGraphFrom g origin).round p).count ≤ p.count →
        p.Refines ((ofGraphFrom g origin).round p)) := by
  obtain ⟨colour', hround, hsignature⟩ := exists_colours_round hp
  have hfiner : ∀ a ∈ g.reachableStates origin, ∀ b ∈ g.reachableStates origin,
      colour' a = colour' b → colour a = colour b := by
    intro a ha b hb hab
    exact congrArg Prod.fst ((hsignature a ha b hb).1 hab)
  refine ⟨hround.refines hp hfiner, fun hcount => ?_⟩
  have hsame := hp.samePartition_of_count_le hround hfiner hcount
  exact hp.refines hround fun a ha b hb => (hsame a ha b hb).1

/-- A round that adds no block changes nothing, the numbers included. -/
theorem rounds_succ_eq_of_count_le {k : Nat}
    (hcount : ((ofGraphFrom g origin).rounds (k + 1)).count ≤
      ((ofGraphFrom g origin).rounds k).count) :
    (ofGraphFrom g origin).rounds (k + 1) = (ofGraphFrom g origin).rounds k := by
  obtain ⟨colour, hcolour⟩ := exists_colours_rounds g origin k
  obtain ⟨hfiner, hcoarser⟩ := refines_round hcolour
  exact (canonical_rounds _ _).eq_of_refines (canonical_rounds _ _) hfiner (hcoarser hcount)

/-- Refinement comes to its end after at most as many rounds as there are
rows. -/
theorem exists_refinedAfter (g : Graph) (origin : StateId) :
    ∃ n ≤ (ofGraphFrom g origin).rows.length, (ofGraphFrom g origin).RefinedAfter n := by
  obtain ⟨n, hrefine, hlast, hgrow⟩ :=
    exists_rounds_refineFrom (ofGraphFrom g origin) (ofGraphFrom g origin).initialPartition
  have hsame := rounds_succ_eq_of_count_le hlast
  have hpos : 0 < ((ofGraphFrom g origin).rounds 0).count := by
    obtain ⟨colour, hcolour⟩ := exists_colours_rounds g origin 0
    exact Nat.zero_lt_of_lt
      ((hcolour.lt_count_iff _).2 ⟨origin, g.origin_mem_reachableStates origin, rfl⟩)
  refine ⟨n + 1, Nat.lt_of_lt_of_le (lt_count_rounds hpos hgrow) (count_rounds_le _ n), ?_⟩
  exact {
    pos := Nat.succ_pos n
    count_eq := congrArg Partition.count hsame
    count_ne := fun k hk hkn => by
      obtain ⟨j, rfl⟩ := Nat.exists_eq_succ_of_ne_zero (Nat.ne_of_gt hk)
      exact Nat.ne_of_gt (hgrow j (Nat.lt_of_succ_lt_succ hkn))
    roundChecked_eq_ok := fun k => by
      obtain ⟨colour, hcolour⟩ := exists_colours_rounds g origin k
      exact roundChecked_eq_ok hcolour
    refines := fun k => by
      obtain ⟨colour, hcolour⟩ := exists_colours_rounds g origin k
      exact (refines_round hcolour).1
    refineChecked_eq_ok := by
      rw [refineChecked_eq_ok, refine, hrefine]
      rfl
    length_eq := by
      obtain ⟨colour, hcolour⟩ := exists_colours_rounds g origin (n + 1)
      rw [hcolour.blocks, List.length_map, length_rows_ofGraphFrom]
    canonical := canonical_rounds _ _
    round_eq := by
      rw [hsame]
      exact hsame }

end Table

namespace Graph

/-- Refinement of the table of a graph with one start state takes at most as many rounds as there
are rows, and ends with blocks numbered as they first appear. -/
theorem refinement_ends_with_canonical_numbers (g : Graph) {origin : StateId}
    (hstart : g.soleStart = .ok origin) :
    ∃ t n, Table.ofGraph g = .ok t ∧ t.Closed ∧ n ≤ t.rows.length ∧ t.RefinedAfter n := by
  obtain ⟨n, hn, hrefined⟩ := Table.exists_refinedAfter g origin
  exact ⟨Table.ofGraphFrom g origin, n, Table.ofGraph_of_soleStart hstart,
    Table.closed_ofGraphFrom g origin, hn, hrefined⟩

/-- Moves in a circle through an accepting state and one that is not listed. -/
theorem refinement_ends_with_canonical_numbers_of_dangling :
    let g : Graph :=
      { states := [{ id := 4, isStart := true }, { id := 2 }, { id := 7, isAccepting := true },
          { id := 8 }]
        transitions := [
          { source := 4, target := 2, symbol := 'a' },
          { source := 2, target := 7, symbol := 'a' },
          { source := 7, target := 9, symbol := 'b' },
          { source := 9, target := 4, symbol := 'b' }] }
    g.soleStart = .ok 4 ∧
      ∃ t n, Table.ofGraph g = .ok t ∧ t.Closed ∧ n ≤ t.rows.length ∧ t.RefinedAfter n :=
  ⟨rfl, refinement_ends_with_canonical_numbers _ rfl⟩

-- as many rounds as rows, if every round but the last splits off one row
example :
    let t : Table :=
      { symbols := ['a']
        rows := [{ state := 0, isInitial := true, isFinal := true, successors := [some 1] },
          { state := 1, isInitial := false, isFinal := true, successors := [some 2] },
          { state := 2, isInitial := false, isFinal := true, successors := [none] }] }
    (List.range 4).map (fun k => (t.rounds k).blocks) =
      [[0, 0, 0], [0, 0, 1], [0, 1, 2], [0, 1, 2]] := by
  decide

end Graph

end Automata
