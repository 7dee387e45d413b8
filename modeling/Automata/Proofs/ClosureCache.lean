import Automata.Proofs.Closure

namespace Automata

namespace ClosureCache

variable {g : Graph} {cache : ClosureCache}

/-- What the cache knows is right. -/
def Sound (g : Graph) (cache : ClosureCache) : Prop :=
  ∀ id closure, cache.known.lookup id = some closure → closure = g.epsilonClosure (.singleton id)

theorem sound_empty (g : Graph) : Sound g {} := nofun

/-- A query answers with the closure, whatever was asked before, and leaves the
cache right. -/
theorem Sound.closureOf (hcache : Sound g cache) (id : StateId) :
    (cache.closureOf g id).1 = g.epsilonClosure (.singleton id) ∧
      Sound g (cache.closureOf g id).2 := by
  unfold ClosureCache.closureOf
  split
  · rename_i closure hknown
    exact ⟨hcache id closure hknown, hcache⟩
  · refine ⟨rfl, fun other closure hlookup => ?_⟩
    rw [List.lookup_cons] at hlookup
    by_cases hsame : other = id
    · subst hsame
      simpa using hlookup.symm
    · rw [beq_false_of_ne hsame] at hlookup
      exact hcache other closure hlookup

/-- The union of what was found and one more closure, with the cache after it. -/
def extend (g : Graph) (found : Frontier × ClosureCache) (id : StateId) :
    Frontier × ClosureCache :=
  (found.1 ∪ (found.2.closureOf g id).1, (found.2.closureOf g id).2)

/-- Putting a closure together from those of several states adds exactly their
members, and the cache stays sound. -/
theorem Sound.foldl_extend (found : Frontier × ClosureCache) (hfound : Sound g found.2)
    (ids : List StateId) :
    (∀ q, q ∈ (ids.foldl (extend g) found).1 ↔
      q ∈ found.1 ∨ ∃ p ∈ ids, q ∈ g.epsilonClosure (.singleton p)) ∧
      Sound g (ids.foldl (extend g) found).2 := by
  induction ids generalizing found with
  | nil => exact ⟨fun q => by simp, hfound⟩
  | cons id ids ih =>
    obtain ⟨hanswer, hnext⟩ := hfound.closureOf id
    obtain ⟨hmembers, hsound⟩ := ih (extend g found id) hnext
    refine ⟨fun q => (hmembers q).trans ?_, hsound⟩
    simp [extend, hanswer, or_assoc]

/-- The closure of states that are listed one after another, and the cache with it. A state may be
listed more than once. -/
def closureOfList (g : Graph) (cache : ClosureCache) (ids : List StateId) :
    Frontier × ClosureCache :=
  ids.foldl (extend g) (∅, cache)

theorem closureOfSet_eq (g : Graph) (cache : ClosureCache) (ids : Frontier) :
    cache.closureOfSet g ids = cache.closureOfList g ids.toList :=
  rfl

/-- The closure of several states is put together from those of each. -/
theorem Sound.closureOfList (hcache : Sound g cache) (ids : List StateId) :
    (cache.closureOfList g ids).1 = g.epsilonClosure (.ofList ids) ∧
      Sound g (cache.closureOfList g ids).2 := by
  obtain ⟨hmembers, hsound⟩ := Sound.foldl_extend (∅, cache) hcache ids
  refine ⟨SortedSet.ext fun q => (hmembers q).trans ?_, hsound⟩
  simp only [SortedSet.notMem_empty, false_or, SortedSet.mem_ofList, Graph.mem_epsilonClosure_iff,
    SortedSet.mem_singleton, exists_eq_left]

/-- A sound cache answers with the closure of the set, and stays sound. -/
theorem Sound.closureOfSet (hcache : Sound g cache) (ids : Frontier) :
    (cache.closureOfSet g ids).1 = g.epsilonClosure ids ∧
      Sound g (cache.closureOfSet g ids).2 := by
  have hlist := hcache.closureOfList ids.toList
  rwa [SortedSet.ofList_toList, ← closureOfSet_eq] at hlist

/-- A question to a cache: the closure of one state, of a set, or of states in any order. -/
inductive Query where
  | state (id : StateId)
  | set (ids : Frontier)
  | list (ids : List StateId)

/-- The states whose closure is asked for. -/
def Query.seeds : Query → Frontier
  | state id => .singleton id
  | set ids => ids
  | list ids => .ofList ids

/-- The answer to a question, and the cache with what was learned on the way. -/
def answer (g : Graph) (cache : ClosureCache) : Query → Frontier × ClosureCache
  | .state id => cache.closureOf g id
  | .set ids => cache.closureOfSet g ids
  | .list ids => cache.closureOfList g ids

/-- The answers to questions that are put one after another, all to one cache. -/
def answers (g : Graph) (cache : ClosureCache) : List Query → List Frontier
  | [] => []
  | query :: queries =>
    (cache.answer g query).1 :: answers g (cache.answer g query).2 queries

/-- Whatever is asked, a sound cache answers with the closure and stays
sound. -/
theorem Sound.answer (hcache : Sound g cache) (query : Query) :
    (cache.answer g query).1 = g.epsilonClosure query.seeds ∧
      Sound g (cache.answer g query).2 := by
  cases query with
  | state id => exact hcache.closureOf id
  | set ids => exact hcache.closureOfSet ids
  | list ids => exact hcache.closureOfList ids

/-- Each answer is that to its own question, whatever was asked before. -/
theorem Sound.answers_eq (hcache : Sound g cache) (queries : List Query) :
    cache.answers g queries = queries.map fun query => g.epsilonClosure query.seeds := by
  induction queries generalizing cache with
  | nil => rfl
  | cons query queries ih =>
    obtain ⟨hanswer, hnext⟩ := hcache.answer query
    rw [answers, List.map_cons, hanswer, ih hnext]

end ClosureCache

end Automata
