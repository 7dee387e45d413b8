import Automata.Proofs.Closure
import Automata.Run.Frontier

namespace Automata

/-- What a move contributes to the word along a path: its symbol, or nothing. -/
def Transition.label (t : Transition) : List Char :=
  if t.isEpsilon then [] else [t.symbol]

theorem Transition.label_of_isEpsilon {t : Transition} (hsilent : t.isEpsilon = true) :
    t.label = [] :=
  if_pos hsilent

/-- A move spells the symbols that it reads. -/
theorem Transition.label_eq_singleton_iff {t : Transition} {c : Char} :
    t.label = [c] ↔ t.reads c = true := by
  unfold label reads
  cases t.isEpsilon <;> simp

/-- Only silent moves spell nothing. -/
theorem Transition.label_eq_nil_iff {t : Transition} : t.label = [] ↔ t.isEpsilon = true := by
  unfold label
  cases t.isEpsilon <;> simp

theorem Transition.label_of_reads {t : Transition} {c : Char} (hreads : t.reads c = true) :
    t.label = [c] :=
  label_eq_singleton_iff.2 hreads

/-- Whether a machine follows a move at all. -/
def Silence.Takes (silence : Silence) (t : Transition) : Prop :=
  silence = .ignored → t.isEpsilon = false

/-- A move that reads is taken by every machine. -/
theorem Silence.takes_of_reads (silence : Silence) {t : Transition} {c : Char}
    (hreads : t.reads c = true) : silence.Takes t := by
  intro _
  simp only [Transition.reads, Bool.and_eq_true, Bool.not_eq_true'] at hreads
  exact hreads.1

theorem Silence.takes_followed (t : Transition) : Silence.followed.Takes t := nofun

/-- A path along listed moves, with the word that its moves spell. -/
inductive Path (silence : Silence) (moves : List Transition) :
    StateId → List Char → StateId → Prop where
  | nil (q : StateId) : Path silence moves q [] q
  | cons {t : Transition} {word : List Char} {q : StateId} (hmove : t ∈ moves)
      (htakes : silence.Takes t) (rest : Path silence moves t.target word q) :
      Path silence moves t.source (t.label ++ word) q

namespace Path

variable {silence : Silence} {moves : List Transition} {p q r : StateId}

/-- Paths that meet make one path, which spells both words. -/
theorem append {u v : List Char} (hfirst : Path silence moves p u q)
    (hsecond : Path silence moves q v r) : Path silence moves p (u ++ v) r := by
  induction hfirst with
  | nil => exact hsecond
  | cons hmove htakes _ ih =>
    rw [List.append_assoc]
    exact .cons hmove htakes (ih hsecond)

theorem single {t : Transition} (hmove : t ∈ moves) (htakes : silence.Takes t) :
    Path silence moves t.source t.label t.target := by
  simpa using Path.cons hmove htakes (.nil t.target)

/-- More moves leave every path in place. -/
theorem mono {more : List Transition} (hsub : ∀ t ∈ moves, t ∈ more) {word : List Char}
    (hpath : Path silence moves p word q) : Path silence more p word q := by
  induction hpath with
  | nil q => exact .nil q
  | cons hmove htakes _ ih => exact .cons (hsub _ hmove) htakes ih

/-- Reading a word with a first symbol passes a move that reads it, before
which the path is silent. -/
theorem exists_reads {c : Char} {word : List Char} (hpath : Path silence moves p (c :: word) q) :
    ∃ t ∈ moves, Path silence moves p [] t.source ∧ t.reads c = true ∧
      Path silence moves t.target word q := by
  generalize hspelled : c :: word = spelled at hpath
  induction hpath with
  | nil => cases hspelled
  | @cons t rest q hmove htakes hrest ih =>
    by_cases hsilent : t.isEpsilon = true
    · have hlabel := Transition.label_of_isEpsilon hsilent
      rw [hlabel, List.nil_append] at hspelled
      obtain ⟨u, hu, hbefore, hreads, hafter⟩ := ih hspelled
      refine ⟨u, hu, ?_, hreads, hafter⟩
      simpa [hlabel] using Path.append (single hmove htakes) hbefore
    · have hreads : t.reads c = true := by
        simp only [Transition.label, hsilent, Bool.false_eq_true, if_false,
          List.singleton_append, List.cons.injEq] at hspelled
        simp [Transition.reads, hsilent, hspelled.1]
      rw [Transition.label_of_reads hreads, List.singleton_append, List.cons.injEq] at hspelled
      exact ⟨t, hmove, .nil _, hreads, hspelled.2 ▸ hrest⟩

/-- A path stays where the moves lead to. -/
theorem end_of_targets {P : StateId → Prop} (htargets : ∀ t ∈ moves, P t.target)
    {word : List Char} (hpath : Path silence moves p word q) (hp : P p) : P q := by
  induction hpath with
  | nil => exact hp
  | cons hmove _ _ ih => exact ih (htargets _ hmove)

/-- The reserved symbol is never spelled. -/
theorem epsilon_notMem {word : List Char} (hpath : Path silence moves p word q) :
    epsilon ∉ word := by
  intro hmem
  induction hpath with
  | nil => exact List.not_mem_nil hmem
  | @cons t _ _ _ _ _ ih =>
    obtain hlabel | hrest := List.mem_append.1 hmem
    · by_cases hsilent : t.isEpsilon = true
      · simp [Transition.label, hsilent] at hlabel
      · simp only [Transition.label, hsilent, Bool.false_eq_true, if_false,
          List.mem_singleton] at hlabel
        exact hsilent (by simp [Transition.isEpsilon, hlabel])
    · exact ih hrest

/-- Without silent moves, a path that spells nothing goes nowhere. -/
theorem nil_ignored_iff : Path .ignored moves p [] q ↔ p = q := by
  constructor
  · intro hpath
    generalize hspelled : ([] : List Char) = spelled at hpath
    cases hpath with
    | nil => rfl
    | @cons t rest _ _ htakes _ =>
      have hlabel : t.label = [] := (List.append_eq_nil_iff.1 hspelled.symm).1
      have hsilent := Transition.label_eq_nil_iff.1 hlabel
      rw [htakes rfl] at hsilent
      cases hsilent
  · rintro rfl
    exact .nil p

/-- A path that spells nothing is a chain of silent moves. -/
theorem nil_followed_iff {g : Graph} :
    Path .followed g.transitions p [] q ↔
      Relation.ReflTransGen (Connects g.epsilonMoves) p q := by
  constructor
  · intro hpath
    generalize hspelled : ([] : List Char) = spelled at hpath
    induction hpath with
    | nil => exact .refl
    | @cons t rest q hmove _ _ ih =>
      obtain ⟨hlabel, hrest⟩ := List.append_eq_nil_iff.1 hspelled.symm
      have hsilent := Transition.label_eq_nil_iff.1 hlabel
      exact .head ⟨t, Graph.mem_epsilonMoves_iff.2 ⟨hmove, hsilent⟩, rfl, rfl⟩ (ih hrest.symm)
  · intro hchain
    induction hchain using Relation.ReflTransGen.head_induction_on with
    | refl => exact .nil q
    | head hstep _ ih =>
      obtain ⟨t, ht, rfl, rfl⟩ := hstep
      obtain ⟨hmove, hsilent⟩ := Graph.mem_epsilonMoves_iff.1 ht
      simpa [Transition.label_of_isEpsilon hsilent] using
        Path.cons hmove (Silence.takes_followed t) ih

end Path

/-- Silent closing adds exactly the states at the ends of silent paths. -/
theorem Silence.mem_close_iff {silence : Silence} {g : Graph} {f : Frontier} {q : StateId} :
    q ∈ silence.close g f ↔ ∃ p ∈ f, Path silence g.transitions p [] q := by
  cases silence with
  | ignored => simp [close, Path.nil_ignored_iff]
  | followed => simp only [close, Graph.mem_epsilonClosure_iff, Path.nil_followed_iff]

end Automata
