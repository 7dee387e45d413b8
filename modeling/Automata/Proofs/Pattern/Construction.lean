import Automata.Proofs.Acceptance
import Automata.Proofs.Graph.Basic
import Automata.Proofs.Pattern.Alternation
import Automata.Proofs.Pattern.Repetition

open scoped Computability

namespace Automata

namespace Assembly

/-- An assembly with one more fragment, which offers the words of a language.
    Everything older is untouched. -/
def Extends (a b : Assembly) (L : Language Char) : Prop :=
  ∃ f moves, Fragment.Realizes f a.size b.size moves L ∧ b.fragments = f :: a.fragments ∧
    b.moves = moves ++ a.moves

/-- Moves that are added one after another stand in front of the others, the
latest first. -/
theorem foldl_move (source target : Nat) (members : List Char) (a : Assembly) :
    members.foldl (fun a c => a.move source target c) a =
      { a with moves := members.reverse.map (numberedMove source target) ++ a.moves } := by
  induction members generalizing a with
  | nil => rfl
  | cons c members ih =>
    rw [List.foldl_cons, ih]
    simp [move, numberedMove]

/-- Reading a symbol, or one of several, adds a fragment for these symbols. -/
theorem extends_symbols (a : Assembly) (members : List Char) :
    a.Extends (a.symbols members) (membersLanguage members) := by
  refine ⟨⟨a.size, a.size + 1⟩, members.reverse.map (numberedMove a.size (a.size + 1)), ?_, ?_, ?_⟩
  · rw [← membersLanguage_reverse, symbols, foldl_move]
    exact Fragment.Realizes.symbols a.size members.reverse
  · rw [symbols, foldl_move]
  · rw [symbols, foldl_move]

variable {a b c : Assembly} {L M : Language Char}

/-- The three operators behind an operand differ in whether it may be skipped
    and whether it may be passed again. -/
theorem Extends.unary (op : Token) (skips loops : Bool)
    (hread : ∀ (b : Assembly) (f : Fragment) (waiting : List Fragment), b.fragments = f :: waiting →
      b.read op = .ok
        { size := b.size + 2
          moves := wrapMoves skips loops f ⟨b.size, b.size + 1⟩ ++ b.moves
          fragments := ⟨b.size, b.size + 1⟩ :: waiting })
    (hextends : a.Extends b L) :
    ∃ c, b.read op = .ok c ∧ a.Extends c (wrapLanguage skips loops L) := by
  obtain ⟨f, moves, hf, hfragments, hmoves⟩ := hextends
  refine ⟨_, hread b f a.fragments hfragments, _, _, hf.wrap skips loops, rfl, ?_⟩
  simp [hmoves]

/-- Concatenation makes one fragment of the latest two, for the words of the
left one followed by words of the right one. -/
theorem Extends.concat (hleft : a.Extends b L) (hright : b.Extends c M) :
    ∃ d, c.read .concat = .ok d ∧ a.Extends d (L * M) := by
  obtain ⟨left, movesl, hl, hfragmentsl, hmovesl⟩ := hleft
  obtain ⟨right, movesr, hr, hfragmentsr, hmovesr⟩ := hright
  rw [hfragmentsl] at hfragmentsr
  let d : Assembly :=
    { size := c.size
      moves := silentMove left.exit right.entry :: c.moves
      fragments := ⟨left.entry, right.exit⟩ :: a.fragments }
  refine ⟨d, ?_, _, _, hl.concat hr, rfl, ?_⟩
  · rw [read, binary, hfragmentsr]
    rfl
  · simp [d, hmovesl, hmovesr]

/-- Alternation makes one fragment of the latest two, for the words of
either. -/
theorem Extends.alternation (hleft : a.Extends b L) (hright : b.Extends c M) :
    ∃ d, c.read .alternation = .ok d ∧ a.Extends d (L + M) := by
  obtain ⟨left, movesl, hl, hfragmentsl, hmovesl⟩ := hleft
  obtain ⟨right, movesr, hr, hfragmentsr, hmovesr⟩ := hright
  rw [hfragmentsl] at hfragmentsr
  let d : Assembly :=
    { size := c.size + 2
      moves := forkMoves left right ⟨c.size, c.size + 1⟩ ++ c.moves
      fragments := ⟨c.size, c.size + 1⟩ :: a.fragments }
  refine ⟨d, ?_, _, _, hl.fork hr, rfl, ?_⟩
  · rw [read, binary, hfragmentsr]
    rfl
  · simp [d, hmovesl, hmovesr]

/-- What may be skipped and passed again is repeated any number of times. -/
theorem wrapLanguage_star (L : Language Char) : wrapLanguage true true L = L∗ :=
  Language.one_add_self_mul_kstar_eq_kstar L

/-- What must not be skipped is repeated at least once. -/
theorem wrapLanguage_plus (L : Language Char) : wrapLanguage false true L = L * L∗ :=
  zero_add _

/-- What must not be passed again occurs once or not at all. -/
theorem wrapLanguage_question (L : Language Char) : wrapLanguage true false L = 1 + L :=
  congrArg (1 + ·) (mul_one L)

/-- Tokens are read one part after another. -/
theorem foldlM_read_append {ts us : List Token} (hts : ts.foldlM read a = .ok b)
    (hus : us.foldlM read b = .ok c) : (ts ++ us).foldlM read a = .ok c := by
  rw [List.foldlM_append, hts]
  exact hus

theorem foldlM_read_singleton {t : Token} (ht : a.read t = .ok b) :
    [t].foldlM read a = .ok b := by
  rw [List.foldlM_cons, ht]
  rfl

/-- Reading an expression in its order of evaluation adds one fragment for its
    language, on top of whatever waits. -/
theorem exists_foldlM_evaluation (e : Expression) (a : Assembly) :
    ∃ b, e.evaluation.foldlM read a = .ok b ∧ a.Extends b e.language := by
  induction e generalizing a with
  | literal c =>
    rw [Expression.language, ← membersLanguage_singleton]
    exact ⟨_, rfl, a.extends_symbols [c]⟩
  | oneOf members => exact ⟨_, rfl, a.extends_symbols members⟩
  | concat left right ihleft ihright =>
    obtain ⟨b, hb, hleft⟩ := ihleft a
    obtain ⟨c, hc, hright⟩ := ihright b
    obtain ⟨d, hd, hboth⟩ := hleft.concat hright
    have hoperands := foldlM_read_append hb hc
    exact ⟨d, foldlM_read_append hoperands (foldlM_read_singleton hd), hboth⟩
  | alternation left right ihleft ihright =>
    obtain ⟨b, hb, hleft⟩ := ihleft a
    obtain ⟨c, hc, hright⟩ := ihright b
    obtain ⟨d, hd, hboth⟩ := hleft.alternation hright
    have hoperands := foldlM_read_append hb hc
    exact ⟨d, foldlM_read_append hoperands (foldlM_read_singleton hd), hboth⟩
  | star inner ih =>
    obtain ⟨b, hb, hinner⟩ := ih a
    obtain ⟨c, hc, hstar⟩ := hinner.unary .star true true
      fun b f waiting hfragments => by rw [read, unary, hfragments]; rfl
    rw [Expression.language, ← wrapLanguage_star]
    exact ⟨c, foldlM_read_append hb (foldlM_read_singleton hc), hstar⟩
  | plus inner ih =>
    obtain ⟨b, hb, hinner⟩ := ih a
    obtain ⟨c, hc, hplus⟩ := hinner.unary .plus false true
      fun b f waiting hfragments => by rw [read, unary, hfragments]; rfl
    rw [Expression.language, ← wrapLanguage_plus]
    exact ⟨c, foldlM_read_append hb (foldlM_read_singleton hc), hplus⟩
  | question inner ih =>
    obtain ⟨b, hb, hinner⟩ := ih a
    obtain ⟨c, hc, hquestion⟩ := hinner.unary .question true false
      fun b f waiting hfragments => by rw [read, unary, hfragments]; rfl
    rw [Expression.language, ← wrapLanguage_question]
    exact ⟨c, foldlM_read_append hb (foldlM_read_singleton hc), hquestion⟩

/-- The graph of an assembly that is entered and left through a fragment. -/
def graph (a : Assembly) (f : Fragment) : Graph where
  states := (List.range a.size).map fun (i : Nat) =>
    { id := i, isStart := i = f.entry, isAccepting := i = f.exit }
  transitions := a.moves.reverse

/-- A construction is finished exactly if it has one fragment. -/
theorem toGraph_eq_ok_iff {g : Graph} :
    a.toGraph = .ok g ↔ ∃ f, a.fragments = [f] ∧ a.graph f = g := by
  unfold toGraph
  split
  · rename_i hfragments
    simp [hfragments]
  · rename_i hfragments
    simp [hfragments, graph]
  · rename_i hone
    refine iff_of_false nofun ?_
    rintro ⟨f, hf, _⟩
    exact hone f hf

/-- The states are numbered from 0 without gaps. -/
theorem ids_graph {f : Fragment} :
    (a.graph f).states.map (·.id) = (List.range a.size).map Nat.cast := by
  rw [graph, List.map_map]
  rfl

/-- The numbers of the states are distinct. -/
theorem nodup_ids_graph {f : Fragment} : ((a.graph f).states.map (·.id)).Nodup := by
  rw [ids_graph]
  exact List.nodup_range.map fun _ _ hij => Int.ofNat.inj hij

/-- A finished assembly has its entry as the start and its exit as the only
    accepting state. -/
theorem exists_toGraph {f : Fragment} (hfragments : a.fragments = [f])
    (hf : f.Realizes 0 a.size a.moves L) :
    ∃ g, a.toGraph = .ok g ∧ g.soleStart = .ok f.entry ∧ g.transitions = a.moves.reverse ∧
      ∀ q, g.isAccepting q = true ↔ q = f.exit := by
  let numbered (i : Nat) : State :=
    { id := i, isStart := i = f.entry, isAccepting := i = f.exit }
  have hgraph : a.toGraph = .ok (a.graph f) := toGraph_eq_ok_iff.2 ⟨f, hfragments, rfl⟩
  have hnodup : ((a.graph f).states.map (·.id)).Nodup := nodup_ids_graph
  have hmem {n : Nat} (hn : Within 0 a.size n) : numbered n ∈ (a.graph f).states := by
    obtain ⟨_, hhigh⟩ := hn
    exact List.mem_map_of_mem (List.mem_range.2 (by omega))
  refine ⟨a.graph f, hgraph, ?_, rfl, fun q => ⟨fun haccepting => ?_, ?_⟩⟩
  · apply Graph.soleStart_eq_ok_of_unique hnodup (hmem hf.entry_within) (decide_eq_true rfl)
    intro s hs hstart
    obtain ⟨i, _, rfl⟩ := List.mem_map.1 hs
    exact congrArg Int.ofNat (of_decide_eq_true hstart)
  · obtain ⟨s, hs, rfl, haccepts⟩ := Graph.exists_mem_of_isAccepting haccepting
    obtain ⟨i, _, rfl⟩ := List.mem_map.1 hs
    exact congrArg Int.ofNat (of_decide_eq_true haccepts)
  · rintro rfl
    exact (Graph.isAccepting_eq_of_mem hnodup (hmem hf.exit_within)).trans (decide_eq_true rfl)

/-- The graph for an expression recognizes its language. -/
theorem exists_build_evaluation (e : Expression) :
    ∃ g, build e.evaluation = .ok g ∧ (Automaton.epsilonNfa g).Recognizes e.language := by
  obtain ⟨a, ha, f, moves, hf, hfragments, hmoves⟩ := exists_foldlM_evaluation e {}
  rw [show ({} : Assembly).moves = [] from rfl, List.append_nil] at hmoves
  rw [← hmoves] at hf
  obtain ⟨g, hg, hstart, htransitions, haccepting⟩ := exists_toGraph hfragments hf
  have hbuild : build e.evaluation = .ok g := by
    rw [build, ha]
    exact hg
  refine ⟨g, hbuild, fun input => ⟨_, Silence.accepts_automaton .followed hstart input, ?_⟩⟩
  rw [Frontier.acceptsFrom_iff, ← hf.words_eq, mem_wordsBetween_iff]
  have hsame {q : StateId} : Path .followed g.transitions f.entry input q ↔
      Path .followed a.moves f.entry input q := by
    rw [htransitions]
    exact ⟨Path.mono fun t ht => List.mem_reverse.1 ht, Path.mono fun t ht => List.mem_reverse.2 ht⟩
  constructor
  · rintro ⟨q, hpath, haccepts⟩
    obtain rfl := (haccepting q).1 haccepts
    exact hsame.1 hpath
  · intro hpath
    exact ⟨f.exit, hsame.2 hpath, (haccepting f.exit).2 rfl⟩

end Assembly

end Automata
