import Automata.Proofs.Issue
import Automata.Proofs.Pattern.Polish

namespace Automata

/-- Whether two states are made for a token when it is evaluated. -/
def Token.addsStates : Token → Bool
  | literal _ | oneOf _ | alternation | star | plus | question => true
  | concat | openGroup _ | closeGroup _ => false

/-- The states at which fragments are entered, then those at which they are
left. -/
def Fragment.ends (fragments : List Fragment) : List Nat :=
  fragments.map (·.entry) ++ fragments.map (·.exit)

namespace Fragment

variable {f : Fragment} {fragments : List Fragment} {q : Nat}

theorem ends_cons_perm :
    (ends (f :: fragments)).Perm (f.entry :: f.exit :: ends fragments) :=
  List.perm_middle.cons f.entry

theorem mem_ends_cons_iff :
    q ∈ ends (f :: fragments) ↔ q = f.entry ∨ q = f.exit ∨ q ∈ ends fragments := by
  rw [ends_cons_perm.mem_iff, List.mem_cons, List.mem_cons]

theorem nodup_ends_cons_iff :
    (ends (f :: fragments)).Nodup ↔
      (f.entry ≠ f.exit ∧ f.entry ∉ ends fragments) ∧ f.exit ∉ ends fragments ∧
        (ends fragments).Nodup := by
  rw [ends_cons_perm.nodup_iff, List.nodup_cons, List.nodup_cons, List.mem_cons, not_or]

theorem ends_sublist {waiting : List Fragment} (hwaiting : waiting.Sublist fragments) :
    (ends waiting).Sublist (ends fragments) :=
  (hwaiting.map _).append (hwaiting.map _)

theorem exit_mem_ends (hf : f ∈ fragments) : f.exit ∈ ends fragments :=
  List.mem_append_right _ (List.mem_map_of_mem hf)

theorem entry_mem_ends (hf : f ∈ fragments) : f.entry ∈ ends fragments :=
  List.mem_append_left _ (List.mem_map_of_mem hf)

end Fragment

/-- In a graph whose states are numbered from 0 every smaller number is
known. -/
theorem Graph.hasState_of_numbered {g : Graph} {size q : Nat}
    (hids : g.states.map (·.id) = (List.range size).map Nat.cast) (hq : q < size) :
    g.hasState (q : Int) = true := by
  rw [hasState_iff, hids]
  exact List.mem_map_of_mem (List.mem_range.2 hq)

namespace Assembly

variable {a b : Assembly} {t : Token} {ts : List Token} {q source target : Nat}
  {f left right : Fragment} {waiting : List Fragment}

/-- A state that moves may lead away from. -/
def Leavable (a : Assembly) (q : Nat) : Prop :=
  q < a.size ∧ ∀ f ∈ a.fragments, q ≠ f.exit

/-- A state that moves may lead to. -/
def Enterable (a : Assembly) (q : Nat) : Prop :=
  q < a.size ∧ ∀ f ∈ a.fragments, q ≠ f.entry

/-- The ends of the waiting fragments are distinct states. Moves lead away from
none of the exits and to none of the entries. -/
structure Sealed (a : Assembly) : Prop where
  nodup_ends : (Fragment.ends a.fragments).Nodup
  ends_lt : ∀ q ∈ Fragment.ends a.fragments, q < a.size
  moves : ∀ t ∈ a.moves, ∃ source target symbol,
    t = numberedMove source target symbol ∧ a.Leavable source ∧ a.Enterable target

/-- One fragment in the place of the latest ones. -/
def replaced (a : Assembly) (size : Nat) (outer : Fragment) (waiting : List Fragment) : Assembly :=
  { a with size := size, fragments := outer :: waiting }

/-- A fragment between two new states in the place of the latest ones. -/
def opened (a : Assembly) (waiting : List Fragment) : Assembly :=
  a.replaced (a.size + 2) ⟨a.size, a.size + 1⟩ waiting

/-- A state that is no end of what waits and not the new exit may be left. -/
theorem leavable_replaced {size : Nat} {outer : Fragment} (hsize : q < size)
    (hexit : q ≠ outer.exit) (hwaiting : q ∉ Fragment.ends waiting) :
    (a.replaced size outer waiting).Leavable q := by
  refine ⟨hsize, List.forall_mem_cons.2 ⟨hexit, ?_⟩⟩
  rintro f hf rfl
  exact hwaiting (Fragment.exit_mem_ends hf)

/-- A state that is no end of what waits and not the new entry may be
entered. -/
theorem enterable_replaced {size : Nat} {outer : Fragment} (hsize : q < size)
    (hentry : q ≠ outer.entry) (hwaiting : q ∉ Fragment.ends waiting) :
    (a.replaced size outer waiting).Enterable q := by
  refine ⟨hsize, List.forall_mem_cons.2 ⟨hentry, ?_⟩⟩
  rintro f hf rfl
  exact hwaiting (Fragment.entry_mem_ends hf)

/-- Of two fragments that are joined either may be the one that is looked at. -/
theorem joined_of_pair (hfragments : a.fragments = right :: left :: waiting) :
    (left :: waiting).Sublist a.fragments ∧ (right :: waiting).Sublist a.fragments := by
  rw [hfragments]
  exact ⟨List.sublist_cons_self _ _, (List.sublist_cons_self left waiting).cons_cons right⟩

/-- There are no ends to begin with. -/
theorem sealed_empty : Sealed {} where
  nodup_ends := List.nodup_nil
  ends_lt := nofun
  moves := nofun

namespace Sealed

/-- A move may be added from a state that may be left to one that may be
entered. -/
theorem move (ha : a.Sealed) (hsource : a.Leavable source) (htarget : a.Enterable target)
    (symbol : Char) : (a.move source target symbol).Sealed where
  nodup_ends := ha.nodup_ends
  ends_lt := ha.ends_lt
  moves := List.forall_mem_cons.2 ⟨⟨source, target, symbol, rfl, hsource, htarget⟩, ha.moves⟩

theorem silent (ha : a.Sealed) (hsource : a.Leavable source) (htarget : a.Enterable target) :
    (a.silent source target).Sealed :=
  ha.move hsource htarget epsilon

theorem foldl_move (ha : a.Sealed) (hsource : a.Leavable source) (htarget : a.Enterable target)
    (members : List Char) : (members.foldl (fun a c => a.move source target c) a).Sealed := by
  induction members generalizing a with
  | nil => exact ha
  | cons c members ih => exact ih (ha.move hsource htarget c) hsource htarget

/-- A new fragment may be entered where no move leads and left where none leads
away. -/
theorem replaced (ha : a.Sealed) (hwaiting : waiting.Sublist a.fragments) {size : Nat}
    {outer : Fragment} (hsize : a.size ≤ size)
    (hends : (Fragment.ends (outer :: waiting)).Nodup)
    (hentry : outer.entry < size) (hexit : outer.exit < size)
    (hentered : ∀ q, a.Enterable q → q ≠ outer.entry)
    (hleft : ∀ q, a.Leavable q → q ≠ outer.exit) : (a.replaced size outer waiting).Sealed where
  nodup_ends := hends
  ends_lt := by
    intro q hq
    obtain rfl | rfl | hq := Fragment.mem_ends_cons_iff.1 hq
    · exact hentry
    · exact hexit
    · exact (ha.ends_lt q ((Fragment.ends_sublist hwaiting).subset hq)).trans_le hsize
  moves := by
    intro t ht
    obtain ⟨source, target, symbol, rfl, hsource, htarget⟩ := ha.moves t ht
    refine ⟨source, target, symbol, rfl, ⟨hsource.1.trans_le hsize, ?_⟩,
      htarget.1.trans_le hsize, ?_⟩
    · exact List.forall_mem_cons.2
        ⟨hleft source hsource, fun f hf => hsource.2 f (hwaiting.subset hf)⟩
    · exact List.forall_mem_cons.2
        ⟨hentered target htarget, fun f hf => htarget.2 f (hwaiting.subset hf)⟩

section Opened

variable (ha : a.Sealed) (hwaiting : waiting.Sublist a.fragments)
include ha hwaiting

theorem notMem_ends_of_le (hq : a.size ≤ q) : q ∉ Fragment.ends waiting :=
  fun hmem => Nat.not_lt.2 hq (ha.ends_lt q ((Fragment.ends_sublist hwaiting).subset hmem))

/-- A new entry may be left. -/
theorem entry_leavable : (a.opened waiting).Leavable a.size :=
  leavable_replaced (Nat.lt_add_of_pos_right Nat.two_pos) (Nat.ne_add_one _)
    (ha.notMem_ends_of_le hwaiting le_rfl)

/-- A new exit may be entered. -/
theorem exit_enterable : (a.opened waiting).Enterable (a.size + 1) :=
  enterable_replaced (Nat.lt_succ_self _) (Nat.succ_ne_self _)
    (ha.notMem_ends_of_le hwaiting (Nat.le_succ _))

/-- Two new states may become the ends of a fragment. -/
theorem opened : (a.opened waiting).Sealed := by
  apply ha.replaced hwaiting (Nat.le_add_right _ 2)
  · have hrest := ha.nodup_ends.sublist (Fragment.ends_sublist hwaiting)
    exact Fragment.nodup_ends_cons_iff.2
      ⟨⟨Nat.ne_add_one _, ha.notMem_ends_of_le hwaiting le_rfl⟩,
        ha.notMem_ends_of_le hwaiting (Nat.le_succ _), hrest⟩
  · exact Nat.lt_add_of_pos_right Nat.two_pos
  · exact Nat.lt_succ_self _
  · exact fun q hq => hq.1.ne
  · exact fun q hq => (hq.1.trans (Nat.lt_succ_self _)).ne

end Opened

section Joined

variable (ha : a.Sealed) (hjoined : (f :: waiting).Sublist a.fragments)
include ha hjoined

/-- The ends of a fragment that is joined were made before, and no other
fragment shares them. -/
theorem old_of_joined (hq : q = f.entry ∨ q = f.exit) :
    q < a.size ∧ q ∉ Fragment.ends waiting := by
  have hsublist := Fragment.ends_sublist hjoined
  obtain ⟨⟨_, hentry⟩, hexit, _⟩ :=
    Fragment.nodup_ends_cons_iff.1 (ha.nodup_ends.sublist hsublist)
  have hmem : q ∈ Fragment.ends (f :: waiting) :=
    Fragment.mem_ends_cons_iff.2 (hq.imp_right .inl)
  refine ⟨ha.ends_lt q (hsublist.subset hmem), ?_⟩
  obtain rfl | rfl := hq
  · exact hentry
  · exact hexit

/-- A fragment that is joined to others gives up its ends. -/
theorem free_of_joined (hq : q = f.entry ∨ q = f.exit) :
    (a.opened waiting).Leavable q ∧ (a.opened waiting).Enterable q := by
  obtain ⟨hold, hfree⟩ := ha.old_of_joined hjoined hq
  have hnew : q < a.size + 2 := Nat.lt_add_right 2 hold
  exact ⟨leavable_replaced hnew (hold.trans (Nat.lt_succ_self _)).ne hfree,
    enterable_replaced hnew hold.ne hfree⟩

/-- The new entry leads to the fragment and the fragment to the new exit. -/
theorem wrapped : (wrap f waiting (fun _ a => a) a).Sealed := by
  have hwaiting := List.sublist_of_cons_sublist hjoined
  have hentered : ((a.opened waiting).silent a.size f.entry).Sealed :=
    (ha.opened hwaiting).silent (ha.entry_leavable hwaiting)
      (ha.free_of_joined hjoined (.inl rfl)).2
  exact hentered.silent (ha.free_of_joined hjoined (.inr rfl)).1 (ha.exit_enterable hwaiting)

/-- The new entry leads straight to the new exit. -/
theorem skipped : ((wrap f waiting (fun _ a => a) a).silent a.size (a.size + 1)).Sealed := by
  have hwaiting := List.sublist_of_cons_sublist hjoined
  exact (ha.wrapped hjoined).silent (ha.entry_leavable hwaiting) (ha.exit_enterable hwaiting)

end Joined

/-- A fragment for several symbols only has moves from its entry to its exit. -/
theorem symbols (ha : a.Sealed) (members : List Char) : (a.symbols members).Sealed :=
  (ha.opened (.refl _)).foldl_move (ha.entry_leavable (.refl _)) (ha.exit_enterable (.refl _))
    members

/-- Repetition may be skipped, and leads back inside only. -/
theorem star (ha : a.Sealed) (hread : a.read .star = .ok b) : b.Sealed := by
  obtain ⟨inner, waiting, hfragments, rfl⟩ := unary_eq_ok_iff.1 hread
  have hjoined : (inner :: waiting).Sublist a.fragments := hfragments ▸ .refl _
  -- The way back runs between two states that are no ends any more.
  exact (ha.skipped hjoined).silent (ha.free_of_joined hjoined (.inr rfl)).1
    (ha.free_of_joined hjoined (.inl rfl)).2

/-- Repetition that is not skipped leads back inside only. -/
theorem plus (ha : a.Sealed) (hread : a.read .plus = .ok b) : b.Sealed := by
  obtain ⟨inner, waiting, hfragments, rfl⟩ := unary_eq_ok_iff.1 hread
  have hjoined : (inner :: waiting).Sublist a.fragments := hfragments ▸ .refl _
  exact (ha.wrapped hjoined).silent (ha.free_of_joined hjoined (.inr rfl)).1
    (ha.free_of_joined hjoined (.inl rfl)).2

/-- What may be left out is skipped from the new entry to the new exit. -/
theorem question (ha : a.Sealed) (hread : a.read .question = .ok b) : b.Sealed := by
  obtain ⟨inner, waiting, hfragments, rfl⟩ := unary_eq_ok_iff.1 hread
  exact ha.skipped (hfragments ▸ .refl _)

/-- The new ends lead into and out of both fragments. -/
theorem alternation (ha : a.Sealed) (hread : a.read .alternation = .ok b) : b.Sealed := by
  obtain ⟨left, right, waiting, hfragments, rfl⟩ := binary_eq_ok_iff.1 hread
  obtain ⟨hleft, hright⟩ := joined_of_pair hfragments
  have hwaiting := List.sublist_of_cons_sublist hleft
  have hentered := (ha.wrapped hleft).silent (ha.entry_leavable hwaiting)
    (ha.free_of_joined hright (.inl rfl)).2
  exact hentered.silent (ha.free_of_joined hright (.inr rfl)).1 (ha.exit_enterable hwaiting)

/-- Two fragments share no ends. -/
theorem ends_apart (ha : a.Sealed) (hfragments : a.fragments = right :: left :: waiting) :
    left.entry ≠ right.exit ∧ left.exit ≠ right.exit ∧ right.entry ≠ left.entry := by
  have hnodup := ha.nodup_ends
  rw [hfragments, Fragment.nodup_ends_cons_iff] at hnodup
  obtain ⟨⟨_, hentry⟩, hexit, _⟩ := hnodup
  simp only [Fragment.mem_ends_cons_iff, not_or] at hentry hexit
  exact ⟨Ne.symm hexit.1, Ne.symm hexit.2.1, hentry.1⟩

/-- The entry of the left fragment and the exit of the right one as the ends of
one fragment. -/
theorem chained (ha : a.Sealed) (hfragments : a.fragments = right :: left :: waiting) :
    (a.replaced a.size ⟨left.entry, right.exit⟩ waiting).Sealed := by
  obtain ⟨hjoinedl, hjoinedr⟩ := joined_of_pair hfragments
  obtain ⟨hentrylt, hentry⟩ := ha.old_of_joined hjoinedl (.inl rfl)
  obtain ⟨hexitlt, hexit⟩ := ha.old_of_joined hjoinedr (.inr rfl)
  have hwaiting := List.sublist_of_cons_sublist hjoinedl
  apply ha.replaced hwaiting le_rfl
  · have hrest := ha.nodup_ends.sublist (Fragment.ends_sublist hwaiting)
    exact Fragment.nodup_ends_cons_iff.2 ⟨⟨(ha.ends_apart hfragments).1, hentry⟩, hexit, hrest⟩
  · exact hentrylt
  · exact hexitlt
  · exact fun q hq => hq.2 left (hjoinedl.subset List.mem_cons_self)
  · exact fun q hq => hq.2 right (hjoinedr.subset List.mem_cons_self)

/-- Concatenation makes no states, so that its move runs between an exit and an
entry that were given up. -/
theorem concat (ha : a.Sealed) (hread : a.read .concat = .ok b) : b.Sealed := by
  rw [Assembly.read] at hread
  obtain ⟨left, right, waiting, hfragments, rfl⟩ := binary_eq_ok_iff.1 hread
  obtain ⟨hjoinedl, hjoinedr⟩ := joined_of_pair hfragments
  obtain ⟨_, hexits, hentries⟩ := ha.ends_apart hfragments
  obtain ⟨hexitlt, hexit⟩ := ha.old_of_joined hjoinedl (.inr rfl)
  obtain ⟨hentrylt, hentry⟩ := ha.old_of_joined hjoinedr (.inl rfl)
  exact (ha.chained hfragments).silent (leavable_replaced hexitlt hexits hexit)
    (enterable_replaced hentrylt hentries hentry)

end Sealed

/-- One more token keeps what holds of the ends. -/
theorem Sealed.read (ha : a.Sealed) (hread : a.read t = .ok b) : b.Sealed := by
  cases t with
  | literal c =>
    cases hread
    exact ha.symbols [c]
  | oneOf members =>
    cases hread
    exact ha.symbols members
  | star => exact ha.star hread
  | plus => exact ha.plus hread
  | question => exact ha.question hread
  | alternation => exact ha.alternation hread
  | concat => exact ha.concat hread
  | openGroup | closeGroup => cases hread

/-- Any number of tokens keep what holds of the ends. -/
theorem Sealed.foldlM_read (ha : a.Sealed) (hread : ts.foldlM Assembly.read a = .ok b) :
    b.Sealed := by
  induction ts generalizing a with
  | nil =>
    cases hread
    exact ha
  | cons t ts ih =>
    obtain ⟨c, hc, hrest⟩ := exists_of_bind_eq_ok hread
    exact ih (ha.read hc) hrest

/-- A token other than a concatenation makes two states. -/
theorem size_read (hread : a.read t = .ok b) :
    b.size = a.size + if t.addsStates then 2 else 0 := by
  cases t with
  | literal | oneOf =>
    cases hread
    rw [symbols, Assembly.foldl_move]
    rfl
  | star | plus | question =>
    obtain ⟨_, _, _, rfl⟩ := unary_eq_ok_iff.1 hread
    rfl
  | concat | alternation =>
    rw [read] at hread
    obtain ⟨_, _, _, _, rfl⟩ := binary_eq_ok_iff.1 hread
    rfl
  | openGroup | closeGroup => cases hread

/-- The number of states tells the number of such tokens. -/
theorem size_foldlM_read (hread : ts.foldlM read a = .ok b) :
    b.size = a.size + 2 * ts.countP Token.addsStates := by
  induction ts generalizing a with
  | nil =>
    cases hread
    rfl
  | cons t ts ih =>
    obtain ⟨c, hc, hrest⟩ := exists_of_bind_eq_ok hread
    rw [ih hrest, size_read hc, List.countP_cons]
    split <;> omega

theorem filter_range_eq {n : Nat} (hq : q < n) : (List.range n).filter (· = q) = [q] := by
  rw [List.filter_eq, List.count_eq_one_of_mem List.nodup_range (List.mem_range.2 hq)]
  rfl

/-- The entry of the only fragment is the only start state. -/
theorem startIds_graph (hentry : f.entry < a.size) : (a.graph f).startIds = [(f.entry : Int)] := by
  rw [Graph.startIds, graph, List.filter_map, List.map_map]
  change ((List.range a.size).filter fun i => decide (i = f.entry)).map Nat.cast = _
  rw [filter_range_eq hentry]
  rfl

/-- Its exit is the only accepting state. -/
theorem acceptingIds_graph (hexit : f.exit < a.size) :
    (a.graph f).acceptingIds = [(f.exit : Int)] := by
  rw [Graph.acceptingIds, graph, List.filter_map, List.map_map]
  change ((List.range a.size).filter fun i => decide (i = f.exit)).map Nat.cast = _
  rw [filter_range_eq hexit]
  rfl

theorem hasState_graph (hq : q < a.size) : (a.graph f).hasState (q : Int) = true :=
  Graph.hasState_of_numbered ids_graph hq

namespace Sealed

/-- Every move of the graph leaves a state that may be left and enters one that
may be entered. -/
theorem exists_of_mem_transitions_graph (ha : a.Sealed) {u : Transition}
    (hu : u ∈ (a.graph f).transitions) : ∃ source target symbol,
      u = numberedMove source target symbol ∧ a.Leavable source ∧ a.Enterable target :=
  ha.moves u (List.mem_reverse.1 hu)

section Finished

variable (ha : a.Sealed) (hfragments : a.fragments = [f])
include ha hfragments

theorem entry_lt : f.entry < a.size :=
  ha.ends_lt f.entry (Fragment.entry_mem_ends (by simp [hfragments]))

theorem exit_lt : f.exit < a.size :=
  ha.ends_lt f.exit (Fragment.exit_mem_ends (by simp [hfragments]))

/-- The entry and the exit of the only fragment differ. -/
theorem entry_ne_exit : f.entry ≠ f.exit := by
  have hnodup := ha.nodup_ends
  rw [hfragments, Fragment.nodup_ends_cons_iff] at hnodup
  exact hnodup.1.1

/-- No run comes back to the entry or goes on from the exit. -/
theorem transitions_graph : ∀ t ∈ (a.graph f).transitions,
    t.target ≠ (f.entry : Int) ∧ t.source ≠ (f.exit : Int) := by
  intro t ht
  obtain ⟨source, target, symbol, rfl, hsource, htarget⟩ := ha.exists_of_mem_transitions_graph ht
  have hf : f ∈ a.fragments := by simp [hfragments]
  exact ⟨mt Int.ofNat.inj (htarget.2 f hf), mt Int.ofNat.inj (hsource.2 f hf)⟩

/-- A finished graph keeps all rules of checked editing. -/
theorem wellFormed_graph : (a.graph f).WellFormed where
  nodup_ids := nodup_ids_graph
  length_startIds_le := by rw [startIds_graph (ha.entry_lt hfragments), List.length_singleton]
  hasState_source := by
    intro t ht
    obtain ⟨source, target, symbol, rfl, hsource, _⟩ := ha.exists_of_mem_transitions_graph ht
    exact hasState_graph hsource.1
  hasState_target := by
    intro t ht
    obtain ⟨source, target, symbol, rfl, _, htarget⟩ := ha.exists_of_mem_transitions_graph ht
    exact hasState_graph htarget.1

/-- Nothing is wrong with a finished graph. -/
theorem issues_graph : (Automaton.epsilonNfa (a.graph f)).issues = [] := by
  rw [Automaton.issues, List.append_eq_nil_iff, Graph.structuralIssues_eq_nil_iff,
    Graph.stackIssues_eq_nil_iff]
  have hstart := Graph.soleStart_eq_ok_iff.2 (startIds_graph (ha.entry_lt hfragments))
  refine ⟨⟨ha.wellFormed_graph hfragments, _, hstart⟩, fun t ht => ?_⟩
  obtain ⟨source, target, symbol, rfl, _⟩ := ha.exists_of_mem_transitions_graph ht
  rfl

end Finished

end Sealed

/-- Behind a graph that was built stands a construction with one fragment. -/
theorem exists_sealed_of_build {g : Graph} (hbuild : build ts = .ok g) :
    ∃ (a : Assembly) (f : Fragment), a.Sealed ∧ a.size = 2 * ts.countP Token.addsStates ∧
      a.fragments = [f] ∧ a.graph f = g := by
  obtain ⟨a, ha, hgraph⟩ := exists_of_bind_eq_ok hbuild
  obtain ⟨f, hfragments, hg⟩ := toGraph_eq_ok_iff.1 hgraph
  refine ⟨a, f, sealed_empty.foldlM_read ha, ?_, hfragments, hg⟩
  rw [size_foldlM_read ha]
  exact Nat.zero_add _

/-- Tokens make a graph exactly if every operator finds its operands in front of
it and one operand is left in the end; tokens with a parenthesis never do. The
states are numbered from 0, two for each token except concatenations, nothing is
wrong with the graph, and its only start and its only accepting state are two
states of which no move leads back to the one or away from the other. -/
theorem build_succeeds_iff (ts : List Token) :
    ((∃ g, build ts = .ok g) ↔ Token.Leaves 0 ts 1) ∧
      ((∃ t ∈ ts, t.isParenthesis = true) → ∃ cause, build ts = .error cause) ∧
      ∀ g, build ts = .ok g →
        g.states.map (·.id) = (List.range (2 * ts.countP Token.addsStates)).map Nat.cast ∧
          (Automaton.epsilonNfa g).issues = [] ∧
          ∃ entry exit, g.startIds = [entry] ∧ g.acceptingIds = [exit] ∧ entry ≠ exit ∧
            ∀ t ∈ g.transitions, t.target ≠ entry ∧ t.source ≠ exit := by
  refine ⟨exists_build_iff, ?_, ?_⟩
  · rintro ⟨t, ht, hparenthesis⟩
    cases hbuild : build ts with
    | error cause => exact ⟨cause, rfl⟩
    | ok g =>
      have hleaves := exists_build_iff.1 ⟨g, hbuild⟩
      rw [hleaves.isParenthesis_eq_false t ht] at hparenthesis
      cases hparenthesis
  · intro g hbuild
    obtain ⟨a, f, ha, hsize, hfragments, rfl⟩ := exists_sealed_of_build hbuild
    rw [ids_graph, hsize]
    exact ⟨rfl, ha.issues_graph hfragments, f.entry, f.exit,
      startIds_graph (ha.entry_lt hfragments), acceptingIds_graph (ha.exit_lt hfragments),
      mt Int.ofNat.inj (ha.entry_ne_exit hfragments), ha.transitions_graph hfragments⟩

/-- The tokens of a repeated choice make a graph, those of an unmatched
parenthesis do not. -/
theorem build_succeeds_iff_of_repeated :
    (∃ g, build [.literal 'a', .oneOf ['b', 'c'], .alternation, .star] = .ok g ∧
        g.states.map (·.id) = [0, 1, 2, 3, 4, 5, 6, 7] ∧
          (Automaton.epsilonNfa g).issues = [] ∧
          ∃ entry exit, g.startIds = [entry] ∧ g.acceptingIds = [exit] ∧ entry ≠ exit ∧
            ∀ t ∈ g.transitions, t.target ≠ entry ∧ t.source ≠ exit) ∧
      ∃ cause, build [.literal 'a', .openGroup 1] = .error cause := by
  obtain ⟨hsucceeds, _, hgraph⟩ :=
    build_succeeds_iff [.literal 'a', .oneOf ['b', 'c'], .alternation, .star]
  obtain ⟨_, hfails, _⟩ := build_succeeds_iff [.literal 'a', .openGroup 1]
  obtain ⟨g, hg⟩ := hsucceeds.2 (by decide)
  exact ⟨⟨g, hg, hgraph g hg⟩, hfails (by decide)⟩

end Assembly

end Automata
