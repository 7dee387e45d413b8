import Automata.Pattern.Draft
import Automata.Proofs.Graph.Editing
import Automata.Proofs.Pattern.Boundary

namespace Automata

namespace Drafting

variable {α β : Type} {result : Except PatternError α}

/-- A chain of computations ends no program if none of them does on the results
that it is given. -/
theorem ofResult_bind {f : α → Drafting β} {h : α → Except PatternError β}
    (hf : ∀ a, result = .ok a → f a = ofResult (h a)) :
    (ofResult result >>= f) = ofResult (result >>= h) := by
  cases result with
  | error => rfl
  | ok a => exact hf a rfl

end Drafting

namespace Assembly

variable {a b : Assembly} {t : Token} {ts : List Token} {q source target : Nat} {f : Fragment}
  {waiting : List Fragment}

/-- A construction with the graph drawn so far. Its states are not marked before
it is finished. -/
def draft (a : Assembly) : Draft where
  graph :=
    { states := (List.range a.size).map fun (i : Nat) => { id := i }
      transitions := a.moves.reverse }
  next := a.size
  fragments := a.fragments

/-- The states of a draft are numbered from 0 without gaps. -/
theorem ids_draft : a.draft.graph.states.map (·.id) = (List.range a.size).map Nat.cast := by
  rw [draft, List.map_map]
  rfl

theorem hasState_draft (hq : q < a.size) : a.draft.graph.hasState (q : Int) = true :=
  Graph.hasState_of_numbered ids_draft hq

/-- The next number is new. -/
theorem addState_draft (a : Assembly) :
    a.draft.addState = .ok (a.size, { a with size := a.size + 1 }.draft) := by
  have hnew : (a.size : Int) ∉ a.draft.graph.states.map (·.id) := by
    rw [ids_draft, List.mem_map]
    rintro ⟨i, hi, hsame⟩
    exact (List.mem_range.1 hi).ne (Int.ofNat.inj hsame)
  have hadd : a.draft.graph.addState { id := (a.size : Int) } =
      .ok ({ a with size := a.size + 1 } : Assembly).draft.graph := by
    rw [Graph.addState_eq_ok hnew (fun hmark => Bool.noConfusion hmark)]
    simp [draft, List.range_succ]
  exact bind_eq_ok (congrArg (·.mapError Fault.graph) hadd) rfl

/-- A move between states that were made is added. -/
theorem move_draft (hsource : source < a.size) (htarget : target < a.size) (symbol : Char) :
    a.draft.move source target symbol = .ok (a.move source target symbol).draft := by
  have hadd : a.draft.graph.addTransition { source, target, symbol } =
      .ok (a.move source target symbol).draft.graph := by
    rw [Graph.addTransition_eq_ok (hasState_draft hsource) (hasState_draft htarget)]
    simp [draft, move]
  exact bind_eq_ok (congrArg (·.mapError Fault.graph) hadd) rfl

theorem silent_draft (hsource : source < a.size) (htarget : target < a.size) :
    a.draft.silent source target = .ok (a.silent source target).draft :=
  move_draft hsource htarget epsilon

/-- So is any number of moves between them. -/
theorem foldlM_move_draft (hsource : source < a.size) (htarget : target < a.size)
    (members : List Char) : members.foldlM (fun d c => d.move source target c) a.draft =
      .ok (members.foldl (fun a c => a.move source target c) a).draft := by
  induction members generalizing a with
  | nil => rfl
  | cons c members ih =>
    rw [List.foldlM_cons, move_draft hsource htarget]
    exact ih hsource htarget

/-- A construction with two more states, between which a fragment is made. -/
def grown (a : Assembly) : Assembly := { a with size := a.size + 2 }

/-- Reading a symbol, or one of several, adds the same fragment as without
checks. -/
theorem symbols_draft (a : Assembly) (members : List Char) :
    a.draft.symbols members = .ok (a.symbols members).draft := by
  have hmoves := foldlM_move_draft (a := a.grown) (Nat.lt_add_of_pos_right Nat.two_pos)
    (Nat.lt_succ_self _) members
  refine bind_eq_ok a.addState_draft (bind_eq_ok (addState_draft _) (bind_eq_ok hmoves ?_))
  rw [symbols, foldl_move, foldl_move]
  rfl

/-- A fragment is led through between two new states as it is without checks. -/
theorem wrap_draft (hentry : f.entry < a.size) (hexit : f.exit < a.size) :
    a.draft.wrap f = .ok (⟨a.size, a.size + 1⟩,
      ((a.grown.silent a.size f.entry).silent f.exit (a.size + 1)).draft) := by
  have hin : a.grown.draft.silent a.size f.entry = .ok (a.grown.silent a.size f.entry).draft :=
    silent_draft (Nat.lt_add_of_pos_right Nat.two_pos) (Nat.lt_add_right 2 hentry)
  have hout : (a.grown.silent a.size f.entry).draft.silent f.exit (a.size + 1) =
      .ok ((a.grown.silent a.size f.entry).silent f.exit (a.size + 1)).draft :=
    silent_draft (Nat.lt_add_right 2 hexit) (Nat.lt_succ_self _)
  exact bind_eq_ok a.addState_draft
    (bind_eq_ok (addState_draft _) (bind_eq_ok hin (bind_eq_ok hout rfl)))

theorem Sealed.ends_lt_of_mem (ha : a.Sealed) (hf : f ∈ a.fragments) :
    f.entry < a.size ∧ f.exit < a.size :=
  ⟨ha.ends_lt _ (Fragment.entry_mem_ends hf), ha.ends_lt _ (Fragment.exit_mem_ends hf)⟩

/-- An operator behind an operand finds the same operand, whose ends were made
before, or misses it. -/
theorem unary_draft (ha : a.Sealed) {operator : Char}
    {join : Fragment → List Fragment → Assembly → Assembly}
    {joinChecked : Fragment → Draft → Except Fault Draft}
    (hjoin : ∀ inner waiting, inner.entry < a.size → inner.exit < a.size →
      joinChecked inner { a with fragments := waiting }.draft = .ok (join inner waiting a).draft) :
    a.draft.unary operator joinChecked = .ofResult ((a.unary operator join).map draft) := by
  rw [Draft.unary, unary, show a.draft.fragments = a.fragments from rfl]
  cases hfragments : a.fragments with
  | nil => rfl
  | cons inner waiting =>
    have hinner : inner ∈ a.fragments := hfragments ▸ List.mem_cons_self
    obtain ⟨hentry, hexit⟩ := ha.ends_lt_of_mem hinner
    exact congrArg liftM (hjoin inner waiting hentry hexit)

/-- An operator between two operands finds the same operands, whose ends were
made before, or misses one. -/
theorem binary_draft (ha : a.Sealed) {operator : Char}
    {join : Fragment → Fragment → List Fragment → Assembly → Assembly}
    {joinChecked : Fragment → Fragment → Draft → Except Fault Draft}
    (hjoin : ∀ left right waiting, left.entry < a.size → left.exit < a.size →
      right.entry < a.size → right.exit < a.size →
      joinChecked left right { a with fragments := waiting }.draft =
        .ok (join left right waiting a).draft) :
    a.draft.binary operator joinChecked = .ofResult ((a.binary operator join).map draft) := by
  rw [Draft.binary, binary, show a.draft.fragments = a.fragments from rfl]
  rcases hfragments : a.fragments with _ | ⟨right, _ | ⟨left, waiting⟩⟩
  · rfl
  · rfl
  · have hright : right ∈ a.fragments := hfragments ▸ List.mem_cons_self
    have hleft : left ∈ a.fragments := hfragments ▸ List.mem_cons_of_mem _ List.mem_cons_self
    obtain ⟨hentryl, hexitl⟩ := ha.ends_lt_of_mem hleft
    obtain ⟨hentryr, hexitr⟩ := ha.ends_lt_of_mem hright
    exact congrArg liftM (hjoin left right waiting hentryl hexitl hentryr hexitr)

/-- A token is read as it is without checks: whatever its moves touch is a state
that was made before. -/
theorem read_draft (ha : a.Sealed) (t : Token) :
    a.draft.read t = .ofResult ((a.read t).map draft) := by
  cases t with
  | literal c => exact congrArg liftM (a.symbols_draft [c])
  | oneOf members => exact congrArg liftM (a.symbols_draft members)
  | star =>
    rw [Draft.read, read]
    refine unary_draft ha fun inner waiting hentry hexit => ?_
    refine bind_eq_ok (wrap_draft hentry hexit) ?_
    refine bind_eq_ok (silent_draft (Nat.lt_add_of_pos_right Nat.two_pos) (Nat.lt_succ_self _)) ?_
    exact bind_eq_ok (silent_draft (Nat.lt_add_right 2 hexit) (Nat.lt_add_right 2 hentry)) rfl
  | plus =>
    rw [Draft.read, read]
    refine unary_draft ha fun inner waiting hentry hexit => ?_
    refine bind_eq_ok (wrap_draft hentry hexit) ?_
    exact bind_eq_ok (silent_draft (Nat.lt_add_right 2 hexit) (Nat.lt_add_right 2 hentry)) rfl
  | question =>
    rw [Draft.read, read]
    refine unary_draft ha fun inner waiting hentry hexit => ?_
    refine bind_eq_ok (wrap_draft hentry hexit) ?_
    exact bind_eq_ok
      (silent_draft (Nat.lt_add_of_pos_right Nat.two_pos) (Nat.lt_succ_self _)) rfl
  | alternation =>
    rw [Draft.read, read]
    refine binary_draft ha fun left right waiting hentryl hexitl hentryr hexitr => ?_
    refine bind_eq_ok (wrap_draft hentryl hexitl) ?_
    refine bind_eq_ok
      (silent_draft (Nat.lt_add_of_pos_right Nat.two_pos) (Nat.lt_add_right 2 hentryr)) ?_
    exact bind_eq_ok (silent_draft (Nat.lt_add_right 2 hexitr) (Nat.lt_succ_self _)) rfl
  | concat =>
    rw [Draft.read, read]
    refine binary_draft ha fun left right waiting _ hexitl hentryr _ => ?_
    exact bind_eq_ok (silent_draft hexitl hentryr) rfl
  | openGroup | closeGroup => rfl

/-- Tokens are read as they are without checks, however many they are. -/
theorem foldlM_read_draft (ha : a.Sealed) (ts : List Token) :
    ts.foldlM Draft.read a.draft = .ofResult ((ts.foldlM read a).map draft) := by
  induction ts generalizing a with
  | nil => rfl
  | cons t ts ih =>
    rw [List.foldlM_cons, read_draft ha, List.foldlM_cons]
    cases hread : a.read t with
    | error => rfl
    | ok b => exact ih (ha.read hread)

/-- The graph drawn so far with the entry of a fragment as its start state. -/
def entered (a : Assembly) (f : Fragment) : Graph where
  states := (List.range a.size).map fun (i : Nat) => { id := i, isStart := i = f.entry }
  transitions := a.moves.reverse

/-- Marking a state changes no number. -/
theorem ids_entered : (a.entered f).states.map (·.id) = (List.range a.size).map Nat.cast := by
  rw [entered, List.map_map]
  rfl

/-- The entry of a fragment can be marked as the start state. -/
theorem setStart_draft (hentry : f.entry < a.size) :
    a.draft.graph.setStart f.entry = .ok (a.entered f) := by
  rw [Graph.setStart, if_pos (hasState_draft hentry)]
  simp only [draft, entered, List.map_map, Function.comp_def, Int.ofNat_inj]

/-- Its exit can be marked as accepting then, which finishes the graph. -/
theorem setAccepting_entered (hexit : f.exit < a.size) :
    (a.entered f).setAccepting f.exit true = .ok (a.graph f) := by
  have hnodup : ((a.entered f).states.map (·.id)).Nodup := by
    rw [ids_entered]
    exact List.nodup_range.map fun _ _ => Int.ofNat.inj
  have hmarked (i : Nat) :
      (if (i : Int) = f.exit then ({ id := i, isStart := i = f.entry, isAccepting := true } : State)
        else { id := i, isStart := i = f.entry }) =
      { id := i, isStart := i = f.entry, isAccepting := i = f.exit } := by
    simp only [Int.ofNat_inj]
    by_cases hi : i = f.exit <;> simp [hi]
  rw [Graph.setAccepting, if_pos (Graph.hasState_of_numbered ids_entered hexit),
    Graph.withVerdict_eq_map hnodup]
  simp only [entered, List.map_map, Function.comp_def, hmarked]
  rfl

/-- Marking the ends of a fragment in the graph drawn so far yields the finished
graph. -/
theorem mark_draft (hentry : f.entry < a.size) (hexit : f.exit < a.size) :
    a.draft.mark f = .ok (a.graph f) :=
  bind_eq_ok (congrArg (·.mapError Fault.graph) (setStart_draft hentry))
    (congrArg (·.mapError Fault.graph) (setAccepting_entered hexit))

/-- A construction is finished as it is without checks, or refused for the same
reason. -/
theorem finish_draft (ha : a.Sealed) : a.draft.finish = .ofResult a.toGraph := by
  rw [Draft.finish, toGraph, show a.draft.fragments = a.fragments from rfl]
  rcases hfragments : a.fragments with _ | ⟨f, _ | ⟨g, waiting⟩⟩
  · rfl
  · exact congrArg liftM (mark_draft (ha.entry_lt hfragments) (ha.exit_lt hfragments))
  · rfl

/-- Checking every step of a construction changes nothing: no state is made
twice, no move leads to or from a state that is not there, and the states that
are marked in the end exist. So no list of tokens ends the program, and the
result, or the reason why there is none, is the same. -/
theorem buildChecked_eq (ts : List Token) : buildChecked ts = .ofResult (build ts) := by
  have hread : ts.foldlM Draft.read {} = .ofResult ((ts.foldlM read {}).map draft) :=
    foldlM_read_draft sealed_empty ts
  rw [buildChecked, build, hread]
  cases hbuilt : ts.foldlM read {} with
  | error => rfl
  | ok a => exact finish_draft (sealed_empty.foldlM_read hbuilt)

end Assembly

/-- So no pattern ends the program either. -/
theorem Pattern.compileChecked_eq (pattern : List Char) :
    compileChecked pattern = .ofResult (compile pattern) :=
  Drafting.ofResult_bind fun _ _ => Drafting.ofResult_bind fun ts _ => Assembly.buildChecked_eq ts

end Automata
