import Automata.Proofs.Path
import Automata.Proofs.Run.Machine

namespace Automata

namespace Frontier

variable {silence : Silence} {g : Graph} {origin : StateId}

/-- The successors of a frontier are the targets of the moves from it that read
the symbol. -/
theorem mem_successors_iff {f : Frontier} {c : Char} {q : StateId} :
    q ∈ successors g f c ↔
      ∃ t ∈ g.transitions, t.reads c = true ∧ t.source ∈ f ∧ t.target = q := by
  simp only [successors, SortedSet.mem_ofList, List.mem_map, List.mem_filter, Bool.and_eq_true,
    decide_eq_true_eq, and_assoc]

theorem isAccepting_iff {f : Frontier} :
    isAccepting g f = true ↔ ∃ q ∈ f, g.isAccepting q = true := by
  simp only [isAccepting, List.any_eq_true, SortedSet.mem_toList]

@[simp] theorem isAccepting_empty : isAccepting g ∅ = false := rfl

/-- A run begins in every state that can be reached without reading. -/
theorem mem_initial_iff {q : StateId} :
    q ∈ initial silence g origin ↔ Path silence g.transitions origin [] q := by
  simp [initial, Silence.mem_close_iff]

/-- The start itself is always there. -/
theorem initial_ne_empty (silence : Silence) (g : Graph) (origin : StateId) :
    initial silence g origin ≠ ∅ := by
  intro hempty
  have horigin : origin ∈ initial silence g origin := mem_initial_iff.2 (.nil origin)
  rw [hempty] at horigin
  exact SortedSet.notMem_empty horigin

/-- A move leads along one reading move and any silent moves after it. -/
theorem mem_move_iff {f : Frontier} {c : Char} {q : StateId} :
    q ∈ move silence g f c ↔ ∃ t ∈ g.transitions, t.reads c = true ∧ t.source ∈ f ∧
      Path silence g.transitions t.target [] q := by
  rw [move, Silence.mem_close_iff]
  constructor
  · rintro ⟨p, hp, hpath⟩
    obtain ⟨t, ht, hreads, hsource, rfl⟩ := mem_successors_iff.1 hp
    exact ⟨t, ht, hreads, hsource, hpath⟩
  · rintro ⟨t, ht, hreads, hsource, hpath⟩
    exact ⟨t.target, mem_successors_iff.2 ⟨t, ht, hreads, hsource, rfl⟩, hpath⟩

@[simp] theorem move_empty (c : Char) : move silence g ∅ c = ∅ :=
  SortedSet.ext fun q => by simp [mem_move_iff]

/-- No silent move leaves the set. -/
def Closed (silence : Silence) (g : Graph) (f : Frontier) : Prop :=
  ∀ p ∈ f, ∀ q, Path silence g.transitions p [] q → q ∈ f

/-- What a run begins with is closed under silent moves. -/
theorem closed_initial : Closed silence g (initial silence g origin) := by
  intro p hp q hpath
  exact mem_initial_iff.2 (by simpa using (mem_initial_iff.1 hp).append hpath)

/-- What is there after a symbol is closed under silent moves. -/
theorem closed_move (f : Frontier) (c : Char) : Closed silence g (move silence g f c) := by
  intro p hp q hpath
  obtain ⟨t, ht, hreads, hsource, hbefore⟩ := mem_move_iff.1 hp
  exact mem_move_iff.2 ⟨t, ht, hreads, hsource, by simpa using hbefore.append hpath⟩

/-- Moving a closed set along a word leads to the ends of all paths that spell
the word from its members. -/
theorem Closed.mem_foldl_move_iff {f : Frontier} (hclosed : Closed silence g f)
    {word : List Char} {q : StateId} :
    q ∈ word.foldl (move silence g) f ↔ ∃ p ∈ f, Path silence g.transitions p word q := by
  induction word generalizing f with
  | nil =>
    constructor
    · intro hq
      exact ⟨q, hq, .nil q⟩
    · rintro ⟨p, hp, hpath⟩
      exact hclosed p hp q hpath
  | cons c word ih =>
    rw [List.foldl_cons, ih (closed_move f c)]
    constructor
    · rintro ⟨p, hp, hpath⟩
      obtain ⟨t, ht, hreads, hsource, hbefore⟩ := mem_move_iff.1 hp
      have hfirst : Path silence g.transitions t.source [c] t.target := by
        simpa [Transition.label_of_reads hreads] using
          Path.single ht (silence.takes_of_reads hreads)
      exact ⟨t.source, hsource, hfirst.append (hbefore.append hpath)⟩
    · rintro ⟨p, hp, hpath⟩
      obtain ⟨t, ht, hbefore, hreads, hafter⟩ := hpath.exists_reads
      exact ⟨t.target, mem_move_iff.2 ⟨t, ht, hreads, hclosed p hp _ hbefore, .nil _⟩, hafter⟩

/-- The states a machine is in after a word. -/
def after (silence : Silence) (g : Graph) (origin : StateId) (word : List Char) : Frontier :=
  word.foldl (move silence g) (initial silence g origin)

/-- The states after a word are the ends of the paths that spell it. -/
theorem mem_after_iff {word : List Char} {q : StateId} :
    q ∈ after silence g origin word ↔ Path silence g.transitions origin word q := by
  rw [after, closed_initial.mem_foldl_move_iff]
  constructor
  · rintro ⟨p, hp, hpath⟩
    simpa using (mem_initial_iff.1 hp).append hpath
  · intro hpath
    exact ⟨origin, mem_initial_iff.2 (.nil origin), hpath⟩

/-- The frontier after a word is found by reading its parts one after the
other. -/
theorem after_append (u v : List Char) :
    after silence g origin (u ++ v) = v.foldl (move silence g) (after silence g origin u) :=
  List.foldl_append

/-- Nothing can be read once no state is left. -/
theorem after_append_of_empty {u : List Char} (hempty : after silence g origin u = ∅)
    (v : List Char) : after silence g origin (u ++ v) = ∅ := by
  rw [after_append, hempty]
  induction v with
  | nil => rfl
  | cons c v ih => rw [List.foldl_cons, move_empty, ih]

/-- The run stops at the end of the input and stays as it is before. -/
theorem settle_cases (g : Graph) (r : Run Frontier) :
    (r.atEnd = true ∧ settle g r = r.finish .endOfInput (isAccepting g r.current)) ∨
      (r.atEnd = false ∧ settle g r = r) := by
  cases hend : r.atEnd with
  | true => exact .inl ⟨rfl, if_pos hend⟩
  | false => exact .inr ⟨rfl, if_neg (by simp [hend])⟩

theorem step_of_isFinished {r : Run Frontier} (hfinished : r.isFinished = true) :
    step silence g r = r :=
  if_pos hfinished

/-- At the end of the input a step settles, and reads nothing. -/
theorem step_of_symbol?_eq_none {r : Run Frontier} (hopen : r.isFinished = false)
    (hsymbol : r.symbol? = none) : step silence g r = settle g r := by
  unfold step
  rw [hopen, if_neg Bool.false_ne_true, hsymbol]

/-- A step that leads nowhere reads its symbol and stops. -/
theorem step_of_move_eq_empty {r : Run Frontier} (hopen : r.isFinished = false) {c : Char}
    (hsymbol : r.symbol? = some c) (hempty : move silence g r.current c = ∅) :
    step silence g r = (r.advance ∅).finish .emptyFrontier false := by
  unfold step
  rw [hopen, if_neg Bool.false_ne_true, hsymbol]
  dsimp only
  rw [hempty]
  rfl

/-- Any other step reads its symbol and goes on from the states that it leads
to. -/
theorem step_of_move_ne_empty {r : Run Frontier} (hopen : r.isFinished = false) {c : Char}
    (hsymbol : r.symbol? = some c) (hmove : move silence g r.current c ≠ ∅) :
    step silence g r = settle g (r.advance (move silence g r.current c)) := by
  unfold step
  rw [hopen, if_neg Bool.false_ne_true, hsymbol]
  exact if_neg (mt SortedSet.isEmpty_iff.1 hmove)

/-- All that a step of an unfinished run can do. -/
theorem step_cases (silence : Silence) (g : Graph) {r : Run Frontier}
    (hopen : r.isFinished = false) :
    (r.atEnd = true ∧ step silence g r = r.finish .endOfInput (isAccepting g r.current)) ∨
    ∃ c, r.symbol? = some c ∧
      ((move silence g r.current c = ∅ ∧
          step silence g r = (r.advance ∅).finish .emptyFrontier false) ∨
        (move silence g r.current c ≠ ∅ ∧
          step silence g r = settle g (r.advance (move silence g r.current c)))) := by
  cases hsymbol : r.symbol? with
  | none =>
    have hend := Run.symbol?_eq_none_iff.1 hsymbol
    rw [step_of_symbol?_eq_none hopen hsymbol]
    exact .inl ⟨hend, if_pos hend⟩
  | some c =>
    refine .inr ⟨c, rfl, ?_⟩
    by_cases hempty : move silence g r.current c = ∅
    · exact .inl ⟨hempty, step_of_move_eq_empty hopen hsymbol hempty⟩
    · exact .inr ⟨hempty, step_of_move_ne_empty hopen hsymbol hempty⟩

/-- Every step stops the run or reads a symbol. -/
theorem progresses_machine (silence : Silence) (g : Graph) :
    (machine silence g).Progresses := by
  refine ⟨fun r hfinished => step_of_isFinished hfinished, fun r hopen => ?_⟩
  change (step silence g r).isFinished = true ∨ (step silence g r).remaining.length < _
  obtain ⟨_, hstep⟩ | ⟨c, hsymbol, ⟨_, hstep⟩ | ⟨_, hstep⟩⟩ := step_cases silence g hopen
  · exact .inl (by rw [hstep]; rfl)
  · exact .inl (by rw [hstep]; rfl)
  · rw [hstep]
    obtain ⟨_, hsettle⟩ | ⟨_, hsettle⟩ := settle_cases g (r.advance (move silence g r.current c))
    · exact .inl (by rw [hsettle]; rfl)
    · right
      rw [hsettle]
      exact Run.length_remaining_advance_lt hsymbol _

/-- A machine is determined by the verdicts on sets of states, the first set, and
what a symbol makes of a set. -/
theorem machine_congr {silence' : Silence} {h : Graph} (hsettle : settle g = settle h)
    (hinitial : initial silence g = initial silence' h) (hmove : move silence g = move silence' h) :
    machine silence g = machine silence' h := by
  have hstart : start silence g = start silence' h := by
    funext origin input
    rw [start, start, hsettle, hinitial]
  have hstep : step silence g = step silence' h := by
    funext r
    rw [step, step, hsettle, hmove]
  rw [machine, machine, hstart, hstep]

/-- What all runs from a state have in common at every step: they are in the
states after the symbols they have read, and a verdict is the one on the whole
input. -/
structure Tracks (silence : Silence) (g : Graph) (origin : StateId) (r : Run Frontier) :
    Prop where
  current : r.current = after silence g origin (r.input.take r.position)
  position_le : r.position ≤ r.input.length
  verdict : r.verdict = r.halt.map fun _ => isAccepting g (after silence g origin r.input)

namespace Tracks

variable {r : Run Frontier}

theorem finish_endOfInput (hr : Tracks silence g origin r) (hend : r.atEnd = true) :
    Tracks silence g origin (r.finish .endOfInput (isAccepting g r.current)) := by
  have hposition : r.input.length ≤ r.position := of_decide_eq_true hend
  refine ⟨hr.current, hr.position_le, ?_⟩
  simp only [Run.finish, Option.map_some, hr.current, List.take_of_length_le hposition]

/-- A run that is left without a state rejects, whatever is still unread. -/
theorem finish_emptyFrontier (hr : Tracks silence g origin r) (hempty : r.current = ∅) :
    Tracks silence g origin (r.finish .emptyFrontier false) := by
  refine ⟨hr.current, hr.position_le, ?_⟩
  have hnone := after_append_of_empty (hr.current.symm.trans hempty) (r.input.drop r.position)
  rw [List.take_append_drop] at hnone
  simp [Run.finish, hnone]

theorem settle (hr : Tracks silence g origin r) : Tracks silence g origin (settle g r) := by
  obtain ⟨hend, hsettle⟩ | ⟨_, hsettle⟩ := settle_cases g r
  · rw [hsettle]
    exact hr.finish_endOfInput hend
  · rw [hsettle]
    exact hr

theorem advance (hr : Tracks silence g origin r) (hopen : r.isFinished = false) {c : Char}
    (hsymbol : r.symbol? = some c) :
    Tracks silence g origin (r.advance (move silence g r.current c)) := by
  have hhalt : r.halt = none := Run.isFinished_eq_false_iff.1 hopen
  refine ⟨?_, Run.position_lt_of_symbol? hsymbol, ?_⟩
  · simp only [Run.advance]
    rw [Run.take_succ_of_symbol? hsymbol, after_append, ← hr.current]
    rfl
  · simpa [Run.advance, hhalt] using hr.verdict

theorem step (hr : Tracks silence g origin r) : Tracks silence g origin (step silence g r) := by
  cases hopen : r.isFinished with
  | true =>
    rw [step_of_isFinished hopen]
    exact hr
  | false =>
    obtain ⟨hend, hstep⟩ | ⟨c, hsymbol, ⟨hempty, hstep⟩ | ⟨_, hstep⟩⟩ := step_cases silence g hopen
    · rw [hstep]
      exact hr.finish_endOfInput hend
    · rw [hstep]
      have hnext := hr.advance hopen hsymbol
      rw [hempty] at hnext
      exact hnext.finish_emptyFrontier rfl
    · rw [hstep]
      exact (hr.advance hopen hsymbol).settle

end Tracks

/-- A run begins with the frontier of the empty word. -/
theorem tracks_start (silence : Silence) (g : Graph) (origin : StateId) (input : List Char) :
    Tracks silence g origin (start silence g origin input) := by
  apply Tracks.settle
  exact ⟨by simp [after], Nat.zero_le _, rfl⟩

/-- Every frontier of a run is the one after the input read so far. -/
theorem tracks_repeat_step (silence : Silence) (g : Graph) (origin : StateId)
    (input : List Char) (k : Nat) :
    Tracks silence g origin
      (Nat.repeat (Frontier.step silence g) k (start silence g origin input)) := by
  induction k with
  | zero => exact tracks_start silence g origin input
  | succ k ih => exact ih.step

@[simp] theorem input_settle (g : Graph) (r : Run Frontier) : (settle g r).input = r.input := by
  obtain ⟨_, hsettle⟩ | ⟨_, hsettle⟩ := settle_cases g r
  · rw [hsettle]
    rfl
  · rw [hsettle]

@[simp] theorem input_step (silence : Silence) (g : Graph) (r : Run Frontier) :
    (step silence g r).input = r.input := by
  cases hopen : r.isFinished with
  | true => rw [step_of_isFinished hopen]
  | false =>
    obtain ⟨_, hstep⟩ | ⟨c, _, ⟨_, hstep⟩ | ⟨_, hstep⟩⟩ := step_cases silence g hopen
    · rw [hstep]
      rfl
    · rw [hstep]
      rfl
    · rw [hstep]
      exact input_settle g _

@[simp] theorem input_repeat_step (silence : Silence) (g : Graph) (r : Run Frontier) (k : Nat) :
    (Nat.repeat (step silence g) k r).input = r.input := by
  induction k with
  | zero => rfl
  | succ k ih => rw [Nat.repeat, input_step, ih]

theorem input_complete (silence : Silence) (g : Graph) (origin : StateId) (input : List Char) :
    ((machine silence g).complete (start silence g origin input)).input = input := by
  rw [Machine.complete, machine, input_repeat_step, start, input_settle]

theorem tracks_complete (silence : Silence) (g : Graph) (origin : StateId) (input : List Char) :
    Tracks silence g origin ((machine silence g).complete (start silence g origin input)) :=
  tracks_repeat_step silence g origin input _

/-- Acceptance is decided by the states after the whole input. -/
theorem acceptsFrom_eq (silence : Silence) (g : Graph) (origin : StateId) (input : List Char) :
    (machine silence g).acceptsFrom origin input =
      isAccepting g (after silence g origin input) := by
  have hfinished := (progresses_machine silence g).isFinished_complete
    (start silence g origin input)
  have hverdict := (tracks_complete silence g origin input).verdict
  obtain ⟨halt, hhalt⟩ := Option.isSome_iff_exists.1 hfinished
  change ((machine silence g).complete (start silence g origin input)).verdict.getD false = _
  rw [hverdict, hhalt, input_complete]
  rfl

/-- An input is accepted along a path that spells it and ends in an accepting
state. -/
theorem acceptsFrom_iff (silence : Silence) (g : Graph) (origin : StateId) (input : List Char) :
    (machine silence g).acceptsFrom origin input = true ↔
      ∃ q, Path silence g.transitions origin input q ∧ g.isAccepting q = true := by
  rw [acceptsFrom_eq, isAccepting_iff]
  simp only [mem_after_iff]

end Frontier

end Automata
