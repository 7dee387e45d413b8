import Automata.Proofs.Graph.InPlace
import Automata.Proofs.Pushdown.Moves
import Automata.Proofs.Reload
import Automata.Wire.Graph

namespace Automata

namespace MoveRecord

variable {r s : MoveRecord}

/-- The record without any epsilon, where a text that has nothing left is
missing. -/
def normalized (r : MoveRecord) : MoveRecord :=
  { r with
    pop := r.pop.filter (· ≠ epsilon)
    push := (r.push.map fun text => String.ofList (text.toList.filter (· ≠ epsilon))).filter
      (· ≠ "") }

/-- Nothing is said about the stack that could as well be left out. -/
structure Canonical (r : MoveRecord) : Prop where
  pop_ne_epsilon : r.pop ≠ some epsilon
  push_ne_empty : r.push ≠ some ""
  epsilon_notMem_push : ∀ text ∈ r.push, epsilon ∉ text.toList

/-- The symbol that a record demands. Epsilon demands nothing. -/
def demanded? (r : MoveRecord) : Option Char := r.pop.filter (· ≠ epsilon)

/-- The text that a record pushes. The empty text pushes nothing. -/
def pushed? (r : MoveRecord) : Option String := r.push.filter (· ≠ "")

theorem Canonical.demanded?_eq (hr : r.Canonical) : r.demanded? = r.pop := by
  cases hpop : r.pop with
  | none => simp [demanded?, hpop]
  | some symbol =>
    have hsymbol : symbol ≠ epsilon := fun heq => hr.pop_ne_epsilon (heq ▸ hpop)
    simp [demanded?, hpop, hsymbol]

theorem Canonical.pushed?_eq (hr : r.Canonical) : r.pushed? = r.push := by
  cases hpush : r.push with
  | none => simp [pushed?, hpush]
  | some text =>
    have htext : text ≠ "" := fun heq => hr.push_ne_empty (heq ▸ hpush)
    simp [pushed?, hpush, htext]

/-- The record of a move is in normal form. -/
theorem canonical_record (t : Transition) : t.record.Canonical where
  pop_ne_epsilon := t.pop_ne_epsilon
  push_ne_empty := by
    unfold Transition.record
    cases t.push <;> simp
  epsilon_notMem_push := by
    intro text htext
    unfold Transition.record at htext
    split at htext
    · cases htext
    · cases htext
      rw [String.toList_ofList]
      exact t.epsilon_notMem_push

/-- What a move stores is the record it was built from, normalized. -/
theorem record_move (r : MoveRecord) : r.move.record = r.normalized := by
  cases hpush : r.push with
  | none => simp [move, Transition.pushdown, Transition.record, normalized, hpush]
  | some text =>
    cases hleft : text.toList.filter (· ≠ epsilon) with
    | nil =>
      simp only [move, Transition.pushdown, Transition.record, normalized, hpush, hleft,
        Option.map_some, Option.getD_some]
      rfl
    | cons symbol rest =>
      have hsaid : (some (String.ofList (symbol :: rest))).filter (· ≠ "") =
          some (String.ofList (symbol :: rest)) := by simp
      simp only [move, Transition.pushdown, Transition.record, normalized, hpush, hleft, hsaid,
        Option.map_some, Option.getD_some]
      rfl

/-- A move is read back from its record. -/
theorem move_record (t : Transition) : t.record.move = t := by
  refine Transition.key_injective ?_
  have hpop : t.pop.filter (· ≠ epsilon) = t.pop := (canonical_record t).demanded?_eq
  have hpush : t.push.filter (· ≠ epsilon) = t.push := by
    refine List.filter_eq_self.2 fun symbol hsymbol => decide_eq_true ?_
    rintro rfl
    exact t.epsilon_notMem_push hsymbol
  have htext : (t.record.push.map String.toList).getD [] = t.push := by
    unfold Transition.record
    cases hsymbols : t.push <;> simp
  rw [move, htext]
  simp only [Transition.key, Transition.pushdown, Transition.record, hpop, hpush]

/-- Different moves have different records. -/
theorem record_injective {t u : Transition} (hrecord : t.record = u.record) : t = u := by
  rw [← move_record t, hrecord, move_record]

/-- Records describe the same move if they only differ in how they say that
nothing is done. -/
theorem move_eq_iff : r.move = s.move ↔ r.normalized = s.normalized := by
  rw [← record_move, ← record_move]
  exact ⟨congrArg Transition.record, record_injective⟩

/-- Different records are written differently. -/
theorem toJson_injective (hjson : r.toJson = s.toJson) : r = s := by
  obtain ⟨source, target, symbol, pop, push⟩ := r
  obtain ⟨source', target', symbol', pop', push'⟩ := s
  simp only [toJson, Json.obj.injEq, List.cons_append, List.nil_append, List.cons.injEq,
    Prod.mk.injEq, true_and, Json.int.injEq] at hjson
  obtain ⟨rfl, rfl, hsymbol, hstack⟩ := hjson
  obtain rfl := Json.char_inj.1 hsymbol
  -- the names of the fields tell which of the two actions a written one is
  cases pop <;> cases pop' <;> cases push <;> cases push' <;> simp_all [Json.char_inj]

/-- The state numbers have 32 bits. -/
def Fits (r : MoveRecord) : Prop :=
  fitsStateId r.source = true ∧ fitsStateId r.target = true

/-- A record is read back if its states are within the machine range. -/
theorem ofJson_toJson (hr : r.Fits) : ofJson r.toJson = .ok r := by
  obtain ⟨source, target, symbol, pop, push⟩ := r
  obtain ⟨hsource, htarget⟩ := hr
  have hpop (c : Char) : (Json.char c).toOption Json.toChar = .ok (some c) :=
    congrArg (Except.map some) (Json.toChar_char c)
  have hpush (text : String) : (Json.str text).toOption Json.toText = .ok (some text) := rfl
  -- which stack actions are written decides which fields there are
  cases pop <;> cases push <;> rw [ofJson, toJson, Fields.ofJson_obj (by simp)] <;>
    simp [Fields.required, Fields.defaulted, List.lookup_cons, bind, Except.bind, pure,
      Except.pure, Json.toId_int hsource, Json.toId_int htarget, Json.toChar_char, hpop, hpush]

/-- The states of a record that was read are within the machine range. -/
theorem fits_of_ofJson {j : Json} (hread : ofJson j = .ok r) : r.Fits := by
  obtain ⟨fields, _, hread⟩ := exists_of_bind_eq_ok hread
  obtain ⟨source, hsource, hread⟩ := exists_of_bind_eq_ok hread
  obtain ⟨target, htarget, hread⟩ := exists_of_bind_eq_ok hread
  obtain ⟨symbol, _, hread⟩ := exists_of_bind_eq_ok hread
  obtain ⟨pop, _, hread⟩ := exists_of_bind_eq_ok hread
  obtain ⟨push, _, hread⟩ := exists_of_bind_eq_ok hread
  cases hread
  obtain ⟨_, _, hsource⟩ := Fields.required_eq_ok_iff.1 hsource
  obtain ⟨_, _, htarget⟩ := Fields.required_eq_ok_iff.1 htarget
  exact ⟨Json.fits_of_toId hsource, Json.fits_of_toId htarget⟩

end MoveRecord

/-- A state is read back if its number is within the machine range. -/
theorem State.ofJson_toJson {s : State} (hs : fitsStateId s.id = true) :
    ofJson s.toJson = .ok s := by
  rw [ofJson, toJson, Fields.ofJson_obj (by simp)]
  simp [Fields.required, List.lookup_cons, bind, Except.bind, pure, Except.pure,
    Json.toId_int hs, Json.toBool]

theorem State.fits_of_ofJson {j : Json} {s : State} (hread : ofJson j = .ok s) :
    fitsStateId s.id = true := by
  obtain ⟨fields, _, hread⟩ := exists_of_bind_eq_ok hread
  obtain ⟨id, hid, hread⟩ := exists_of_bind_eq_ok hread
  obtain ⟨isStart, _, hread⟩ := exists_of_bind_eq_ok hread
  obtain ⟨isAccepting, _, hread⟩ := exists_of_bind_eq_ok hread
  cases hread
  obtain ⟨_, _, hid⟩ := Fields.required_eq_ok_iff.1 hid
  exact Json.fits_of_toId hid

namespace Transition

variable {t u : Transition}

/-- A move is read back if its states are within the machine range. -/
theorem ofJson_toJson (hsource : fitsStateId t.source = true)
    (htarget : fitsStateId t.target = true) : ofJson t.toJson = .ok t := by
  rw [ofJson, toJson, MoveRecord.ofJson_toJson ⟨hsource, htarget⟩]
  exact congrArg Except.ok (MoveRecord.move_record t)

theorem fits_of_ofJson {j : Json} (hread : ofJson j = .ok t) :
    fitsStateId t.source = true ∧ fitsStateId t.target = true := by
  obtain ⟨r, hr, rfl⟩ := exists_of_map_eq_ok hread
  exact MoveRecord.fits_of_ofJson hr

/-- Different moves are written differently. -/
theorem toJson_inj : t.toJson = u.toJson ↔ t = u :=
  ⟨fun hjson => MoveRecord.record_injective (MoveRecord.toJson_injective hjson),
    congrArg toJson⟩

/-- Two moves give the same answers when asked for their ends, their symbol, and
what they demand and push. -/
structure LooksLike (t u : Transition) : Prop where
  source : t.source = u.source
  target : t.target = u.target
  symbol : t.symbol = u.symbol
  demanded : t.record.demanded? = u.record.demanded?
  pushed : t.record.pushed? = u.record.pushed?

/-- Nothing is lost by looking at a move through what it demands and pushes. -/
theorem looksLike_iff_eq : t.LooksLike u ↔ t = u := by
  refine ⟨fun hlooks => MoveRecord.record_injective ?_, ?_⟩
  · obtain ⟨hsource, htarget, hsymbol, hpop, hpush⟩ := hlooks
    rw [(MoveRecord.canonical_record t).demanded?_eq,
      (MoveRecord.canonical_record u).demanded?_eq] at hpop
    rw [(MoveRecord.canonical_record t).pushed?_eq,
      (MoveRecord.canonical_record u).pushed?_eq] at hpush
    calc t.record = ⟨t.source, t.target, t.symbol, t.record.pop, t.record.push⟩ := rfl
      _ = ⟨u.source, u.target, u.symbol, u.record.pop, u.record.push⟩ := by
        rw [hsource, htarget, hsymbol, hpop, hpush]
      _ = u.record := rfl
  · rintro rfl
    exact ⟨rfl, rfl, rfl, rfl, rfl⟩

end Transition

/-- A kind is read back from its name. -/
theorem Kind.ofTag_wireName (kind : Kind) : ofTag (.str kind.wireName) = .ok kind := by
  cases kind <;> rfl

namespace Automaton

theorem kind_ofGraph (g : Graph) (kind : Kind) : (ofGraph g kind).kind = kind := by
  cases kind <;> rfl

theorem graph_ofGraph (g : Graph) (kind : Kind) : (ofGraph g kind).graph = g := by
  cases kind <;> rfl

/-- An automaton whose state numbers fit is read back, with the default bounds if
it is a pushdown automaton. -/
theorem ofJson_toJson {a : Automaton} (hfits : a.graph.Fits) :
    ofJson a.toJson = .ok (ofGraph a.graph a.kind) := by
  have hstates : (Json.list State.toJson a.graph.states).toList State.ofJson =
      .ok a.graph.states :=
    Json.toList_list fun s hs => State.ofJson_toJson (hfits.id s hs)
  have htransitions : (Json.list Transition.toJson a.graph.transitions).toList Transition.ofJson =
      .ok a.graph.transitions :=
    Json.toList_list fun t ht => Transition.ofJson_toJson (hfits.source t ht) (hfits.target t ht)
  rw [ofJson, toJson, Graph.jsonFields, Fields.ofJson_obj (by simp)]
  simp [Fields.required, List.lookup_cons, bind, Except.bind, pure, Except.pure,
    Kind.ofTag_wireName, hstates, htransitions]

/-- What was read is an automaton with the default bounds whose state numbers
fit. -/
theorem exists_of_ofJson {j : Json} {a : Automaton} (hread : ofJson j = .ok a) :
    a.graph.Fits ∧ a = ofGraph a.graph a.kind := by
  obtain ⟨fields, _, hread⟩ := exists_of_bind_eq_ok hread
  obtain ⟨kind, _, hread⟩ := exists_of_bind_eq_ok hread
  obtain ⟨states, hstates, hread⟩ := exists_of_bind_eq_ok hread
  obtain ⟨transitions, htransitions, hread⟩ := exists_of_bind_eq_ok hread
  cases hread
  obtain ⟨_, _, hstates⟩ := Fields.required_eq_ok_iff.1 hstates
  obtain ⟨_, _, htransitions⟩ := Fields.required_eq_ok_iff.1 htransitions
  rw [graph_ofGraph, kind_ofGraph]
  refine ⟨⟨fun s hs => ?_, fun t ht => ?_, fun t ht => ?_⟩, rfl⟩
  · obtain ⟨_, hitem⟩ := Json.exists_of_mem_toList hstates hs
    exact State.fits_of_ofJson hitem
  · obtain ⟨_, hitem⟩ := Json.exists_of_mem_toList htransitions ht
    exact (Transition.fits_of_ofJson hitem).1
  · obtain ⟨_, hitem⟩ := Json.exists_of_mem_toList htransitions ht
    exact (Transition.fits_of_ofJson hitem).2

/-- Writing automata loses nothing, and each has one written form. Every automaton
is read back with its graph and kind, and what was read survives being written
and read again. However a stack action was spelled when a move was built or read,
no epsilon and no empty text is kept, so moves that look alike or act alike are
the same move and are written alike; in particular a move is found for removal
exactly if one that looks like it is there. -/
theorem encoding_faithful :
    (∀ a : Automaton, a.graph.Fits → ofJson a.toJson = .ok (ofGraph a.graph a.kind)) ∧
    (∀ (j : Json) (a : Automaton), ofJson j = .ok a → ofJson a.toJson = .ok a ∧
      ∀ t ∈ a.graph.transitions, t.record.Canonical) ∧
    (∀ r s : MoveRecord, r.move = s.move ↔ r.normalized = s.normalized) ∧
    (∀ t u : Transition, (t.LooksLike u ↔ t = u) ∧ (t.ActsAlike u ↔ t = u) ∧
      (t.toJson = u.toJson ↔ t = u)) ∧
    ∀ (t : Transition) (g : Graph), ∃ found,
      (Editor.removeTransition t).run g = .ok found (g.removeTransition t) ∧
        (found = true ↔ ∃ u ∈ g.transitions, u.LooksLike t) := by
  refine ⟨fun a => ofJson_toJson, fun j a hread => ⟨?_, fun t _ => MoveRecord.canonical_record t⟩,
    fun r s => MoveRecord.move_eq_iff, fun t u => ?_, fun t g => ?_⟩
  · obtain ⟨hfits, hdefault⟩ := exists_of_ofJson hread
    rw [ofJson_toJson hfits, ← hdefault]
  · exact ⟨Transition.looksLike_iff_eq, Transition.actsAlike_iff_eq, Transition.toJson_inj⟩
  · refine ⟨_, Editor.run_removeTransition t g, ?_⟩
    simp only [Transition.looksLike_iff_eq, decide_eq_true_eq, exists_eq_right]

/-- A pushdown automaton under bounds of its own, and a record in which a demand
and a text of epsilon stand for nothing. -/
theorem encoding_faithful_of_spellings :
    let a : Automaton := .pda
      { states := [{ id := 0, isStart := true }, { id := -7, isAccepting := true }]
        transitions := [
          .pushdown 0 0 '(' (some epsilon) ['X', epsilon, 'Y'],
          .pushdown 0 (-7) epsilon (some '#') [epsilon],
          { source := -7, target := 3, symbol := 'a' }] }
      { epsilonIterations := 4, stackGrowth := 0 }
    let j : Json := .obj [("states", .arr []), ("kind", "dfa"), ("transitions", .arr [.obj [
      ("symbol", "a"), ("stackPush", "\x00\x00"), ("toStateId", .int 1), ("fromStateId", .int 0),
      ("stackPop", "\x00")]])]
    let read : Automaton := .dfa { transitions := [{ source := 0, target := 1, symbol := 'a' }] }
    a.graph.Fits ∧ ofJson a.toJson = .ok (.pda a.graph) ∧
      ofJson j = .ok read ∧ ofJson read.toJson = .ok read ∧
        ∀ t ∈ read.graph.transitions, t.record.Canonical := by
  intro a j read
  have hfits : a.graph.Fits := ⟨by decide, by decide, by decide⟩
  have hread : ofJson j = .ok read := rfl
  exact ⟨hfits, encoding_faithful.1 a hfits, hread, encoding_faithful.2.1 j read hread⟩

end Automaton

end Automata
