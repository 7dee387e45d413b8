import Automata.Pattern.Assembly
import Automata.Proofs.Pattern.Expression
import Automata.Proofs.Words

namespace Automata

/-- A move between two states of an assembly. -/
def numberedMove (source target : Nat) (symbol : Char) : Transition where
  source := source
  target := target
  symbol := symbol

@[simp]
theorem numberedMove_source (source target : Nat) (symbol : Char) :
    (numberedMove source target symbol).source = source := rfl

@[simp]
theorem numberedMove_target (source target : Nat) (symbol : Char) :
    (numberedMove source target symbol).target = target := rfl

/-- A move between two states of an assembly that reads nothing. -/
def silentMove (source target : Nat) : Transition :=
  numberedMove source target epsilon

theorem label_silentMove (source target : Nat) : (silentMove source target).label = [] :=
  Transition.label_of_isEpsilon (decide_eq_true rfl)

/-- The word of a symbol is what a move on it spells. -/
theorem mem_symbolLanguage_iff_label {source target : Nat} {c : Char} {word : List Char} :
    word ∈ symbolLanguage c ↔ word = (numberedMove source target c).label := by
  rw [mem_symbolLanguage_iff]
  by_cases hsilent : c = epsilon <;>
    simp [Transition.label, Transition.isEpsilon, numberedMove, hsilent]

/-- A state among those that were made between two moments of a construction. -/
def Within (lo hi : Nat) (q : Int) : Prop :=
  lo ≤ q ∧ q < hi

namespace Within

variable {lo mid hi lo' hi' n : Nat} {q : Int}

theorem natCast (hlow : lo ≤ n) (hhigh : n < hi) : Within lo hi n := by
  unfold Within
  omega

theorem mono (hwithin : Within lo hi q) (hlo : lo' ≤ lo) (hhi : hi ≤ hi') : Within lo' hi' q := by
  obtain ⟨hlow, hhigh⟩ := hwithin
  constructor <;> omega

/-- A state that is made later is none of those made before. -/
theorem ne_natCast (hwithin : Within lo hi q) (hn : hi ≤ n) : q ≠ n := by
  obtain ⟨_, hhigh⟩ := hwithin
  omega

end Within

/-- Moves among the states that were made between two moments of a
    construction. -/
def Confined (lo hi : Nat) (moves : List Transition) : Prop :=
  ∀ t ∈ moves, Within lo hi t.source ∧ Within lo hi t.target

namespace Confined

variable {lo hi lo' hi' source target : Nat} {moves more : List Transition}

/-- Moves that keep to some states keep to more states. -/
theorem mono (hmoves : Confined lo hi moves) (hlo : lo' ≤ lo) (hhi : hi ≤ hi') :
    Confined lo' hi' moves := by
  intro t ht
  obtain ⟨hsource, htarget⟩ := hmoves t ht
  exact ⟨hsource.mono hlo hhi, htarget.mono hlo hhi⟩

/-- Moves that keep to the same states do so together. -/
theorem append (hmoves : Confined lo hi moves) (hmore : Confined lo hi more) :
    Confined lo hi (moves ++ more) := by
  intro t ht
  obtain ht | ht := List.mem_append.1 ht
  · exact hmoves t ht
  · exact hmore t ht

/-- A silent move between states keeps to them. -/
theorem silent (hsource : Within lo hi source) (htarget : Within lo hi target) :
    Confined lo hi [silentMove source target] := by
  intro t ht
  rw [List.mem_singleton.1 ht]
  exact ⟨hsource, htarget⟩

end Confined

/-- A silent move lets a state spell what its target spells. -/
theorem mem_wordsBetween_of_silent {moves : List Transition} {source target : Nat} {q : StateId}
    {word : List Char} (hmove : silentMove source target ∈ moves)
    (hword : word ∈ wordsBetween moves target q) : word ∈ wordsBetween moves source q := by
  have hcons := label_append_mem_wordsBetween hmove hword
  rwa [label_silentMove] at hcons

section Rest

variable {rest : StateId → Language Char} {word : List Char}

/-- A silent move is kept by languages of which the one is part of the other. -/
theorem silentMove_append_mem {source target : Nat} (hsub : word ∈ rest target → word ∈ rest source)
    (hword : word ∈ rest (silentMove source target).target) :
    (silentMove source target).label ++ word ∈ rest (silentMove source target).source := by
  rw [label_silentMove]
  exact hsub hword

/-- Moves of a part of the graph are kept by the languages of the words that
    lead through the part to one of its states and on from there. -/
theorem Confined.label_append_mem {lo hi : Nat} {moves : List Transition} {q : StateId}
    {L : Language Char} (hmoves : Confined lo hi moves)
    (hrest : ∀ {p : Int}, Within lo hi p → rest p = wordsBetween moves p q * L)
    {t : Transition} (ht : t ∈ moves) (hword : word ∈ rest t.target) :
    t.label ++ word ∈ rest t.source := by
  obtain ⟨hsource, htarget⟩ := hmoves t ht
  rw [hrest htarget] at hword
  rw [hrest hsource]
  exact label_append_mem_wordsBetween_mul ht hword

end Rest

/-- A fragment with its own moves, all among its own states, which spell the
    words of a language on the way from the entry to the exit. -/
structure Fragment.Realizes (f : Fragment) (lo hi : Nat) (moves : List Transition)
    (L : Language Char) : Prop where
  entry_within : Within lo hi f.entry
  exit_within : Within lo hi f.exit
  confined : Confined lo hi moves
  words_eq : wordsBetween moves f.entry f.exit = L

namespace Fragment.Realizes

variable {lo mid hi : Nat} {f left right : Fragment} {moves movesl movesr : List Transition}
  {L M : Language Char}

/-- The states of a fragment were made in order. -/
theorem lo_le_hi (hf : f.Realizes lo hi moves L) : lo ≤ hi := by
  obtain ⟨hlow, hhigh⟩ := hf.entry_within
  omega

/-- A fragment for several symbols spells one of them. -/
theorem symbols (lo : Nat) (members : List Char) :
    Realizes ⟨lo, lo + 1⟩ lo (lo + 2) (members.map (numberedMove lo (lo + 1)))
      (membersLanguage members) where
  entry_within := .natCast le_rfl (by simp)
  exit_within := .natCast (by simp) (by simp)
  confined := by
    intro t ht
    obtain ⟨c, _, rfl⟩ := List.mem_map.1 ht
    exact ⟨.natCast le_rfl (by omega), .natCast (by omega) (by omega)⟩
  words_eq := by
    ext word
    constructor
    · intro hword
      let rest : StateId → Language Char := fun (p : Int) =>
        if p = (lo : Int) then membersLanguage members else 1
      have hentry : rest lo = membersLanguage members := if_pos rfl
      have hexit : rest ((lo + 1 : Nat) : Int) = 1 := if_neg (by omega)
      rw [← hentry]
      apply mem_of_mem_wordsBetween (hexit ▸ Language.nil_mem_one) ?_ hword
      intro t ht word hrest
      obtain ⟨c, hc, rfl⟩ := List.mem_map.1 ht
      rw [numberedMove_target, hexit, Language.mem_one] at hrest
      rw [numberedMove_source, hentry, hrest, List.append_nil]
      exact ⟨c, hc, mem_symbolLanguage_iff_label.2 rfl⟩
    · rintro ⟨c, hc, hword⟩
      rw [mem_symbolLanguage_iff_label.1 hword]
      exact Path.single (List.mem_map_of_mem hc) (Silence.takes_followed _)

/-- A path from the left part crosses the joint once, and one from the right
    part stays there. -/
theorem mem_mul_of_mem_concat (hleft : left.Realizes lo mid movesl L)
    (hright : right.Realizes mid hi movesr M) {word : List Char}
    (hword : word ∈ wordsBetween (silentMove left.exit right.entry :: (movesr ++ movesl))
      left.entry right.exit) : word ∈ L * M := by
  let rest : StateId → Language Char := fun (p : Int) =>
    if p < mid then wordsBetween movesl p left.exit * M
    else wordsBetween movesr p right.exit * 1
  have hrestl {p : Int} (hp : Within lo mid p) : rest p = wordsBetween movesl p left.exit * M :=
    if_pos hp.2
  have hrestr {p : Int} (hp : Within mid hi p) : rest p = wordsBetween movesr p right.exit * 1 :=
    if_neg (Int.not_lt.2 hp.1)
  rw [← hleft.words_eq, ← hrestl hleft.entry_within]
  apply mem_of_mem_wordsBetween ?_ ?_ hword
  · rw [hrestr hright.exit_within, mul_one]
    exact nil_mem_wordsBetween
  · intro t ht word hrest
    obtain rfl | ht := List.mem_cons.1 ht
    · apply silentMove_append_mem ?_ hrest
      intro hrest
      rw [hrestr hright.entry_within, hright.words_eq, mul_one] at hrest
      rw [hrestl hleft.exit_within]
      exact Language.append_mem_mul nil_mem_wordsBetween hrest
    · obtain ht | ht := List.mem_append.1 ht
      · exact hright.confined.label_append_mem hrestr ht hrest
      · exact hleft.confined.label_append_mem hrestl ht hrest

/-- A word of the left fragment followed by one of the right is spelled across
the joint. -/
theorem mem_concat_of_mem_mul (hleft : left.Realizes lo mid movesl L)
    (hright : right.Realizes mid hi movesr M) {word : List Char} (hword : word ∈ L * M) :
    word ∈ wordsBetween (silentMove left.exit right.entry :: (movesr ++ movesl))
      left.entry right.exit := by
  rw [← hleft.words_eq, ← hright.words_eq] at hword
  obtain ⟨u, hu, v, hv, rfl⟩ := Language.mem_mul.1 hword
  have hown : movesr ++ movesl ⊆ silentMove left.exit right.entry :: (movesr ++ movesl) :=
    List.subset_cons_self _ _
  have hfirst := wordsBetween_mono (List.Subset.trans (List.subset_append_right _ _) hown) hu
  have hsecond := wordsBetween_mono (List.Subset.trans (List.subset_append_left _ _) hown) hv
  exact append_mem_wordsBetween hfirst (mem_wordsBetween_of_silent List.mem_cons_self hsecond)

/-- The exit of the left fragment joined to the entry of the right one. -/
theorem concat (hleft : left.Realizes lo mid movesl L) (hright : right.Realizes mid hi movesr M) :
    Realizes ⟨left.entry, right.exit⟩ lo hi
      (silentMove left.exit right.entry :: (movesr ++ movesl)) (L * M) where
  entry_within := hleft.entry_within.mono le_rfl hright.lo_le_hi
  exit_within := hright.exit_within.mono hleft.lo_le_hi le_rfl
  confined :=
    (Confined.silent (hleft.exit_within.mono le_rfl hright.lo_le_hi)
      (hright.entry_within.mono hleft.lo_le_hi le_rfl)).append
      ((hright.confined.mono hleft.lo_le_hi le_rfl).append
        (hleft.confined.mono le_rfl hright.lo_le_hi))
  words_eq := Language.ext fun _ =>
    ⟨hleft.mem_mul_of_mem_concat hright, hleft.mem_concat_of_mem_mul hright⟩

end Fragment.Realizes

end Automata
