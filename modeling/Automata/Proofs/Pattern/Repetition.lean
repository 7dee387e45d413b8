import Automata.Proofs.Pattern.Fragment

open scoped Computability

namespace Automata

/-- The moves around a fragment with a new entry and a new exit. -/
def wrapMoves (skips loops : Bool) (inner outer : Fragment) : List Transition :=
  (if loops then [silentMove inner.exit inner.entry] else []) ++
    (if skips then [silentMove outer.entry outer.exit] else []) ++
    [silentMove inner.exit outer.exit, silentMove outer.entry inner.entry]

/-- What can follow a first passage through a fragment. -/
def tailLanguage (loops : Bool) (L : Language Char) : Language Char :=
  if loops then L∗ else 1

/-- The words of a fragment that may be skipped or passed more than once. -/
def wrapLanguage (skips loops : Bool) (L : Language Char) : Language Char :=
  (if skips then 1 else 0) + L * tailLanguage loops L

/-- Silent moves lead from the outer entry through the fragment to the outer
exit, and, where allowed, past it and back. -/
theorem mem_wrapMoves_iff {skips loops : Bool} {inner outer : Fragment} {t : Transition} :
    t ∈ wrapMoves skips loops inner outer ↔
      (loops = true ∧ t = silentMove inner.exit inner.entry) ∨
        (skips = true ∧ t = silentMove outer.entry outer.exit) ∨
        t = silentMove inner.exit outer.exit ∨ t = silentMove outer.entry inner.entry := by
  cases skips <;> cases loops <;> simp [wrapMoves]

/-- Nothing more needs to be read behind the fragment. -/
theorem nil_mem_tailLanguage (loops : Bool) (L : Language Char) : [] ∈ tailLanguage loops L := by
  cases loops
  · exact Language.nil_mem_one
  · exact Language.nil_mem_kstar L

/-- A word in front of a repetition makes a longer repetition. -/
theorem mem_kstar_of_mem_mul {L : Language Char} {word : List Char} (hword : word ∈ L * L∗) :
    word ∈ L∗ := by
  rw [← Language.one_add_self_mul_kstar_eq_kstar]
  exact .inr hword

/-- Once a fragment has been passed, the way back lets it be passed any number
    of times more. -/
theorem mem_wordsBetween_of_mem_kstar {f : Fragment} {all : List Transition} {q : StateId}
    {L : Language Char} {word : List Char} (hloop : silentMove f.exit f.entry ∈ all)
    (hpass : ∀ u ∈ L, u ∈ wordsBetween all f.entry f.exit)
    (hleave : [] ∈ wordsBetween all f.exit q) (hword : word ∈ L∗) :
    word ∈ wordsBetween all f.exit q := by
  obtain ⟨words, rfl, hwords⟩ := Language.mem_kstar.1 hword
  clear hword
  induction words with
  | nil => exact hleave
  | cons u words ih =>
    have hrest := ih fun v hv => hwords v (List.mem_cons_of_mem _ hv)
    have hu := hpass u (hwords u List.mem_cons_self)
    exact mem_wordsBetween_of_silent hloop (append_mem_wordsBetween hu hrest)

namespace Fragment.Realizes

variable {lo hi : Nat} {f : Fragment} {moves : List Transition} {L : Language Char}

/-- A wrapped fragment keeps to the states that were made for it. -/
theorem confined_wrap (skips loops : Bool) (hf : f.Realizes lo hi moves L) :
    Confined lo (hi + 2) (wrapMoves skips loops f ⟨hi, hi + 1⟩ ++ moves) := by
  have hlo := hf.lo_le_hi
  have hmore : hi ≤ hi + 2 := by omega
  have hentry := hf.entry_within.mono le_rfl hmore
  have hexit := hf.exit_within.mono le_rfl hmore
  have hnew : Within lo (hi + 2) hi := .natCast hlo (by omega)
  have hlast : Within lo (hi + 2) (hi + 1 : Nat) := .natCast (by omega) (by omega)
  apply Confined.append ?_ (hf.confined.mono le_rfl hmore)
  intro t ht
  obtain ⟨_, rfl⟩ | ⟨_, rfl⟩ | rfl | rfl := mem_wrapMoves_iff.1 ht
  · exact ⟨hexit, hentry⟩
  · exact ⟨hnew, hlast⟩
  · exact ⟨hexit, hlast⟩
  · exact ⟨hnew, hentry⟩

/-- Whatever leads through a wrapped fragment is one of its words: past the new
    entry comes a passage through the fragment, and then its tail. -/
theorem mem_wrapLanguage_of_mem (skips loops : Bool) (hf : f.Realizes lo hi moves L)
    {word : List Char}
    (hword : word ∈ wordsBetween (wrapMoves skips loops f ⟨hi, hi + 1⟩ ++ moves) hi
      (hi + 1 : Nat)) :
    word ∈ wrapLanguage skips loops L := by
  let rest : StateId → Language Char := fun (p : Int) =>
    if p = hi then wrapLanguage skips loops L
    else if p = (hi + 1 : Nat) then 1 else wordsBetween moves p f.exit * tailLanguage loops L
  have hentry : rest (hi : Int) = wrapLanguage skips loops L := if_pos rfl
  have hexit : rest ((hi + 1 : Nat) : Int) = 1 := (if_neg (by omega)).trans (if_pos rfl)
  have hinner {p : Int} (hp : Within lo hi p) :
      rest p = wordsBetween moves p f.exit * tailLanguage loops L :=
    (if_neg (hp.ne_natCast le_rfl)).trans (if_neg (hp.ne_natCast (by omega)))
  rw [← hentry]
  apply mem_of_mem_wordsBetween (hexit ▸ Language.nil_mem_one) ?_ hword
  intro t ht word hrest
  obtain ht | ht := List.mem_append.1 ht
  · obtain ⟨hloops, rfl⟩ | ⟨hskips, rfl⟩ | rfl | rfl := mem_wrapMoves_iff.1 ht
    · apply silentMove_append_mem ?_ hrest
      intro hrest
      rw [hinner hf.entry_within, hf.words_eq, tailLanguage, if_pos hloops] at hrest
      rw [hinner hf.exit_within, tailLanguage, if_pos hloops]
      exact Language.append_mem_mul nil_mem_wordsBetween (mem_kstar_of_mem_mul hrest)
    · apply silentMove_append_mem ?_ hrest
      intro hrest
      rw [hexit, Language.mem_one] at hrest
      rw [hentry, wrapLanguage, if_pos hskips, hrest]
      exact .inl Language.nil_mem_one
    · apply silentMove_append_mem ?_ hrest
      intro hrest
      rw [hexit, Language.mem_one] at hrest
      rw [hinner hf.exit_within, hrest]
      exact Language.append_mem_mul nil_mem_wordsBetween (nil_mem_tailLanguage loops L)
    · apply silentMove_append_mem ?_ hrest
      intro hrest
      rw [hinner hf.entry_within, hf.words_eq] at hrest
      rw [hentry]
      exact .inr hrest
  · exact hf.confined.label_append_mem hinner ht hrest

/-- Every word of a wrapped fragment leads through it. -/
theorem mem_of_mem_wrapLanguage (skips loops : Bool) (hf : f.Realizes lo hi moves L)
    {word : List Char} (hword : word ∈ wrapLanguage skips loops L) :
    word ∈ wordsBetween (wrapMoves skips loops f ⟨hi, hi + 1⟩ ++ moves) hi (hi + 1 : Nat) := by
  have hmove {t : Transition} (ht : t ∈ wrapMoves skips loops f ⟨hi, hi + 1⟩) :
      t ∈ wrapMoves skips loops f ⟨hi, hi + 1⟩ ++ moves := List.mem_append_left _ ht
  have henter := hmove (mem_wrapMoves_iff.2 (.inr (.inr (.inr rfl))))
  have hpass (u : List Char) (hu : u ∈ L) :
      u ∈ wordsBetween (wrapMoves skips loops f ⟨hi, hi + 1⟩ ++ moves) f.entry f.exit :=
    wordsBetween_mono (List.subset_append_right _ _) (hf.words_eq ▸ hu)
  have hleave : [] ∈ wordsBetween (wrapMoves skips loops f ⟨hi, hi + 1⟩ ++ moves) f.exit
      (hi + 1 : Nat) :=
    mem_wordsBetween_of_silent (hmove (mem_wrapMoves_iff.2 (.inr (.inr (.inl rfl)))))
      nil_mem_wordsBetween
  have htail {v : List Char} (hv : v ∈ tailLanguage loops L) :
      v ∈ wordsBetween (wrapMoves skips loops f ⟨hi, hi + 1⟩ ++ moves) f.exit (hi + 1 : Nat) := by
    by_cases hloops : loops = true
    · rw [tailLanguage, if_pos hloops] at hv
      have hloop := hmove (mem_wrapMoves_iff.2 (.inl ⟨hloops, rfl⟩))
      exact mem_wordsBetween_of_mem_kstar hloop hpass hleave hv
    · rw [tailLanguage, if_neg hloops, Language.mem_one] at hv
      rw [hv]
      exact hleave
  obtain hskip | hpassed := (Language.mem_add _ _ _).1 hword
  · by_cases hskips : skips = true
    · rw [if_pos hskips, Language.mem_one] at hskip
      rw [hskip]
      have hbypass := hmove (mem_wrapMoves_iff.2 (.inr (.inl ⟨hskips, rfl⟩)))
      exact mem_wordsBetween_of_silent hbypass nil_mem_wordsBetween
    · rw [if_neg hskips] at hskip
      exact absurd hskip (Language.notMem_zero word)
  · obtain ⟨u, hu, v, hv, rfl⟩ := Language.mem_mul.1 hpassed
    exact mem_wordsBetween_of_silent henter (append_mem_wordsBetween (hpass u hu) (htail hv))

/-- A new entry and a new exit around a fragment, with a bypass if it may be
    skipped and a way back if it may be passed again. -/
theorem wrap (skips loops : Bool) (hf : f.Realizes lo hi moves L) :
    Realizes ⟨hi, hi + 1⟩ lo (hi + 2) (wrapMoves skips loops f ⟨hi, hi + 1⟩ ++ moves)
      (wrapLanguage skips loops L) where
  entry_within := .natCast hf.lo_le_hi (by simp)
  exit_within := .natCast (hf.lo_le_hi.trans (by simp)) (by simp)
  confined := hf.confined_wrap skips loops
  words_eq := Language.ext fun _ =>
    ⟨hf.mem_wrapLanguage_of_mem skips loops, hf.mem_of_mem_wrapLanguage skips loops⟩

end Fragment.Realizes

end Automata
