import Mathlib.Computability.MyhillNerode
import Mathlib.Data.Finset.Card

namespace Automata

variable {α : Type} {L M : Language α} {m n : Nat}

/-- The words of a language up to a length. -/
def shortWords (n : Nat) (L : Language α) : Language α := {word | word.length ≤ n ∧ word ∈ L}

theorem mem_shortWords_iff {word : List α} :
    word ∈ shortWords n L ↔ word.length ≤ n ∧ word ∈ L :=
  Iff.rfl

/-- Two languages have the same words up to a length. -/
def AgreeUpTo (n : Nat) (L M : Language α) : Prop :=
  ∀ word : List α, word.length ≤ n → (word ∈ L ↔ word ∈ M)

/-- Languages agree up to a length if their short words are the same. -/
theorem agreeUpTo_iff : AgreeUpTo n L M ↔ shortWords n L = shortWords n M := by
  constructor
  · intro hagree
    ext word
    exact and_congr_right (hagree word)
  · intro hsame word hlength
    have hword : word ∈ shortWords n L ↔ word ∈ shortWords n M := by rw [hsame]
    simpa only [mem_shortWords_iff, hlength, true_and] using hword

/-- The shorter words of the short words are the shorter words. -/
theorem shortWords_shortWords (hmn : m ≤ n) (L : Language α) :
    shortWords m (shortWords n L) = shortWords m L := by
  ext word
  simp only [mem_shortWords_iff]
  exact and_congr_right fun hlength => and_iff_right (Nat.le_trans hlength hmn)

/-- Agreement is decided by the empty word and by what is left after each first
symbol. -/
theorem agreeUpTo_succ_iff :
    AgreeUpTo (n + 1) L M ↔
      ([] ∈ L ↔ [] ∈ M) ∧ ∀ c, AgreeUpTo n (L.leftQuotient [c]) (M.leftQuotient [c]) := by
  constructor
  · intro hagree
    refine ⟨hagree [] (Nat.zero_le _), fun c word hlength => ?_⟩
    exact hagree (c :: word) (Nat.succ_le_succ hlength)
  · rintro ⟨hnil, hcons⟩ word hlength
    cases word with
    | nil => exact hnil
    | cons c word => exact hcons c word (Nat.le_of_succ_le_succ hlength)

/-- What is left of a member after a symbol is a member again. -/
def ClosedUnderReading (F : Finset (Language α)) : Prop :=
  ∀ L ∈ F, ∀ c, L.leftQuotient [c] ∈ F

/-- A length tells no more members apart than the length before. -/
def SettledAt (F : Finset (Language α)) (n : Nat) : Prop :=
  ∀ L ∈ F, ∀ M ∈ F, AgreeUpTo n L M → AgreeUpTo (n + 1) L M

variable {F : Finset (Language α)}

/-- Once a length tells no more apart, no later one does. -/
theorem SettledAt.eq_of_agreeUpTo (hsettled : SettledAt F n) (hclosed : ClosedUnderReading F)
    (hL : L ∈ F) (hM : M ∈ F) (hagree : AgreeUpTo n L M) : L = M := by
  have hall (k : Nat) : ∀ L ∈ F, ∀ M ∈ F, AgreeUpTo n L M → AgreeUpTo (n + k) L M := by
    induction k with
    | zero => exact fun L _ M _ hagree => hagree
    | succ k ih =>
      intro L hL M hM hagree
      obtain ⟨hnil, hcons⟩ := agreeUpTo_succ_iff.1 (hsettled L hL M hM hagree)
      refine agreeUpTo_succ_iff.2 ⟨hnil, fun c => ?_⟩
      exact ih _ (hclosed L hL c) _ (hclosed M hM c) (hcons c)
  ext word
  exact hall word.length L hL M hM hagree word (Nat.le_add_left _ _)

open scoped Classical in
/-- How many members the words up to a length tell apart. -/
noncomputable def classCount (F : Finset (Language α)) (n : Nat) : Nat :=
  (F.image (shortWords n)).card

/-- No more languages are told apart than there are. -/
theorem classCount_le_card (F : Finset (Language α)) (n : Nat) : classCount F n ≤ F.card := by
  classical
  exact Finset.card_image_le

/-- A length that tells more members apart makes more classes. -/
theorem classCount_lt_of_not_settledAt (hopen : ¬ SettledAt F n) :
    classCount F n < classCount F (n + 1) := by
  classical
  have himage : (F.image (shortWords (n + 1))).image (shortWords n) = F.image (shortWords n) := by
    rw [Finset.image_image]
    exact Finset.image_congr fun L _ => shortWords_shortWords (Nat.le_succ n) L
  have hle : classCount F n ≤ classCount F (n + 1) := by
    simp only [classCount]
    rw [← himage]
    exact Finset.card_image_le
  refine Nat.lt_of_le_of_ne hle fun hsame => hopen fun L hL M hM hagree => ?_
  simp only [classCount] at hsame
  rw [← himage] at hsame
  have hinjective := Finset.card_image_iff.1 hsame
  have hLs := Finset.mem_image_of_mem (shortWords (n + 1)) hL
  have hMs := Finset.mem_image_of_mem (shortWords (n + 1)) hM
  refine agreeUpTo_iff.2 (hinjective hLs hMs ?_)
  rw [shortWords_shortWords (Nat.le_succ n), shortWords_shortWords (Nat.le_succ n)]
  exact agreeUpTo_iff.1 hagree

/-- There are not enough members for every length to tell more of them apart. -/
theorem exists_settledAt (hL : L ∈ F) : ∃ n < F.card, SettledAt F n := by
  by_contra hnone
  have hopen (n : Nat) (hn : n < F.card) : ¬ SettledAt F n := fun hsettled =>
    hnone ⟨n, hn, hsettled⟩
  have hgrows (n : Nat) (hn : n ≤ F.card) : n < classCount F n := by
    induction n with
    | zero =>
      classical
      exact Finset.card_pos.2 ⟨_, Finset.mem_image_of_mem _ hL⟩
    | succ n ih =>
      have hmore := classCount_lt_of_not_settledAt (hopen n hn)
      exact Nat.lt_of_le_of_lt (ih (Nat.le_of_succ_le hn)) hmore
  exact absurd (hgrows F.card le_rfl) (Nat.not_lt_of_le (classCount_le_card F F.card))

/-- Members with the same words shorter than there are members are equal. -/
theorem eq_of_agree_below_card (hclosed : ClosedUnderReading F) (hL : L ∈ F) (hM : M ∈ F)
    (hagree : ∀ word : List α, word.length < F.card → (word ∈ L ↔ word ∈ M)) : L = M := by
  obtain ⟨n, hn, hsettled⟩ := exists_settledAt hL
  refine hsettled.eq_of_agreeUpTo hclosed hL hM fun word hlength => ?_
  exact hagree word (Nat.lt_of_le_of_lt hlength hn)

end Automata
