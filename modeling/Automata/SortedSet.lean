namespace Automata

/-- A type whose values stand in one fixed order, given by a strict comparison. Values of which
neither comes before the other are equal. -/
class Ranked (α : Type) where
  /-- Whether the first value comes strictly before the second. -/
  before : α → α → Bool
  before_irrefl (a : α) : before a a = false
  before_trans {a b c : α} : before a b = true → before b c = true → before a c = true
  eq_of_not_before {a b : α} : before a b = false → before b a = false → a = b

namespace Ranked

variable {α β : Type}

/-- Nothing comes before itself. -/
theorem ne_of_before [Ranked α] {a b : α} (h : before a b = true) : a ≠ b := by
  rintro rfl
  simp [before_irrefl] at h

/-- A comparison read off an injective numbering. -/
@[reducible] def ofNumber (number : α → Int) (injective : ∀ a b, number a = number b → a = b) : Ranked α where
  before a b := decide (number a < number b)
  before_irrefl a := by simp
  before_trans h₁ h₂ := by
    simp only [decide_eq_true_eq] at *
    omega
  eq_of_not_before h₁ h₂ := by
    simp only [decide_eq_false_iff_not] at *
    exact injective _ _ (by omega)

instance : Ranked Int := ofNumber id fun _ _ h => h

instance : Ranked Char := ofNumber (fun c => (c.toNat : Int)) fun a b h => by
  have hn : a.toNat = b.toNat := by omega
  exact Char.ext (UInt32.toNat_inj.mp hn)

/-- Pairs are compared by their first parts, then by their second parts. -/
instance [Ranked α] [Ranked β] : Ranked (α × β) where
  before p q := before p.1 q.1 || (!before q.1 p.1 && before p.2 q.2)
  before_irrefl p := by simp [before_irrefl]
  before_trans {p q r} h₁ h₂ := by
    simp only [Bool.or_eq_true, Bool.and_eq_true, Bool.not_eq_true'] at *
    rcases h₁ with h₁ | ⟨n₁, h₁⟩ <;> rcases h₂ with h₂ | ⟨n₂, h₂⟩
    · exact .inl (before_trans h₁ h₂)
    · cases hqr : before q.1 r.1 with
      | true => exact .inl (before_trans h₁ hqr)
      | false => exact .inl (eq_of_not_before hqr n₂ ▸ h₁)
    · cases hpq : before p.1 q.1 with
      | true => exact .inl (before_trans hpq h₂)
      | false => exact .inl (eq_of_not_before hpq n₁ ▸ h₂)
    · cases hpq : before p.1 q.1 with
      | true =>
        cases hqr : before q.1 r.1 with
        | true => exact .inl (before_trans hpq hqr)
        | false => exact .inl (eq_of_not_before hqr n₂ ▸ hpq)
      | false =>
        have heq := eq_of_not_before hpq n₁
        cases hqr : before q.1 r.1 with
        | true => exact .inl (heq ▸ hqr)
        | false => exact .inr ⟨heq ▸ n₂, before_trans h₁ h₂⟩
  eq_of_not_before {p q} h₁ h₂ := by
    simp only [Bool.or_eq_false_iff, Bool.and_eq_false_iff, Bool.not_eq_false'] at *
    obtain ⟨n₁, h₁⟩ := h₁
    obtain ⟨n₂, h₂⟩ := h₂
    have hfst := eq_of_not_before n₁ n₂
    refine Prod.ext hfst (eq_of_not_before ?_ ?_)
    · exact h₁.resolve_left (by simp [n₂])
    · exact h₂.resolve_left (by simp [n₁])

/-- Absence comes before every value. -/
def beforeOption [Ranked α] : Option α → Option α → Bool
  | none, none => false
  | none, some _ => true
  | some _, none => false
  | some a, some b => before a b

instance [Ranked α] : Ranked (Option α) where
  before := beforeOption
  before_irrefl a := by cases a <;> simp [beforeOption, before_irrefl]
  before_trans {a b c} h₁ h₂ := by
    cases a <;> cases b <;> cases c <;> simp_all [beforeOption]
    exact before_trans h₁ h₂
  eq_of_not_before {a b} h₁ h₂ := by
    cases a <;> cases b <;> simp_all [beforeOption]
    exact eq_of_not_before h₁ h₂

/-- Lists are compared at the first place where they differ; a list comes before its
extensions. -/
def beforeList [Ranked α] : List α → List α → Bool
  | [], [] => false
  | [], _ :: _ => true
  | _ :: _, [] => false
  | a :: as, b :: bs => before a b || (!before b a && beforeList as bs)

/-- No list comes before itself. -/
theorem beforeList_irrefl [Ranked α] (as : List α) : beforeList as as = false := by
  induction as with
  | nil => rfl
  | cons a as ih => simp [beforeList, before_irrefl, ih]

/-- Lists of which neither comes before the other are equal. -/
theorem eq_of_not_beforeList [Ranked α] : ∀ {as bs : List α},
    beforeList as bs = false → beforeList bs as = false → as = bs
  | [], [], _, _ => rfl
  | [], _ :: _, h, _ => by simp [beforeList] at h
  | _ :: _, [], _, h => by simp [beforeList] at h
  | a :: as, b :: bs, h₁, h₂ => by
    simp only [beforeList, Bool.or_eq_false_iff, Bool.and_eq_false_iff, Bool.not_eq_false'] at h₁ h₂
    obtain ⟨n₁, h₁⟩ := h₁
    obtain ⟨n₂, h₂⟩ := h₂
    rw [eq_of_not_before n₁ n₂, eq_of_not_beforeList (h₁.resolve_left (by simp [n₂]))
      (h₂.resolve_left (by simp [n₁]))]

/-- Comparing lists member by member is transitive. -/
theorem beforeList_trans [Ranked α] : ∀ {as bs cs : List α},
    beforeList as bs = true → beforeList bs cs = true → beforeList as cs = true
  | [], [], _, h, _ => by simp [beforeList] at h
  | [], _ :: _, [], _, h => by simp [beforeList] at h
  | [], _ :: _, _ :: _, _, _ => rfl
  | _ :: _, [], _, h, _ => by simp [beforeList] at h
  | _ :: _, _ :: _, [], _, h => by simp [beforeList] at h
  | a :: as, b :: bs, c :: cs, h₁, h₂ => by
    have split : ∀ {x y : α} {p : Bool}, (before x y || (!before y x && p)) = true →
        (before x y = true ∨ x = y ∧ p = true) := by
      intro x y p h
      cases hxy : before x y with
      | true => exact .inl rfl
      | false =>
        simp only [hxy, Bool.false_or, Bool.and_eq_true, Bool.not_eq_true'] at h
        exact .inr ⟨eq_of_not_before hxy h.1, h.2⟩
    simp only [beforeList] at h₁ h₂ ⊢
    rcases split h₁ with hab | ⟨rfl, has⟩ <;> rcases split h₂ with hbc | ⟨rfl, hbs⟩
    · simp [before_trans hab hbc]
    · simp [hab]
    · simp [hbc]
    · simp [before_irrefl, beforeList_trans has hbs]

instance [Ranked α] : Ranked (List α) where
  before := beforeList
  before_irrefl := beforeList_irrefl
  before_trans := beforeList_trans
  eq_of_not_before := eq_of_not_beforeList

end Ranked

theorem char_le_iff_toNat_le {c d : Char} : c ≤ d ↔ c.toNat ≤ d.toNat :=
  UInt32.le_iff_toNat_le

/-- Characters stand in the order of their numbers. -/
theorem before_eq_true_iff {c d : Char} : Ranked.before c d = true ↔ c < d := by
  rw [← Char.not_le, char_le_iff_toNat_le]
  change decide ((c.toNat : Int) < d.toNat) = true ↔ _
  rw [decide_eq_true_iff]
  omega

/-- A finite set, kept as an ascending list. A set has exactly one list, so that
two sets with the same members are equal and the order in which members were
added never shows. -/
structure SortedSet (α : Type) [Ranked α] where
  toList : List α
  ascending : toList.Pairwise (fun a b => Ranked.before a b = true)

namespace SortedSet

variable {α : Type} [Ranked α]

open Ranked

instance [DecidableEq α] : DecidableEq (SortedSet α) := fun s t =>
  decidable_of_iff (s.toList = t.toList)
    ⟨fun h => by cases s; cases t; simp_all, fun h => h ▸ rfl⟩

instance : Membership α (SortedSet α) := ⟨fun s a => a ∈ s.toList⟩

theorem mem_toList {a : α} {s : SortedSet α} : a ∈ s.toList ↔ a ∈ s := Iff.rfl

instance [DecidableEq α] (a : α) (s : SortedSet α) : Decidable (a ∈ s) :=
  inferInstanceAs (Decidable (a ∈ s.toList))

/-- Two ascending lists with the same members are equal, member by member. -/
theorem eq_of_ascending_of_mem_iff : ∀ {as bs : List α},
    as.Pairwise (fun a b => before a b = true) → bs.Pairwise (fun a b => before a b = true) →
    (∀ x, x ∈ as ↔ x ∈ bs) → as = bs
  | [], [], _, _, _ => rfl
  | [], b :: _, _, _, h => by simpa using (h b).2 (by simp)
  | a :: _, [], _, _, h => by simpa using (h a).1 (by simp)
  | a :: as, b :: bs, ha, hb, h => by
    rw [List.pairwise_cons] at ha hb
    have hab : a = b := by
      have h₁ : a ∈ b :: bs := (h a).1 (by simp)
      have h₂ : b ∈ a :: as := (h b).2 (by simp)
      rcases List.mem_cons.1 h₁ with h₁ | h₁
      · exact h₁
      · rcases List.mem_cons.1 h₂ with h₂ | h₂
        · exact h₂.symm
        · have := before_trans (ha.1 b h₂) (hb.1 a h₁)
          simp [before_irrefl] at this
    subst hab
    have hrest : ∀ x, x ∈ as ↔ x ∈ bs := by
      intro x
      have hx := h x
      simp only [List.mem_cons] at hx
      constructor
      · intro hm
        exact (hx.1 (.inr hm)).resolve_left (ne_of_before (ha.1 x hm)).symm
      · intro hm
        exact (hx.2 (.inr hm)).resolve_left (ne_of_before (hb.1 x hm)).symm
    rw [eq_of_ascending_of_mem_iff ha.2 hb.2 hrest]

/-- A set is determined by its members. -/
theorem ext {s t : SortedSet α} (h : ∀ a, a ∈ s ↔ a ∈ t) : s = t := by
  cases s with
  | mk as ha =>
    cases t with
    | mk bs hb =>
      have : as = bs := eq_of_ascending_of_mem_iff ha hb h
      subst this
      rfl

theorem nodup_toList (s : SortedSet α) : s.toList.Nodup :=
  s.ascending.imp fun h => ne_of_before h

/-- The empty set. -/
def empty : SortedSet α := ⟨[], .nil⟩

instance : EmptyCollection (SortedSet α) := ⟨empty⟩

instance : Inhabited (SortedSet α) := ⟨empty⟩

/-- The set with one member. -/
def singleton (a : α) : SortedSet α := ⟨[a], by simp⟩

/-- Whether the set has no members. -/
def isEmpty (s : SortedSet α) : Bool := s.toList.isEmpty

/-- The number of members. -/
def size (s : SortedSet α) : Nat := s.toList.length

/-- Puts a value into its place in an ascending list, unless it is there already. -/
def insertInto (a : α) : List α → List α
  | [] => [a]
  | b :: bs =>
    if before a b then a :: b :: bs
    else if before b a then b :: insertInto a bs
    else b :: bs

/-- Inserting adds one member. -/
theorem mem_insertInto {a x : α} {bs : List α} : x ∈ insertInto a bs ↔ x = a ∨ x ∈ bs := by
  induction bs with
  | nil => simp [insertInto]
  | cons b bs ih =>
    unfold insertInto
    split
    · simp
    · rename_i hab
      split
      · simp [ih, or_left_comm]
      · rename_i hba
        have : a = b := eq_of_not_before (by simpa using hab) (by simpa using hba)
        simp [this]

/-- An ascending list stays ascending when a value is inserted. -/
theorem ascending_insertInto {a : α} {bs : List α}
    (h : bs.Pairwise (fun a b => before a b = true)) :
    (insertInto a bs).Pairwise (fun a b => before a b = true) := by
  induction bs with
  | nil => simp [insertInto]
  | cons b bs ih =>
    rw [List.pairwise_cons] at h
    unfold insertInto
    split
    · rename_i hab
      refine List.pairwise_cons.2 ⟨?_, List.pairwise_cons.2 h⟩
      intro x hx
      rcases List.mem_cons.1 hx with rfl | hx
      · exact hab
      · exact before_trans hab (h.1 x hx)
    · split
      · rename_i hba
        refine List.pairwise_cons.2 ⟨?_, ih h.2⟩
        intro x hx
        rcases mem_insertInto.1 hx with rfl | hx
        · exact hba
        · exact h.1 x hx
      · exact List.pairwise_cons.2 h

/-- Adds a member. -/
def insert (a : α) (s : SortedSet α) : SortedSet α :=
  ⟨insertInto a s.toList, ascending_insertInto s.ascending⟩

/-- The members of a list. -/
def ofList (as : List α) : SortedSet α := as.foldr insert empty

/-- The members of either set. -/
def union (s t : SortedSet α) : SortedSet α := s.toList.foldr insert t

instance : Union (SortedSet α) := ⟨union⟩

/-- The set holds the values of an ascending list, as they stand. -/
def ofAscending (as : List α) (h : as.Pairwise (fun a b => before a b = true)) : SortedSet α :=
  ⟨as, h⟩

@[simp] theorem notMem_empty {x : α} : x ∉ (∅ : SortedSet α) :=
  List.not_mem_nil

@[simp] theorem mem_singleton {a x : α} : x ∈ singleton a ↔ x = a :=
  List.mem_singleton

@[simp] theorem mem_insert {a x : α} {s : SortedSet α} : x ∈ s.insert a ↔ x = a ∨ x ∈ s :=
  mem_insertInto

/-- Inserting the values of a list one after another adds all of them. -/
theorem mem_foldr_insert {x : α} {as : List α} {s : SortedSet α} :
    x ∈ as.foldr insert s ↔ x ∈ as ∨ x ∈ s := by
  induction as with
  | nil => simp
  | cons a as ih => simp [ih, or_assoc]

@[simp] theorem mem_ofList {x : α} {as : List α} : x ∈ ofList as ↔ x ∈ as := by
  rw [ofList, mem_foldr_insert]
  exact or_iff_left notMem_empty

@[simp] theorem mem_union {x : α} {s t : SortedSet α} : x ∈ s ∪ t ↔ x ∈ s ∨ x ∈ t := by
  rw [show s ∪ t = s.toList.foldr insert t from rfl, mem_foldr_insert, mem_toList]

theorem ofList_toList (s : SortedSet α) : ofList s.toList = s :=
  ext fun _ => by rw [mem_ofList, mem_toList]

theorem singleton_ne_empty (a : α) : singleton a ≠ ∅ := by
  intro hempty
  exact notMem_empty (hempty ▸ mem_singleton.2 rfl)

/-- The set with the empty list is the empty set. -/
theorem isEmpty_iff {s : SortedSet α} : s.isEmpty = true ↔ s = ∅ := by
  rw [isEmpty, List.isEmpty_iff]
  constructor
  · intro h
    exact ext fun a => by rw [← mem_toList, h]; simp
  · rintro rfl
    rfl

end SortedSet

end Automata
