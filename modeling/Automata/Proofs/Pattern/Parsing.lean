import Automata.Proofs.Pattern.Operands

namespace Automata

/-- What can stand in front of a sequence in a choice: nothing, or other
    sequences and a bar. -/
def BeforeSequence (ts : List Token) : Prop :=
  ts = [] ∨ ∃ us e, Derives [] .choice us e ∧ ts = us ++ [.alternation]

/-- A part of a choice behind which an operand may begin. -/
def BeforeOperand (ts : List Token) : Prop :=
  BeforeSequence ts ∨ ∃ us vs e, BeforeSequence us ∧ Derives [] .sequence vs e ∧ ts = us ++ vs

/-- A part of a choice that ends with an operand, which operators behind it can
    still take. -/
def EndsWithOperand (ts : List Token) : Prop :=
  ∃ us vs e, BeforeOperand us ∧ Derives [] .repetition vs e ∧ ts = us ++ vs

/-- A sequence completes a choice. -/
theorem BeforeSequence.append {ts us : List Token} {e : Expression} (hts : BeforeSequence ts)
    (hsequence : Derives [] .sequence us e) : ∃ e', Derives [] .choice (ts ++ us) e' := by
  obtain rfl | ⟨vs, e', hchoice, rfl⟩ := hts
  · exact ⟨e, .ofSequence hsequence⟩
  · exact ⟨e'.alternation e, .alternation hchoice hsequence⟩

theorem BeforeOperand.nil : BeforeOperand [] :=
  .inl (.inl rfl)

theorem BeforeOperand.append {ts us : List Token} {e : Expression} (hts : BeforeOperand ts)
    (hatom : Derives [] .atom us e) : EndsWithOperand (ts ++ us) :=
  ⟨ts, us, e, hts, .ofAtom hatom, rfl⟩

namespace EndsWithOperand

variable {ts : List Token}

/-- The last sequence, and what stands in front of it. -/
theorem exists_sequence (hts : EndsWithOperand ts) :
    ∃ us vs e, BeforeSequence us ∧ Derives [] .sequence vs e ∧ ts = us ++ vs := by
  obtain ⟨us, vs, e, hus, hrepetition, rfl⟩ := hts
  obtain hus | ⟨ws, xs, e', hws, hsequence, rfl⟩ := hus
  · exact ⟨us, vs, e, hus, .ofRepetition hrepetition, rfl⟩
  · have hlonger := Derives.concat hsequence hrepetition
    rw [List.append_nil] at hlonger
    exact ⟨ws, xs ++ vs, _, hws, hlonger, List.append_assoc _ _ _⟩

/-- Behind an operand another one may begin, which continues the sequence. -/
theorem beforeOperand (hts : EndsWithOperand ts) : BeforeOperand ts :=
  .inr hts.exists_sequence

/-- Tokens that end with an operand are a choice. -/
theorem exists_choice (hts : EndsWithOperand ts) : ∃ e, Derives [] .choice ts e := by
  obtain ⟨us, vs, e, hus, hsequence, rfl⟩ := hts.exists_sequence
  exact hus.append hsequence

/-- Behind a bar an operand may begin. -/
theorem bar (hts : EndsWithOperand ts) : BeforeOperand (ts ++ [.alternation]) := by
  obtain ⟨e, hchoice⟩ := hts.exists_choice
  exact .inl (.inr ⟨ts, e, hchoice, rfl⟩)

/-- An operator behind an operand makes a longer operand. -/
theorem unary {op : Token} (hop : ∀ us e, Derives [] .repetition us e →
      ∃ e', Derives [] .repetition (us ++ [op]) e')
    (hts : EndsWithOperand ts) : EndsWithOperand (ts ++ [op]) := by
  obtain ⟨us, vs, e, hus, hrepetition, rfl⟩ := hts
  obtain ⟨e', hlonger⟩ := hop vs e hrepetition
  exact ⟨us, vs ++ [op], e', hus, hlonger, List.append_assoc _ _ _⟩

end EndsWithOperand

/-- A part of a choice, with whether an operand must come next. -/
inductive Partial : Bool → List Token → Prop where
  | expecting {ts : List Token} (hbefore : BeforeOperand ts) : Partial true ts
  | complete {ts : List Token} (hends : EndsWithOperand ts) : Partial false ts

/-- Whether or not an operand must come next, one may. -/
theorem Partial.beforeOperand {expected : Bool} {ts : List Token} (hpartial : Partial expected ts) :
    BeforeOperand ts := by
  cases hpartial with
  | expecting hbefore => exact hbefore
  | complete hends => exact hends.beforeOperand

/-- The text read so far: the groups that are open, each with what was read
    before it and its position, and what was read since the latest was opened. -/
def unwind : List (List Token × Nat) → List Token → List Token
  | [], ts => ts
  | (before, position) :: outer, ts => unwind outer (before ++ [.openGroup position] ++ ts)

/-- Reading on from a partial parse, tokens without gaps whose groups close
    complete it. -/
theorem exists_derives_of_gaps_eq_zero {rest : List Token} {groups : List (List Token × Nat)}
    {ts : List Token} {expected : Bool} (hconcat : .concat ∉ rest)
    (hgroups : ∀ group ∈ groups, BeforeOperand group.1)
    (hts : Partial expected ts)
    (hgaps : Token.gaps expected rest = 0) (hcloses : Token.Closes groups.length rest) :
    ∃ e, Derives [] .choice (unwind groups (ts ++ rest)) e := by
  induction rest generalizing groups ts expected with
  | nil =>
    cases groups with
    | nil =>
      cases hts with
      | expecting => cases hgaps
      | complete hends => simpa [unwind] using hends.exists_choice
    | cons => cases Token.closes_nil_iff.1 hcloses
  | cons t rest ih =>
    rw [Token.gaps, Nat.add_eq_zero_iff] at hgaps
    obtain ⟨hplace, hgaps⟩ := hgaps
    have hrest : .concat ∉ rest := fun hmem => hconcat (List.mem_cons_of_mem _ hmem)
    have hbefore := hts.beforeOperand
    have hends (hstarts : t.startsOperand = false) : EndsWithOperand ts := by
      cases hts with
      | expecting => simp [hstarts] at hplace
      | complete hends => exact hends
    cases t with
    | literal c =>
      rw [List.append_cons]
      exact ih hrest hgroups (.complete (hbefore.append (.literal c))) hgaps
        ((Token.closes_cons_iff rfl).1 hcloses)
    | oneOf members =>
      rw [List.append_cons]
      exact ih hrest hgroups (.complete (hbefore.append (.oneOf members))) hgaps
        ((Token.closes_cons_iff rfl).1 hcloses)
    | star =>
      rw [List.append_cons]
      have hlonger := (hends rfl).unary fun _ e h => ⟨e.star, .star h⟩
      exact ih hrest hgroups (.complete hlonger) hgaps ((Token.closes_cons_iff rfl).1 hcloses)
    | plus =>
      rw [List.append_cons]
      have hlonger := (hends rfl).unary fun _ e h => ⟨e.plus, .plus h⟩
      exact ih hrest hgroups (.complete hlonger) hgaps ((Token.closes_cons_iff rfl).1 hcloses)
    | question =>
      rw [List.append_cons]
      have hlonger := (hends rfl).unary fun _ e h => ⟨e.question, .question h⟩
      exact ih hrest hgroups (.complete hlonger) hgaps ((Token.closes_cons_iff rfl).1 hcloses)
    | alternation =>
      rw [List.append_cons]
      exact ih hrest hgroups (.expecting (hends rfl).bar) hgaps
        ((Token.closes_cons_iff rfl).1 hcloses)
    | concat => exact absurd List.mem_cons_self hconcat
    | openGroup position =>
      have hinner : ∀ group ∈ (ts, position) :: groups, BeforeOperand group.1 := by
        intro group hgroup
        obtain rfl | hgroup := List.mem_cons.1 hgroup
        · exact hbefore
        · exact hgroups group hgroup
      have hderives := ih hrest hinner (.expecting .nil) hgaps
        (Token.closes_openGroup_iff.1 hcloses)
      simpa [unwind] using hderives
    | closeGroup position =>
      obtain ⟨outer, hlength, hcloses⟩ := Token.closes_closeGroup_iff.1 hcloses
      obtain ⟨e, hchoice⟩ := (hends rfl).exists_choice
      cases groups with
      | nil => cases hlength
      | cons group groups =>
        obtain ⟨before, opening⟩ := group
        obtain rfl : groups.length = outer := Nat.succ.inj hlength
        have hgroup := (hgroups _ List.mem_cons_self).append (.group opening position hchoice)
        have hderives := ih hrest (fun group hmem => hgroups group (List.mem_cons_of_mem _ hmem))
          (.complete hgroup) hgaps hcloses
        simpa [unwind] using hderives

/-- Tokens as they are written, with an operand in every place that needs one
    and all groups closed, derive from the grammar. -/
theorem exists_derives {ts : List Token} (hconcat : .concat ∉ ts)
    (hgaps : Token.gaps true ts = 0) (hcloses : Token.Closes 0 ts) :
    ∃ e, Derives [] .choice ts e := by
  have hgroups : ∀ group ∈ ([] : List (List Token × Nat)), BeforeOperand group.1 :=
    fun _ hmem => absurd hmem List.not_mem_nil
  exact exists_derives_of_gaps_eq_zero hconcat hgroups (.expecting .nil) hgaps hcloses

end Automata
