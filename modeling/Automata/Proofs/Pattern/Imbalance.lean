import Automata.Proofs.Pattern.Evaluation
import Automata.Proofs.Pattern.Parentheses
import Mathlib.Data.List.TakeWhile

namespace Automata

namespace Token

/-- At some point more groups have been closed than were opened. -/
def Overdraws (ts : List Token) : Prop :=
  ∃ us, us <+: ts ∧ us.countP isOpen < us.countP isClose

instance (ts : List Token) : Decidable (Overdraws ts) :=
  decidable_of_iff (∃ us ∈ ts.inits, us.countP isOpen < us.countP isClose)
    (by simp only [Overdraws, List.mem_inits])

/-- The position of the first closing parenthesis that closes more groups than
were opened. -/
def FirstUnopened (ts : List Token) (position : Nat) : Prop :=
  ∃ front rest, ts = front ++ .closeGroup position :: rest ∧ ¬ Overdraws front ∧
    Overdraws (front ++ [.closeGroup position])

/-- The position of the last opening parenthesis without a partner. A partner
closes one group more than were opened since. -/
def LastUnclosed (ts : List Token) (position : Nat) : Prop :=
  ∃ front rest, ts = front ++ .openGroup position :: rest ∧ ¬ Overdraws rest ∧
    ∀ us later vs, rest = us ++ .openGroup later :: vs → Overdraws vs

/-- Whether the token goes to the evaluation order at once: operands and the
operators behind an operand. -/
def keepsPlace : Token → Bool
  | literal _ | oneOf _ | star | plus | question => true
  | _ => false

/-- With some groups open already, no group is closed that was not opened. -/
def Affords (depth : Nat) (ts : List Token) : Prop :=
  ∀ front, front <+: ts → front.countP isClose ≤ depth + front.countP isOpen

section Counting

variable {depth position : Nat} {ts us vs : List Token}

/-- With no group open, tokens can be read exactly if none of their beginnings
closes too many groups. -/
theorem affords_zero_iff : Affords 0 ts ↔ ¬ Overdraws ts := by
  simp [Affords, Overdraws]

/-- Tokens close all groups exactly if they never close too many, and close as
many as there are in the end. -/
theorem closes_iff : Closes depth ts ↔
    Affords depth ts ∧ ts.countP isClose = depth + ts.countP isOpen :=
  Iff.rfl

theorem Affords.countP_le (hts : Affords depth ts) :
    ts.countP isClose ≤ depth + ts.countP isOpen :=
  hts ts List.prefix_rfl

theorem Affords.of_append_left (hts : Affords depth (us ++ vs)) : Affords depth us :=
  fun front hfront => hts front (hfront.trans (List.prefix_append us vs))

/-- Behind tokens that were read, as many groups are open as these leave. -/
theorem Affords.of_append_right {left : Nat} (hts : Affords depth (us ++ vs))
    (hleft : left + us.countP isClose = depth + us.countP isOpen) : Affords left vs := by
  intro front hfront
  have hboth := hts (us ++ front) ((List.prefix_append_right_inj us).2 hfront)
  rw [List.countP_append, List.countP_append] at hboth
  omega

/-- One more closing parenthesis is too many exactly if no group is open before
it. -/
theorem overdraws_append_closeGroup_iff (hfront : ¬ Overdraws ts) :
    Overdraws (ts ++ [.closeGroup position]) ↔ ts.countP isClose = ts.countP isOpen := by
  have hopen : (ts ++ [closeGroup position]).countP isOpen = ts.countP isOpen := by
    simp [isOpen]
  have hclose : (ts ++ [closeGroup position]).countP isClose = ts.countP isClose + 1 := by
    simp [isClose]
  have hle := (affords_zero_iff.2 hfront).countP_le
  constructor
  · rintro ⟨us, hus, hless⟩
    obtain rfl | hus := List.prefix_concat_iff.1 hus
    · omega
    · exact absurd ⟨us, hus, hless⟩ hfront
  · intro hequal
    exact ⟨_, List.prefix_rfl, by omega⟩

/-- If more groups are closed than were opened, some parenthesis is the first to
do so. -/
theorem exists_firstUnopened (hts : Overdraws ts) : ∃ position, FirstUnopened ts position := by
  induction ts using List.reverseRecOn with
  | nil =>
    obtain ⟨us, hus, hless⟩ := hts
    rw [List.prefix_nil.1 hus] at hless
    cases hless
  | append_singleton ts t ih =>
    -- Either an earlier part closes too many already, or the last token is the first to do so.
    by_cases hfront : Overdraws ts
    · obtain ⟨position, front, rest, rfl, hfirst⟩ := ih hfront
      exact ⟨position, front, rest ++ [t], by simp, hfirst⟩
    · obtain ⟨us, hus, hless⟩ := hts
      obtain rfl | hus := List.prefix_concat_iff.1 hus
      · have hle := (affords_zero_iff.2 hfront).countP_le
        rw [List.countP_append, List.countP_append] at hless
        cases t with
        | closeGroup position =>
          exact ⟨position, ts, [], rfl, hfront, _, List.prefix_rfl, by simpa using hless⟩
        | _ => simp [List.countP_singleton, isOpen, isClose] at hless; omega
      · exact absurd ⟨us, hus, hless⟩ hfront

/-- If the end of some tokens opens more groups than it closes, some parenthesis
is the last that stays open. -/
theorem exists_lastUnclosed (hts : ∃ us, us <:+ ts ∧ us.countP isClose < us.countP isOpen) :
    ∃ position, LastUnclosed ts position := by
  induction ts with
  | nil =>
    obtain ⟨us, hus, hless⟩ := hts
    rw [List.suffix_nil.1 hus] at hless
    cases hless
  | cons t ts ih =>
    -- Either some group stays open further on, or the first token is the last to stay open.
    by_cases hlater : ∃ us, us <:+ ts ∧ us.countP isClose < us.countP isOpen
    · obtain ⟨position, front, rest, rfl, hlast⟩ := ih hlater
      exact ⟨position, t :: front, rest, rfl, hlast⟩
    · obtain ⟨us, hus, hless⟩ := hts
      obtain rfl | hus := List.suffix_cons_iff.1 hus
      · have hends (vs : List Token) (hvs : vs <:+ ts) :
            vs.countP isOpen ≤ vs.countP isClose :=
          Nat.not_lt.1 fun hmore => hlater ⟨vs, hvs, hmore⟩
        have hall := hends ts List.suffix_rfl
        cases t with
        | openGroup position =>
          refine ⟨position, [], ts, rfl, ?_, ?_⟩
          · rintro ⟨us, ⟨vs, rfl⟩, hover⟩
            have hvs := hends vs (List.suffix_append us vs)
            simp [List.countP_cons, isOpen, isClose] at hless
            omega
          · rintro us later vs rfl
            have hvs := hends _ (List.suffix_append us _)
            refine ⟨vs, List.prefix_rfl, ?_⟩
            simp [List.countP_cons, isOpen, isClose] at hvs
            omega
        | _ => simp [List.countP_cons, isOpen, isClose] at hless; omega
      · exact absurd ⟨us, hus, hless⟩ hlater

/-- Behind the last parenthesis that stays open, parentheses match. -/
theorem closes_of_last {rest : List Token} (hrest : ¬ Overdraws rest)
    (hlast : ∀ us later vs, rest = us ++ .openGroup later :: vs → Overdraws vs) :
    Closes 0 rest := by
  have haffords := affords_zero_iff.2 hrest
  refine closes_iff.2 ⟨haffords, Nat.le_antisymm haffords.countP_le (Nat.not_lt.1 fun hmore => ?_)⟩
  rw [Nat.zero_add] at hmore
  obtain ⟨_, us, vs, hsplit, hvs, _⟩ := exists_lastUnclosed ⟨rest, List.suffix_rfl, hmore⟩
  exact hvs (hlast _ _ _ hsplit)

end Counting

section Reading

variable {waiting middle after ts us out more inner base : List Token}

/-- Reading tokens puts some out and changes what waits, whatever comes behind
them. Tokens that close no more groups than are open above a base leave the base
alone. -/
def Passes (waiting ts out after : List Token) : Prop :=
  ∀ rest, toPostfixFrom waiting (ts ++ rest) = (toPostfixFrom after rest).map (out ++ ·)

namespace Passes

/-- No tokens change nothing. -/
theorem nil (waiting : List Token) : Passes waiting [] [] waiting := by
  intro rest
  cases htail : toPostfixFrom waiting rest with
  | error => simp [Except.map, htail]
  | ok => simp [Except.map, htail]

/-- Tokens are passed one part after another. -/
theorem trans (hts : Passes waiting ts out middle) (hus : Passes middle us more after) :
    Passes waiting (ts ++ us) (out ++ more) after := by
  intro rest
  rw [List.append_assoc, hts, hus, map_append_map_append]

/-- What is put out on the way comes first in the result. -/
theorem eq_ok {order : List Token} (hts : Passes waiting ts out after)
    (hend : toPostfixFrom after us = .ok order) :
    toPostfixFrom waiting (ts ++ us) = .ok (out ++ order) := by
  rw [hts, hend]
  rfl

/-- What goes wrong behind the tokens is what is reported. -/
theorem eq_error {cause : PatternError} (hts : Passes waiting ts out after)
    (hend : toPostfixFrom after us = .error cause) :
    toPostfixFrom waiting (ts ++ us) = .error cause := by
  rw [hts, hend]
  rfl

/-- A literal, a class or an operator behind an operand is put out at once. -/
theorem of_keepsPlace {t : Token} (ht : t.keepsPlace = true) :
    Passes waiting [t] [t] waiting := by
  intro rest
  cases t with
  | literal | oneOf | star | plus | question => rfl
  | alternation | concat | openGroup | closeGroup => cases ht

/-- An opening parenthesis waits. -/
theorem openGroup (position : Nat) (waiting : List Token) :
    Passes waiting [.openGroup position] [] (.openGroup position :: waiting) :=
  nil (.openGroup position :: waiting)

/-- A closing parenthesis puts out what waits above the opening one. -/
theorem closeGroup {ops : List Token} (opening closing : Nat) (hops : ∀ t ∈ ops, t.isOpen = false) :
    Passes (ops ++ .openGroup opening :: waiting) [.closeGroup closing] ops waiting :=
  fun rest => toPostfixFrom_closeGroup opening closing rest hops

/-- An operator between operands applies nothing below an open group. -/
theorem binary {op : Token} (hop : op ∈ Phrase.choice.operators)
    (hbase : ∀ t ∈ base.head?, t.isOpen = true) (inner : List Token) :
    Passes (inner ++ base) [op] (inner.takeWhile (·.appliesBefore op))
      (op :: inner.dropWhile (·.appliesBefore op) ++ base) := by
  intro rest
  have hsplit : inner ++ base = inner.takeWhile (·.appliesBefore op) ++
      (inner.dropWhile (·.appliesBefore op) ++ base) := by
    rw [← List.append_assoc, List.takeWhile_append_dropWhile]
  conv_lhs => rw [hsplit]
  refine toPostfixFrom_binary hop (fun t ht => List.all_eq_true.1 List.all_takeWhile t ht) ?_ rest
  intro t ht
  cases hdrop : inner.dropWhile (·.appliesBefore op) with
  | nil =>
    rw [hdrop] at ht
    have hopen := hbase t ht
    cases t <;> first | rfl | cases hopen
  | cons u tail =>
    rw [hdrop] at ht
    obtain rfl : u = t := Option.some.inj ht
    have hstop := List.head?_dropWhile_not (·.appliesBefore op) inner
    simpa [hdrop] using hstop

end Passes

/-- Operators above an open group are no groups. -/
theorem countP_isOpen_append_openGroup {ops outer : List Token} {opening : Nat}
    (hops : ∀ t ∈ ops, t.isOpen = false) :
    (ops ++ .openGroup opening :: outer).countP isOpen = outer.countP isOpen + 1 := by
  have hnone : ops.countP isOpen = 0 := List.countP_eq_zero.2 fun t ht => by simp [hops t ht]
  rw [List.countP_append, hnone, Nat.zero_add]
  exact List.countP_cons_of_pos rfl

/-- The latest open group, and what waits above it. -/
theorem exists_openGroup_of_countP_pos (hopen : 0 < waiting.countP isOpen) :
    ∃ ops opening outer, waiting = ops ++ .openGroup opening :: outer ∧
      ∀ t ∈ ops, t.isOpen = false := by
  obtain ⟨t, ht, hmark⟩ := List.countP_pos_iff.1 hopen
  cases hdrop : waiting.dropWhile (!·.isOpen) with
  | nil => simpa [hmark] using List.dropWhile_eq_nil_iff.1 hdrop t ht
  | cons u outer =>
    obtain ⟨hu, hwaiting⟩ := exists_openGroup_of_dropWhile hdrop
    cases u with
    | openGroup opening =>
      refine ⟨_, opening, outer, hwaiting, fun t ht => ?_⟩
      simpa using List.all_eq_true.1 List.all_takeWhile t ht
    | _ => cases hu

/-- A token that closes no group below leaves what waits there alone. -/
theorem exists_passes_singleton (hbase : ∀ t ∈ base.head?, t.isOpen = true) {t : Token}
    (ht : Affords (inner.countP isOpen) [t]) :
    ∃ out after, Passes (inner ++ base) [t] out (after ++ base) ∧
      after.countP isOpen + [t].countP isClose = inner.countP isOpen + [t].countP isOpen := by
  have hbinary {op : Token} (hop : op ∈ Phrase.choice.operators) :
      (op :: inner.dropWhile (·.appliesBefore op)).countP isOpen = inner.countP isOpen := by
    rw [List.countP_cons_of_neg (by simp [Phrase.not_isOpen_of_mem_operators hop]),
      countP_isOpen_dropWhile]
  cases t with
  | literal | oneOf | star | plus | question => exact ⟨_, inner, .of_keepsPlace rfl, rfl⟩
  | concat =>
    have hop : concat ∈ Phrase.choice.operators := by decide
    exact ⟨_, _, .binary hop hbase inner, hbinary hop⟩
  | alternation =>
    have hop : alternation ∈ Phrase.choice.operators := by decide
    exact ⟨_, _, .binary hop hbase inner, hbinary hop⟩
  | openGroup position =>
    have hcount : (openGroup position :: inner).countP isOpen = inner.countP isOpen + 1 :=
      List.countP_cons_of_pos rfl
    exact ⟨_, openGroup position :: inner, .openGroup position _, hcount⟩
  | closeGroup position =>
    have hopen : 0 < inner.countP isOpen := ht.countP_le
    obtain ⟨ops, opening, outer, rfl, hops⟩ := exists_openGroup_of_countP_pos hopen
    refine ⟨ops, outer, ?_, ?_⟩
    · rw [List.append_assoc]
      exact .closeGroup opening position hops
    · rw [countP_isOpen_append_openGroup hops]
      rfl

/-- Tokens that close no group below leave what waits there alone, and above it
as many groups are open as they leave. -/
theorem exists_passes (inner : List Token) (hbase : ∀ t ∈ base.head?, t.isOpen = true)
    (hts : Affords (inner.countP isOpen) ts) :
    ∃ out after, Passes (inner ++ base) ts out (after ++ base) ∧
      after.countP isOpen + ts.countP isClose = inner.countP isOpen + ts.countP isOpen := by
  induction ts generalizing inner with
  | nil => exact ⟨[], inner, .nil _, rfl⟩
  | cons t ts ih =>
    rw [← List.singleton_append] at hts ⊢
    obtain ⟨out, middle, hfirst, hmiddle⟩ := exists_passes_singleton hbase hts.of_append_left
    obtain ⟨more, after, hrest, hafter⟩ := ih middle (hts.of_append_right hmiddle)
    refine ⟨out ++ more, after, hfirst.trans hrest, ?_⟩
    rw [List.countP_append, List.countP_append]
    omega

/-- At the end of the tokens the latest open group is reported. -/
theorem toPostfixFrom_nil_of_openGroup {ops outer : List Token} {opening : Nat}
    (hops : ∀ t ∈ ops, t.isOpen = false) :
    toPostfixFrom (ops ++ .openGroup opening :: outer) [] =
      .error (.mismatchedParenthesis opening) := by
  have hnone : ops.findSome? (fun t => if t.isOpen then t.position? else none) = none := by
    rw [List.findSome?_eq_none_iff]
    intro t ht
    rw [hops t ht]
    rfl
  rw [toPostfixFrom, applyWaiting, List.findSome?_append, hnone]
  rfl

/-- A group is closed that was not opened. -/
theorem toPostfixFrom_closeGroup_of_countP_eq_zero (position : Nat) (rest : List Token)
    (hnone : waiting.countP isOpen = 0) :
    toPostfixFrom waiting (.closeGroup position :: rest) =
      .error (.mismatchedParenthesis position) := by
  have hdrop : waiting.dropWhile (!·.isOpen) = [] :=
    List.dropWhile_eq_nil_iff.2 fun t ht => by simpa using List.countP_eq_zero.1 hnone t ht
  rw [toPostfixFrom, hdrop]

end Reading

section Ending

variable {ts out waiting : List Token} {position : Nat}

/-- What is read with nothing waiting. -/
theorem exists_passes_of_affords (hts : Affords 0 ts) :
    ∃ out after, Passes [] ts out after ∧
      after.countP isOpen + ts.countP isClose = ts.countP isOpen := by
  have hbase : ∀ t ∈ ([] : List Token).head?, t.isOpen = true := nofun
  obtain ⟨out, after, hpasses, hcount⟩ := exists_passes [] hbase hts
  rw [List.append_nil, List.append_nil] at hpasses
  refine ⟨out, after, hpasses, ?_⟩
  rw [hcount, List.countP_nil, Nat.zero_add]

/-- The first parenthesis that closes no group is the one that is reported. -/
theorem toPostfix_of_firstUnopened (hfirst : FirstUnopened ts position) :
    toPostfix ts = .error (.mismatchedParenthesis position) := by
  obtain ⟨front, rest, rfl, hfront, hover⟩ := hfirst
  obtain ⟨out, after, hpasses, hcount⟩ := exists_passes_of_affords (affords_zero_iff.2 hfront)
  have hequal := (overdraws_append_closeGroup_iff hfront).1 hover
  exact hpasses.eq_error (toPostfixFrom_closeGroup_of_countP_eq_zero position rest (by omega))

/-- The tokens up to the parenthesis leave it on top of what waits, and since
parentheses match behind it, it is still the latest open group at the end. -/
theorem toPostfix_of_lastUnclosed (hts : ¬ Overdraws ts) (hlast : LastUnclosed ts position) :
    toPostfix ts = .error (.mismatchedParenthesis position) := by
  obtain ⟨front, rest, rfl, hrest, hlater⟩ := hlast
  obtain ⟨hinner, htotal⟩ := closes_iff.1 (closes_of_last hrest hlater)
  obtain ⟨out, below, hfront, _⟩ := exists_passes_of_affords (affords_zero_iff.2 hts).of_append_left
  have hbase : ∀ t ∈ (openGroup position :: below).head?, t.isOpen = true := by
    intro t ht
    rw [← Option.some.inj ht]
    rfl
  obtain ⟨more, above, hbehind, hcount⟩ := exists_passes [] hbase hinner
  have hnone : above.countP isOpen = 0 := by
    rw [List.countP_nil] at hcount
    omega
  have hops : ∀ t ∈ above, t.isOpen = false := by
    simpa using List.countP_eq_zero.1 hnone
  have hall := hfront.trans ((Passes.openGroup position below).trans hbehind)
  have hend : toPostfixFrom (above ++ openGroup position :: below) [] =
      .error (.mismatchedParenthesis position) := toPostfixFrom_nil_of_openGroup hops
  have herror := hall.eq_error hend
  rwa [List.append_nil] at herror

/-- Matching parentheses are all that is asked. -/
theorem exists_toPostfix_of_closes (hts : Closes 0 ts) : ∃ out, toPostfix ts = .ok out := by
  obtain ⟨haffords, htotal⟩ := closes_iff.1 hts
  obtain ⟨out, after, hpasses, hcount⟩ := exists_passes_of_affords haffords
  have hnone : after.countP isOpen = 0 := by omega
  have hwaiting : ∀ t ∈ after, t.isOpen = false := by
    simpa using List.countP_eq_zero.1 hnone
  have hend : toPostfixFrom after [] = .ok after := applyWaiting_eq_ok_iff.2 ⟨hwaiting, rfl⟩
  have hok := hpasses.eq_ok hend
  rw [List.append_nil] at hok
  exact ⟨out ++ after, hok⟩

/-- What waits are operators that change their place, and parentheses. -/
theorem filter_keepsPlace_eq_nil {us : List Token} (hwaiting : ∀ t ∈ waiting, t.keepsPlace = false)
    (hus : us.Sublist waiting) : us.filter keepsPlace = [] :=
  List.filter_eq_nil_iff.2 fun t ht => by simp [hwaiting t (hus.subset ht)]

/-- Only open groups and operators between operands wait, so all other tokens
leave in the order in which they come. -/
theorem filter_keepsPlace_of_toPostfixFrom (hwaiting : ∀ t ∈ waiting, t.keepsPlace = false)
    (horder : toPostfixFrom waiting ts = .ok out) :
    out.filter keepsPlace = ts.filter keepsPlace := by
  fun_induction toPostfixFrom waiting ts generalizing out with
  | case1 waiting =>
    obtain ⟨_, rfl⟩ := applyWaiting_eq_ok_iff.1 horder
    exact filter_keepsPlace_eq_nil hwaiting (List.Sublist.refl _)
  | case2 waiting position rest ih => exact ih (List.forall_mem_cons.2 ⟨rfl, hwaiting⟩) horder
  | case3 => cases horder
  | case4 waiting position rest t outer hdrop ih =>
    obtain ⟨after, hafter, rfl⟩ := exists_of_map_eq_ok horder
    obtain ⟨_, hsplit⟩ := exists_openGroup_of_dropWhile hdrop
    have houter : ∀ u ∈ outer, u.keepsPlace = false := by
      intro u hu
      rw [hsplit] at hwaiting
      exact hwaiting u (List.mem_append_right _ (List.mem_cons_of_mem t hu))
    rw [List.filter_append, filter_keepsPlace_eq_nil hwaiting (List.takeWhile_sublist _)]
    exact ih houter hafter
  | case5 waiting rest ih | case6 waiting rest ih =>
    obtain ⟨after, hafter, rfl⟩ := exists_of_map_eq_ok horder
    have hlower (p : Token → Bool) : ∀ u ∈ waiting.dropWhile p, u.keepsPlace = false :=
      fun u hu => hwaiting u ((List.dropWhile_sublist p).subset hu)
    rw [List.filter_append, filter_keepsPlace_eq_nil hwaiting (List.takeWhile_sublist _)]
    exact ih (List.forall_mem_cons.2 ⟨rfl, hlower _⟩) hafter
  | case7 waiting t rest hopen hclose hconcat halternation ih =>
    obtain ⟨after, hafter, rfl⟩ := exists_of_map_eq_ok horder
    have ht : t.keepsPlace = true := by
      cases t with
      | openGroup position => exact absurd rfl (hopen position)
      | closeGroup position => exact absurd rfl (hclose position)
      | concat => exact absurd rfl hconcat
      | alternation => exact absurd rfl halternation
      | _ => rfl
    rw [List.filter_cons_of_pos ht, List.filter_cons_of_pos ht, ih hwaiting hafter]

/-- Whether parentheses match settles whether tokens have an evaluation order,
which of them is reported if they do not, and that nothing else is lost if they
do. A parenthesis that closes what was not opened goes before one that is left
open, the first of the former before others, and the last of the latter. -/
theorem toPostfix_settled_by_parentheses (ts : List Token) :
    (Overdraws ts → ∃ position, FirstUnopened ts position ∧
      toPostfix ts = .error (.mismatchedParenthesis position)) ∧
    (¬ Overdraws ts → ts.countP isClose < ts.countP isOpen → ∃ position, LastUnclosed ts position ∧
      toPostfix ts = .error (.mismatchedParenthesis position)) ∧
    (¬ Overdraws ts → ts.countP isClose = ts.countP isOpen → ∃ out, toPostfix ts = .ok out ∧
      (∀ t ∈ out, t.isParenthesis = false) ∧ out.Perm (ts.filter (!·.isParenthesis)) ∧
      out.filter keepsPlace = ts.filter keepsPlace) := by
  refine ⟨fun hover => ?_, fun hfront hmore => ?_, fun hfront hequal => ?_⟩
  · obtain ⟨position, hfirst⟩ := exists_firstUnopened hover
    exact ⟨position, hfirst, toPostfix_of_firstUnopened hfirst⟩
  · obtain ⟨position, hlast⟩ := exists_lastUnclosed ⟨ts, List.suffix_rfl, hmore⟩
    exact ⟨position, hlast, toPostfix_of_lastUnclosed hfront hlast⟩
  · have hcloses : Closes 0 ts :=
      closes_iff.2 ⟨affords_zero_iff.2 hfront, hequal.trans (Nat.zero_add _).symm⟩
    obtain ⟨out, horder⟩ := exists_toPostfix_of_closes hcloses
    have hperm : out.Perm (ts.filter (!·.isParenthesis)) := perm_of_toPostfixFrom horder
    have hwaiting : ∀ t ∈ ([] : List Token), t.keepsPlace = false := nofun
    refine ⟨out, horder, fun t ht => ?_, hperm, filter_keepsPlace_of_toPostfixFrom hwaiting horder⟩
    have hkept := List.mem_filter.1 (hperm.subset ht)
    simpa using hkept.2

/-- Of two parentheses that close nothing the first is reported, of two that stay
open the second, and operators leave a group when it closes. -/
theorem toPostfix_settled_by_parentheses_of_nested :
    let unopened : List Token := [.openGroup 0, .closeGroup 1, .closeGroup 2, .openGroup 3,
      .closeGroup 4, .closeGroup 5]
    let unclosed : List Token := [.openGroup 0, .openGroup 1, .openGroup 2, .literal 'a',
      .closeGroup 4]
    let matched : List Token := [.literal 'a', .concat, .openGroup 1, .literal 'b', .alternation,
      .literal 'c', .closeGroup 5, .star]
    (Overdraws unopened ∧ ∃ position, FirstUnopened unopened position ∧
        toPostfix unopened = .error (.mismatchedParenthesis position)) ∧
      (¬ Overdraws unclosed ∧ unclosed.countP isClose < unclosed.countP isOpen ∧
        ∃ position, LastUnclosed unclosed position ∧
          toPostfix unclosed = .error (.mismatchedParenthesis position)) ∧
      ¬ Overdraws matched ∧ matched.countP isClose = matched.countP isOpen ∧
        ∃ out, toPostfix matched = .ok out ∧ (∀ t ∈ out, t.isParenthesis = false) ∧
          out.Perm (matched.filter (!·.isParenthesis)) ∧
          out.filter keepsPlace = matched.filter keepsPlace := by
  intro unopened unclosed matched
  have hunopened : Overdraws unopened := by decide
  have hunclosed : ¬ Overdraws unclosed := by decide
  have hmatched : ¬ Overdraws matched := by decide
  have hopen : unclosed.countP isClose < unclosed.countP isOpen := by decide
  have hequal : matched.countP isClose = matched.countP isOpen := by decide
  exact ⟨⟨hunopened, (toPostfix_settled_by_parentheses unopened).1 hunopened⟩,
    ⟨hunclosed, hopen, (toPostfix_settled_by_parentheses unclosed).2.1 hunclosed hopen⟩,
    hmatched, hequal, (toPostfix_settled_by_parentheses matched).2.2 hmatched hequal⟩

end Ending

end Token

end Automata
