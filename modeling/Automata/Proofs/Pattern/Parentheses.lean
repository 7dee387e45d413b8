import Automata.Pattern.Postfix
import Automata.Proofs.Result
import Mathlib.Data.List.Perm.Basic

namespace Automata

namespace Token

/-- Whether the token closes a group. -/
def isClose : Token → Bool
  | closeGroup _ => true
  | _ => false

/-- Whether the token is a parenthesis, of either kind. -/
def isParenthesis (t : Token) : Bool :=
  t.isOpen || t.isClose

/-- A token that neither opens nor closes a group is no parenthesis. -/
theorem not_isParenthesis {t : Token} (hopen : ∀ position, t ≠ openGroup position)
    (hclose : ∀ position, t ≠ closeGroup position) : t.isParenthesis = false := by
  cases t with
  | openGroup position => exact absurd rfl (hopen position)
  | closeGroup position => exact absurd rfl (hclose position)
  | _ => rfl

/-- With some groups open already, no group is closed that was not opened, and
    all are closed in the end. -/
def Closes (depth : Nat) (ts : List Token) : Prop :=
  (∀ front, front <+: ts → front.countP isClose ≤ depth + front.countP isOpen) ∧
    ts.countP isClose = depth + ts.countP isOpen

/-- The beginnings of a list are the empty one and those that begin with its
first member. -/
theorem forall_prefix_cons_iff {P : List Token → Prop} {t : Token} {ts : List Token} :
    (∀ front, front <+: t :: ts → P front) ↔ P [] ∧ ∀ front, front <+: ts → P (t :: front) := by
  constructor
  · intro hall
    refine ⟨hall [] List.nil_prefix, fun front hfront => ?_⟩
    exact hall _ (List.cons_prefix_cons.2 ⟨rfl, hfront⟩)
  · rintro ⟨hnil, hcons⟩ front hfront
    obtain rfl | ⟨tail, rfl, htail⟩ := List.prefix_cons_iff.1 hfront
    · exact hnil
    · exact hcons tail htail

theorem closes_nil_iff {depth : Nat} : Closes depth [] ↔ depth = 0 := by
  simp [Closes, eq_comm]

/-- Other tokens open and close nothing. -/
theorem closes_cons_iff {depth : Nat} {t : Token} {ts : List Token}
    (ht : t.isParenthesis = false) : Closes depth (t :: ts) ↔ Closes depth ts := by
  obtain ⟨hopen, hclose⟩ := Bool.or_eq_false_iff.1 ht
  simp [Closes, forall_prefix_cons_iff, hopen, hclose]

/-- An opening parenthesis leaves one more group to be closed. -/
theorem closes_openGroup_iff {depth position : Nat} {ts : List Token} :
    Closes depth (.openGroup position :: ts) ↔ Closes (depth + 1) ts := by
  simp [Closes, forall_prefix_cons_iff, List.countP_cons, isOpen, isClose, Nat.add_assoc,
    Nat.add_comm 1]

/-- A closing parenthesis needs an open group, and closes it. -/
theorem closes_closeGroup_iff {depth position : Nat} {ts : List Token} :
    Closes depth (.closeGroup position :: ts) ↔ ∃ outer, depth = outer + 1 ∧ Closes outer ts := by
  have hopen (us : List Token) : (closeGroup position :: us).countP isOpen = us.countP isOpen :=
    List.countP_cons_of_neg nofun
  have hclose (us : List Token) :
      (closeGroup position :: us).countP isClose = us.countP isClose + 1 :=
    List.countP_cons_of_pos rfl
  simp only [Closes, forall_prefix_cons_iff, hopen, hclose]
  constructor
  · rintro ⟨⟨_, hfront⟩, htotal⟩
    have hfirst := hfront [] List.nil_prefix
    simp only [List.countP_nil] at hfirst
    refine ⟨depth - 1, by omega, fun front hprefix => ?_, by omega⟩
    have hbound := hfront front hprefix
    omega
  · rintro ⟨outer, rfl, hfront, htotal⟩
    refine ⟨⟨Nat.zero_le _, fun front hprefix => ?_⟩, by omega⟩
    have hbound := hfront front hprefix
    omega

variable {waiting ts out : List Token}

/-- Operators that wait are put out at the end, unless a group is still open. -/
theorem applyWaiting_eq_ok_iff :
    applyWaiting waiting = .ok out ↔ (∀ t ∈ waiting, t.isOpen = false) ∧ waiting = out := by
  have hnone : waiting.findSome? (fun t => if t.isOpen then t.position? else none) = none ↔
      ∀ t ∈ waiting, t.isOpen = false := by
    rw [List.findSome?_eq_none_iff]
    apply forall₂_congr
    intro t _
    cases t <;> simp [isOpen, position?]
  rw [applyWaiting, ← hnone]
  split
  · rename_i hsome
    simp [hsome]
  · rename_i hfound
    simp [hfound]

/-- Waiting operators that are applied are no parentheses. -/
theorem not_isOpen_of_mem_takeWhile {op t : Token}
    (ht : t ∈ waiting.takeWhile (·.appliesBefore op)) : t.isOpen = false := by
  have happlies := List.all_eq_true.1 List.all_takeWhile t ht
  cases t <;> first | rfl | cases happlies

/-- Operators that are taken off leave all open groups waiting. -/
theorem countP_isOpen_dropWhile (op : Token) (waiting : List Token) :
    (waiting.dropWhile (·.appliesBefore op)).countP isOpen = waiting.countP isOpen := by
  have hnone : (waiting.takeWhile (·.appliesBefore op)).countP isOpen = 0 :=
    List.countP_eq_zero.2 fun t ht => by simp [not_isOpen_of_mem_takeWhile ht]
  conv_rhs => rw [← List.takeWhile_append_dropWhile (p := (·.appliesBefore op)) (l := waiting)]
  rw [List.countP_append, hnone, Nat.zero_add]

/-- What waits above the latest open group, the group, and the rest. -/
theorem exists_openGroup_of_dropWhile {t : Token} {outer : List Token}
    (hdrop : waiting.dropWhile (!·.isOpen) = t :: outer) :
    t.isOpen = true ∧ waiting = waiting.takeWhile (!·.isOpen) ++ t :: outer := by
  constructor
  · have hstop := List.head?_dropWhile_not (fun t => !isOpen t) waiting
    simpa [hdrop] using hstop
  · rw [← hdrop, List.takeWhile_append_dropWhile]

/-- Only tokens with closed groups have an evaluation order. -/
theorem closes_of_toPostfixFrom (horder : toPostfixFrom waiting ts = .ok out) :
    Closes (waiting.countP isOpen) ts := by
  fun_induction toPostfixFrom waiting ts generalizing out with
  | case1 waiting =>
    obtain ⟨hnone, -⟩ := applyWaiting_eq_ok_iff.1 horder
    exact closes_nil_iff.2 (List.countP_eq_zero.2 fun t ht => by simp [hnone t ht])
  | case2 waiting position rest ih =>
    have hrest := ih horder
    rw [List.countP_cons_of_pos rfl] at hrest
    exact closes_openGroup_iff.2 hrest
  | case3 => cases horder
  | case4 waiting position rest t outer hdrop ih =>
    obtain ⟨after, hafter, -⟩ := exists_of_map_eq_ok horder
    obtain ⟨hopen, hwaiting⟩ := exists_openGroup_of_dropWhile hdrop
    have hnone : (waiting.takeWhile (!·.isOpen)).countP isOpen = 0 :=
      List.countP_eq_zero.2 fun t ht => by
        simpa using List.all_eq_true.1 List.all_takeWhile t ht
    refine closes_closeGroup_iff.2 ⟨outer.countP isOpen, ?_, ih hafter⟩
    rw [hwaiting, List.countP_append, hnone, Nat.zero_add, List.countP_cons_of_pos hopen]
  | case5 waiting rest ih =>
    obtain ⟨after, hafter, -⟩ := exists_of_map_eq_ok horder
    have hrest := ih hafter
    rw [List.countP_cons_of_neg Bool.false_ne_true, countP_isOpen_dropWhile] at hrest
    exact (closes_cons_iff rfl).2 hrest
  | case6 waiting rest ih =>
    obtain ⟨after, hafter, -⟩ := exists_of_map_eq_ok horder
    have hrest := ih hafter
    rw [List.countP_cons_of_neg Bool.false_ne_true, countP_isOpen_dropWhile] at hrest
    exact (closes_cons_iff rfl).2 hrest
  | case7 waiting t rest hopen hclose _ _ ih =>
    obtain ⟨after, hafter, -⟩ := exists_of_map_eq_ok horder
    exact (closes_cons_iff (not_isParenthesis hopen hclose)).2 (ih hafter)

/-- The operators that a binary operator applies, the operator and those that
    still wait are all that waited with the operator. -/
theorem perm_of_binary {op : Token} (hop : op.isOpen = false) (waiting us : List Token) :
    (waiting.takeWhile (·.appliesBefore op) ++
        ((op :: waiting.dropWhile (·.appliesBefore op)).filter (!·.isOpen) ++ us)).Perm
      (waiting.filter (!·.isOpen) ++ op :: us) := by
  have htake : (waiting.takeWhile (·.appliesBefore op)).filter (!·.isOpen) =
      waiting.takeWhile (·.appliesBefore op) :=
    List.filter_eq_self.2 fun t ht => by simp [not_isOpen_of_mem_takeWhile ht]
  have hsplit : waiting.filter (!·.isOpen) = waiting.takeWhile (·.appliesBefore op) ++
      (waiting.dropWhile (·.appliesBefore op)).filter (!·.isOpen) := by
    rw [← htake, ← List.filter_append, List.takeWhile_append_dropWhile]
  rw [hsplit, List.filter_cons_of_pos (by simp [hop]), List.append_assoc, List.cons_append]
  exact List.Perm.append_left _ List.perm_middle.symm

/-- Nothing is lost and nothing is made up: the evaluation order holds the
    operators that waited and all tokens but the parentheses. -/
theorem perm_of_toPostfixFrom (horder : toPostfixFrom waiting ts = .ok out) :
    out.Perm (waiting.filter (!·.isOpen) ++ ts.filter (!·.isParenthesis)) := by
  fun_induction toPostfixFrom waiting ts generalizing out with
  | case1 waiting =>
    obtain ⟨hnone, rfl⟩ := applyWaiting_eq_ok_iff.1 horder
    rw [List.filter_eq_self.2 fun t ht => by simp [hnone t ht], List.filter_nil, List.append_nil]
  | case2 waiting position rest ih => exact ih horder
  | case3 => cases horder
  | case4 waiting position rest t outer hdrop ih =>
    obtain ⟨after, hafter, rfl⟩ := exists_of_map_eq_ok horder
    obtain ⟨hopen, hwaiting⟩ := exists_openGroup_of_dropWhile hdrop
    have htake : (waiting.takeWhile (!·.isOpen)).filter (!·.isOpen) =
        waiting.takeWhile (!·.isOpen) :=
      List.filter_eq_self.2 fun t ht => List.all_eq_true.1 List.all_takeWhile t ht
    have hkept : waiting.filter (!·.isOpen) =
        waiting.takeWhile (!·.isOpen) ++ outer.filter (!·.isOpen) := by
      conv_lhs => rw [hwaiting]
      rw [List.filter_append, htake, List.filter_cons_of_neg (by simp [hopen])]
    rw [hkept, List.append_assoc]
    exact (ih hafter).append_left _
  | case5 waiting rest ih =>
    obtain ⟨after, hafter, rfl⟩ := exists_of_map_eq_ok horder
    exact ((ih hafter).append_left _).trans (perm_of_binary rfl waiting _)
  | case6 waiting rest ih =>
    obtain ⟨after, hafter, rfl⟩ := exists_of_map_eq_ok horder
    exact ((ih hafter).append_left _).trans (perm_of_binary rfl waiting _)
  | case7 waiting t rest hopen hclose _ _ ih =>
    obtain ⟨after, hafter, rfl⟩ := exists_of_map_eq_ok horder
    rw [List.filter_cons_of_pos (by simp [not_isParenthesis hopen hclose])]
    exact ((ih hafter).cons t).trans List.perm_middle.symm

end Token

end Automata
