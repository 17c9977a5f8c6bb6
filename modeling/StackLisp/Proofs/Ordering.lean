import Mathlib.Data.List.Chain
import StackLisp.Builtin.Core
import StackLisp.Builtin.Reply
import StackLisp.Proofs.Intrinsics
import StackLisp.Proofs.Ranks

/-!
The order of numbers. Two integers are compared as they are and any other two numbers as doubles, so where
an integer stands depends on what it is compared with. Nothing is lost for `<`, which stays transitive. But
different integers can be equal to one double, and then a chain that leads over this double holds although it
does not hold of its ends. Whether a chain holds of every two of its members is thus seen from its neighbours
and from the integers alone.
-/

namespace StackLisp

/-- Numbers in an order. -/
abbrev Comparison.Relates (o : Comparison) (a b : Number) : Prop :=
  o.holds (a.compare? b) = true

namespace Number

def isNaN : Number → Bool
  | integer _ => false
  | float x => x.isNaN

def integer? : Number → Option Int64
  | integer n => some n
  | float _ => none

/-- Where a number stands among the doubles. -/
def rank (n : Number) : Int :=
  Double.rank n.toFloat

/-- Different integers with a double between them that is equal to both. -/
def Blurred (a b c : Number) : Prop :=
  ∃ m x n, a = integer m ∧ b = float x ∧ c = integer n ∧ m ≠ n ∧
    a.compare? b = some .eq ∧ b.compare? c = some .eq

variable {a b c : Number} {o : Comparison}

theorem isNaN_toFloat (n : Number) : n.toFloat.isNaN = n.isNaN := by
  cases n with
  | integer n => exact Double.isNaN_round n
  | float x => rfl

theorem compare?_integers (m n : Int64) : (integer m).compare? (integer n) = some (compare m.toInt n.toInt) := rfl

theorem integer?_of_isNaN (h : a.isNaN = true) : a.integer? = none := by
  cases a with
  | integer n => cases h
  | float x => rfl

/-- Where one of them is no integer, numbers are compared as doubles. -/
theorem compare?_toFloat (mixed : a.integer? = none ∨ b.integer? = none) :
    a.compare? b = compareFloat a.toFloat b.toFloat := by
  cases a with
  | float x => cases b <;> rfl
  | integer m => cases b with
    | float x => rfl
    | integer n => simp [integer?] at mixed

theorem compare?_ranks (left : a.isNaN = false) (right : b.isNaN = false)
    (mixed : a.integer? = none ∨ b.integer? = none) : a.compare? b = some (compare a.rank b.rank) := by
  rw [compare?_toFloat mixed]
  exact Double.compareFloat_rank ((isNaN_toFloat a).trans left) ((isNaN_toFloat b).trans right)

theorem compare?_nan (h : a.isNaN = true ∨ b.isNaN = true) : a.compare? b = none := by
  rw [compare?_toFloat (h.imp integer?_of_isNaN integer?_of_isNaN)]
  exact Double.compareFloat_nan (by rwa [isNaN_toFloat, isNaN_toFloat])

theorem compare?_cases (a b : Number) :
    (∃ m n, a = integer m ∧ b = integer n ∧ a.compare? b = some (compare m.toInt n.toInt)) ∨
    (a.isNaN = false ∧ b.isNaN = false ∧ (a.integer? = none ∨ b.integer? = none) ∧
      a.compare? b = some (compare a.rank b.rank)) ∨
    ((a.isNaN = true ∨ b.isNaN = true) ∧ a.compare? b = none) := by
  by_cases nan : a.isNaN = true ∨ b.isNaN = true
  · exact .inr (.inr ⟨nan, compare?_nan nan⟩)
  simp only [not_or, Bool.not_eq_true] at nan
  by_cases mixed : a.integer? = none ∨ b.integer? = none
  · exact .inr (.inl ⟨nan.1, nan.2, mixed, compare?_ranks nan.1 nan.2 mixed⟩)
  · cases a with
    | float x => exact absurd (.inl rfl) mixed
    | integer m => cases b with
      | float x => exact absurd (.inr rfl) mixed
      | integer n => exact .inl ⟨m, n, rfl, rfl, rfl⟩

theorem compare?_eq_none_iff : a.compare? b = none ↔ a.isNaN = true ∨ b.isNaN = true := by
  refine ⟨fun none => ?_, compare?_nan⟩
  obtain ⟨m, n, -, -, order⟩ | ⟨-, -, -, order⟩ | ⟨nan, -⟩ := compare?_cases a b
  · cases order.symm.trans none
  · cases order.symm.trans none
  · exact nan

theorem compare?_swap (a b : Number) : b.compare? a = (a.compare? b).map Ordering.swap := by
  obtain ⟨m, n, rfl, rfl, order⟩ | ⟨left, right, mixed, order⟩ | ⟨nan, order⟩ := compare?_cases a b
  · rw [order, compare?_integers, Option.map_some, Int.compare_swap]
  · rw [order, compare?_ranks right left mixed.symm, Option.map_some, Int.compare_swap]
  · rw [order, compare?_nan nan.symm]
    rfl

/-! ### Relations -/

theorem relates_gt : Comparison.gt.Relates a b ↔ Comparison.lt.Relates b a := by
  unfold Comparison.Relates
  rw [compare?_swap a b]
  rcases a.compare? b with _ | (_ | _ | _) <;> decide

theorem relates_ge : Comparison.ge.Relates a b ↔ Comparison.le.Relates b a := by
  unfold Comparison.Relates
  rw [compare?_swap a b]
  rcases a.compare? b with _ | (_ | _ | _) <;> decide

theorem relates_eq : Comparison.eq.Relates a b ↔ Comparison.le.Relates a b ∧ Comparison.le.Relates b a := by
  unfold Comparison.Relates
  rw [compare?_swap a b]
  rcases a.compare? b with _ | (_ | _ | _) <;> decide

theorem relates_eq_iff : Comparison.eq.Relates a b ↔ a.compare? b = some .eq := by
  unfold Comparison.Relates
  rcases a.compare? b with _ | (_ | _ | _) <;> decide

theorem relates_integers_le {m n : Int64} :
    Comparison.le.Relates (integer m) (integer n) ↔ m.toInt ≤ n.toInt :=
  Int.isLE_compare

theorem relates_integers_lt {m n : Int64} :
    Comparison.lt.Relates (integer m) (integer n) ↔ m.toInt < n.toInt := by
  have unfolded : Comparison.lt.Relates (integer m) (integer n) ↔ (compare m.toInt n.toInt).isLT = true := Iff.rfl
  rw [unfolded, Ordering.isLT_iff_eq_lt, Int.compare_eq_lt]

/-- Rounding does not turn an order around. -/
theorem rank_le_of_le (h : Comparison.le.Relates a b) :
    a.isNaN = false ∧ b.isNaN = false ∧ a.rank ≤ b.rank := by
  obtain ⟨m, n, rfl, rfl, -⟩ | ⟨left, right, -, order⟩ | ⟨-, order⟩ := compare?_cases a b
  · exact ⟨rfl, rfl, Double.rank_round_mono (relates_integers_le.mp h)⟩
  · rw [Comparison.Relates, order] at h
    exact ⟨left, right, Int.isLE_compare.mp h⟩
  · rw [Comparison.Relates, order] at h
    cases h

theorem le_of_rank_le (left : a.isNaN = false) (right : b.isNaN = false)
    (mixed : a.integer? = none ∨ b.integer? = none) (h : a.rank ≤ b.rank) : Comparison.le.Relates a b := by
  rw [Comparison.Relates, compare?_ranks left right mixed]
  exact Int.isLE_compare.mpr h

theorem lt_iff_not_le (left : a.isNaN = false) (right : b.isNaN = false) :
    Comparison.lt.Relates a b ↔ ¬Comparison.le.Relates b a := by
  unfold Comparison.Relates
  rw [compare?_swap a b]
  have ordered : a.compare? b ≠ none := fun none => by
    rcases compare?_eq_none_iff.mp none with nan | nan
    · cases nan.symm.trans left
    · cases nan.symm.trans right
  generalize a.compare? b = order at ordered ⊢
  rcases order with _ | (_ | _ | _)
  · exact absurd rfl ordered
  · decide
  · decide
  · decide

theorem le_of_lt (h : Comparison.lt.Relates a b) : Comparison.le.Relates a b := by
  revert h
  unfold Comparison.Relates
  rcases a.compare? b with _ | (_ | _ | _) <;> decide

theorem lt_of_rank_lt (left : a.isNaN = false) (right : b.isNaN = false) (h : a.rank < b.rank) :
    Comparison.lt.Relates a b := by
  rw [lt_iff_not_le left right]
  intro back
  exact Int.not_le.mpr h (rank_le_of_le back).2.2

theorem rank_lt_of_lt (h : Comparison.lt.Relates a b) (mixed : a.integer? = none ∨ b.integer? = none) :
    a.rank < b.rank := by
  obtain ⟨left, right, -⟩ := rank_le_of_le (le_of_lt h)
  refine Int.not_le.mp fun back => ?_
  exact (lt_iff_not_le left right).mp h (le_of_rank_le right left mixed.symm back)

/-! ### Transitivity -/

/-- As soon as a double takes part, ranks decide, and they do not fall. -/
theorem lt_trans (first : Comparison.lt.Relates a b) (second : Comparison.lt.Relates b c) :
    Comparison.lt.Relates a c := by
  obtain ⟨left, -, low⟩ := rank_le_of_le (le_of_lt first)
  obtain ⟨-, right, high⟩ := rank_le_of_le (le_of_lt second)
  by_cases mixed : a.integer? = none ∨ b.integer? = none
  · exact lt_of_rank_lt left right (Int.lt_of_lt_of_le (rank_lt_of_lt first mixed) high)
  by_cases other : b.integer? = none ∨ c.integer? = none
  · exact lt_of_rank_lt left right (Int.lt_of_le_of_lt low (rank_lt_of_lt second other))
  cases a with
  | float x => exact absurd (.inl rfl) mixed
  | integer m => cases b with
    | float x => exact absurd (.inr rfl) mixed
    | integer k => cases c with
      | float x => exact absurd (.inr rfl) other
      | integer n =>
        rw [relates_integers_lt] at first second ⊢
        exact Int.lt_trans first second

/-- The order fails to lead over a double only where it rounds different integers to one. -/
theorem le_trans_or (first : Comparison.le.Relates a b) (second : Comparison.le.Relates b c) :
    Comparison.le.Relates a c ∨ Blurred a b c ∧ a.compare? c = some .gt := by
  obtain ⟨left, middle, low⟩ := rank_le_of_le first
  obtain ⟨-, right, high⟩ := rank_le_of_le second
  by_cases mixed : a.integer? = none ∨ c.integer? = none
  · exact .inl (le_of_rank_le left right mixed (Int.le_trans low high))
  cases a with
  | float x => exact absurd (.inl rfl) mixed
  | integer m => cases c with
    | float x => exact absurd (.inr rfl) mixed
    | integer n =>
      cases b with
      | integer k =>
        rw [relates_integers_le] at first second ⊢
        exact .inl (Int.le_trans first second)
      | float x =>
        by_cases order : m.toInt ≤ n.toInt
        · exact .inl (relates_integers_le.mpr order)
        have back : (integer n).rank ≤ (integer m).rank := Double.rank_round_mono (by omega)
        have below := le_of_rank_le middle left (.inl rfl) (Int.le_trans high back)
        have above := le_of_rank_le right middle (.inr rfl) (Int.le_trans back low)
        refine .inr ⟨⟨m, x, n, rfl, rfl, rfl, ?_, ?_, ?_⟩, ?_⟩
        · rintro rfl
          exact order (Int.le_refl _)
        · exact relates_eq_iff.mp (relates_eq.mpr ⟨first, below⟩)
        · exact relates_eq_iff.mp (relates_eq.mpr ⟨second, above⟩)
        · rw [compare?_integers, Int.compare_eq_gt.mpr (Int.not_le.mp order)]

theorem Blurred.symm (h : Blurred a b c) : Blurred c b a := by
  obtain ⟨m, x, n, rfl, rfl, rfl, apart, first, second⟩ := h
  refine ⟨n, x, m, rfl, rfl, rfl, apart.symm, ?_, ?_⟩
  · rw [compare?_swap, second]
    rfl
  · rw [compare?_swap, first]
    rfl

theorem Blurred.not_eq (h : Blurred a b c) : ¬Comparison.eq.Relates a c := by
  obtain ⟨m, x, n, rfl, rfl, rfl, apart, -⟩ := h
  intro same
  rw [relates_eq_iff, compare?_integers, Option.some.injEq, Int.compare_eq_eq] at same
  exact apart (Int64.toInt_inj.mp same)

theorem eq_trans_iff (first : Comparison.eq.Relates a b) (second : Comparison.eq.Relates b c) :
    Comparison.eq.Relates a c ↔ ¬Blurred a b c := by
  refine ⟨fun same blurred => blurred.not_eq same, fun clear => ?_⟩
  rw [relates_eq] at first second ⊢
  refine ⟨?_, ?_⟩
  · exact (le_trans_or first.1 second.1).resolve_right fun other => clear other.1
  · exact (le_trans_or second.2 first.2).resolve_right fun other => clear other.1.symm

/-- Every relation leads from neighbour to neighbour, unless there are integers at the ends and a double
between them. -/
theorem relates_trans_or (o : Comparison) (first : o.Relates a b) (second : o.Relates b c) :
    o.Relates a c ∨ Blurred a b c := by
  cases o with
  | eq => exact (Classical.em (Blurred a b c)).symm.imp_left (eq_trans_iff first second).mpr
  | lt => exact .inl (lt_trans first second)
  | le => exact (le_trans_or first second).imp_right And.left
  | gt =>
    rw [relates_gt] at first second ⊢
    exact .inl (lt_trans second first)
  | ge =>
    rw [relates_ge] at first second ⊢
    exact (le_trans_or second first).imp_right fun blurred => blurred.1.symm

/-! ### Chains -/

variable {ns : List Number}

instance : Trans Comparison.lt.Relates Comparison.lt.Relates Comparison.lt.Relates where
  trans := lt_trans

/-- Integers in an order, as numbers are. -/
abbrev OnIntegers (o : Comparison) (m n : Int64) : Prop :=
  o.Relates (integer m) (integer n)

instance (o : Comparison) : Trans (OnIntegers o) (OnIntegers o) (OnIntegers o) where
  trans first second := by
    refine (relates_trans_or o first second).resolve_right ?_
    rintro ⟨_, _, _, -, double, -⟩
    cases double

/-- A chain holds of every two of its members if it holds of the integers among them. -/
theorem pairwise_of_chain (chained : ns.IsChain o.Relates)
    (integers : (ns.filterMap integer?).Pairwise (OnIntegers o)) : ns.Pairwise o.Relates := by
  induction ns with
  | nil => exact .nil
  | cons a ns ih =>
    have rest : ns.Pairwise o.Relates := by
      refine ih chained.tail (integers.sublist ?_)
      exact (List.sublist_cons_self a ns).filterMap _
    refine .cons (fun c member => ?_) rest
    cases ns with
    | nil => cases member
    | cons b ns =>
      obtain ⟨near, -⟩ := List.isChain_cons_cons.mp chained
      rcases List.mem_cons.mp member with rfl | far
      · exact near
      refine (relates_trans_or o near (List.rel_of_pairwise_cons rest far)).elim id ?_
      rintro ⟨m, x, n, rfl, rfl, rfl, -⟩
      refine List.rel_of_pairwise_cons (l := (Number.float x :: ns).filterMap integer?) integers ?_
      exact List.mem_filterMap.mpr ⟨_, .tail _ far, rfl⟩

/-- Neighbours and the integers alone say whether a relation holds of every two members. -/
theorem pairwise_iff (o : Comparison) (ns : List Number) :
    ns.Pairwise o.Relates ↔ ns.IsChain o.Relates ∧ (ns.filterMap integer?).IsChain (OnIntegers o) := by
  constructor
  · intro every
    refine ⟨every.isChain, List.Pairwise.isChain ?_⟩
    refine List.pairwise_filterMap.mpr (every.imp fun {a b} holds m first n second => ?_)
    cases a with
    | float x => cases first
    | integer k => cases b with
      | float x => cases second
      | integer l =>
        cases first
        cases second
        exact holds
  · rintro ⟨chained, integers⟩
    exact pairwise_of_chain chained integers.pairwise

theorem chain_values (o : Comparison) (ns : List Number) :
    Operation.chain (compareNumbers o) (ns.map Number.value) = .ok (decide (ns.IsChain o.Relates)) := by
  induction ns with
  | nil => rfl
  | cons a ns ih =>
    cases ns with
    | nil => rfl
    | cons b ns =>
      have test : compareNumbers o a.value b.value = .ok (o.holds (a.compare? b)) := by
        unfold compareNumbers
        rw [number?_value, number?_value]
        rfl
      have step : Operation.chain (compareNumbers o) ((a :: b :: ns).map Number.value) =
          if o.holds (a.compare? b) = true then .ok (decide ((b :: ns).IsChain o.Relates)) else .ok false := by
        rw [← ih, List.map_cons, List.map_cons, Operation.chain, test]
        rfl
      rw [step]
      by_cases holds : o.Relates a b
      · rw [if_pos holds]
        refine congrArg Except.ok (decide_eq_decide.mpr ?_)
        rw [List.isChain_cons_cons]
        exact (and_iff_right holds).symm
      · rw [if_neg holds]
        refine congrArg Except.ok (decide_eq_false fun chained => ?_).symm
        exact holds (List.isChain_cons_cons.mp chained).1

theorem reply_ordered {f : Builtin} (ordered : f.operation = .ordered o) (ns : List Number) :
    f.reply (ns.map Number.value) = .answer (.bool (decide (ns.IsChain o.Relates))) := by
  unfold Builtin.reply
  rw [ordered]
  dsimp only
  rw [chain_values]
  rfl

end Number

end StackLisp
