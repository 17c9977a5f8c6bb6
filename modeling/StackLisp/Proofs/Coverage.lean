import StackLisp.Clause.Parse

/-!
Which clauses calls can select. A clause is rejected when one clause before it takes all its counts. There
is one other way to be out of reach: fixed clauses take the counts of a variadic one up to where an earlier
variadic clause takes the rest. Such a clause is let in.
-/

namespace StackLisp.Clauses

variable {cs : Clauses} {c : Clause} {n : Nat}

/-- The place of the clause that a call with so many arguments selects. -/
def selected? (cs : Clauses) (n : Nat) : Option Nat :=
  cs.findIdx? (·.fits n)

/-- No call selects the clause behind the others. -/
def Unreachable (cs : Clauses) (c : Clause) : Prop :=
  ∀ n, selected? (cs ++ [c]) n ≠ some cs.length

/-- Fixed clauses lead from the count of a variadic clause up to the least variadic one. -/
structure Bridged (cs : Clauses) (c : Clause) (least : Nat) : Prop where
  variadic : c.isVariadic
  listed : leastRest? cs = some least
  below : c.fixedCount < least
  filled : ∀ n, c.fixedCount ≤ n → n < least → ∃ e ∈ cs, e.isVariadic = false ∧ e.fixedCount = n

theorem unreachable_iff : cs.Unreachable c ↔ ∀ n, c.fits n → ∃ e ∈ cs, e.fits n := by
  refine forall_congr' fun n => ?_
  unfold selected?
  rw [List.findIdx?_append]
  cases first : cs.findIdx? (·.fits n) with
  | some i =>
    obtain ⟨inside, fits, -⟩ := List.findIdx?_eq_some_iff_getElem.mp first
    refine iff_of_true (fun same => ?_) fun _ => ⟨cs[i], List.getElem_mem inside, fits⟩
    exact Nat.ne_of_lt inside (Option.some.inj same)
  | none =>
    have none : ¬∃ e ∈ cs, e.fits n := by
      rintro ⟨e, member, fits⟩
      rw [List.findIdx?_eq_none_iff.mp first e member] at fits
      cases fits
    simp [List.findIdx?_cons, none]

theorem leastRest?_eq_some {least : Nat} (h : leastRest? cs = some least) :
    (∃ e ∈ cs, e.isVariadic ∧ e.fixedCount = least) ∧
      ∀ e ∈ cs, e.isVariadic → least ≤ e.fixedCount := by
  obtain ⟨member, lower⟩ := List.min?_eq_some_iff.mp h
  obtain ⟨e, inside, same⟩ := List.mem_map.mp member
  obtain ⟨listed, variadic⟩ := List.mem_filter.mp inside
  refine ⟨⟨e, listed, variadic, same⟩, fun e listed variadic => lower _ ?_⟩
  exact List.mem_map_of_mem (List.mem_filter.mpr ⟨listed, variadic⟩)

theorem leastRest?_eq_none (h : leastRest? cs = none) : ∀ e ∈ cs, e.isVariadic = false := by
  intro e member
  have none := List.filter_eq_nil_iff.mp (List.map_eq_nil_iff.mp (List.min?_eq_none_iff.mp h))
  simpa using none e member

theorem fits_of_variadic (variadic : c.isVariadic) : c.fits n ↔ c.fixedCount ≤ n := by
  simp [Clause.fits, variadic]

theorem fits_of_fixed (fixed : c.isVariadic = false) : c.fits n ↔ n = c.fixedCount := by
  simp [Clause.fits, fixed]

theorem Bridged.unreachable {least : Nat} (h : cs.Bridged c least) : cs.Unreachable c := by
  refine unreachable_iff.mpr fun n fits => ?_
  have above := (fits_of_variadic h.variadic).mp fits
  rcases Nat.lt_or_ge n least with early | late
  · obtain ⟨e, member, fixed, same⟩ := h.filled n above early
    exact ⟨e, member, (fits_of_fixed fixed).mpr same.symm⟩
  · obtain ⟨⟨e, member, variadic, same⟩, -⟩ := leastRest?_eq_some h.listed
    exact ⟨e, member, (fits_of_variadic variadic).mpr (same ▸ late)⟩

/-- A fixed clause takes one count only, so that beyond all fixed counts a variadic one is needed. -/
theorem exists_variadic_of_unreachable (h : ∀ n, c.fits n → ∃ e ∈ cs, e.fits n) (variadic : c.isVariadic) :
    ∃ e ∈ cs, e.isVariadic := by
  let far := (cs.map (·.fixedCount)).max?.getD 0
  obtain ⟨e, member, fits⟩ := h (max c.fixedCount (far + 1))
    ((fits_of_variadic variadic).mpr (Nat.le_max_left _ _))
  refine ⟨e, member, ?_⟩
  cases rest : e.isVariadic with
  | true => rfl
  | false =>
    have same := (fits_of_fixed rest).mp fits
    have below : e.fixedCount ≤ far := List.le_max?_getD_of_mem (List.mem_map_of_mem member)
    have beyond := Nat.le_max_right c.fixedCount (far + 1)
    omega

/-- Two ways for a clause to be out of reach. -/
theorem unreachable_iff_shadowed_or_bridged :
    cs.Unreachable c ↔ (∃ e ∈ cs, ∀ n, c.fits n → e.fits n) ∨ ∃ least, cs.Bridged c least := by
  constructor
  · intro h
    rw [unreachable_iff] at h
    cases variadic : c.isVariadic with
    | false =>
      have own := (fits_of_fixed variadic).mpr rfl
      obtain ⟨e, member, fits⟩ := h c.fixedCount own
      exact Or.inl ⟨e, member, fun n same => (fits_of_fixed variadic).mp same ▸ fits⟩
    | true =>
      obtain ⟨r, listed, rest⟩ := exists_variadic_of_unreachable h variadic
      cases found : leastRest? cs with
      | none => exact absurd rest (Bool.eq_false_iff.mp (leastRest?_eq_none found r listed))
      | some least =>
        obtain ⟨⟨e, member, takes, same⟩, lower⟩ := leastRest?_eq_some found
        rcases Nat.lt_or_ge c.fixedCount least with below | reached
        · refine Or.inr ⟨least, variadic, found, below, fun n above early => ?_⟩
          obtain ⟨d, inside, fits⟩ := h n ((fits_of_variadic variadic).mpr above)
          cases rest : d.isVariadic with
          | false => exact ⟨d, inside, rest, ((fits_of_fixed rest).mp fits).symm⟩
          | true =>
            have late := Nat.le_trans (lower d inside rest) ((fits_of_variadic rest).mp fits)
            exact absurd early (Nat.not_lt.mpr late)
        · refine Or.inl ⟨e, member, fun n fits => (fits_of_variadic takes).mpr ?_⟩
          exact same ▸ Nat.le_trans reached ((fits_of_variadic variadic).mp fits)
  · rintro (⟨e, member, fits⟩ | ⟨least, bridged⟩)
    · exact unreachable_iff.mpr fun n own => ⟨e, member, fits n own⟩
    · exact bridged.unreachable

/-- One clause that takes all the counts leaves nothing to bridge. -/
theorem Bridged.not_shadowed {least : Nat} (h : cs.Bridged c least) :
    ¬∃ e ∈ cs, ∀ n, c.fits n → e.fits n := by
  rintro ⟨e, member, fits⟩
  have own := fits c.fixedCount ((fits_of_variadic h.variadic).mpr (Nat.le_refl _))
  have far := fits (c.fixedCount + 1) ((fits_of_variadic h.variadic).mpr (Nat.le_succ _))
  cases rest : e.isVariadic with
  | false =>
    have one := (fits_of_fixed rest).mp own
    have other := (fits_of_fixed rest).mp far
    omega
  | true =>
    have reached := (fits_of_variadic rest).mp own
    have lower := (leastRest?_eq_some h.listed).2 e member rest
    exact absurd h.below (Nat.not_lt.mpr (Nat.le_trans lower reached))

theorem push_eq_error : cs.push c = .error (.unreachableClause c) ↔
    cs.Unreachable c ∧ ∀ least, ¬cs.Bridged c least := by
  have rejected : cs.push c = .error (.unreachableClause c) ↔ cs.push? c = none := by
    unfold push
    cases cs.push? c <;> simp
  rw [rejected, push?_eq_none_iff, unreachable_iff_shadowed_or_bridged]
  constructor
  · exact fun shadowed => ⟨Or.inl shadowed, fun _ bridged => bridged.not_shadowed shadowed⟩
  · rintro ⟨shadowed | ⟨least, bridged⟩, not⟩
    · exact shadowed
    · exact absurd bridged (not least)

theorem push_eq_ok {ds : Clauses} : cs.push c = .ok ds ↔
    (¬cs.Unreachable c ∨ ∃ least, cs.Bridged c least) ∧ ds = cs ++ [c] := by
  have split : cs.push c = .error (.unreachableClause c) ∨ cs.push c = .ok (cs ++ [c]) := by
    unfold push push?
    cases cs.coverage.closes c <;> simp
  rcases split with rejected | pushed
  · obtain ⟨out, not⟩ := push_eq_error.mp rejected
    refine iff_of_false (by simp [rejected]) ?_
    rintro ⟨reached | ⟨least, bridged⟩, -⟩
    · exact reached out
    · exact not least bridged
  · have lets : ¬cs.Unreachable c ∨ ∃ least, cs.Bridged c least := by
      refine Classical.or_iff_not_imp_left.mpr fun closed => Classical.not_forall_not.mp fun not => ?_
      have rejected := push_eq_error.mpr ⟨Classical.not_not.mp closed, not⟩
      exact nomatch pushed.symm.trans rejected
    rw [pushed, Except.ok.injEq, and_iff_right lets, eq_comm]

/-- The clauses after one was offered to them, whether it was let in or not. -/
def offer (cs : Clauses) (c : Clause) : Clauses :=
  match cs.push c with
  | .ok more => more
  | .error _ => cs

/-- The clauses let in of those offered one after another. -/
def offered (clauses : List Clause) : Clauses :=
  clauses.foldl offer []

/-- Whatever was offered before, a clause is rejected just if no call can select it behind those let in,
unless fixed clauses bridge its counts up to a variadic one. A rejected clause might as well not have been
offered. -/
theorem offered_rejects (before : List Clause) (c : Clause) :
    ((offered before).push c = .error (.unreachableClause c) ↔
      (offered before).Unreachable c ∧ ∀ least, ¬(offered before).Bridged c least) ∧
    (∀ ds, (offered before).push c = .ok ds ↔
      (¬(offered before).Unreachable c ∨ ∃ least, (offered before).Bridged c least) ∧
        ds = offered before ++ [c]) ∧
    ((offered before).push c = .error (.unreachableClause c) → ∀ after,
      offered (before ++ c :: after) = offered (before ++ after) ∧
        (offered (before ++ c :: after)).arity = (offered (before ++ after)).arity) := by
  refine ⟨push_eq_error, fun ds => push_eq_ok, fun rejected after => ?_⟩
  have same : offered (before ++ c :: after) = offered (before ++ after) := by
    have kept : (offered before).offer c = offered before := by
      unfold offer
      rw [rejected]
    unfold offered at kept ⊢
    rw [List.foldl_append, List.foldl_cons, kept, ← List.foldl_append]
  exact ⟨same, congrArg arity same⟩

/-- Clauses of two parameters and of three or more. -/
def twoOrMore : List Clause :=
  [⟨["x", "y"], none, []⟩, ⟨["x", "y", "z"], some "more", []⟩]

/-- A clause of two or more is let in behind them, and no call selects it. One of just two is rejected, and
leaves no trace. -/
theorem offered_rejects_pair :
    (offered twoOrMore).push ⟨["x", "y"], some "rest", []⟩ =
      .ok (twoOrMore ++ [⟨["x", "y"], some "rest", []⟩]) ∧
    (offered twoOrMore).Unreachable ⟨["x", "y"], some "rest", []⟩ ∧
    offered (twoOrMore ++ [⟨["a", "b"], none, []⟩, ⟨["x"], none, []⟩]) =
      offered (twoOrMore ++ [⟨["x"], none, []⟩]) := by
  have bridged : (offered twoOrMore).Bridged ⟨["x", "y"], some "rest", []⟩ 3 := by
    refine ⟨rfl, rfl, by decide, fun n above early => ⟨⟨["x", "y"], none, []⟩, List.mem_cons_self, rfl, ?_⟩⟩
    exact Nat.le_antisymm above (Nat.lt_succ_iff.mp early)
  have rejected : (offered twoOrMore).push ⟨["a", "b"], none, []⟩ = .error (.unreachableClause _) := rfl
  refine ⟨?_, bridged.unreachable, ?_⟩
  · exact ((offered_rejects twoOrMore _).2.1 _).mpr ⟨Or.inr ⟨3, bridged⟩, rfl⟩
  · exact ((offered_rejects twoOrMore _).2.2 rejected [⟨["x"], none, []⟩]).1

end StackLisp.Clauses
