/-!
How steps with a state end. A sequence of steps succeeds when each step does, from the state that the one
before it left, and fails as the first one that does.
-/

namespace StackLisp

variable {ε σ α β : Type}

theorem bind_eq_ok {x : Except ε α} {f : α → Except ε β} {b : β} :
    (x >>= f) = .ok b ↔ ∃ a, x = .ok a ∧ f a = .ok b := by
  cases x with
  | error e => simp [bind, Except.bind]
  | ok a => simp [bind, Except.bind]

theorem mapError_eq_ok {δ : Type} {x : Except ε α} {f : ε → δ} {a : α} :
    x.mapError f = .ok a ↔ x = .ok a := by
  constructor
  · intro mapped
    cases x with
    | error e => cases mapped
    | ok b => exact congrArg Except.ok (Except.ok.inj mapped)
  · rintro rfl
    rfl

/-- The action ends in a result or an error, and in a state. -/
def Ends (act : ExceptT ε (StateM σ) α) (s : σ) (r : Except ε α) (t : σ) : Prop :=
  @Eq (Except ε α × σ) (act.run s) (r, t)

/-- The action succeeds. -/
abbrev Yields (act : ExceptT ε (StateM σ) α) (s : σ) (a : α) (t : σ) : Prop :=
  Ends act s (.ok a) t

namespace Ends

theorem bind_ok {act : ExceptT ε (StateM σ) α} {f : α → ExceptT ε (StateM σ) β} {s t u : σ} {a : α}
    {r : Except ε β} (first : Ends act s (.ok a) t) (next : Ends (f a) t r u) :
    Ends (act >>= f) s r u := by
  change (match (act.run s : Except ε α × σ) with
    | (r, t) => (ExceptT.bindCont f r).run t) = _
  rw [first]
  exact next

theorem bind_error {act : ExceptT ε (StateM σ) α} {f : α → ExceptT ε (StateM σ) β} {s t : σ} {e : ε}
    (first : Ends act s (.error e) t) : Ends (act >>= f) s (.error e) t := by
  change (match (act.run s : Except ε α × σ) with
    | (r, t) => (ExceptT.bindCont f r).run t) = _
  rw [first]
  rfl

theorem unique {act : ExceptT ε (StateM σ) α} {s t u : σ} {q r : Except ε α} (h : Ends act s q t)
    (g : Ends act s r u) : q = r ∧ t = u :=
  Prod.mk.inj (h.symm.trans g)

end Ends

namespace Yields

theorem bind_iff {act : ExceptT ε (StateM σ) α} {f : α → ExceptT ε (StateM σ) β} {s t : σ} {b : β} :
    Yields (act >>= f) s b t ↔ ∃ a u, Yields act s a u ∧ Yields (f a) u b t := by
  constructor
  · intro h
    cases ended : (act.run s : Except ε α × σ) with
    | mk r u =>
      cases r with
      | error e => cases (h.unique (Ends.bind_error ended)).1
      | ok a =>
        refine ⟨a, u, ended, ?_⟩
        obtain ⟨same, rfl⟩ := h.unique (Ends.bind_ok ended rfl)
        exact Prod.ext same.symm rfl
  · rintro ⟨a, u, first, next⟩
    exact Ends.bind_ok first next

theorem pure_iff {s t : σ} {a b : α} :
    Yields (pure a : ExceptT ε (StateM σ) α) s b t ↔ b = a ∧ t = s := by
  show (Except.ok a, s) = (Except.ok b, t) ↔ _
  simp [eq_comm]

theorem throw_iff {s t : σ} {e : ε} {b : α} :
    Yields (throw e : ExceptT ε (StateM σ) α) s b t ↔ False := by
  show (Except.error e, s) = (Except.ok b, t) ↔ _
  simp

theorem get_iff {s t a : σ} :
    Yields (get : ExceptT ε (StateM σ) σ) s a t ↔ a = s ∧ t = s := by
  show (Except.ok s, s) = (Except.ok a, t) ↔ _
  simp [eq_comm]

theorem modify_iff {f : σ → σ} {s t : σ} {u : PUnit} :
    Yields (modify f : ExceptT ε (StateM σ) PUnit) s u t ↔ t = f s := by
  show (Except.ok PUnit.unit, f s) = (Except.ok u, t) ↔ _
  simp [eq_comm]

theorem modifyGet_iff {f : σ → α × σ} {s t : σ} {a : α} :
    Yields (modifyGet f : ExceptT ε (StateM σ) α) s a t ↔ a = (f s).1 ∧ t = (f s).2 := by
  show (Except.ok (f s).1, (f s).2) = (Except.ok a, t) ↔ _
  simp [eq_comm]

theorem forM_nil_iff {γ : Type} {f : γ → ExceptT ε (StateM σ) PUnit} {s t : σ} {u : PUnit} :
    Yields (([] : List γ).forM f) s u t ↔ t = s := by
  change Yields (pure PUnit.unit : ExceptT ε (StateM σ) PUnit) s u t ↔ t = s
  rw [pure_iff]
  exact and_iff_right rfl

theorem forM_cons_iff {γ : Type} {f : γ → ExceptT ε (StateM σ) PUnit} {c : γ} {cs : List γ} {s t : σ}
    {u : PUnit} :
    Yields ((c :: cs).forM f) s u t ↔ ∃ x, Yields (f c) s u x ∧ Yields (cs.forM f) x u t := by
  change Yields (f c >>= fun _ => cs.forM f) s u t ↔ _
  rw [bind_iff]
  constructor
  · rintro ⟨_, x, first, rest⟩
    exact ⟨x, first, rest⟩
  · rintro ⟨x, first, rest⟩
    exact ⟨u, x, first, rest⟩

theorem forM_concat_iff {γ : Type} {f : γ → ExceptT ε (StateM σ) PUnit} {c : γ} {cs : List γ}
    {s t : σ} {u : PUnit} :
    Yields ((cs ++ [c]).forM f) s u t ↔ ∃ x, Yields (cs.forM f) s u x ∧ Yields (f c) x u t := by
  induction cs generalizing s with
  | nil =>
    rw [List.nil_append, forM_cons_iff]
    simp only [forM_nil_iff]
    constructor
    · rintro ⟨x, only, rfl⟩
      exact ⟨s, rfl, only⟩
    · rintro ⟨x, rfl, only⟩
      exact ⟨t, only, rfl⟩
  | cons d cs ih =>
    rw [List.cons_append, forM_cons_iff]
    simp only [ih, forM_cons_iff]
    constructor
    · rintro ⟨x, first, y, rest, last⟩
      exact ⟨y, ⟨x, first, rest⟩, last⟩
    · rintro ⟨y, ⟨x, first, rest⟩, last⟩
      exact ⟨x, first, y, rest, last⟩

theorem mapM_nil_iff {γ : Type} {f : γ → ExceptT ε (StateM σ) α} {s t : σ} {as : List α} :
    Yields (([] : List γ).mapM f) s as t ↔ as = [] ∧ t = s := by
  rw [List.mapM_nil, pure_iff]

theorem mapM_cons_iff {γ : Type} {f : γ → ExceptT ε (StateM σ) α} {c : γ} {cs : List γ} {s t : σ}
    {as : List α} :
    Yields ((c :: cs).mapM f) s as t ↔
      ∃ a bs x, Yields (f c) s a x ∧ Yields (cs.mapM f) x bs t ∧ as = a :: bs := by
  rw [List.mapM_cons]
  simp only [bind_iff, pure_iff]
  constructor
  · rintro ⟨a, x, first, bs, _, rest, rfl, rfl⟩
    exact ⟨a, bs, x, first, rest, rfl⟩
  · rintro ⟨a, bs, x, first, rest, rfl⟩
    exact ⟨a, x, first, bs, t, rest, rfl, rfl⟩

end Yields

end StackLisp
