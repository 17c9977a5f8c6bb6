import StackLisp.Chunk.Build
import StackLisp.Proofs.Shown

/-!
What holds of every procedure that is built: it is the outcome of a check, so its stack size and its
labels are those the check found.
-/

namespace StackLisp

/-- What the check of its own chunk found for a procedure. -/
structure Procedure.Verified (p : Procedure Value) (checked : Checked) : Prop where
  accepted : p.chunk.verify = .ok checked
  labels : p.labels = checked.labels
  stackSize : p.stackSize = checked.stackSize

/-- The procedure is what a build has made of some chunk. -/
def Procedure.Built (p : Procedure Value) : Prop :=
  ∃ (c : Chunk) (arity : Arity) (o : CompileOptions) (s t : Store), Yields (c.build arity o) s p t

namespace Build

theorem lift_iff {α : Type} {r : Except Rejection α} {s t : Store} {a : α} :
    Yields (Build.lift r) s a t ↔ r = .ok a ∧ t = s := by
  show (r, s) = (.ok a, t) ↔ _
  rw [Prod.mk.injEq, eq_comm (a := s)]

theorem report_iff {e : Event} {s t : Store} {u : Unit} :
    Yields (Build.report e) s u t ↔ t = s.report e :=
  Yields.modify_iff

end Build

/-- The second store is the first with reports added at most. -/
structure Store.Tells (s t : Store) : Prop where
  namespaces : t.namespaces = s.namespaces
  refs : t.refs = s.refs
  built : t.built = s.built

namespace Store.Tells

variable {s t u : Store}

theorem refl (s : Store) : s.Tells s :=
  ⟨rfl, rfl, rfl⟩

theorem report (s : Store) (e : Event) : s.Tells (s.report e) :=
  ⟨rfl, rfl, rfl⟩

theorem trans (h : s.Tells t) (g : t.Tells u) : s.Tells u :=
  ⟨g.namespaces.trans h.namespaces, g.refs.trans h.refs, g.built.trans h.built⟩

end Store.Tells

namespace Chunk

theorem inlineCalls_tells {c : Chunk} {code : List Instruction} {budget : Nat} {s t : Store}
    {r : List Instruction × Chunk} (h : Yields (inlineCalls budget c code) s r t) : s.Tells t := by
  fun_induction inlineCalls budget c code generalizing s r t with
  | case1 =>
    obtain ⟨-, rfl⟩ := Yields.pure_iff.mp h
    exact .refl t
  | case2 =>
    obtain ⟨-, rfl⟩ := Yields.pure_iff.mp h
    exact .refl t
  | case3 =>
    rename_i ih
    obtain ⟨_, u, rest, kept⟩ := Yields.bind_iff.mp h
    obtain ⟨-, rfl⟩ := Yields.pure_iff.mp kept
    exact ih rest
  | case4 =>
    rename_i ih
    obtain ⟨_, u, rest, kept⟩ := Yields.bind_iff.mp h
    obtain ⟨-, rfl⟩ := Yields.pure_iff.mp kept
    exact ih rest
  | case5 =>
    rename_i keep _ _ _ _ ihKeep ihRest
    have passes : ∀ {s : Store}, Yields keep s r t → s.Tells t := by
      intro s h
      obtain ⟨_, u, rest, kept⟩ := Yields.bind_iff.mp h
      obtain ⟨-, rfl⟩ := Yields.pure_iff.mp kept
      exact ihKeep rest
    obtain ⟨v, _, fetched, choosing⟩ := Yields.bind_iff.mp h
    obtain ⟨-, rfl⟩ := Build.lift_iff.mp fetched
    split at choosing
    · split at choosing
      · obtain ⟨_, u, reported, kept⟩ := Yields.bind_iff.mp choosing
        obtain rfl := Build.report_iff.mp reported
        exact (Store.Tells.report _ _).trans (passes kept)
      · obtain ⟨_, u, spliced, inlined⟩ := Yields.bind_iff.mp choosing
        obtain ⟨-, rfl⟩ := Build.lift_iff.mp spliced
        obtain ⟨_, v, reported, following⟩ := Yields.bind_iff.mp inlined
        obtain rfl := Build.report_iff.mp reported
        obtain ⟨_, x, rest, joined⟩ := Yields.bind_iff.mp following
        obtain ⟨-, rfl⟩ := Yields.pure_iff.mp joined
        exact (Store.Tells.report _ _).trans (ihRest _ rest)
    · exact passes choosing

theorem optimize_tells {c d : Chunk} {o : CompileOptions} {s t : Store}
    (h : Yields (c.optimize o) s d t) : s.Tells t := by
  unfold optimize at h
  dsimp only at h
  split at h
  · obtain ⟨_, u, inlined, kept⟩ := Yields.bind_iff.mp h
    obtain ⟨-, rfl⟩ := Yields.pure_iff.mp kept
    exact inlineCalls_tells inlined
  · obtain ⟨-, rfl⟩ := Yields.pure_iff.mp h
    exact .refl t

theorem build_yields {c : Chunk} {arity : Arity} {o : CompileOptions} {s t : Store}
    {p : Procedure Value} (h : Yields (c.build arity o) s p t) :
    ∃ (d : Chunk) (u : Store) (checked : Checked), Yields (c.optimize o) s d u ∧
      d.verify = .ok checked ∧ p.chunk = d ∧ p.labels = checked.labels ∧
      p.stackSize = checked.stackSize ∧ p.serial = u.built ∧ t.built = u.built + 1 ∧
      p.arity = arity ∧ p.inlinable = isInlinable o d.code ∧ t.namespaces = u.namespaces ∧
      t.refs = u.refs := by
  obtain ⟨d, u, optimized, checking⟩ := Yields.bind_iff.mp h
  obtain ⟨checked, v, lifted, reporting⟩ := Yields.bind_iff.mp checking
  obtain ⟨accepted, same⟩ := Build.lift_iff.mp lifted
  obtain ⟨_, w, reported, counting⟩ := Yields.bind_iff.mp reporting
  have event := Yields.modify_iff.mp reported
  obtain ⟨serial, x, counted, freezing⟩ := Yields.bind_iff.mp counting
  obtain ⟨numbered, next⟩ := Yields.modifyGet_iff.mp counted
  obtain ⟨frozen, last⟩ := Yields.pure_iff.mp freezing
  subst same event numbered next frozen last
  exact ⟨d, _, checked, optimized, mapError_eq_ok.mp accepted, rfl, rfl, rfl, rfl, rfl, rfl, rfl, rfl,
    rfl⟩

theorem build_namespaces {c : Chunk} {arity : Arity} {o : CompileOptions} {s t : Store}
    {p : Procedure Value} (h : Yields (c.build arity o) s p t) : t.namespaces = s.namespaces := by
  obtain ⟨d, u, checked, optimized, -, -, -, -, -, -, -, -, namespaces, -⟩ := build_yields h
  exact namespaces.trans (optimize_tells optimized).namespaces

end Chunk

namespace Procedure

variable {p : Procedure Value}

theorem Built.verified (h : p.Built) : ∃ checked, p.Verified checked := by
  obtain ⟨c, arity, o, s, t, built⟩ := h
  obtain ⟨d, _, checked, _, accepted, rfl, labels, stackSize, _⟩ := Chunk.build_yields built
  exact ⟨checked, accepted, labels, stackSize⟩

theorem Verified.covers {checked : Checked} (h : p.Verified checked) : checked.Covers p.code :=
  Chunk.verify_covers h.accepted

theorem Verified.anchored {checked : Checked} (h : p.Verified checked) : p.Anchored := by
  intro i member jumps
  rw [h.labels]
  exact h.covers.anchored member jumps

end Procedure

end StackLisp
