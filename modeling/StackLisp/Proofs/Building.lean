import StackLisp.Proofs.Inlining

/-!
What is built of a chunk on its chart. The passes keep the chart, the check accepts the code, and the
procedure joins the library.
-/

namespace StackLisp

variable {known : Procedure Value → Prop} {c : Chunk} {least count : Nat} {arity : Arity}
  {o : CompileOptions} {s t : Store} {p : Procedure Value}

/-- Known procedures and one more. -/
def With (known : Procedure Value → Prop) (p : Procedure Value) : Procedure Value → Prop :=
  fun q => known q ∨ q = p

/-- A procedure that may join a library. -/
structure Joins (known : Procedure Value → Prop) (p : Procedure Value) : Prop where
  verified : ∃ checked, p.Verified checked
  safe : p.Safe
  constants : ∀ v ∈ p.constants, v.Safe known
  fresh : ∀ {q : Procedure Value}, known q → q.serial ≠ p.serial

theorem Library.join (library : Library known) (joins : Joins known p) : Library (With known p) where
  verified := by
    rintro q (old | rfl)
    · exact library.verified old
    · exact joins.verified
  identity := by
    rintro q r (old | rfl) (other | rfl) same
    · exact library.identity old other same
    · exact absurd same (joins.fresh old)
    · exact absurd same.symm (joins.fresh other)
    · rfl
  safe := by
    rintro q (old | rfl)
    · exact library.safe old
    · exact joins.safe
  constants := by
    rintro q (old | rfl) v member
    · exact (library.constants old v member).mono .inl
    · exact (joins.constants v member).mono .inl

/-- What a chunk is built into. -/
structure Built (known : Procedure Value → Prop) (least count : Nat) (arity : Arity) (s : Store)
    (p : Procedure Value) (t : Store) : Prop where
  mapped : p.chunk.Mapped least
  captures : p.Captures count
  arity : p.arity = arity
  constants : ∀ v ∈ p.constants, v.Safe known
  verified : ∃ checked, p.Verified checked
  inlinable : p.inlinable → ∀ i ∈ p.code, i.op ≠ .pushArgs
  serial : p.serial = s.built
  built : t.built = s.built + 1
  namespaces : t.namespaces = s.namespaces
  refs : t.refs = s.refs

namespace Chunk

theorem granted_optimize (library : Library known) (mapped : c.Mapped least)
    (constants : ∀ v ∈ c.constants, v.Safe known)
    (captures : ∀ i ∈ c.code, i.op = .capture → i.operand < count) (s : Store) :
    Grants (c.optimize o) s fun d _ => d.Mapped least ∧ (∀ v ∈ d.constants, v.Safe known) ∧
      ∀ i ∈ d.code, i.op = .capture → i.operand < count := by
  have short := mapped.shorten
  obtain ⟨source, shortens⟩ := shortens_shorten mapped.distinct
  have captures' : ∀ i ∈ shorten c.code, i.op = .capture → i.operand < count := by
    intro i member op
    rcases shortens.mem_or member with old | plain | tail
    · exact captures i old op
    · rw [op] at plain
      cases plain
    · cases op.symm.trans tail
  unfold optimize
  dsimp only
  split
  · have indices : ∀ i ∈ shorten c.code, i.op = .const → i.operand < c.constants.length := by
      intro i member op
      have fits := short.fits i member
      unfold Fits at fits
      rwa [op] at fits
    have inlines : Grants (inlineCalls o.maxInlinedCalls { c with code := shorten c.code } (shorten c.code)) s
        fun result _ => Inlines (fun _ callee => callee.value.Safe known) { c with code := shorten c.code }
          (shorten c.code) result.1 result.2 := by
      refine granted_inlineCalls (fun safe i => ?_) ?_ (fun _ _ found _ _ => ?_) s
      · exact constantFor?_isSome library safe
      · exact indices
      · exact constants _ (List.mem_of_getElem? found)
    refine inlines.bind fun result t _ inlines => .pure ?_
    have safe : ∀ v ∈ result.2.constants, v.Safe known := inlines.keeps (fun safe => constantFor?_safe library safe) constants
    refine ⟨inlines.mapped library short, safe, fun i member op => ?_⟩
    exact captures' i ((inlines.grows (formed_of_safe library)).captures i member op) op
  · exact .pure ⟨short, constants, captures'⟩

/-- A chunk on its chart is built, unless an operand is too large. -/
theorem granted_build (library : Library known) (mapped : c.Mapped least)
    (constants : ∀ v ∈ c.constants, v.Safe known)
    (captures : ∀ i ∈ c.code, i.op = .capture → i.operand < count) (s : Store) :
    Grants (c.build arity o) s fun p t => Built known least count arity s p t := by
  refine Grants.mono (P := fun p _ => p.chunk.Mapped least ∧ (∀ v ∈ p.constants, v.Safe known) ∧
    p.Captures count) ?_ ?_
  · unfold build
    refine (granted_optimize library mapped constants captures s).bind fun d t _ made => ?_
    obtain ⟨mapped, constants, captures⟩ := made
    obtain ⟨checked, accepted⟩ := mapped.verify
    have checks : Granted (d.verify.mapError .error) fun _ : Checked => True := by
      rw [accepted]
      exact trivial
    refine (Build.grants_lift checks t).bind fun checked u _ _ => ?_
    refine (Build.grants_report _ u).bind fun _ u _ _ => ?_
    refine Grants.bind (P := fun _ _ => True)
      (.of_yields (Yields.modifyGet_iff.mpr ⟨rfl, rfl⟩) trivial ⟨rfl, rfl, Nat.le_succ _⟩) fun serial u _ _ => ?_
    exact .pure ⟨mapped, constants, captures⟩
  · rintro p t yields ⟨mapped, constants, captures⟩
    obtain ⟨d, u, checked, optimized, accepted, chunk, labels, stackSize, serial, built, arity, inlinable,
      namespaces, refs⟩ := build_yields yields
    have tells := optimize_tells optimized
    refine ⟨mapped, captures, arity, constants, ⟨checked, chunk ▸ accepted, labels, stackSize⟩, ?_, ?_, ?_,
      namespaces.trans tells.namespaces, refs.trans tells.refs⟩
    · intro copied i member op
      rw [inlinable] at copied
      unfold isInlinable at copied
      have code : p.code = d.code := congrArg Chunk.code chunk
      rw [Bool.and_eq_true, Bool.not_eq_true', List.any_eq_false] at copied
      exact copied.2 i (code ▸ member) (by rw [op]; rfl)
    · rw [serial, tells.built]
    · rw [built, tells.built]

end Chunk

theorem Built.joins (h : Built known least count arity s p t)
    (accepts : ∀ n, arity.accepts n → least ≤ n)
    (numbered : ∀ {q : Procedure Value}, known q → q.serial < s.built) : Joins known p where
  verified := h.verified
  safe := ⟨⟨least, h.mapped, fun n accepted => accepts n (h.arity ▸ accepted)⟩, h.inlinable⟩
  constants := h.constants
  fresh {q} old same := by
    have before := numbered old
    rw [same, h.serial] at before
    exact Nat.lt_irrefl _ before

/-- A store of safe values, with a library of what was built. -/
structure Store.Keeps (known : Procedure Value → Prop) (σ : Store) : Prop where
  library : Library known
  numbered : ∀ {p : Procedure Value}, known p → p.serial < σ.built
  bears : σ.Bears (Value.Safe known)

theorem Built.keeps (h : Built known least count arity s p t) (keeps : s.Keeps known)
    (accepts : ∀ n, arity.accepts n → least ≤ n) : t.Keeps (With known p) where
  library := keeps.library.join (h.joins accepts keeps.numbered)
  numbered := by
    rintro q (old | rfl)
    · rw [h.built]
      exact Nat.lt_succ_of_lt (keeps.numbered old)
    · rw [h.serial, h.built]
      exact Nat.lt_succ_self _
  bears :=
    have kept : s.Bears (Value.Safe (With known p)) := keeps.bears.mono fun safe => safe.mono .inl
    ⟨h.namespaces ▸ kept.namespaces, h.refs ▸ kept.refs⟩

end StackLisp
