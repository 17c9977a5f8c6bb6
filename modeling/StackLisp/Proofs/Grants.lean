import StackLisp.Chunk.Build
import StackLisp.Encoder
import StackLisp.Proofs.Runs

/-!
Work that can be rejected only for what it is given. Such a rejection names a flaw of the form, or an
operand that is too large; it is neither an error of the check nor a breach. Even then the store is as
before but for what was built.
-/

namespace StackLisp

/-- The errors that only the check of a chunk reports. -/
def CompileError.isOfCheck : CompileError → Bool
  | .unanchoredLabel _ | .duplicateLabel _ | .stackImbalance _ _ _ | .stackUnderflow _
  | .missingReturn => true
  | _ => false

def Rejection.Ordinary : Rejection → Prop
  | .error e => e.isOfCheck = false
  | .breach _ => False

/-- The result has the property, unless it is an ordinary rejection. -/
def Granted {α : Type} (r : Except Rejection α) (P : α → Prop) : Prop :=
  match r with
  | .ok a => P a
  | .error e => e.Ordinary

/-- A store in which no more was done than to build. -/
structure Store.Grown (s t : Store) : Prop where
  namespaces : t.namespaces = s.namespaces
  refs : t.refs = s.refs
  built : s.built ≤ t.built

theorem Store.Grown.refl (s : Store) : s.Grown s :=
  ⟨rfl, rfl, Nat.le_refl _⟩

theorem Store.Grown.trans {s t u : Store} (h : s.Grown t) (g : t.Grown u) : s.Grown u :=
  ⟨g.namespaces.trans h.namespaces, g.refs.trans h.refs, Nat.le_trans h.built g.built⟩

/-- A state with a store. -/
class Stored (σ : Type) where
  store : σ → Store

instance : Stored Store :=
  ⟨id⟩

instance : Stored Workshop :=
  ⟨Workshop.store⟩

/-- Steps that end with the property, unless in an ordinary rejection. -/
def Grants {σ α : Type} [Stored σ] (act : ExceptT Rejection (StateM σ) α) (s : σ) (P : α → σ → Prop) :
    Prop :=
  ∀ (r : Except Rejection α) (t : σ), Ends act s r t →
    (Stored.store s).Grown (Stored.store t) ∧ Granted r (P · t)

section

variable {σ α β : Type} [Stored σ] {P : α → Prop} {Q : β → Prop}

theorem Granted.mono {r : Except Rejection α} {P' : α → Prop} (h : Granted r P)
    (mono : ∀ a, r = .ok a → P a → P' a) : Granted r P' := by
  cases r with
  | error e => exact h
  | ok a => exact mono a rfl h

theorem Granted.bind {r : Except Rejection α} {f : α → Except Rejection β} (h : Granted r P)
    (next : ∀ a, P a → Granted (f a) Q) : Granted (r >>= f) Q := by
  cases r with
  | error e => exact h
  | ok a => exact next a h

theorem granted_withOperand (op : Opcode) (operand : Nat) :
    Granted (op.withOperand operand) fun i => ∃ h : operand ≤ maxOperand, i = ⟨op, operand, h⟩ := by
  unfold Opcode.withOperand Opcode.with
  split
  next h => exact ⟨h, rfl⟩
  next => exact rfl

theorem Chunk.granted_fetch {xs : List α} {n : Nat} (inside : n < xs.length) :
    Granted (fetch xs n) fun a => xs[n]? = some a := by
  unfold fetch
  split
  next a found => exact found
  next missing => exact absurd (List.getElem?_eq_none_iff.mp missing) (Nat.not_le.mpr inside)

namespace Grants

variable {act : ExceptT Rejection (StateM σ) α} {s : σ} {P : α → σ → Prop} {Q : β → σ → Prop}

theorem ok (h : Grants act s P) {a : α} {t : σ} (yields : Yields act s a t) : P a t :=
  (h _ _ yields).2

theorem mono (h : Grants act s P) {P' : α → σ → Prop}
    (mono : ∀ a t, Yields act s a t → P a t → P' a t) : Grants act s P' := by
  intro r t ended
  obtain ⟨grown, granted⟩ := h r t ended
  refine ⟨grown, granted.mono fun a same => mono a t ?_⟩
  rw [same] at ended
  exact ended

theorem bind {f : α → ExceptT Rejection (StateM σ) β} (h : Grants act s P)
    (next : ∀ a t, Yields act s a t → P a t → Grants (f a) t Q) : Grants (act >>= f) s Q := by
  intro r u ended
  cases first : (act.run s : Except Rejection α × σ) with
  | mk q t =>
    cases q with
    | error e =>
      obtain ⟨rfl, rfl⟩ := ended.unique (Ends.bind_error first)
      exact h _ _ first
    | ok a =>
      cases second : ((f a).run t : Except Rejection β × σ) with
      | mk q v =>
        obtain ⟨rfl, rfl⟩ := ended.unique (Ends.bind_ok first second)
        obtain ⟨grown, granted⟩ := h _ _ first
        obtain ⟨more, last⟩ := next a t first granted _ _ second
        exact ⟨grown.trans more, last⟩

theorem of_yields {a : α} {t : σ} (yields : Yields act s a t) (h : P a t)
    (grown : (Stored.store s).Grown (Stored.store t)) : Grants act s P := by
  intro r u ended
  obtain ⟨rfl, rfl⟩ := ended.unique yields
  exact ⟨grown, h⟩

theorem pure {a : α} (h : P a s) : Grants (Pure.pure a) s P :=
  of_yields (Yields.pure_iff.mpr ⟨rfl, rfl⟩) h (.refl _)

end Grants

theorem Build.grants_report (e : Event) (s : Store) :
    Grants (Build.report e) s fun _ t => t = s.report e :=
  Grants.of_yields (a := ()) (t := s.report e) (Yields.modify_iff.mpr rfl) rfl ⟨rfl, rfl, Nat.le_refl _⟩

theorem Build.grants_lift {r : Except Rejection α} {P : α → Prop} (h : Granted r P) (s : Store) :
    Grants (Build.lift r) s fun a t => P a ∧ t = s := by
  intro q t ended
  obtain ⟨rfl, rfl⟩ : r = q ∧ s = t := Prod.mk.inj ended
  exact ⟨⟨rfl, rfl, Nat.le_refl _⟩, h.mono fun a _ holds => ⟨holds, rfl⟩⟩

end

end StackLisp
