import StackLisp.Proofs.Sound
import StackLisp.Proofs.Steady

/-!
Plays of plain values. Each scene has references of its own that it has yet to fill, from a number on and below
those of the scenes that it waits for; so the ones that wait find theirs as they left them.
-/

namespace StackLisp

/-- Plain values, and a steady scene for the references from a number on. -/
def Doing.Stands (σ : Store) (low : Nat) : Doing → Prop
  | .running s => s.Steady (σ.Unfilled low)
  | .calling callee args => callee.Serves .plain ∧ ∀ v ∈ args, v.Serves .plain
  | .returning v => v.Serves .plain
  | .unwinding f => f.Fair
  | .breaching _ | .straying => True

/-- What waits, with references of its own below a number, above those of the others. -/
inductive Queued (σ : Store) : Nat → List Waiting → Prop
  | nil (high : Nat) : Queued σ high []
  | resume {low high : Nat} {s : Scene} {waiting : List Waiting} (le : low ≤ high)
    (steady : ∀ v : Value, v.Serves .plain → (s.push v).Steady fun id => σ.Unfilled low id ∧ id < high)
    (rest : Queued σ low waiting) : Queued σ high (.resume s :: waiting)
  | guard {high : Nat} {handler : Value} {waiting : List Waiting} (plain : handler.Serves .plain)
    (rest : Queued σ high waiting) : Queued σ high (.guard handler :: waiting)

variable {σ τ : Store} {low high : Nat} {waiting : List Waiting}

theorem Queued.onward (h : Queued σ high waiting) (onward : σ.Onward high τ) : Queued τ high waiting := by
  induction h with
  | nil high => exact .nil high
  | @resume low high s waiting le steady _ ih =>
    refine .resume le (fun v plain => (steady v plain).imp fun id free => ⟨⟨free.1.1, ?_⟩, free.2⟩) (ih (onward.mono le))
    exact (onward.below id free.2).trans free.1.2
  | guard plain _ ih => exact .guard plain (ih onward)

theorem Fault.fair_of_spared {f : Fault} (bears : f.Bears (Value.Serves .plain)) (spared : f.concernsRefs = false) :
    f.Fair :=
  ⟨bears, fun concerns => nomatch concerns.symm.trans spared⟩

/-- What a handler is given for a fault is plain. -/
theorem Fault.Fair.payload {f : Fault} (h : f.Fair) : f.payload.Serves .plain := by
  cases f with
  | raised v => exact h.1 rfl
  | _ => exact .scalar rfl nofun

theorem spares_check (a : Arity) (n : Nat) : Spares (a.check n) := by
  unfold Arity.check
  split <;> first | exact trivial | exact rfl

namespace Play

/-- A play of plain values, each scene with references of its own. -/
structure Stands (p : Play) : Prop where
  store : p.store.Bears (Value.Serves .plain)
  queue : ∃ low, low ≤ p.store.refs.size ∧ p.doing.Stands p.store low ∧ Queued p.store low p.waiting

theorem Stands.follow (store : σ.Bears (Value.Serves .plain)) (le : low ≤ σ.refs.size) (waits : Queued σ low waiting)
    {t : Turn} (abides : t.Abides low σ Scene.Steady) : (Play.follow σ waiting t).Stands := by
  cases t with
  | go s τ =>
    obtain ⟨steady, bears, onward⟩ := abides
    exact ⟨bears, low, Nat.le_trans le onward.size, steady, waits.onward onward⟩
  | answer v => exact ⟨store, low, le, abides, waits⟩
  | call callee args s =>
    refine ⟨store, σ.refs.size, Nat.le_refl _, ⟨abides.1, abides.2.1⟩, .resume le (fun v plain => ?_) waits⟩
    exact (abides.2.2 v plain).imp fun id free => ⟨free, Store.unfilled_lt free⟩
  | leave callee args => exact ⟨store, low, le, abides, waits⟩
  | fault f => exact ⟨store, low, le, abides, waits⟩
  | breach b | stray => exact ⟨store, low, le, trivial, waits⟩

theorem Stands.reply (store : σ.Bears (Value.Serves .plain)) (le : low ≤ σ.refs.size) (waits : Queued σ low waiting)
    {r : Reply} (bears : r.Bears (Value.Serves .plain)) (spares : r.Spares) : (Play.reply σ waiting r).Stands := by
  cases r with
  | answer v => exact ⟨store, low, le, bears, waits⟩
  | fault f => exact ⟨store, low, le, Fault.fair_of_spared bears spares, waits⟩
  | call callee args => exact ⟨store, low, le, bears, waits⟩
  | guarded thunk handler => exact ⟨store, low, le, ⟨bears.1, fun _ => nofun⟩, .guard bears.2 waits⟩
  | noted line v => exact ⟨store, low, le, bears, waits⟩

theorem Stands.call (store : σ.Bears (Value.Serves .plain)) (le : low ≤ σ.refs.size) (waits : Queued σ low waiting)
    {callee : Value} {args : List Value} (called : callee.Serves .plain) (values : ∀ v ∈ args, v.Serves .plain) :
    (Play.call .plain σ waiting callee args).Stands := by
  unfold Play.call
  split
  next f refused =>
    have brings := (brings_callable (S := Value.Serves .plain) callee).bind fun a _ => brings_check a args.length
    have spares := callee.spares_callable.bind fun a => spares_check a args.length
    change Brings _ _ (callee.callable?.bind (·.check args.length)) at brings
    change Spares (callee.callable?.bind (·.check args.length)) at spares
    rw [refused] at brings spares
    exact ⟨store, low, le, Fault.fair_of_spared brings spares, waits⟩
  next accepted =>
    cases callee with
    | closure p captured => exact ⟨store, low, le, Scene.steady_enter called values, waits⟩
    | builtin b => exact .reply store le waits (Value.hereditary_plain.reply b values) (b.reply_spares args)
    | _ => exact ⟨store, low, le, Fault.fair_of_spared nofun rfl, waits⟩

/-- A play that stands keeps standing. -/
theorem Stands.step {p : Play} (h : p.Stands) : (Play.step .plain p).Stands := by
  obtain ⟨σ, doing, waiting⟩ := p
  obtain ⟨store, low, le, does, waits⟩ := h
  cases doing with
  | running s =>
    change (Play.run .plain σ waiting s).Stands
    unfold Play.run
    split
    next i here => exact .follow store le waits (does.turn store le here)
    next => exact ⟨store, low, le, trivial, waits⟩
  | calling callee args => exact .call store le waits does.1 does.2
  | returning v =>
    cases waits with
    | nil => exact ⟨store, low, le, does, .nil low⟩
    | @resume lower _ s waiting below steady rest =>
      exact ⟨store, lower, Nat.le_trans below le, (steady v does).imp fun id free => free.1, rest⟩
    | guard plain rest => exact ⟨store, low, le, does, rest⟩
  | unwinding f =>
    cases waits with
    | nil => exact ⟨store, low, le, does, .nil low⟩
    | @resume lower _ s waiting below steady rest => exact ⟨store, lower, Nat.le_trans below le, does, rest⟩
    | guard plain rest =>
      exact ⟨store, low, le, ⟨plain, fun v member => List.mem_singleton.mp member ▸ does.payload⟩, rest⟩
  | breaching b =>
    cases waits with
    | nil => exact ⟨store, low, le, trivial, .nil low⟩
    | @resume lower _ s waiting below steady rest => exact ⟨store, lower, Nat.le_trans below le, trivial, rest⟩
    | guard plain rest => exact ⟨store, low, le, trivial, rest⟩
  | straying => exact ⟨store, low, le, trivial, waits⟩

theorem Stands.iterate {p : Play} (h : p.Stands) (n : Nat) : ((Play.step .plain)^[n] p).Stands := by
  induction n generalizing p with
  | zero => exact h
  | succ n ih => exact ih h.step

end Play

end StackLisp
