import StackLisp.Proofs.Scene

/-!
Reports in the store are for the host. What an instruction comes to has nothing to do with them.
-/

namespace StackLisp

/-- The store without the reports made so far. -/
def Store.mute (s : Store) : Store :=
  { s with events := [] }

def Turn.mute : Turn → Turn
  | .go s σ => .go s σ.mute
  | t => t

namespace Store

variable {σ : Store}

theorem fillRef_mute (id : RefId) (v : Value) :
    σ.mute.fillRef id v = (σ.fillRef id v).map Store.mute := by
  unfold fillRef
  rw [show σ.mute.refs = σ.refs from rfl]
  split <;> rfl

theorem bind_mute (id : NamespaceId) (name : String) (v : Value) :
    σ.mute.bind id name v = (σ.bind id name v).map Store.mute := by
  unfold bind
  rw [show σ.mute.namespaces = σ.namespaces from rfl]
  split <;> rfl

theorem map_bind_mute {α : Type} (x : Except Fault α) (f : α → Except Fault Store) :
    (x.bind f).map mute = x.bind fun a => (f a).map mute := by
  cases x <;> rfl

theorem map_map_mute (x : Except Fault String) (f : String → Store) :
    (x.map f).map mute = x.map fun name => (f name).mute := by
  cases x <;> rfl

end Store

namespace Scene

variable {s : Scene} {σ : Store}

theorem mute_withNone (t : Turn) (taken : List Value) :
    (Turn.withNone t taken).mute = Turn.withNone t.mute taken := by
  cases taken <;> rfl

theorem mute_withOne (t : Value → Turn) (taken : List Value) :
    (Turn.withOne t taken).mute = Turn.withOne (fun v => (t v).mute) taken := by
  rcases taken with _ | ⟨v, _ | _⟩ <;> rfl

theorem mute_withTwo (t : Value → Value → Turn) (taken : List Value) :
    (Turn.withTwo t taken).mute = Turn.withTwo (fun v w => (t v w).mute) taken := by
  rcases taken with _ | ⟨v, _ | ⟨w, _ | _⟩⟩ <;> rfl

theorem mute_withFirst (t : Value → List Value → Turn) (taken : List Value) :
    (Turn.withFirst t taken).mute = Turn.withFirst (fun v vs => (t v vs).mute) taken := by
  cases taken <;> rfl

theorem mute_goTo (label : Nat) : (s.goTo σ label).mute = s.goTo σ.mute label := by
  unfold goTo
  split <;> rfl

theorem mute_fetch (found : Option Value) : (s.fetch σ found).mute = s.fetch σ.mute found := by
  cases found <;> rfl

theorem mute_load (slot : Nat) : (s.load σ slot).mute = s.load σ.mute slot := by
  unfold load
  split <;> rfl

theorem mute_put (slot : Nat) (v : Value) : (s.put σ slot v).mute = s.put σ.mute slot v := by
  unfold put
  split <;> rfl

theorem mute_giveResult (r : Except Fault Value) :
    (s.giveResult σ r).mute = s.giveResult σ.mute r := by
  cases r <;> rfl

theorem mute_makeClosure (captured : List Value) (v : Value) :
    (s.makeClosure σ captured v).mute = s.makeClosure σ.mute captured v := by
  cases v <;> rfl

theorem mute_popArgs : (s.popArgs σ).mute = s.popArgs σ.mute := by
  unfold popArgs
  split <;> rfl

theorem mute_keep (r : Except Fault Store) : (s.keep r).mute = s.keep (r.map Store.mute) := by
  cases r <;> rfl

theorem mute_unary (f : Value → Except Fault Value) (taken : List Value) :
    (Turn.withOne (fun v => s.giveResult σ (f v)) taken).mute =
      Turn.withOne (fun v => s.giveResult σ.mute (f v)) taken := by
  simp only [mute_withOne, mute_giveResult]

theorem mute_binary (f : Value → Value → Except Fault Value) (taken : List Value) :
    (Turn.withTwo (fun left right => s.giveResult σ (f left right)) taken).mute =
      Turn.withTwo (fun left right => s.giveResult σ.mute (f left right)) taken := by
  simp only [mute_withTwo, mute_giveResult]

theorem act_mute (i : Instruction) (taken : List Value) :
    (s.act σ i taken).mute = s.act σ.mute i taken := by
  obtain ⟨op, operand, small⟩ := i
  cases op with
  | label | noOp | ret | retNull | retTrue | retFalse | panic | nullLit | trueLit | falseLit | posInt
  | negInt | argLen | restArg | newRef | current | pop =>
    rcases taken with _ | ⟨v, _ | _⟩ <;> rfl
  | call0 | call1 | call | tailCall => cases taken <;> rfl
  | pushArgs => rfl
  | jump => exact (mute_withNone _ taken).trans (by rw [mute_goTo]; rfl)
  | condJump =>
    refine (mute_withOne _ taken).trans ?_
    have each : ∀ v : Value, (if v.holds then s.goTo σ operand else .go s σ).mute =
        if v.holds then s.goTo σ.mute operand else .go s σ.mute := by
      intro v
      split
      · exact mute_goTo operand
      · rfl
    simp only [each]
    rfl
  | const | arg | capture => exact (mute_withNone _ taken).trans (by rw [mute_fetch]; rfl)
  | load => exact (mute_withNone _ taken).trans (by rw [mute_load]; rfl)
  | store => exact (mute_withOne _ taken).trans (by simp only [mute_put]; rfl)
  | makeClosure => exact (mute_withFirst _ taken).trans (by simp only [mute_makeClosure]; rfl)
  | popArgs => exact (mute_withNone _ taken).trans (by rw [mute_popArgs]; rfl)
  | deref | resolve => exact mute_unary _ taken
  | bindRef =>
    refine (mute_withTwo _ taken).trans ?_
    simp only [mute_keep, Store.map_bind_mute, ← Store.fillRef_mute]
    rfl
  | bind =>
    refine (mute_withTwo _ taken).trans ?_
    simp only [mute_keep, Store.map_bind_mute, ← Store.bind_mute]
    rfl
  | declare | hide =>
    refine (mute_withOne _ taken).trans ?_
    simp only [mute_keep, Store.map_map_mute]
    rfl
  | neg | not | car | cdr | empty => exact mute_unary _ taken
  | add | sub | mul | div | mod | numEq | numLt | numLte | numGt | numGte | eq | cons =>
    exact mute_binary _ taken

end Scene

namespace Turn

theorem of_mute_go {t : Turn} {s : Scene} {σ : Store} (h : t.mute = (Turn.go s σ).mute) :
    ∃ τ, t = .go s τ ∧ τ.mute = σ.mute := by
  cases t with
  | go u τ =>
    obtain ⟨rfl, same⟩ := Turn.go.inj h
    exact ⟨τ, rfl, same⟩
  | _ => cases h

theorem of_mute {t u : Turn} (h : t.mute = u.mute) (other : ∀ s σ, u ≠ .go s σ) : t = u := by
  cases u with
  | go s σ => exact absurd rfl (other s σ)
  | _ => cases t <;> first | exact h | cases h

end Turn

/-- In stores that differ in their reports only, an instruction comes to the same. -/
theorem Scene.turn_mute {σ τ : Store} (same : σ.mute = τ.mute) (s : Scene) (i : Instruction) :
    (s.turn σ i).mute = (s.turn τ i).mute := by
  unfold turn
  rw [act_mute, act_mute, same]

end StackLisp
