import StackLisp.Proofs.Parallel
import StackLisp.Proofs.Roles
import StackLisp.Proofs.Sparing

/-!
Scenes in accord with what is known of their references. An instruction that is allowed where the scene is
finds a reference where it looks for one, and what is known after it is in accord with the scene that it
leaves. References that are not filled yet are in one place each, and so stay unfilled until it is their turn.
-/

namespace StackLisp

open Whereabouts

namespace Content

/-- A value is as known, beside these local slots. -/
def Holds (c : Content) (slot? : Nat → Option Value) (v : Value) : Prop :=
  match c with
  | .any | .ready => v.HasRole
  | .plain => v.Serves .plain
  | .reference | .pending => v.Serves .reference
  | .own slot => v.Serves .reference ∧ slot? slot = some v

variable {c d : Content} {slot? : Nat → Option Value} {v : Value}

theorem Holds.role (h : c.Holds slot? v) : v.HasRole := by
  cases c with
  | any | ready => exact h
  | plain | reference | pending => exact ⟨_, h⟩
  | own slot => exact ⟨_, h.1⟩

theorem Holds.le (h : c.Holds slot? v) (le : c ≤ d) : d.Holds slot? v := by
  rcases le with rfl | rfl
  · exact h.role
  · exact h

/-- What suits a captured name serves as it. -/
theorem Holds.serves (h : c.Holds slot? v) {b : Bool} (suits : c.Suits b) : v.Serves (.ofCaptured b) := by
  cases b with
  | true =>
    rcases suits with rfl | ⟨slot, rfl⟩
    · exact h
    · exact h.1
  | false =>
    obtain rfl : c = .plain := suits
    exact h

theorem holds_ofConstant (role : v.HasRole) : (ofConstant (some v)).Holds slot? v := by
  obtain ⟨r, serves⟩ := role
  cases serves with
  | reference id => exact .reference id
  | template serves role formed chart constants each =>
    exact ⟨_, .template serves role formed chart constants each⟩
  | @scalar _ scalar other =>
    have plain : v.Serves .plain := .scalar scalar other
    cases v with
    | ref id => exact absurd rfl (other id)
    | procedure p => cases scalar
    | _ => exact plain
  | pair first rest => exact .pair first rest
  | vector each => exact .vector each
  | builtin operates => exact .builtin operates
  | closure body each => exact .closure body each

theorem Holds.loaded {none? : Nat → Option Value} {slot : Nat} (h : c.Holds none? v) (there : slot? slot = some v) :
    (c.loaded slot).Holds slot? v := by
  cases c with
  | plain | reference => exact h
  | pending => exact ⟨h, there⟩
  | any | ready => exact h
  | own other => exact ⟨_, h.1⟩

end Content

/-- A place of a scene that holds a value: an operand, counted from the top, or a local slot. -/
inductive Place where
  | top (j : Nat)
  | slot (k : Nat)

/-- The place once another operand is on top. -/
def Place.under : Place → Place
  | top j => top (j + 1)
  | slot k => slot k

theorem Place.eq_top_or_under (p : Place) : p = top 0 ∨ ∃ q, p = under q := by
  match p with
  | top 0 => exact .inl rfl
  | top (j + 1) => exact .inr ⟨top j, rfl⟩
  | slot k => exact .inr ⟨slot k, rfl⟩

def Whereabouts.at (X : Whereabouts) : Place → Content
  | .top j => X.tops j
  | .slot k => X.slots k

def Scene.at? (s : Scene) : Place → Option Value
  | .top j => s.stack[j]?
  | .slot k => s.slot? k

/-- What is known of a scene is so. Its pending references are of a certain kind, and each is in one place. -/
structure Scene.Accords (mine : RefId → Prop) (s : Scene) (X : Whereabouts) : Prop where
  tops : ∀ {j : Nat} {v : Value}, s.stack[j]? = some v → (X.tops j).Holds s.slot? v
  /-- No slot is known by another. -/
  slots : ∀ {k : Nat} {v : Value}, s.slot? k = some v → (X.slots k).Holds (fun _ => none) v
  ready : ∀ {j : Nat} {v : Value}, s.stack[j]? = some v → X.tops j = .ready → ∃ needs, v.Serves (.template needs) ∧
    ∀ {k : Nat} {w : Value}, s.stack[j + 1 + k]? = some w → w.Serves (.ofCaptured (needs k))
  mine : ∀ {p : Place} {id : RefId}, X.at p = .pending → s.at? p = some (.ref id) → mine id
  apart : ∀ {p q : Place} {id : RefId}, X.at p = .pending → X.at q = .pending → s.at? p = some (.ref id) →
    s.at? q = some (.ref id) → p = q

namespace Scene

variable {s t : Scene} {X Y : Whereabouts} {mine other : RefId → Prop} {c : Content} {v : Value} {id : RefId}
  {slot : Nat}

theorem Accords.imp (h : s.Accords mine X) (wider : ∀ id, mine id → other id) : s.Accords other X :=
  ⟨h.tops, h.slots, h.ready, fun pending there => wider _ (h.mine pending there), h.apart⟩

theorem Accords.congr (h : s.Accords mine X) (stack : t.stack = s.stack) (slots : t.slot? = s.slot?) :
    t.Accords mine X := by
  have same : t.at? = s.at? := by
    funext p
    cases p with
    | top j => exact congrArg (·[j]?) stack
    | slot k => exact congrFun slots k
  refine ⟨fun there => slots ▸ h.tops (stack ▸ there), fun there => h.slots (slots ▸ there), fun there => ?_,
    fun pending there => h.mine pending (same ▸ there),
    fun pending pending' there there' => h.apart pending pending' (same ▸ there) (same ▸ there')⟩
  rw [stack] at there ⊢
  exact h.ready there

theorem at_le (h : X ≤ Y) (p : Place) : X.at p ≤ Y.at p := by
  cases p with
  | top j => exact h.1 j
  | slot k => exact h.2 k

/-- Something that is known may be given up. -/
theorem Accords.le (h : s.Accords mine X) (le : X ≤ Y) : s.Accords mine Y where
  tops there := (h.tops there).le (le.1 _)
  slots there := (h.slots there).le (le.2 _)
  ready {j _} there ready := h.ready there ((Content.eq_of_le (le.1 j) (ready ▸ nofun)).trans ready)
  mine pending there := h.mine ((Content.eq_of_le (at_le le _) (pending ▸ nofun)).trans pending) there
  apart pending pending' there there' := h.apart ((Content.eq_of_le (at_le le _) (pending ▸ nofun)).trans pending)
    ((Content.eq_of_le (at_le le _) (pending' ▸ nofun)).trans pending') there there'

@[simp] theorem at_push_top (X : Whereabouts) (c : Content) : (X.push c).at (.top 0) = c := rfl

@[simp] theorem at_push_under (X : Whereabouts) (c : Content) (p : Place) : (X.push c).at p.under = X.at p := by
  cases p <;> rfl

@[simp] theorem at?_push_top (s : Scene) (v : Value) : (s.push v).at? (.top 0) = some v := rfl

@[simp] theorem at?_push_under (s : Scene) (v : Value) (p : Place) : (s.push v).at? p.under = s.at? p := by
  cases p <;> rfl

theorem Accords.push (h : s.Accords mine X) (value : c.Holds s.slot? v)
    (template : c = .ready → ∃ needs, v.Serves (.template needs) ∧
      ∀ {k : Nat} {w : Value}, s.stack[k]? = some w → w.Serves (.ofCaptured (needs k)))
    (pending : c = .pending → ∀ id, v = .ref id → mine id ∧ ∀ p, X.at p = .pending → s.at? p ≠ some v) :
    (s.push v).Accords mine (X.push c) where
  tops {j w} there := by
    cases j with
    | zero => exact Option.some.inj there ▸ value
    | succ j => exact h.tops (j := j) there
  slots there := h.slots there
  ready {j w} there ready := by
    cases j with
    | zero =>
      obtain rfl : v = w := Option.some.inj there
      obtain ⟨needs, serves, rest⟩ := template ready
      refine ⟨needs, serves, fun {k w} below => rest (k := k) ?_⟩
      rw [Nat.add_comm] at below
      exact below
    | succ j =>
      obtain ⟨needs, serves, rest⟩ := h.ready there ready
      refine ⟨needs, serves, fun {k w} below => rest (k := k) ?_⟩
      rw [Nat.add_right_comm (j + 1) 1 k] at below
      exact below
  mine {p id} waits there := by
    rcases p.eq_top_or_under with rfl | ⟨p, rfl⟩
    · exact (pending waits id (Option.some.inj there)).1
    · rw [at?_push_under] at there
      rw [at_push_under] at waits
      exact h.mine waits there
  apart {p q id} waits waits' there there' := by
    rcases p.eq_top_or_under with rfl | ⟨p, rfl⟩ <;> rcases q.eq_top_or_under with rfl | ⟨q, rfl⟩
    · rfl
    · rw [at?_push_under] at there'
      rw [at_push_under] at waits'
      obtain rfl : v = .ref id := Option.some.inj there
      exact absurd there' ((pending waits id rfl).2 q waits')
    · rw [at?_push_under] at there
      rw [at_push_under] at waits
      obtain rfl : v = .ref id := Option.some.inj there'
      exact absurd there ((pending waits' id rfl).2 p waits)
    · rw [at?_push_under] at there there'
      rw [at_push_under] at waits waits'
      rw [h.apart waits waits' there there']

theorem Accords.pushKnown (h : s.Accords mine X) (value : c.Holds s.slot? v) (known : c ≠ .ready ∧ c ≠ .pending) :
    (s.push v).Accords mine (X.push c) :=
  h.push value (fun ready => absurd ready known.1) fun pending => absurd pending known.2

theorem accords_plain {slots : Nat → Content} (stack : ∀ v ∈ t.stack, v.Serves .plain)
    (kept : ∀ {k : Nat} {v : Value}, t.slot? k = some v → (slots k).Holds (fun _ => none) v)
    (own : ∀ {k : Nat} {id : RefId}, slots k = .pending → t.slot? k = some (.ref id) → mine id)
    (apart : ∀ {k l : Nat} {id : RefId}, slots k = .pending → slots l = .pending → t.slot? k = some (.ref id) →
      t.slot? l = some (.ref id) → k = l) : t.Accords mine { slots } where
  tops there := stack _ (List.mem_of_getElem? there)
  slots := kept
  ready _ := nofun
  mine {p id} pending there := by
    cases p with
    | top j => cases pending
    | slot k => exact own pending there
  apart {p q id} pending pending' there there' := by
    match p, q with
    | .top j, _ => cases pending
    | .slot k, .top j => cases pending'
    | .slot k, .slot l => exact congrArg Place.slot (apart pending pending' there there')

theorem Accords.slot_inj (h : s.Accords mine X) {k l : Nat} (pending : X.slots k = .pending) (pending' : X.slots l = .pending)
    (there : s.slot? k = some (.ref id)) (there' : s.slot? l = some (.ref id)) : k = l :=
  Place.slot.inj (h.apart (p := .slot k) (q := .slot l) pending pending' there there')

theorem Accords.bare (h : s.Accords mine X) (slots : t.slot? = s.slot?) (stack : ∀ v ∈ t.stack, v.Serves .plain) :
    t.Accords mine X.bare := by
  refine accords_plain stack ?_ ?_ ?_ <;> rw [slots]
  · exact h.slots
  · exact fun pending => h.mine (p := .slot _) pending
  · exact h.slot_inj

theorem Accords.put (h : s.Accords mine X) (top : s.stack[0]? = some v)
    (which : X.tops 0 = .plain ∨ X.tops 0 = .pending)
    (slots : ∀ k, t.slot? k = if k = slot then some v else s.slot? k)
    (stack : ∀ v ∈ t.stack, v.Serves .plain) : t.Accords mine (X.put slot (X.tops 0)) := by
  have value := h.tops top
  have elsewhere {k : Nat} {id : RefId} (waits : X.tops 0 = .pending) (waits' : X.slots k = .pending)
      (there : s.slot? k = some (.ref id)) : v ≠ .ref id := by
    rintro rfl
    cases h.apart (p := .top 0) (q := .slot k) waits waits' top there
  refine accords_plain stack ?_ ?_ ?_
  · intro k w there
    rw [slots] at there
    split
    next same =>
      rw [if_pos same] at there
      obtain rfl := Option.some.inj there
      rcases which with known | known <;>
      · rw [known] at value ⊢
        exact value
    next other =>
      rw [if_neg other] at there
      exact h.slots there
  · intro k id pending there
    rw [slots] at there
    split at pending
    next same =>
      rw [if_pos same] at there
      exact h.mine (p := .top 0) pending (Option.some.inj there ▸ top)
    next other =>
      rw [if_neg other] at there
      exact h.mine (p := .slot k) pending there
  · intro k l id pending pending' there there'
    rw [slots] at there there'
    split at pending <;> split at pending'
    next same same' => exact same.trans same'.symm
    next same other =>
      rw [if_pos same] at there
      rw [if_neg other] at there'
      exact absurd (Option.some.inj there) (elsewhere pending pending' there')
    next other same =>
      rw [if_neg other] at there
      rw [if_pos same] at there'
      exact absurd (Option.some.inj there') (elsewhere pending' pending there)
    next other other' =>
      rw [if_neg other] at there
      rw [if_neg other'] at there'
      exact h.slot_inj pending pending' there there'

theorem Accords.fill (h : s.Accords mine X) (pending : X.slots slot = .pending) (there : s.slot? slot = some (.ref id))
    (slots : t.slot? = s.slot?) (stack : ∀ v ∈ t.stack, v.Serves .plain) :
    t.Accords (fun other => mine other ∧ other ≠ id) (X.put slot .reference) := by
  have other {k : Nat} (waits : (X.put slot .reference).slots k = .pending) : k ≠ slot ∧ X.slots k = .pending := by
    unfold Whereabouts.put at waits
    dsimp only at waits
    split at waits
    · cases waits
    next apart => exact ⟨apart, waits⟩
  refine accords_plain stack ?_ ?_ ?_ <;> rw [slots]
  · intro k w found
    have value := h.slots found
    split
    next same =>
      rw [same, pending] at value
      exact value
    next => exact value
  · intro k filled waits found
    obtain ⟨apart, waits⟩ := other waits
    refine ⟨h.mine (p := .slot k) waits found, ?_⟩
    rintro rfl
    exact apart (h.slot_inj waits pending found there)
  · exact fun waits waits' => h.slot_inj (other waits).2 (other waits').2

end Scene

end StackLisp
