import StackLisp.Value.Equality

/-!
Equal values. Equality is an equivalence, and every pooled constant is there to be found.
-/

namespace StackLisp

namespace Value

mutual

theorem same_self : ∀ v : Value, same v v = true
  | null => rfl
  | bool b => by simp [same]
  | integer n => by simp [same]
  | float x => by simp [same]
  | string text => by simp [same]
  | symbol name => by simp [same]
  | pair car cdr => by rw [same, same_self car, same_self cdr]; rfl
  | vector items => by rw [same]; exact sameEach_self items
  | procedure p => by rw [same]; exact sameProcedure_self p
  | closure p captured => by rw [same, sameProcedure_self p, sameEach_self captured]; rfl
  | builtin b => by simp [same]
  | special form => by simp [same]
  | ref id => by simp [same]
termination_by structural v => v

theorem sameEach_self : ∀ vs : List Value, sameEach vs vs = true
  | [] => rfl
  | v :: vs => by rw [sameEach, same_self v, sameEach_self vs]; rfl
termination_by structural vs => vs

theorem sameProcedure_self : ∀ p : Procedure Value, sameProcedure p p = true
  | ⟨_, _, arity, code, constants, _, _, _, _, globals, _⟩ => by
    rw [sameProcedure, sameEach_self constants]
    simp
termination_by structural p => p

end

theorem beq_self (v : Value) : (v == v) = true :=
  same_self v

theorem toBits_inj {x y : Float} : x.toBits = y.toBits ↔ x = y := by
  constructor
  · intro h
    obtain ⟨⟨bits, valid⟩⟩ := x
    obtain ⟨⟨bits', valid'⟩⟩ := y
    obtain rfl : bits = bits' := h
    rfl
  · rintro rfl
    rfl

theorem sameProcedure_iff {p q : Procedure Value} :
    sameProcedure p q = true ↔
      p.arity = q.arity ∧ p.code = q.code ∧ sameEach p.constants q.constants = true ∧
        p.globals = q.globals := by
  obtain ⟨serial, name, arity, code, constants, labels, stackSize, localCount, labelCount, globals, inlinable⟩ := p
  rw [sameProcedure]
  simp only [Bool.and_eq_true, beq_iff_eq, and_assoc]

mutual

theorem same_comm : ∀ {v w : Value}, same v w = true → same w v = true
  | null, w, h => by cases w <;> first | rfl | cases h
  | bool a, w, h => by cases w <;> simp_all [same]
  | integer a, w, h => by cases w <;> simp_all [same]
  | float a, w, h => by cases w <;> simp_all [same]
  | string a, w, h => by cases w <;> simp_all [same]
  | symbol a, w, h => by cases w <;> simp_all [same]
  | pair a b, w, h => by
    cases w with
    | pair c d =>
      simp only [same, Bool.and_eq_true] at h ⊢
      exact ⟨same_comm h.1, same_comm h.2⟩
    | _ => cases h
  | vector items, w, h => by
    cases w with
    | vector others =>
      simp only [same] at h ⊢
      exact sameEach_comm h
    | _ => cases h
  | procedure p, w, h => by
    cases w with
    | procedure q =>
      simp only [same] at h ⊢
      exact sameProcedure_comm h
    | _ => cases h
  | closure p captured, w, h => by
    cases w with
    | closure q others =>
      simp only [same, Bool.and_eq_true] at h ⊢
      exact ⟨sameProcedure_comm h.1, sameEach_comm h.2⟩
    | _ => cases h
  | builtin a, w, h => by cases w <;> simp_all [same]
  | special a, w, h => by cases w <;> simp_all [same]
  | ref a, w, h => by cases w <;> simp_all [same]
termination_by structural v => v

theorem sameEach_comm : ∀ {vs ws : List Value}, sameEach vs ws = true → sameEach ws vs = true
  | [], ws, h => by cases ws <;> first | rfl | cases h
  | v :: vs, ws, h => by
    cases ws with
    | nil => cases h
    | cons w ws =>
      simp only [sameEach, Bool.and_eq_true] at h ⊢
      exact ⟨same_comm h.1, sameEach_comm h.2⟩
termination_by structural vs => vs

theorem sameProcedure_comm : ∀ {p q : Procedure Value},
    sameProcedure p q = true → sameProcedure q p = true
  | ⟨_, _, arity, code, constants, _, _, _, _, globals, _⟩, q, h => by
    obtain ⟨arities, codes, each, spaces⟩ := sameProcedure_iff.mp h
    exact sameProcedure_iff.mpr ⟨arities.symm, codes.symm, sameEach_comm each, spaces.symm⟩
termination_by structural p => p

end

mutual

theorem same_trans : ∀ {u v w : Value}, same u v = true → same v w = true → same u w = true
  | null, v, w, h, g => by cases v <;> first | exact g | cases h
  | bool a, v, w, h, g => by cases v <;> cases w <;> simp_all [same]
  | integer a, v, w, h, g => by cases v <;> cases w <;> simp_all [same]
  | float a, v, w, h, g => by cases v <;> cases w <;> simp_all [same]
  | string a, v, w, h, g => by cases v <;> cases w <;> simp_all [same]
  | symbol a, v, w, h, g => by cases v <;> cases w <;> simp_all [same]
  | pair a b, v, w, h, g => by
    cases v with
    | pair c d =>
      cases w with
      | pair e f =>
        simp only [same, Bool.and_eq_true] at h g ⊢
        exact ⟨same_trans h.1 g.1, same_trans h.2 g.2⟩
      | _ => cases g
    | _ => cases h
  | vector items, v, w, h, g => by
    cases v with
    | vector others =>
      cases w with
      | vector last =>
        simp only [same] at h g ⊢
        exact sameEach_trans h g
      | _ => cases g
    | _ => cases h
  | procedure p, v, w, h, g => by
    cases v with
    | procedure q =>
      cases w with
      | procedure r =>
        simp only [same] at h g ⊢
        exact sameProcedure_trans h g
      | _ => cases g
    | _ => cases h
  | closure p captured, v, w, h, g => by
    cases v with
    | closure q others =>
      cases w with
      | closure r last =>
        simp only [same, Bool.and_eq_true] at h g ⊢
        exact ⟨sameProcedure_trans h.1 g.1, sameEach_trans h.2 g.2⟩
      | _ => cases g
    | _ => cases h
  | builtin a, v, w, h, g => by cases v <;> cases w <;> simp_all [same]
  | special a, v, w, h, g => by cases v <;> cases w <;> simp_all [same]
  | ref a, v, w, h, g => by cases v <;> cases w <;> simp_all [same]
termination_by structural v => v

theorem sameEach_trans : ∀ {us vs ws : List Value},
    sameEach us vs = true → sameEach vs ws = true → sameEach us ws = true
  | [], vs, ws, h, g => by cases vs <;> first | exact g | cases h
  | u :: us, vs, ws, h, g => by
    cases vs with
    | nil => cases h
    | cons v vs =>
      cases ws with
      | nil => cases g
      | cons w ws =>
        simp only [sameEach, Bool.and_eq_true] at h g ⊢
        exact ⟨same_trans h.1 g.1, sameEach_trans h.2 g.2⟩
termination_by structural vs => vs

theorem sameProcedure_trans : ∀ {p q r : Procedure Value},
    sameProcedure p q = true → sameProcedure q r = true → sameProcedure p r = true
  | ⟨_, _, arity, code, constants, _, _, _, _, globals, _⟩, q, r, h, g => by
    obtain ⟨arities, codes, each, spaces⟩ := sameProcedure_iff.mp h
    obtain ⟨arities', codes', each', spaces'⟩ := sameProcedure_iff.mp g
    exact sameProcedure_iff.mpr ⟨arities.trans arities', codes.trans codes',
      sameEach_trans each each', spaces.trans spaces'⟩
termination_by structural p => p

end

end Value

theorem poolConstant_place (constants : List Value) (v : Value) :
    ∃ u, (poolConstant constants v).2[(poolConstant constants v).1]? = some u ∧ (u == v) = true := by
  unfold poolConstant
  cases found : constants.findIdx? (· == v) with
  | some i =>
    obtain ⟨inside, same, -⟩ := List.findIdx?_eq_some_iff_getElem.mp found
    exact ⟨constants[i], List.getElem?_eq_getElem inside, same⟩
  | none => exact ⟨v, List.getElem?_concat_length, v.beq_self⟩

theorem poolConstant_holds (constants : List Value) (v : Value) :
    ∃ u ∈ (poolConstant constants v).2, (u == v) = true := by
  obtain ⟨u, there, same⟩ := poolConstant_place constants v
  exact ⟨u, List.mem_of_getElem? there, same⟩

theorem mem_poolConstant {constants : List Value} {u v : Value} (h : u ∈ (poolConstant constants v).2) :
    u ∈ constants ∨ u = v := by
  unfold poolConstant at h
  cases found : constants.findIdx? (· == v) with
  | some i =>
    rw [found] at h
    exact .inl h
  | none =>
    rw [found] at h
    exact (List.mem_append.mp h).imp_right List.mem_singleton.mp

theorem poolConstant_extends (constants : List Value) (v : Value) :
    constants <+: (poolConstant constants v).2 := by
  unfold poolConstant
  split
  · exact List.prefix_refl _
  · exact List.prefix_append _ _

end StackLisp
