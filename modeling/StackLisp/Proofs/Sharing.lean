import Mathlib.Data.List.Forall2
import StackLisp.Proofs.Sameness
import StackLisp.Value.Digest

/-!
Equality of values whose objects may be shared. A comparison that answers at once where both sides are one
object, and that walks along lists, answers as structural equality does; and equal values have one digest.
-/

namespace StackLisp.Value

/-- The values that a value is made of. -/
def parts : Value → List Value
  | pair car cdr => [car, cdr]
  | vector items => items
  | procedure p => p.constants
  | closure p captured => procedure p :: captured
  | _ => []

/-- The value at the end of a way, which tells the part to go to at each step. -/
def at? (v : Value) : List Nat → Option Value
  | [] => some v
  | k :: way => v.parts[k]?.bind (·.at? way)

/-- Which objects two values share, by the ways that lead to them. -/
abbrev Sharing := List Nat → Bool

/-- What is shared in a part. -/
def Sharing.inside (shared : Sharing) (k : Nat) : Sharing :=
  fun way => shared (k :: way)

/-- Where two values are said to share an object, it is one and the same. -/
def Sharing.Honest (shared : Sharing) (v w : Value) : Prop :=
  ∀ way, shared way = true → v.at? way = w.at? way

/-- The answer for the rests of two lists: one for two pairs, another for the end of a list. -/
def rest (v w : Value) (pairs ends : Bool) : Bool :=
  match v, w with
  | pair _ _, pair _ _ => pairs
  | _, _ => ends

mutual

/-- Whether two values are equal. One object is equal to itself without a look at it. -/
def agrees (shared : Sharing) : Value → Value → Bool
  | null, null => true
  | bool a, bool b => a == b
  | integer a, integer b => a == b
  | float a, float b => a.toBits == b.toBits
  | string a, string b => shared [] || a == b
  | symbol a, symbol b => shared [] || a == b
  | pair a b, pair c d =>
    shared [] || (agrees (shared.inside 0) a c &&
      rest b d (shared [1] || walks (shared.inside 1) b d) (agrees (shared.inside 1) b d))
  | vector as, vector bs => shared [] || agreesEach shared 0 as bs
  | procedure p, procedure q => shared [] || agreesProcedure shared p q
  | closure p as, closure q bs =>
    shared [] || ((shared [0] || agreesProcedure (shared.inside 0) p q) && agreesEach shared 1 as bs)
  | builtin a, builtin b => shared [] || a.name == b.name
  | special a, special b => a == b
  | ref a, ref b => a == b
  | _, _ => false
termination_by structural v => v

/-- Whether two lists are equal from two pairs on, which are not one object. -/
def walks (shared : Sharing) : Value → Value → Bool
  | pair a b, pair c d =>
    agrees (shared.inside 0) a c &&
      rest b d (shared [1] || walks (shared.inside 1) b d) (agrees (shared.inside 1) b d)
  | _, _ => false
termination_by structural v => v

/-- Whether the parts from one on are equal. -/
def agreesEach (shared : Sharing) (k : Nat) : List Value → List Value → Bool
  | [], [] => true
  | a :: as, b :: bs => agrees (shared.inside k) a b && agreesEach shared (k + 1) as bs
  | _, _ => false
termination_by structural vs => vs

def agreesProcedure (shared : Sharing) : Procedure Value → Procedure Value → Bool
  | ⟨_, _, arity, code, constants, _, _, _, _, globals, _⟩, q =>
    arity == q.arity && code == q.code && agreesEach shared 0 constants q.constants && globals == q.globals
termination_by structural p => p

end

namespace Sharing

variable {shared : Sharing} {v w : Value}

theorem Honest.eq (h : shared.Honest v w) (one : shared [] = true) : v = w :=
  Option.some.inj (h [] one)

/-- What is shared in a part is in it on both sides. -/
theorem Honest.part (h : shared.Honest v w) {k : Nat} {a b : Value} (here : v.parts[k]? = some a)
    (there : w.parts[k]? = some b) : (shared.inside k).Honest a b := by
  intro way one
  have same : v.at? (k :: way) = w.at? (k :: way) := h (k :: way) one
  rwa [at?, at?, here, there, Option.bind_some, Option.bind_some] at same

end Sharing

theorem rest_eq {v w : Value} {pairs ends answer : Bool}
    (onward : ∀ a b c d, v = pair a b → w = pair c d → pairs = answer) (last : ends = answer) :
    rest v w pairs ends = answer := by
  unfold rest
  split
  next a b c d => exact onward a b c d rfl rfl
  next => exact last

/-- One object is equal to itself, and of others the answer is that of a closer look. -/
theorem or_eq_same {v w : Value} {one answer : Bool} (eq : one = true → v = w) (closer : answer = same v w) :
    (one || answer) = same v w := by
  cases one with
  | true =>
    rw [eq rfl, same_self]
    rfl
  | false => exact closer

/-- One step along two lists, where the comparisons of the items and of the rests answer as they should. -/
theorem items_eq_same {shared : Sharing} {a b c d : Value} (h : shared.Honest (pair a b) (pair c d))
    (items : (shared.inside 0).Honest a c → agrees (shared.inside 0) a c = same a c)
    (last : (shared.inside 1).Honest b d → agrees (shared.inside 1) b d = same b d)
    (onward : (shared.inside 1).Honest b d → walks (shared.inside 1) b d = rest b d (same b d) false) :
    walks shared (pair a b) (pair c d) = same (pair a b) (pair c d) := by
  have inside : (shared.inside 1).Honest b d := h.part rfl rfl
  have rests : rest b d (shared [1] || walks (shared.inside 1) b d) (agrees (shared.inside 1) b d) = same b d := by
    refine rest_eq (fun a' b' c' d' left right => or_eq_same inside.eq ?_) (last inside)
    rw [onward inside, left, right]
    rfl
  rw [walks, items (h.part rfl rfl), rests]
  rfl

mutual

theorem agrees_eq_same : ∀ {shared : Sharing} {v w : Value}, shared.Honest v w → agrees shared v w = same v w
  | _, null, w, _ => by cases w <;> rfl
  | _, bool a, w, _ => by cases w <;> rfl
  | _, integer a, w, _ => by cases w <;> rfl
  | _, float a, w, _ => by cases w <;> rfl
  | shared, string a, w, h => by
    cases w with
    | string b => exact or_eq_same h.eq rfl
    | _ => rfl
  | shared, symbol a, w, h => by
    cases w with
    | symbol b => exact or_eq_same h.eq rfl
    | _ => rfl
  | shared, pair a b, w, h => by
    cases w with
    | pair c d =>
      exact or_eq_same h.eq (items_eq_same h agrees_eq_same agrees_eq_same walks_eq_same)
    | _ => rfl
  | shared, vector as, w, h => by
    cases w with
    | vector bs => exact or_eq_same h.eq (agreesEach_eq_same fun here there => by rw [Nat.zero_add]; exact h.part here there)
    | _ => rfl
  | shared, procedure p, w, h => by
    cases w with
    | procedure q => exact or_eq_same h.eq (agreesProcedure_eq_same h)
    | _ => rfl
  | shared, closure p as, w, h => by
    cases w with
    | closure q bs =>
      have inside : (shared.inside 0).Honest (procedure p) (procedure q) := h.part rfl rfl
      have procedures : (shared [0] || agreesProcedure (shared.inside 0) p q) = sameProcedure p q :=
        or_eq_same inside.eq (agreesProcedure_eq_same inside)
      have captures : agreesEach shared 1 as bs = sameEach as bs := agreesEach_eq_same fun {j a b} here there =>
        h.part (k := 1 + j) (by rw [Nat.add_comm]; exact here) (by rw [Nat.add_comm]; exact there)
      refine or_eq_same h.eq ?_
      rw [procedures, captures]
      rfl
    | _ => rfl
  | shared, builtin a, w, h => by
    cases w with
    | builtin b => exact or_eq_same h.eq rfl
    | _ => rfl
  | _, special a, w, _ => by cases w <;> rfl
  | _, ref a, w, _ => by cases w <;> rfl
termination_by structural _ v => v

theorem walks_eq_same : ∀ {shared : Sharing} {v w : Value}, shared.Honest v w →
    walks shared v w = rest v w (same v w) false
  | shared, v, w, h => by
    cases v with
    | pair a b =>
      cases w with
      | pair c d => exact items_eq_same h agrees_eq_same agrees_eq_same walks_eq_same
      | _ => rfl
    | _ => cases w <;> rfl
termination_by structural _ v => v

theorem agreesEach_eq_same : ∀ {shared : Sharing} {k : Nat} {vs ws : List Value},
    (∀ {j : Nat} {a b : Value}, vs[j]? = some a → ws[j]? = some b → (shared.inside (k + j)).Honest a b) →
      agreesEach shared k vs ws = sameEach vs ws
  | _, _, [], ws, _ => by cases ws <;> rfl
  | shared, k, v :: vs, ws, h => by
    cases ws with
    | nil => rfl
    | cons w ws =>
      have first : agrees (shared.inside k) v w = same v w := agrees_eq_same (h (j := 0) rfl rfl)
      have others : agreesEach shared (k + 1) vs ws = sameEach vs ws := agreesEach_eq_same fun {j a b} here there => by
        rw [Nat.add_assoc, Nat.add_comm 1 j]
        exact h (j := j + 1) here there
      rw [agreesEach, first, others]
      rfl
termination_by structural _ _ vs => vs

theorem agreesProcedure_eq_same : ∀ {shared : Sharing} {p q : Procedure Value},
    shared.Honest (procedure p) (procedure q) → agreesProcedure shared p q = sameProcedure p q
  | shared, ⟨serial, name, arity, code, constants, labels, stackSize, localCount, labelCount, globals, inlinable⟩, q, h => by
    have each : agreesEach shared 0 constants q.constants = sameEach constants q.constants :=
      agreesEach_eq_same fun here there => by rw [Nat.zero_add]; exact h.part here there
    rw [agreesProcedure, each]
    rfl
termination_by structural _ p => p

end

theorem sameEach_iff : ∀ {vs ws : List Value}, sameEach vs ws = true ↔ List.Forall₂ (fun v w => (v == w) = true) vs ws
  | [], ws => by cases ws <;> simp [sameEach]
  | v :: vs, ws => by
    cases ws with
    | nil => simp [sameEach]
    | cons w ws => rw [sameEach, Bool.and_eq_true, sameEach_iff, List.forall₂_cons]; rfl

mutual

/-- Equal values have one digest. -/
theorem digestAt_congr : ∀ {v w : Value} (inTail : Bool), same v w = true → digestAt inTail v = digestAt inTail w
  | null, w, _, h => by cases w <;> first | rfl | cases h
  | bool a, w, _, h => by cases w <;> simp_all [same, digestAt]
  | integer a, w, _, h => by cases w <;> simp_all [same, digestAt]
  | float a, w, _, h => by cases w <;> simp_all [same, digestAt]
  | string a, w, _, h => by cases w <;> simp_all [same, digestAt]
  | symbol a, w, _, h => by cases w <;> simp_all [same, digestAt]
  | pair a b, w, inTail, h => by
    cases w with
    | pair c d =>
      rw [same, Bool.and_eq_true] at h
      rw [digestAt, digestAt, digestAt_congr false h.1, digestAt_congr true h.2]
    | _ => cases h
  | vector items, w, _, h => by
    cases w with
    | vector others => rw [digestAt, digestAt, digestEach_congr h, (sameEach_iff.mp h).length_eq]
    | _ => cases h
  | procedure p, w, _, h => by
    cases w with
    | procedure q => rw [digestAt, digestAt, digestProcedure_congr h]
    | _ => cases h
  | closure p captured, w, _, h => by
    cases w with
    | closure q others =>
      rw [same, Bool.and_eq_true] at h
      rw [digestAt, digestAt, digestProcedure_congr h.1, digestEach_congr h.2, (sameEach_iff.mp h.2).length_eq]
    | _ => cases h
  | builtin a, w, _, h => by cases w <;> simp_all [same, digestAt]
  | special a, w, _, h => by cases w <;> simp_all [same, digestAt]
  | ref a, w, _, h => by cases w <;> simp_all [same, digestAt]
termination_by structural v => v

theorem digestEach_congr : ∀ {vs ws : List Value}, sameEach vs ws = true → digestEach vs = digestEach ws
  | [], ws, h => by cases ws <;> first | rfl | cases h
  | v :: vs, ws, h => by
    cases ws with
    | nil => cases h
    | cons w ws =>
      rw [sameEach, Bool.and_eq_true] at h
      rw [digestEach, digestEach, digestAt_congr false h.1, digestEach_congr h.2]
termination_by structural vs => vs

theorem digestProcedure_congr : ∀ {p q : Procedure Value}, sameProcedure p q = true → digestProcedure p = digestProcedure q
  | ⟨_, _, arity, code, constants, _, _, _, _, globals, _⟩, q, h => by
    obtain ⟨arities, codes, each, -⟩ := sameProcedure_iff.mp h
    obtain ⟨serial, name, arity', code', constants', labels, stackSize, localCount, labelCount, globals', inlinable⟩ := q
    obtain rfl : arity = arity' := arities
    obtain rfl : code = code' := codes
    have digests : digestEach constants = digestEach constants' := digestEach_congr each
    have sizes : constants.length = constants'.length := (sameEach_iff.mp each).length_eq
    rw [digestProcedure, digestProcedure, digests, sizes]
termination_by structural p => p

end

theorem closure_same_iff {p q : Procedure Value} {captured others : List Value} :
    (closure p captured == closure q others) = true ↔
      p.arity = q.arity ∧ p.code = q.code ∧ List.Forall₂ (fun v w => (v == w) = true) p.constants q.constants ∧
        p.globals = q.globals ∧ List.Forall₂ (fun v w => (v == w) = true) captured others := by
  show (sameProcedure p q && sameEach captured others) = true ↔ _
  rw [Bool.and_eq_true, sameProcedure_iff, sameEach_iff, sameEach_iff]
  simp only [and_assoc]

/-- Equality is an equivalence, looks at objects just as far as they are not shared, and is finer than digests.
Closures are equal if their procedures have one arity, one code, equal constants and one namespace, and what they
captured is equal. -/
theorem equality_laws :
    (∀ v : Value, (v == v) = true) ∧
    (∀ v w : Value, (v == w) = true → (w == v) = true) ∧
    (∀ u v w : Value, (u == v) = true → (v == w) = true → (u == w) = true) ∧
    (∀ (shared : Sharing) (v w : Value), shared.Honest v w → agrees shared v w = (v == w)) ∧
    (∀ v w : Value, (v == w) = true → v.digest = w.digest) ∧
    (∀ (p q : Procedure Value) (captured others : List Value),
      (closure p captured == closure q others) = true ↔
        p.arity = q.arity ∧ p.code = q.code ∧ List.Forall₂ (fun v w => (v == w) = true) p.constants q.constants ∧
          p.globals = q.globals ∧ List.Forall₂ (fun v w => (v == w) = true) captured others) := by
  exact ⟨beq_self, fun _ _ => same_comm, fun _ _ _ => same_trans, fun _ _ _ => agrees_eq_same,
    fun _ _ => digestAt_congr false, fun _ _ _ _ => closure_same_iff⟩

/-- A procedure with a name, built at some time. -/
def titled (serial : Nat) (name : String) : Procedure Value :=
  ⟨serial, some name, .fixed 0, [⟨.const, 0, by decide⟩, Opcode.ret.bare], [float (0 / 0)], [], 1, 0, 0, 0, true⟩

/-- A list of a closure with a captured reference, and of a vector. -/
def twin (serial : Nat) (name : String) : Value :=
  pair (closure (titled serial name) [ref 3]) (pair (vector [null, bool true]) null)

/-- Two lists of closures with names of their own, with one vector in both. -/
theorem equality_laws_twins :
    (twin 0 "f" == twin 1 "g") = true ∧ (twin 1 "g" == twin 0 "f") = true ∧
      agrees (fun way => way == [1, 0]) (twin 0 "f") (twin 1 "g") = true ∧ (twin 0 "f").digest = (twin 1 "g").digest := by
  obtain ⟨refl, comm, trans, shortcuts, digests, closures⟩ := equality_laws
  have alone (v : Value) : List.Forall₂ (fun v w : Value => (v == w) = true) [v] [v] := .cons (refl v) .nil
  have heads : (closure (titled 0 "f") [ref 3] == closure (titled 1 "g") [ref 3]) = true :=
    (closures _ _ _ _).mpr ⟨rfl, rfl, alone (float (0 / 0)), rfl, alone (ref 3)⟩
  have first : (twin 0 "f" == twin 1 "g") = true := Bool.and_eq_true_iff.mpr ⟨heads, refl (pair (vector [null, bool true]) null)⟩
  have back := comm _ _ first
  have again := trans _ _ _ (trans _ _ _ first back) first
  have honest : Sharing.Honest (fun way => way == [1, 0]) (twin 0 "f") (twin 1 "g") := by
    intro way here
    obtain rfl : way = [1, 0] := eq_of_beq here
    rfl
  exact ⟨first, back, (shortcuts _ _ _ honest).trans again, digests _ _ first⟩

end StackLisp.Value
