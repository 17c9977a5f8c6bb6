import Mathlib.Data.List.Forall2
import StackLisp.Builtin.Reply

/-!
Values that differ in nothing but their procedures. What a builtin makes of such values differs in
nothing else either, as long as equality does not tell the procedures apart.
-/

namespace StackLisp

/-- Two values built alike, with procedures of a relation in the same places. -/
inductive Value.Matches (P : Procedure Value → Procedure Value → Prop) : Value → Value → Prop where
  | null : Matches P .null .null
  | bool (b : Bool) : Matches P (.bool b) (.bool b)
  | integer (n : Int64) : Matches P (.integer n) (.integer n)
  | float (x : Float) : Matches P (.float x) (.float x)
  | string (s : String) : Matches P (.string s) (.string s)
  | symbol (s : String) : Matches P (.symbol s) (.symbol s)
  | pair {a b c d : Value} (car : Matches P a b) (cdr : Matches P c d) :
    Matches P (.pair a c) (.pair b d)
  | vector {as bs : List Value} (items : List.Forall₂ (Matches P) as bs) :
    Matches P (.vector as) (.vector bs)
  | procedure {p q : Procedure Value} (bodies : P p q) : Matches P (.procedure p) (.procedure q)
  | closure {p q : Procedure Value} {as bs : List Value} (bodies : P p q)
    (captured : List.Forall₂ (Matches P) as bs) : Matches P (.closure p as) (.closure q bs)
  | builtin (b : Builtin) : Matches P (.builtin b) (.builtin b)
  | special (form : SpecialForm) : Matches P (.special form) (.special form)
  | ref (id : RefId) : Matches P (.ref id) (.ref id)

inductive Fault.Matches (P : Procedure Value → Procedure Value → Prop) : Fault → Fault → Prop where
  | plain {f : Fault} (h : ∀ v, f ≠ .raised v) : Matches P f f
  | raised {v w : Value} (h : v.Matches P w) : Matches P (.raised v) (.raised w)

/-- Both results are good and related, or both are faults that match. -/
inductive Agree (P : Procedure Value → Procedure Value → Prop) {α β : Type} (R : α → β → Prop) :
    Except Fault α → Except Fault β → Prop where
  | ok {a : α} {b : β} (h : R a b) : Agree P R (.ok a) (.ok b)
  | error {f g : Fault} (h : f.Matches P g) : Agree P R (.error f) (.error g)

/-- What procedures must have in common for their closures to be called and compared alike. -/
structure Alikeness (P : Procedure Value → Procedure Value → Prop) : Prop where
  arity : ∀ {p q : Procedure Value}, P p q → p.arity = q.arity
  same : ∀ {p q r s : Procedure Value}, P p q → P r s →
    Value.sameProcedure p r = Value.sameProcedure q s

variable {P : Procedure Value → Procedure Value → Prop}

theorem Fault.Matches.payload {f g : Fault} (h : f.Matches P g) : f.payload.Matches P g.payload := by
  cases h with
  | raised value => exact value
  | plain plain =>
    cases f with
    | raised v => exact absurd rfl (plain v)
    | _ => exact .string _

theorem rel_getElem? {α β : Type} {R : α → β → Prop} {as : List α} {bs : List β}
    (h : List.Forall₂ R as bs) (k : Nat) : Option.Rel R as[k]? bs[k]? := by
  induction h generalizing k with
  | nil => exact .none
  | cons first _ ih =>
    cases k with
    | zero => exact .some first
    | succ k => exact ih k

theorem rel_set {α β : Type} {R : α → β → Prop} {as : List α} {bs : List β} {a : α} {b : β}
    (h : List.Forall₂ R as bs) (new : R a b) (k : Nat) :
    List.Forall₂ R (as.set k a) (bs.set k b) := by
  induction h generalizing k with
  | nil => exact .nil
  | cons first rest ih =>
    cases k with
    | zero => exact .cons new rest
    | succ k => exact .cons first (ih k)

mutual

theorem Value.Matches.mono {Q : Procedure Value → Procedure Value → Prop} {v w : Value} (h : v.Matches P w)
    (wider : ∀ {p q}, P p q → Q p q) : v.Matches Q w := by
  cases h with
  | pair car cdr => exact .pair (car.mono wider) (cdr.mono wider)
  | vector items => exact .vector (matches_monoEach items wider)
  | procedure bodies => exact .procedure (wider bodies)
  | closure bodies captured => exact .closure (wider bodies) (matches_monoEach captured wider)
  | _ => constructor

theorem matches_monoEach {Q : Procedure Value → Procedure Value → Prop} {as bs : List Value}
    (h : List.Forall₂ (Value.Matches P) as bs) (wider : ∀ {p q}, P p q → Q p q) :
    List.Forall₂ (Value.Matches Q) as bs := by
  cases h with
  | nil => exact .nil
  | cons first rest => exact .cons (first.mono wider) (matches_monoEach rest wider)

end

namespace Agree

variable {α β γ δ : Type} {R : α → β → Prop} {S : γ → δ → Prop}

theorem bind {x : Except Fault α} {y : Except Fault β} {f : α → Except Fault γ}
    {g : β → Except Fault δ} (h : Agree P R x y)
    (next : ∀ {a b}, R a b → Agree P S (f a) (g b)) : Agree P S (x >>= f) (y >>= g) := by
  cases h with
  | ok related => exact next related
  | error faults => exact .error faults

theorem map {x : Except Fault α} {y : Except Fault β} {f : α → γ} {g : β → δ} (h : Agree P R x y)
    (next : ∀ {a b}, R a b → S (f a) (g b)) : Agree P S (x.map f) (y.map g) := by
  cases h with
  | ok related => exact .ok (next related)
  | error faults => exact .error faults

end Agree

namespace Value

theorem Matches.kind {v w : Value} (h : v.Matches P w) : v.kind = w.kind := by
  cases h <;> rfl

theorem Matches.holds {v w : Value} (h : v.Matches P w) : v.holds = w.holds := by
  cases h <;> rfl

theorem agree_mismatch {α β : Type} {R : α → β → Prop} {v w : Value} (h : v.Matches P w)
    (c : Capability) : Agree P R (.error (.mismatch c v)) (.error (.mismatch c w)) := by
  have same : Fault.mismatch c v = Fault.mismatch c w := congrArg (Fault.typeMismatch c) h.kind
  rw [same]
  exact .error (.plain nofun)

theorem Matches.number? {v w : Value} (h : v.Matches P w) : Agree P Eq v.number? w.number? := by
  cases h <;> first | exact .ok rfl | exact .error (.plain nofun)

theorem Matches.symbol? {v w : Value} (h : v.Matches P w) : Agree P Eq v.symbol? w.symbol? := by
  cases h <;> first | exact .ok rfl | exact .error (.plain nofun)

theorem Matches.ref? {v w : Value} (h : v.Matches P w) : Agree P Eq v.ref? w.ref? := by
  cases h <;> first | exact .ok rfl | exact .error (.plain nofun)

theorem Matches.callable? (alike : Alikeness P) {v w : Value} (h : v.Matches P w) :
    Agree P Eq v.callable? w.callable? := by
  cases h with
  | closure bodies captured => exact .ok (alike.arity bodies)
  | builtin b => exact .ok rfl
  | _ => exact .error (.plain nofun)

theorem agree_check (a : Arity) (n : Nat) : Agree P Eq (a.check n) (a.check n) := by
  unfold Arity.check
  split
  · exact .ok rfl
  · exact .error (.plain nofun)

theorem Matches.check (alike : Alikeness P) {v w : Value} (h : v.Matches P w) (n : Nat) :
    Agree P Eq (v.callable?.bind (·.check n)) (w.callable?.bind (·.check n)) :=
  (h.callable? alike).bind fun {a b} same => by
    subst same
    exact agree_check a n

theorem Matches.head {as bs : List Value} (h : List.Forall₂ (Matches P) as bs) :
    (as.head?.getD .null).Matches P (bs.head?.getD .null) := by
  cases h with
  | nil => exact .null
  | cons first _ => exact first

theorem Matches.car? {v w : Value} (h : v.Matches P w) : Agree P (Matches P) v.car? w.car? := by
  cases h with
  | pair car cdr => exact .ok car
  | vector items => exact .ok (Matches.head items)
  | _ => exact .error (.plain nofun)

theorem Matches.cdr? {v w : Value} (h : v.Matches P w) : Agree P (Matches P) v.cdr? w.cdr? := by
  cases h with
  | pair car cdr => exact .ok cdr
  | vector items =>
    cases items with
    | nil => exact .ok .null
    | cons first rest =>
      cases rest with
      | nil => exact .ok .null
      | cons second rest => exact .ok (.vector (.cons second rest))
  | _ => exact .error (.plain nofun)

theorem Matches.isEmpty? {v w : Value} (h : v.Matches P w) : Agree P Eq v.isEmpty? w.isEmpty? := by
  cases h with
  | null | pair => exact .ok rfl
  | vector items => cases items <;> exact .ok rfl
  | _ => exact .error (.plain nofun)

theorem Matches.prepend? {v w item other : Value} (h : v.Matches P w) (first : item.Matches P other) :
    Agree P (Matches P) (v.prepend? item) (w.prepend? other) := by
  cases h with
  | null => exact .ok (.pair first .null)
  | pair car cdr => exact .ok (.pair first (.pair car cdr))
  | vector items => exact .ok (.vector (.cons first items))
  | _ => exact .error (.plain nofun)

theorem Matches.ofListOnto {as bs : List Value} {v w : Value} (h : List.Forall₂ (Matches P) as bs)
    (tail : v.Matches P w) : (ofListOnto as v).Matches P (ofListOnto bs w) := by
  induction h with
  | nil => exact tail
  | cons first _ ih => exact .pair first ih

theorem Matches.ofList {as bs : List Value} (h : List.Forall₂ (Matches P) as bs) :
    (ofList as).Matches P (ofList bs) :=
  Matches.ofListOnto h .null

theorem Matches.spine {v w : Value} (h : v.Matches P w) :
    List.Forall₂ (Matches P) v.spine.1 w.spine.1 ∧ v.spine.2.Matches P w.spine.2 := by
  induction v using spine.induct generalizing w with
  | case1 car cdr ih =>
    cases h with
    | pair first rest =>
      obtain ⟨items, tail⟩ := ih rest
      exact ⟨.cons first items, tail⟩
  | case2 v plain =>
    cases h with
    | pair => exact absurd rfl (plain _ _)
    | _ => exact ⟨.nil, by constructor <;> assumption⟩

theorem items?_of_spine {v : Value} (h : v = .null ∨ ∃ car cdr, v = .pair car cdr) :
    v.items? = match v.spine.2 with
      | .null => .ok v.spine.1
      | tail => .error (.mismatch .list tail) := by
  obtain rfl | ⟨car, cdr, rfl⟩ := h
  · rfl
  · unfold items?
    dsimp only
    rcases (pair car cdr).spine with ⟨items, tail⟩
    cases tail <;> rfl

theorem Matches.items?_spine {v w : Value} (h : v.Matches P w)
    (left : v = .null ∨ ∃ car cdr, v = .pair car cdr)
    (right : w = .null ∨ ∃ car cdr, w = .pair car cdr) :
    Agree P (List.Forall₂ (Matches P)) v.items? w.items? := by
  obtain ⟨items, tail⟩ := h.spine
  rw [items?_of_spine left, items?_of_spine right]
  revert tail
  generalize v.spine.2 = t
  generalize w.spine.2 = u
  intro tail
  cases tail with
  | null => exact .ok items
  | _ => exact agree_mismatch (by constructor <;> assumption) .list

theorem Matches.items? {v w : Value} (h : v.Matches P w) :
    Agree P (List.Forall₂ (Matches P)) v.items? w.items? := by
  cases h with
  | null => exact Matches.items?_spine .null (Or.inl rfl) (Or.inl rfl)
  | pair car cdr =>
    exact Matches.items?_spine (.pair car cdr) (Or.inr ⟨_, _, rfl⟩) (Or.inr ⟨_, _, rfl⟩)
  | vector items => exact .ok items
  | _ => exact .error (.plain nofun)

mutual

/-- Equality sees no difference between values that match. -/
theorem Matches.same (alike : Alikeness P) {a b c d : Value} (h : a.Matches P b)
    (g : c.Matches P d) : Value.same a c = Value.same b d := by
  cases h with
  | pair car cdr =>
    cases g with
    | pair car' cdr' =>
      simp only [Value.same, Matches.same alike car car', Matches.same alike cdr cdr']
    | _ => rfl
  | vector items =>
    cases g with
    | vector items' => simp only [Value.same, Matches.sameEach alike items items']
    | _ => rfl
  | procedure bodies =>
    cases g with
    | procedure bodies' => simp only [Value.same, alike.same bodies bodies']
    | _ => rfl
  | closure bodies captured =>
    cases g with
    | closure bodies' captured' =>
      simp only [Value.same, alike.same bodies bodies', Matches.sameEach alike captured captured']
    | _ => rfl
  | _ => cases g <;> rfl

theorem Matches.sameEach (alike : Alikeness P) {as bs cs ds : List Value}
    (h : List.Forall₂ (Matches P) as bs) (g : List.Forall₂ (Matches P) cs ds) :
    Value.sameEach as cs = Value.sameEach bs ds := by
  cases h with
  | nil => cases g <;> rfl
  | cons first rest =>
    cases g with
    | nil => rfl
    | cons first' rest' =>
      simp only [Value.sameEach, Matches.same alike first first',
        Matches.sameEach alike rest rest']

end

end Value

end StackLisp
