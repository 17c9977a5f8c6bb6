import StackLisp.Proofs.Matching

/-!
Builtins and primitive operations make matching replies to matching arguments.
-/

namespace StackLisp

open Value (Matches)

variable {P : Procedure Value → Procedure Value → Prop}

inductive Reply.Matches (P : Procedure Value → Procedure Value → Prop) : Reply → Reply → Prop where
  | answer {v w : Value} (h : v.Matches P w) : Matches P (.answer v) (.answer w)
  | fault {f g : Fault} (h : f.Matches P g) : Matches P (.fault f) (.fault g)
  | call {v w : Value} {as bs : List Value} (callee : v.Matches P w)
    (args : List.Forall₂ (Value.Matches P) as bs) : Matches P (.call v as) (.call w bs)
  | guarded {t u h k : Value} (thunk : t.Matches P u) (handler : h.Matches P k) :
    Matches P (.guarded t h) (.guarded u k)
  | noted {v w : Value} (left right : String) (h : v.Matches P w) :
    Matches P (.noted left v) (.noted right w)

theorem Number.matches_value (n : Number) : n.value.Matches P n.value := by
  cases n with
  | integer n => exact .integer n
  | float x => exact .float x

theorem agree_arithmetic (f : Number → Number → Option Number) {a b c d : Value}
    (left : a.Matches P b) (right : c.Matches P d) :
    Agree P (Matches P) (arithmetic f a c) (arithmetic f b d) := by
  refine left.number?.bind fun {l m} same => ?_
  subst same
  refine right.number?.bind fun {r s} same => ?_
  subst same
  cases f l r with
  | none => exact .error (.plain nofun)
  | some n => exact .ok n.matches_value

theorem agree_compareNumbers (c : Comparison) {v w x y : Value} (left : v.Matches P w)
    (right : x.Matches P y) : Agree P Eq (compareNumbers c v x) (compareNumbers c w y) := by
  refine left.number?.bind fun {l m} same => ?_
  subst same
  refine right.number?.bind fun {r s} same => ?_
  subst same
  exact .ok rfl

theorem agree_bool {x y : Except Fault Bool} (h : Agree P Eq x y) :
    Agree P (Matches P) (x.map .bool) (y.map .bool) :=
  h.map fun {a b} same => by
    subst same
    exact .bool a

theorem agree_binary (alike : Alikeness P) {op : Opcode} {f : Value → Value → Except Fault Value}
    (meaning : op.binary? = some f) {a b c d : Value} (left : a.Matches P b)
    (right : c.Matches P d) : Agree P (Matches P) (f a c) (f b d) := by
  cases op <;> cases meaning
  case add | sub | mul | div | mod => exact agree_arithmetic _ left right
  case numEq | numLt | numLte | numGt | numGte => exact agree_bool (agree_compareNumbers _ left right)
  case eq =>
    have same : (a == c) = (b == d) := Matches.same alike left right
    show Agree P (Matches P) (.ok (.bool (a == c))) (.ok (.bool (b == d)))
    rw [same]
    exact .ok (.bool _)
  case cons => exact right.prepend? left

theorem agree_unary {op : Opcode} {f : Value → Except Fault Value} (meaning : op.unary? = some f)
    {v w : Value} (h : v.Matches P w) : Agree P (Matches P) (f v) (f w) := by
  cases op <;> cases meaning
  case neg =>
    refine h.number?.map fun {m n} same => ?_
    subst same
    exact m.neg.matches_value
  case not =>
    show Agree P (Matches P) (.ok (.bool !v.holds)) (.ok (.bool !w.holds))
    rw [h.holds]
    exact .ok (.bool _)
  case car => exact h.car?
  case cdr => exact h.cdr?
  case empty => exact agree_bool h.isEmpty?

namespace Operation

theorem agree_numbers {as bs : List Value} (h : List.Forall₂ (Matches P) as bs) :
    Agree P Eq (numbers as) (numbers bs) := by
  unfold numbers
  induction h with
  | nil => exact .ok rfl
  | cons first _ ih =>
    rw [List.mapM_cons, List.mapM_cons]
    refine first.number?.bind fun {m n} same => ?_
    subst same
    refine ih.bind fun {ms ns} same => ?_
    subst same
    exact .ok rfl

theorem agree_total (f : Number → Number → Number) (start : Number) {as bs : List Value}
    (h : List.Forall₂ (Matches P) as bs) :
    Agree P (Matches P) (total f start as) (total f start bs) := by
  refine (agree_numbers h).bind fun {ms ns} same => ?_
  subst same
  exact .ok (Number.matches_value _)

theorem agree_differenceOf {as bs : List Value} (h : List.Forall₂ (Matches P) as bs) :
    Agree P (Matches P) (differenceOf as) (differenceOf bs) := by
  refine (agree_numbers h).bind fun {ms ns} same => ?_
  subst same
  match ms with
  | [] => exact .error (.plain nofun)
  | [n] => exact .ok n.neg.matches_value
  | n :: m :: ns => exact .ok (Number.matches_value _)

theorem agree_divide (m n : Number) : Agree P Eq (divide m n) (divide m n) := by
  unfold divide
  cases m.div? n with
  | none => exact .error (.plain nofun)
  | some q => exact .ok rfl

theorem agree_foldlM_divide (n : Number) (ns : List Number) :
    Agree P Eq (ns.foldlM divide n) (ns.foldlM divide n) := by
  induction ns generalizing n with
  | nil => exact .ok rfl
  | cons m ns ih =>
    rw [List.foldlM_cons]
    refine (agree_divide n m).bind fun {q r} same => ?_
    subst same
    exact ih q

theorem agree_quotientOf {as bs : List Value} (h : List.Forall₂ (Matches P) as bs) :
    Agree P (Matches P) (quotientOf as) (quotientOf bs) := by
  have valued {x : Except Fault Number} (h : Agree P Eq x x) :
      Agree P (Matches P) (do .ok (← x).value) (do .ok (← x).value) :=
    h.bind fun {m n} same => by
      subst same
      exact .ok m.matches_value
  refine (agree_numbers h).bind fun {ms ns} same => ?_
  subst same
  match ms with
  | [] => exact .error (.plain nofun)
  | [n] => exact valued (agree_divide (.integer 1) n)
  | n :: m :: ns => exact valued (agree_foldlM_divide n (m :: ns))

theorem agree_chain {holds : Value → Value → Except Fault Bool}
    (each : ∀ {a b c d : Value}, a.Matches P b → c.Matches P d →
      Agree P Eq (holds a c) (holds b d)) {as bs : List Value}
    (h : List.Forall₂ (Matches P) as bs) : Agree P Eq (chain holds as) (chain holds bs) := by
  induction h with
  | nil => exact .ok rfl
  | cons first rest ih =>
    cases rest with
    | nil => exact .ok rfl
    | cons second rest =>
      refine (each first second).bind fun {x y} same => ?_
      subst same
      cases x with
      | true => exact ih
      | false => exact .ok rfl

theorem agree_nth? {v w x y : Value} (h : v.Matches P w) (index : x.Matches P y) :
    Agree P (Matches P) (nth? v x) (nth? w y) := by
  cases index with
  | integer i =>
    refine h.items?.bind fun {as bs} items => ?_
    have found : Option.Rel (Matches P) (if i < 0 then none else as[i.toInt.toNat]?)
        (if i < 0 then none else bs[i.toInt.toNat]?) := by
      split
      · exact .none
      · exact rel_getElem? items _
    rw [items.length_eq]
    revert found
    generalize (if i < 0 then none else as[i.toInt.toNat]?) = item
    generalize (if i < 0 then none else bs[i.toInt.toNat]?) = other
    intro found
    cases found with
    | some item => exact .ok item
    | none => exact .error (.plain nofun)
  | _ => exact .error (.plain nofun)

theorem matches_getLastD {as bs : List Value} (h : List.Forall₂ (Matches P) as bs) :
    (as.getLastD .null).Matches P (bs.getLastD .null) := by
  have last := rel_getElem? h (as.length - 1)
  rw [List.getLastD_eq_getLast?, List.getLastD_eq_getLast?, List.getLast?_eq_getElem?,
    List.getLast?_eq_getElem?, ← h.length_eq]
  revert last
  generalize as[as.length - 1]? = item
  generalize bs[as.length - 1]? = other
  intro last
  cases last with
  | none => exact .null
  | some item => exact item

theorem matches_applyTo {as bs : List Value} (h : List.Forall₂ (Matches P) as bs) :
    (applyTo as).Matches P (applyTo bs) := by
  have before : List.Forall₂ (Matches P) as.dropLast bs.dropLast := by
    rw [List.dropLast_eq_take, List.dropLast_eq_take, ← h.length_eq]
    exact List.forall₂_take _ h
  have last := (matches_getLastD h).items?
  unfold applyTo
  revert before last
  generalize (as.getLastD .null).items? = spread
  generalize (bs.getLastD .null).items? = other
  generalize as.dropLast = firsts
  generalize bs.dropLast = others
  intro before last
  cases last with
  | error faults => exact .fault faults
  | ok items =>
    cases before with
    | nil => exact .fault (.plain nofun)
    | cons callee rest => exact .call callee (List.rel_append rest items)

end Operation

theorem Reply.matches_ofResult {x y : Except Fault Value} (h : Agree P (Value.Matches P) x y) :
    (ofResult x).Matches P (ofResult y) := by
  cases h with
  | ok value => exact .answer value
  | error faults => exact .fault faults

theorem Reply.matches_one (reply : List Value → Reply) {arity : Arity}
    (each : ∀ {v w : Value}, v.Matches P w → (reply [v]).Matches P (reply [w]))
    (none : reply [] = .fault (.unmatchedArity arity 0))
    (more : ∀ v w vs, reply (v :: w :: vs) = .fault (.unmatchedArity arity (vs.length + 2)))
    {as bs : List Value} (h : List.Forall₂ (Value.Matches P) as bs) :
    (reply as).Matches P (reply bs) := by
  match as, bs, h with
  | [], [], .nil =>
    rw [none]
    exact .fault (.plain nofun)
  | [_], [_], .cons first .nil => exact each first
  | _ :: _ :: _, _ :: _ :: _, .cons _ (.cons _ rest) =>
    rw [more, more, rest.length_eq]
    exact .fault (.plain nofun)

theorem Reply.matches_two (reply : List Value → Reply) {arity : Arity}
    (each : ∀ {a b c d : Value}, a.Matches P b → c.Matches P d →
      (reply [a, c]).Matches P (reply [b, d]))
    (none : reply [] = .fault (.unmatchedArity arity 0))
    (one : ∀ v, reply [v] = .fault (.unmatchedArity arity 1))
    (more : ∀ u v w vs, reply (u :: v :: w :: vs) = .fault (.unmatchedArity arity (vs.length + 3)))
    {as bs : List Value} (h : List.Forall₂ (Value.Matches P) as bs) :
    (reply as).Matches P (reply bs) := by
  match as, bs, h with
  | [], [], .nil =>
    rw [none]
    exact .fault (.plain nofun)
  | [_], [_], .cons _ .nil =>
    rw [one, one]
    exact .fault (.plain nofun)
  | [_, _], [_, _], .cons first (.cons second .nil) => exact each first second
  | _ :: _ :: _ :: _, _ :: _ :: _ :: _, .cons _ (.cons _ (.cons _ rest)) =>
    rw [more, more, rest.length_eq]
    exact .fault (.plain nofun)

theorem agree_count {v w : Value} (h : v.Matches P w) :
    Agree P (Matches P) (v.items?.map fun items => .integer (Int64.ofNat items.length))
      (w.items?.map fun items => .integer (Int64.ofNat items.length)) :=
  h.items?.map fun items => by
    rw [items.length_eq]
    exact .integer _

/-- A builtin does with matching arguments what matches. -/
theorem Builtin.matches_reply (alike : Alikeness P) (b : Builtin) {as bs : List Value}
    (h : List.Forall₂ (Matches P) as bs) : (b.reply as).Matches P (b.reply bs) := by
  obtain ⟨name, arity, operation, intrinsic⟩ := b
  cases operation with
  | sum => exact Reply.matches_ofResult (Operation.agree_total .add _ h)
  | product => exact Reply.matches_ofResult (Operation.agree_total .mul _ h)
  | difference => exact Reply.matches_ofResult (Operation.agree_differenceOf h)
  | quotient => exact Reply.matches_ofResult (Operation.agree_quotientOf h)
  | same =>
    exact Reply.matches_ofResult (agree_bool (Operation.agree_chain
      (fun left right => .ok (Matches.same alike left right)) h))
  | ordered c =>
    exact Reply.matches_ofResult (agree_bool (Operation.agree_chain (agree_compareNumbers c) h))
  | list => exact .answer (Matches.ofList h)
  | vector => exact .answer (.vector h)
  | apply => exact Operation.matches_applyTo h
  | note => exact .noted _ _ (Matches.head h)
  | not =>
    refine Reply.matches_one (Builtin.reply _) (fun {v w} h => ?_) rfl (fun _ _ _ => rfl) h
    show Reply.Matches P (.answer (.bool !v.holds)) (.answer (.bool !w.holds))
    rw [h.holds]
    exact .answer (.bool _)
  | car =>
    refine Reply.matches_one (Builtin.reply _) (fun h => ?_) rfl (fun _ _ _ => rfl) h
    exact Reply.matches_ofResult h.car?
  | cdr =>
    refine Reply.matches_one (Builtin.reply _) (fun h => ?_) rfl (fun _ _ _ => rfl) h
    exact Reply.matches_ofResult h.cdr?
  | isEmpty =>
    refine Reply.matches_one (Builtin.reply _) (fun h => ?_) rfl (fun _ _ _ => rfl) h
    exact Reply.matches_ofResult (agree_bool h.isEmpty?)
  | count =>
    refine Reply.matches_one (Builtin.reply _) (fun h => ?_) rfl (fun _ _ _ => rfl) h
    exact Reply.matches_ofResult (agree_count h)
  | raise =>
    refine Reply.matches_one (Builtin.reply _) (fun h => ?_) rfl (fun _ _ _ => rfl) h
    exact .fault (.raised h)
  | remainder =>
    refine Reply.matches_two (Builtin.reply _) (fun left right => ?_) rfl (fun _ => rfl)
      (fun _ _ _ _ => rfl) h
    exact Reply.matches_ofResult (agree_arithmetic Number.rem? left right)
  | cons =>
    refine Reply.matches_two (Builtin.reply _) (fun item v => ?_) rfl (fun _ => rfl)
      (fun _ _ _ _ => rfl) h
    exact Reply.matches_ofResult (v.prepend? item)
  | nth =>
    refine Reply.matches_two (Builtin.reply _) (fun v index => ?_) rfl (fun _ => rfl)
      (fun _ _ _ _ => rfl) h
    exact Reply.matches_ofResult (Operation.agree_nth? v index)
  | recover =>
    refine Reply.matches_two (Builtin.reply _) (fun thunk handler => ?_) rfl (fun _ => rfl)
      (fun _ _ _ _ => rfl) h
    exact .guarded thunk handler

end StackLisp
