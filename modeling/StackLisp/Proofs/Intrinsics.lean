import StackLisp.Proofs.Doubles
import StackLisp.Proofs.Elaboration
import StackLisp.Proofs.Staging

/-!
Operations in place of calls. Where a call of a core builtin is written as an operation on operands, the
machine comes to the value or the fault that the call comes to, with one exception. A sum starts with the
integer zero when it is called, and with its first operand in place, so that only the latter is negative
zero if all operands are.
-/

namespace StackLisp

/-! ### Numbers -/

namespace Number

theorem exactOr_toInt (n : Int64) (x : Float) : exactOr n.toInt x = .integer n := by
  have low : Int64.minValue.toInt ≤ n.toInt := n.minValue_le_toInt
  have high : n.toInt ≤ Int64.maxValue.toInt := n.toInt_le
  have within : fits n.toInt = true := by
    rw [fits, Bool.and_eq_true, decide_eq_true_eq, decide_eq_true_eq]
    exact ⟨low, high⟩
  rw [exactOr, if_pos within, Int64.ofInt_toInt]

theorem round_zero : round 0 = 0.0 := by
  decide +kernel

theorem round_one : round 1 = 1.0 := by
  decide +kernel

theorem zero_add {n : Number} (other : n ≠ .float (-0.0)) : add (.integer 0) n = n := by
  cases n with
  | integer n =>
    show exactOr (0 + n.toInt) _ = _
    rw [Int.zero_add, exactOr_toInt]
  | float x =>
    show float (round 0 + x) = float x
    rw [round_zero, Double.zero_add fun same => other (same ▸ rfl)]

theorem one_mul (n : Number) : mul (.integer 1) n = n := by
  cases n with
  | integer n =>
    show exactOr (1 * n.toInt) _ = _
    rw [Int.one_mul, exactOr_toInt]
  | float x =>
    show float (round 1 * x) = float x
    rw [round_one, Double.one_mul]

/-- Which zero a sum started with is lost with the first other number. -/
theorem add_zeros {n : Number} (other : n ≠ .float (-0.0)) : add (.float 0.0) n = add (.float (-0.0)) n := by
  have same : ∀ x : Float, x ≠ -0.0 → (0.0 : Float) + x = -0.0 + x := by
    intro x other
    rw [Double.zero_add other, Double.negZero_add]
  cases n with
  | integer n => exact congrArg float (same (round n) (Double.round_ne_negZero n))
  | float x => exact congrArg float (same x fun negative => other (negative ▸ rfl))

theorem negZero_add_negZero : add (.float (-0.0)) (.float (-0.0)) = .float (-0.0) := by
  decide +kernel

theorem zero_add_negZero : add (.float 0.0) (.float (-0.0)) = .float 0.0 := by
  decide +kernel

theorem integer_add_negZero : add (.integer 0) (.float (-0.0)) = .float 0.0 := by
  decide +kernel

theorem foldl_add_zeros {ns : List Number} (other : ∃ n ∈ ns, n ≠ .float (-0.0)) :
    ns.foldl add (.float 0.0) = ns.foldl add (.float (-0.0)) := by
  induction ns with
  | nil => simp at other
  | cons n ns ih =>
    by_cases negative : n = .float (-0.0)
    · subst negative
      rw [List.foldl_cons, List.foldl_cons, zero_add_negZero, negZero_add_negZero]
      exact ih (by simpa using other)
    · rw [List.foldl_cons, List.foldl_cons, add_zeros negative]

/-- A sum may start with its first number, unless all are negative zero. -/
theorem foldl_add {n : Number} {ns : List Number} (other : ∃ m ∈ n :: ns, m ≠ .float (-0.0)) :
    (n :: ns).foldl add (.integer 0) = ns.foldl add n := by
  by_cases negative : n = .float (-0.0)
  · subst negative
    rw [List.foldl_cons, integer_add_negZero]
    exact foldl_add_zeros (by simpa using other)
  · rw [List.foldl_cons, zero_add negative]

theorem foldl_mul (n : Number) (ns : List Number) : (n :: ns).foldl mul (.integer 1) = ns.foldl mul n := by
  rw [List.foldl_cons, one_mul]

theorem foldl_add_negZeros {ns : List Number} (all : ∀ n ∈ ns, n = .float (-0.0)) (x : Number)
    (kept : add x (.float (-0.0)) = x) : ns.foldl add x = x := by
  induction ns with
  | nil => rfl
  | cons n ns ih =>
    obtain ⟨rfl, rest⟩ := List.forall_mem_cons.mp all
    rw [List.foldl_cons, kept, ih rest]

end Number

/-! ### Values -/

theorem Number.number?_value (n : Number) : n.value.number? = .ok n := by
  cases n <;> rfl

theorem numbers_cons (v : Value) (vs : List Value) :
    Operation.numbers (v :: vs) = (do
      let n ← v.number?
      let ns ← Operation.numbers vs
      pure (n :: ns)) :=
  List.mapM_cons

theorem foldlM_number (f : Number → Number → Number) (n : Number) (vs : List Value) :
    vs.foldlM (arithmetic fun l r => some (f l r)) n.value =
      (Operation.numbers vs).map fun ns => (ns.foldl f n).value := by
  induction vs generalizing n with
  | nil => rfl
  | cons v vs ih =>
    rw [List.foldlM_cons, numbers_cons, arithmetic, n.number?_value]
    cases v.number? with
    | error e => rfl
    | ok m =>
      show vs.foldlM _ (f n m).value = _
      rw [ih]
      cases Operation.numbers vs <;> rfl

/-- An operation on numbers, repeated over two operands or more, looks at them in their order. -/
theorem foldlM_numbers (f : Number → Number → Number) (v w : Value) (vs : List Value) :
    (w :: vs).foldlM (arithmetic fun l r => some (f l r)) v = (do
      let n ← v.number?
      let ns ← Operation.numbers (w :: vs)
      pure (ns.foldl f n).value) := by
  rw [List.foldlM_cons, numbers_cons, arithmetic]
  cases v.number? with
  | error e => rfl
  | ok n =>
    cases w.number? with
    | error e => rfl
    | ok m =>
      show vs.foldlM _ (f n m).value = _
      rw [foldlM_number]
      cases Operation.numbers vs <;> rfl

/-- Operations in place of a call: what operands come to, the first one on top. -/
def Opcode.inPlace (op : Opcode) : List Value → Option (Except Fault Value)
  | [v] => op.unary?.map (· v)
  | v :: vs => op.binary?.map fun f => vs.foldlM f v
  | [] => none

/-- All operands are the negative zero. -/
def NegZeros (args : List Value) : Prop :=
  ∀ v ∈ args, v = .float (-0.0)

theorem eq_value_of_number? {v : Value} {n : Number} (h : v.number? = .ok n) : v = n.value := by
  cases v <;> first | cases h; rfl | cases h

theorem eq_values_of_numbers {vs : List Value} {ns : List Number} (h : Operation.numbers vs = .ok ns) :
    vs = ns.map Number.value := by
  induction vs generalizing ns with
  | nil =>
    cases h
    rfl
  | cons v vs ih =>
    rw [numbers_cons] at h
    obtain ⟨n, first, h⟩ := bind_eq_ok.mp h
    obtain ⟨ms, rest, h⟩ := bind_eq_ok.mp h
    cases h
    rw [List.map_cons, ← eq_value_of_number? first, ← ih rest]

theorem negZeros_map {ns : List Number} : NegZeros (ns.map Number.value) ↔ ∀ n ∈ ns, n = .float (-0.0) := by
  have same : ∀ n : Number, n.value = .float (-0.0) ↔ n = .float (-0.0) := by
    intro n
    cases n <;> simp [Number.value]
  simp [NegZeros, same]

/-- A sum in place is the sum, unless all operands are negative zero. -/
theorem sum_inPlace {v w : Value} {vs : List Value} (other : ¬NegZeros (v :: w :: vs)) :
    Operation.total .add (.integer 0) (v :: w :: vs) =
      (w :: vs).foldlM (arithmetic fun l r => some (l.add r)) v := by
  rw [foldlM_numbers, Operation.total, numbers_cons]
  cases first : v.number? with
  | error e => rfl
  | ok n =>
    cases rest : Operation.numbers (w :: vs) with
    | error e => rfl
    | ok ns =>
      show Except.ok ((n :: ns).foldl Number.add (.integer 0)).value = .ok (ns.foldl Number.add n).value
      rw [eq_value_of_number? first, eq_values_of_numbers rest, ← List.map_cons, negZeros_map] at other
      rw [Number.foldl_add (by simpa only [not_forall, exists_prop] using other)]

/-- For these the sum is zero, and the sum in place is negative zero. -/
theorem sum_negZeros {v w : Value} {vs : List Value} (all : NegZeros (v :: w :: vs)) :
    Operation.total .add (.integer 0) (v :: w :: vs) = .ok (.float 0.0) ∧
      (w :: vs).foldlM (arithmetic fun l r => some (l.add r)) v = .ok (.float (-0.0)) := by
  have whole : ∀ {us : List Value}, NegZeros us → ∃ ns, Operation.numbers us = .ok ns ∧ ∀ n ∈ ns, n = .float (-0.0) := by
    intro us all
    induction us with
    | nil => exact ⟨[], rfl, nofun⟩
    | cons u us ih =>
      obtain ⟨rfl, rest⟩ := List.forall_mem_cons.mp all
      obtain ⟨ns, numbers, zeros⟩ := ih rest
      refine ⟨.float (-0.0) :: ns, ?_, List.forall_mem_cons.mpr ⟨rfl, zeros⟩⟩
      rw [numbers_cons, numbers]
      rfl
  obtain ⟨rfl, rest⟩ := List.forall_mem_cons.mp all
  obtain ⟨ns, numbers, zeros⟩ := whole rest
  rw [foldlM_numbers, Operation.total, numbers_cons, numbers]
  constructor
  · show Except.ok ((.float (-0.0) :: ns).foldl Number.add (.integer 0)).value = _
    rw [List.foldl_cons, Number.integer_add_negZero, Number.foldl_add_negZeros zeros _ Number.zero_add_negZero]
    rfl
  · show Except.ok (ns.foldl Number.add (.float (-0.0))).value = _
    rw [Number.foldl_add_negZeros zeros _ Number.negZero_add_negZero]
    rfl

theorem product_inPlace (v w : Value) (vs : List Value) :
    Operation.total .mul (.integer 1) (v :: w :: vs) =
      (w :: vs).foldlM (arithmetic fun l r => some (l.mul r)) v := by
  rw [foldlM_numbers, Operation.total, numbers_cons]
  cases v.number? with
  | error e => rfl
  | ok n =>
    cases Operation.numbers (w :: vs) with
    | error e => rfl
    | ok ns =>
      show Except.ok ((n :: ns).foldl Number.mul (.integer 1)).value = .ok (ns.foldl Number.mul n).value
      rw [Number.foldl_mul]

theorem numbers_two (v w : Value) :
    Operation.numbers [v, w] = (do
      let n ← v.number?
      let m ← w.number?
      pure [n, m]) := by
  rw [numbers_cons, numbers_cons]
  cases v.number? with
  | error e => rfl
  | ok n => cases w.number? <;> rfl

theorem difference_inPlace (v w : Value) :
    Operation.differenceOf [v, w] = arithmetic (fun l r => some (l.sub r)) v w := by
  rw [Operation.differenceOf, numbers_two, arithmetic]
  cases v.number? with
  | error e => rfl
  | ok n => cases w.number? <;> rfl

theorem quotient_inPlace (v w : Value) : Operation.quotientOf [v, w] = arithmetic Number.div? v w := by
  rw [Operation.quotientOf, numbers_two, arithmetic]
  cases v.number? with
  | error e => rfl
  | ok n =>
    cases w.number? with
    | error e => rfl
    | ok m =>
      show (do Except.ok (← [m].foldlM Operation.divide n).value) = _
      rw [List.foldlM_cons, Operation.divide]
      dsimp only [bind, Except.bind]
      cases n.div? m <;> rfl

theorem chain_inPlace (holds : Value → Value → Except Fault Bool) (v w : Value) :
    Operation.chain holds [v, w] = holds v w := by
  rw [Operation.chain]
  cases holds v w with
  | error e => rfl
  | ok b => cases b <;> rfl

/-- A call of a builtin with arguments and its operations on the same operands come to the same, but for
a sum of negative zeros. -/
structure Builtin.Agrees (b : Builtin) (args : List Value) (called inPlace : Except Fault Value) : Prop where
  same : ¬(b.name = "+" ∧ NegZeros args) → inPlace = called
  zeros : b.name = "+" → NegZeros args → called = .ok (.float 0.0) ∧ inPlace = .ok (.float (-0.0))

theorem Builtin.agrees_of_eq {b : Builtin} {args : List Value} {called inPlace : Except Fault Value}
    (other : b.name ≠ "+") (same : inPlace = called) : b.Agrees args called inPlace :=
  ⟨fun _ => same, fun sum => absurd sum other⟩

/-- The reply to a call that may be written as operations, and what these come to. -/
structure Builtin.Expands (b : Builtin) (args : List Value) (op : Opcode) (called inPlace : Except Fault Value) :
    Prop where
  accepted : b.arity.accepts args.length = true
  reply : b.reply args = .ofResult called
  operations : op.inPlace args = some inPlace
  agrees : b.Agrees args called inPlace

section Expansion

variable {b : Builtin} {args : List Value} {op o : Opcode} {times : Nat}

theorem Builtin.expands_fold (intrinsic : b.intrinsic = some (.fold o))
    (expansion : Compile.expansion? b args.length = some (op, times))
    (each : ∀ v w vs, ∃ called inPlace, b.Expands (v :: w :: vs) o called inPlace) :
    ∃ called inPlace, b.Expands args op called inPlace := by
  unfold Compile.expansion? at expansion
  rw [intrinsic] at expansion
  match args, expansion with
  | v :: w :: vs, expansion =>
    cases expansion
    exact each v w vs

theorem Builtin.expands_binary {f : Value → Value → Except Fault Value} (means : o.binary? = some f)
    (intrinsic : b.intrinsic = some (.binary o)) (accepted : b.arity.accepts 2 = true) (other : b.name ≠ "+")
    (expansion : Compile.expansion? b args.length = some (op, times))
    (replies : ∀ v w, b.reply [v, w] = .ofResult (f v w)) :
    ∃ called inPlace, b.Expands args op called inPlace := by
  unfold Compile.expansion? at expansion
  rw [intrinsic] at expansion
  match args, expansion with
  | [v, w], expansion =>
    cases expansion
    refine ⟨f v w, f v w, accepted, replies v w, ?_, agrees_of_eq other rfl⟩
    show op.binary?.map _ = _
    rw [means, Option.map_some, List.foldlM_cons]
    simp only [List.foldlM_nil, bind_pure]

theorem Builtin.expands_unary {f : Value → Except Fault Value} (means : o.unary? = some f)
    (intrinsic : b.intrinsic = some (.unary o)) (accepted : b.arity.accepts 1 = true) (other : b.name ≠ "+")
    (expansion : Compile.expansion? b args.length = some (op, times))
    (replies : ∀ v, b.reply [v] = .ofResult (f v)) :
    ∃ called inPlace, b.Expands args op called inPlace := by
  unfold Compile.expansion? at expansion
  rw [intrinsic] at expansion
  match args, expansion with
  | [v], expansion =>
    cases expansion
    refine ⟨f v, f v, accepted, replies v, ?_, agrees_of_eq other rfl⟩
    show op.unary?.map _ = _
    rw [means, Option.map_some]

end Expansion

/-- Each core builtin that may be written as operations means what these mean. -/
theorem Builtin.expands_of_core {b : Builtin} (core : b ∈ Builtin.core) {args : List Value} {op : Opcode}
    {times : Nat} (expansion : Compile.expansion? b args.length = some (op, times)) :
    ∃ called inPlace, b.Expands args op called inPlace := by
  have comparing (c : Comparison) (v w : Value) :
      Reply.ofResult ((Operation.chain (compareNumbers c) [v, w]).map .bool) =
        .ofResult (Opcode.binary?.comparison c v w) := by
    rw [chain_inPlace]
    rfl
  have equal (v w : Value) :
      Reply.ofResult ((Operation.chain (fun x y => .ok (x == y)) [v, w]).map .bool) =
        .ofResult (.ok (.bool (v == w))) := by
    rw [chain_inPlace]
    rfl
  simp only [Builtin.core, List.mem_cons, List.not_mem_nil, or_false] at core
  rcases core with rfl | rfl | rfl | rfl | rfl | rfl | rfl | rfl | rfl | rfl | rfl | rfl | rfl | rfl | rfl |
    rfl | rfl | rfl | rfl | rfl | rfl | rfl | rfl
  case inl =>
    refine Builtin.expands_fold rfl expansion fun v w vs => ⟨_, _, rfl, rfl, rfl, ?_, ?_⟩
    · intro other
      exact (sum_inPlace fun all => other ⟨rfl, all⟩).symm
    · intro _ all
      exact sum_negZeros all
  case inr.inl =>
    exact Builtin.expands_binary rfl rfl rfl (by decide) expansion fun v w =>
      congrArg Reply.ofResult (difference_inPlace v w)
  case inr.inr.inl =>
    refine Builtin.expands_fold rfl expansion fun v w vs => ⟨_, _, rfl, rfl, rfl, Builtin.agrees_of_eq (by decide) ?_⟩
    exact (product_inPlace v w vs).symm
  case inr.inr.inr.inl =>
    exact Builtin.expands_binary rfl rfl rfl (by decide) expansion fun v w =>
      congrArg Reply.ofResult (quotient_inPlace v w)
  all_goals first
    | cases expansion
    | exact Builtin.expands_binary rfl rfl rfl (by decide) expansion fun v w => rfl
    | exact Builtin.expands_unary rfl rfl rfl (by decide) expansion fun v => rfl
    | exact Builtin.expands_binary rfl rfl rfl (by decide) expansion (comparing _)
    | exact Builtin.expands_binary rfl rfl rfl (by decide) expansion equal

/-! ### Steps in place -/

theorem Activation.Shows.length_stack_le {a : Activation} {s : Scene} (shows : a.Shows s) :
    s.stack.length ≤ s.closure.procedure.stackSize := by
  have base : a.base = s.closure.procedure.stackSize :=
    congrArg (fun c : Closure => c.procedure.stackSize) shows.closure
  rw [← base, ← shows.level]
  exact Nat.le_add_left _ _

namespace Act

theorem takes_of_binary {op : Opcode} {f : Value → Value → Except Fault Value} (means : op.binary? = some f)
    {s : Scene} (room : s.stack.length < s.closure.procedure.stackSize) (store : Store) (left right : Value) :
    Takes store (perform store op.bare) ((s.push right).push left) s (s.giveResult store (f left right)) := by
  refine takes_globals (f := fun globals => performIn globals store op.bare) rfl ?_
  cases op <;> cases means <;> exact takes_binary _ room

theorem takes_of_unary {op : Opcode} {f : Value → Except Fault Value} (means : op.unary? = some f)
    {s : Scene} (room : s.stack.length < s.closure.procedure.stackSize) (store : Store) (v : Value) :
    Takes store (perform store op.bare) (s.push v) s (s.giveResult store (f v)) := by
  refine takes_globals (f := fun globals => performIn globals store op.bare) rfl ?_
  cases op <;> cases means <;> exact takes_unary _ room

end Act

namespace Machine.State

/-- With so many steps an activation is past so many instructions and has pushed a value; or a fault ends
it within these. -/
def Results (u : State) (s : Scene) (count : Nat) : Except Fault Value → Prop
  | .ok v => ∃ m a, step^[count] u = ⟨m, .running a, u.pending⟩ ∧
      a.Shows (({ s with pc := s.pc + count } : Scene).push v)
  | .error f => ∃ n ≤ count, ∃ m, step^[n] u = ⟨m, .unwinding f, u.pending⟩

theorem Results.one {m : Machine} {pending : List Pending} {a : Activation} {s t : Scene} {op : Opcode}
    {r : Except Fault Value} (shows : a.Shows t) (pc : t.pc = s.pc)
    (here : a.procedure.code[a.pc]? = some op.bare)
    (takes : ∀ store, Act.Takes store (Act.perform store op.bare) { t with pc := s.pc + 1 }
      { s with pc := s.pc + 1 } (({ s with pc := s.pc + 1 } : Scene).giveResult store r)) :
    Results ⟨m, .running a, pending⟩ s 1 r := by
  have advanced : ({ a with pc := a.pc + 1 } : Activation).Shows { t with pc := s.pc + 1 } :=
    { shows with pc := congrArg (· + 1) (shows.pc.trans pc) }
  have takes := takes (traced m a op.bare).store
  cases r with
  | error f =>
    obtain ⟨b, ended, -, -⟩ := takes _ advanced
    exact ⟨1, Nat.le_refl 1, _, step_of_fails here ended⟩
  | ok v =>
    obtain ⟨b, ended, shows, -⟩ := takes _ advanced
    exact ⟨_, b, step_of_ends here ended, shows⟩

theorem Results.after {m : Machine} {u : State} {a : Activation} {s : Scene} {count : Nat}
    {r : Except Fault Value} (first : u.step = ⟨m, .running a, u.pending⟩)
    (rest : Results ⟨m, .running a, u.pending⟩ { s with pc := s.pc + 1 } count r) :
    Results u s (count + 1) r := by
  cases r with
  | error f =>
    obtain ⟨n, within, k, ended⟩ := rest
    refine ⟨n + 1, Nat.succ_le_succ within, k, ?_⟩
    rw [Function.iterate_succ_apply, first]
    exact ended
  | ok v =>
    obtain ⟨k, b, ended, shows⟩ := rest
    refine ⟨k, b, ?_, ?_⟩
    · rw [Function.iterate_succ_apply, first]
      exact ended
    · rw [Nat.add_comm count, ← Nat.add_assoc]
      exact shows

/-- As often as an operation stands in the code, it takes another operand. -/
theorem results_binary {op : Opcode} {f : Value → Value → Except Fault Value} (means : op.binary? = some f)
    {m : Machine} {pending : List Pending} {a : Activation} {s : Scene} {v : Value} {vs : List Value}
    (shows : a.Shows { s with stack := v :: vs ++ s.stack })
    (here : ∀ k < vs.length, a.procedure.code[a.pc + k]? = some op.bare) :
    Results ⟨m, .running a, pending⟩ s vs.length (vs.foldlM f v) := by
  induction vs generalizing m a s v with
  | nil => exact ⟨m, a, rfl, shows⟩
  | cons w vs ih =>
    have full : (v :: w :: vs ++ s.stack).length ≤ s.closure.procedure.stackSize := shows.length_stack_le
    have room : (vs ++ s.stack).length < s.closure.procedure.stackSize := by
      simp only [List.cons_append, List.length_cons] at full
      omega
    have one : Results ⟨m, .running a, pending⟩ { s with stack := vs ++ s.stack } 1 (f v w) :=
      Results.one shows rfl (here 0 (Nat.succ_pos _)) fun store =>
        Act.takes_of_binary (s := { s with stack := vs ++ s.stack, pc := s.pc + 1 }) means room store v w
    rw [List.foldlM_cons]
    cases result : f v w with
    | error e =>
      rw [result] at one
      obtain ⟨n, within, k, ended⟩ := one
      exact ⟨n, Nat.le_trans within (Nat.succ_le_succ (Nat.zero_le _)), k, ended⟩
    | ok u =>
      rw [result] at one
      obtain ⟨k, b, ended, shown⟩ := one
      refine Results.after ended (ih (s := { s with pc := s.pc + 1 }) shown fun k within => ?_)
      have same : b.procedure = a.procedure := congrArg Closure.procedure (shown.closure.trans shows.closure.symm)
      have next : b.pc = a.pc + 1 := shown.pc.trans (congrArg (· + 1) shows.pc.symm)
      rw [same, next, Nat.add_assoc, Nat.add_comm 1]
      exact here (k + 1) (Nat.succ_lt_succ within)

theorem results_unary {op : Opcode} {f : Value → Except Fault Value} (means : op.unary? = some f)
    {m : Machine} {pending : List Pending} {a : Activation} {s : Scene} {v : Value}
    (shows : a.Shows (s.push v)) (here : a.procedure.code[a.pc]? = some op.bare) :
    Results ⟨m, .running a, pending⟩ s 1 (f v) := by
  have room : s.stack.length < s.closure.procedure.stackSize := shows.length_stack_le
  exact Results.one shows rfl here fun store =>
    Act.takes_of_unary (s := { s with pc := s.pc + 1 }) means room store v

/-- An operation stands once for each operand after the first, and once for a single one. -/
theorem results_inPlace {op : Opcode} {args : List Value} {r : Except Fault Value}
    (means : op.inPlace args = some r) {m : Machine} {pending : List Pending} {a : Activation} {s : Scene}
    (shows : a.Shows { s with stack := args ++ s.stack })
    (here : ∀ k < max 1 (args.length - 1), a.procedure.code[a.pc + k]? = some op.bare) :
    Results ⟨m, .running a, pending⟩ s (max 1 (args.length - 1)) r := by
  match args, means with
  | [v], means =>
    obtain ⟨f, own, rfl⟩ := Option.map_eq_some_iff.mp means
    exact results_unary own shows (here 0 Nat.one_pos)
  | v :: w :: vs, means =>
    obtain ⟨f, own, rfl⟩ := Option.map_eq_some_iff.mp means
    have count : max 1 ((v :: w :: vs).length - 1) = (w :: vs).length :=
      Nat.max_eq_right (Nat.succ_le_succ (Nat.zero_le _))
    rw [count] at here ⊢
    exact results_binary own shows here

end Machine.State

/-! ### Calls and operations -/

def Outcome.ofResult : Except Fault Value → Outcome
  | .ok v => value v
  | .error f => fault f

/-- A builtin that answers or faults at once leaves the machine as it was. -/
theorem Machine.call_of_reply {b : Builtin} {args : List Value} {r : Except Fault Value}
    (accepted : b.arity.accepts args.length = true) (replies : b.reply args = .ofResult r) (m : Machine)
    (fuel : Nat) : m.call (fuel + 2) (.builtin b) args = some (.ofResult r, m) := by
  have checked : ((Value.builtin b).callable?.bind (·.check args.length)) = .ok () := by
    show b.arity.check args.length = .ok ()
    rw [Arity.check, if_pos accepted]
  have step : State.step ⟨m, .calling (.builtin b) args, []⟩ = State.reply m [] (.ofResult r) := by
    show State.callValue m [] (.builtin b) args = _
    unfold State.callValue
    rw [checked]
    show State.reply m [] (b.reply args) = _
    rw [replies]
  show State.run (fuel + 1) (State.step ⟨m, .calling (.builtin b) args, []⟩) = _
  rw [step]
  cases r <;> rfl

theorem Compile.expansion?_times {b : Builtin} {count : Nat} {op : Opcode} {times : Nat}
    (expansion : Compile.expansion? b count = some (op, times)) : times = max 1 (count - 1) := by
  obtain ⟨intrinsic, -, expansion⟩ := Option.bind_eq_some_iff.mp expansion
  unfold Intrinsic.expand? at expansion
  split at expansion <;> cases expansion <;> rfl

/-- A static call that is expanded is its operands, the last first, and the operation as often as the
expansion says. -/
theorem Compile.staticCall_expanded {b : Builtin} {forms : List Value} {op : Opcode} {times : Nat}
    (expansion : Compile.expansion? b forms.length = some (op, times)) {form : FormCompiler}
    {special : SpecialForm → List Value → Encode Unit} {name : String} {w x : Workshop}
    (emitted : Yields (staticCall form special name (.builtin b) forms) w () x) :
    ∃ u, Yields (arguments form forms) w () u ∧ x = u.emitAll (List.replicate times op.bare) := by
  unfold staticCall at emitted
  dsimp only at emitted
  rw [expansion] at emitted
  obtain ⟨_, u, operands, operations⟩ := Yields.bind_iff.mp emitted
  exact ⟨u, operands, replicate_yields operations⟩

/-- A core builtin that is expanded for some arguments comes to one result when it is called with them,
and its operations come to one when they find them on the stack. These are the same, but for a sum all of
whose arguments are negative zero. -/
theorem expansion_agrees {b : Builtin} (core : b ∈ Builtin.core) {args : List Value} {op : Opcode}
    {times : Nat} (expansion : Compile.expansion? b args.length = some (op, times)) :
    ∃ called inPlace,
      (∀ (m : Machine) (fuel : Nat), m.call (fuel + 2) (.builtin b) args = some (.ofResult called, m)) ∧
      (∀ (forms : List Value) (form : Compile.FormCompiler)
        (special : SpecialForm → List Value → Encode Unit) (name : String) (w x : Workshop),
        forms.length = args.length → Yields (Compile.staticCall form special name (.builtin b) forms) w () x →
          ∃ u, Yields (Compile.arguments form forms) w () u ∧
            x = u.emitAll (List.replicate times op.bare)) ∧
      (∀ (m : Machine) (pending : List Pending) (a : Activation) (s : Scene),
        a.Shows { s with stack := args ++ s.stack } →
        (∀ k < times, a.procedure.code[a.pc + k]? = some op.bare) →
          Machine.State.Results ⟨m, .running a, pending⟩ s times inPlace) ∧
      b.Agrees args called inPlace := by
  obtain ⟨called, inPlace, expands⟩ := Builtin.expands_of_core core expansion
  refine ⟨called, inPlace, ?_, ?_, ?_, expands.agrees⟩
  · intro m fuel
    exact Machine.call_of_reply expands.accepted expands.reply m fuel
  · intro forms form special name w x length emitted
    exact Compile.staticCall_expanded (length ▸ expansion) emitted
  · intro m pending a s shows here
    obtain rfl := Compile.expansion?_times expansion
    exact Machine.State.results_inPlace expands.operations shows here

/-- The sum of two negative zeros is zero when it is called, and negative zero when it is in place. -/
theorem expansion_agrees_negZeros :
    ∃ b ∈ Builtin.core, Compile.expansion? b 2 = some (.add, 1) ∧
      (∀ (m : Machine) (fuel : Nat), m.call (fuel + 2) (.builtin b) [.float (-0.0), .float (-0.0)] =
        some (.value (.float 0.0), m)) ∧
      (∀ (m : Machine) (pending : List Pending) (a : Activation) (s : Scene),
        a.Shows ((s.push (.float (-0.0))).push (.float (-0.0))) →
        a.procedure.code[a.pc]? = some (Opcode.add.bare) →
          Machine.State.Results ⟨m, .running a, pending⟩ s 1 (.ok (.float (-0.0)))) := by
  have core : Builtin.core.head nofun ∈ Builtin.core := List.head_mem _
  have expansion : Compile.expansion? (Builtin.core.head nofun) 2 = some (.add, 1) := rfl
  have zeros : NegZeros [.float (-0.0), .float (-0.0)] := by
    simp [NegZeros]
  have agreement := @expansion_agrees _ core [.float (-0.0), .float (-0.0)] _ _ expansion
  obtain ⟨called, inPlace, calls, -, operations, agrees⟩ := agreement
  obtain ⟨rfl, rfl⟩ := agrees.zeros rfl zeros
  refine ⟨_, core, expansion, calls, fun m pending a s shows here => ?_⟩
  refine operations m pending a s shows fun k first => ?_
  obtain rfl := Nat.lt_one_iff.mp first
  exact here

end StackLisp
