import StackLisp.Proofs.Hereditary

/-!
Faults that have to do with references. No operation on values comes to one, no reply of a builtin, and no
instruction but those that look into references or fill them.
-/

namespace StackLisp

/-- Whether a fault tells of a reference, or of a value in the place of one. -/
def Fault.concernsRefs : Fault → Bool
  | typeMismatch expected _ => expected = .reference
  | unboundRef | refAlreadyBound => true
  | _ => false

/-- Faults, if at all, with one that has nothing to do with references. -/
def Spares {α : Type} : Except Fault α → Prop
  | .ok _ => True
  | .error f => f.concernsRefs = false

def Reply.Spares : Reply → Prop
  | .fault f => f.concernsRefs = false
  | _ => True

/-- A turn that leaves the references of the store as they are, and fails, if at all, with nothing that has
to do with references. -/
def Turn.Spares (σ : Store) : Turn → Prop
  | .go _ τ => τ.refs = σ.refs
  | .fault f => f.concernsRefs = false
  | _ => True

section

variable {α β : Type}

theorem Spares.bind {x : Except Fault α} {f : α → Except Fault β} (h : Spares x) (next : ∀ a, Spares (f a)) :
    Spares (x >>= f) := by
  cases x with
  | error f => exact h
  | ok a => exact next a

theorem Spares.map {x : Except Fault α} (h : Spares x) (f : α → β) : Spares (x.map f) := by
  cases x with
  | error f => exact h
  | ok a => exact trivial

theorem Spares.ofResult {r : Except Fault Value} (h : Spares r) : (Reply.ofResult r).Spares := by
  cases r with
  | error f => exact h
  | ok v => exact trivial

end

namespace Value

variable (v item : Value)

theorem spares_number : Spares v.number? := by
  cases v <;> first | exact trivial | exact rfl

theorem spares_symbol : Spares v.symbol? := by
  cases v <;> first | exact trivial | exact rfl

theorem spares_callable : Spares v.callable? := by
  cases v <;> first | exact trivial | exact rfl

theorem spares_isEmpty : Spares v.isEmpty? := by
  cases v <;> first | exact trivial | exact rfl

theorem spares_car : Spares v.car? := by
  cases v <;> first | exact trivial | exact rfl

theorem spares_cdr : Spares v.cdr? := by
  unfold cdr?
  split <;> first | exact trivial | exact rfl

theorem spares_prepend : Spares (v.prepend? item) := by
  cases v <;> first | exact trivial | exact rfl

theorem spares_items : Spares v.items? := by
  unfold items?
  split
  · exact trivial
  · split <;> first | exact trivial | exact rfl
  · split <;> first | exact trivial | exact rfl
  · exact rfl

end Value

section

variable (args : List Value) (a b : Value)

theorem spares_numbers : Spares (Operation.numbers args) := by
  unfold Operation.numbers
  induction args with
  | nil => exact trivial
  | cons v vs ih =>
    rw [List.mapM_cons]
    exact v.spares_number.bind fun n => ih.bind fun ns => trivial

theorem spares_arithmetic (f : Number → Number → Option Number) : Spares (arithmetic f a b) := by
  refine a.spares_number.bind fun l => b.spares_number.bind fun r => ?_
  split
  · exact trivial
  · exact rfl

theorem spares_compareNumbers (c : Comparison) : Spares (compareNumbers c a b) :=
  a.spares_number.bind fun _ => b.spares_number.bind fun _ => trivial

theorem spares_divide (m n : Number) : Spares (Operation.divide m n) := by
  unfold Operation.divide
  split
  · exact trivial
  · exact rfl

theorem spares_divideAll (ns : List Number) (n : Number) : Spares (ns.foldlM Operation.divide n) := by
  induction ns generalizing n with
  | nil => exact trivial
  | cons m ns ih =>
    rw [List.foldlM_cons]
    exact (spares_divide n m).bind ih

theorem spares_chain {holds : Value → Value → Except Fault Bool} (each : ∀ a b, Spares (holds a b)) :
    Spares (Operation.chain holds args) := by
  fun_induction Operation.chain holds args with
  | case1 a b rest ih =>
    refine (each a b).bind fun ordered => ?_
    cases ordered with
    | false => exact trivial
    | true => exact ih
  | case2 => exact trivial

theorem spares_nth : Spares (Operation.nth? a b) := by
  unfold Operation.nth?
  split
  · refine a.spares_items.bind fun items => ?_
    split
    · exact trivial
    · exact rfl
  · exact rfl

theorem spares_binary {op : Opcode} {f : Value → Value → Except Fault Value} (meaning : op.binary? = some f) :
    Spares (f a b) := by
  cases op <;> cases meaning
  case eq => exact trivial
  case cons => exact b.spares_prepend a
  all_goals first | exact spares_arithmetic a b _ | exact (spares_compareNumbers a b _).map _

theorem spares_unary {op : Opcode} {f : Value → Except Fault Value} (meaning : op.unary? = some f) :
    Spares (f a) := by
  cases op <;> cases meaning
  case neg => exact a.spares_number.map _
  case not => exact trivial
  case car => exact a.spares_car
  case cdr => exact a.spares_cdr
  case empty => exact a.spares_isEmpty.map _

theorem Operation.applyTo_spares : (Operation.applyTo args).Spares := by
  have spread := (args.getLastD .null).spares_items
  unfold Operation.applyTo
  split
  next f _ failed =>
    rw [failed] at spread
    exact spread
  · exact trivial
  · exact rfl

theorem Builtin.reply_spares (builtin : Builtin) : (builtin.reply args).Spares := by
  have numbers {f : List Number → Except Fault Value} (each : ∀ ns, Spares (f ns)) (args : List Value) :
      (Reply.ofResult (Operation.numbers args >>= f)).Spares :=
    ((spares_numbers args).bind each).ofResult
  unfold Builtin.reply
  split
  · refine numbers (fun ns => ?_) _
    exact trivial
  · refine numbers (fun ns => ?_) _
    exact trivial
  · refine numbers (fun ns => ?_) _
    split <;> first | exact trivial | exact rfl
  · refine numbers (fun ns => ?_) _
    split
    · exact rfl
    · exact (spares_divide _ _).bind fun _ => trivial
    · exact (spares_divideAll _ _).bind fun _ => trivial
  · exact (spares_arithmetic _ _ _).ofResult
  · have total (a b : Value) : Spares (.ok (a == b)) := trivial
    exact ((spares_chain _ total).map _).ofResult
  · exact ((spares_chain _ fun a b => spares_compareNumbers a b _).map _).ofResult
  · exact trivial
  · exact (Value.spares_car _).ofResult
  · exact (Value.spares_cdr _).ofResult
  · exact (Value.spares_prepend _ _).ofResult
  · exact trivial
  · exact trivial
  · exact ((Value.spares_isEmpty _).map _).ofResult
  · exact (spares_nth _ _).ofResult
  · exact ((Value.spares_items _).map _).ofResult
  · exact Operation.applyTo_spares _
  · exact trivial
  · exact rfl
  · exact trivial
  · exact rfl

end

namespace Scene

variable {s : Scene} {σ : Store} {i : Instruction}

theorem giveResult_spares {r : Except Fault Value} (h : Spares r) : (s.giveResult σ r).Spares σ := by
  cases r with
  | ok v => exact rfl
  | error f => exact h

theorem keep_spares {r : Except Fault Store} (h : Spares r) (kept : ∀ τ, r = .ok τ → τ.refs = σ.refs) :
    (s.keep r).Spares σ := by
  cases r with
  | ok τ => exact kept τ rfl
  | error f => exact h

theorem fetch_spares (found : Option Value) : (s.fetch σ found).Spares σ := by
  cases found <;> first | exact trivial | exact rfl

theorem goTo_spares (label : Nat) : (s.goTo σ label).Spares σ := by
  unfold goTo
  split <;> first | exact trivial | exact rfl

theorem spares_resolve (id : NamespaceId) (name : String) : Spares (σ.resolve id name) := by
  unfold Store.resolve
  split <;> first | exact trivial | exact rfl

theorem spares_bind (id : NamespaceId) (name : String) (v : Value) : Spares (σ.bind id name v) := by
  unfold Store.bind
  split <;> first | exact trivial | exact rfl

theorem refs_bind {id : NamespaceId} {name : String} {v : Value} {τ : Store} (h : σ.bind id name v = .ok τ) :
    τ.refs = σ.refs := by
  unfold Store.bind at h
  split at h
  · exact Except.ok.inj h ▸ rfl
  · cases h

theorem mention_spares (f : String → Store) (same : ∀ name, (f name).refs = σ.refs) (v : Value) :
    (s.keep (v.symbol?.map f)).Spares σ := by
  refine keep_spares (v.spares_symbol.map f) fun τ kept => ?_
  cases named : v.symbol? with
  | error fault =>
    rw [named] at kept
    cases kept
  | ok name =>
    rw [named] at kept
    exact Except.ok.inj kept ▸ same name

theorem unary_spares (op : Opcode) {f : Value → Except Fault Value} (meaning : op.unary? = some f)
    (taken : List Value) : (Turn.withOne (fun v => s.giveResult σ (f v)) taken).Spares σ :=
  Turn.withOne_holds trivial (fun v => giveResult_spares (spares_unary v meaning)) taken

theorem binary_spares (op : Opcode) {f : Value → Value → Except Fault Value} (meaning : op.binary? = some f)
    (taken : List Value) : (Turn.withTwo (fun a b => s.giveResult σ (f a b)) taken).Spares σ :=
  Turn.withTwo_holds trivial (fun a b => giveResult_spares (spares_binary a b meaning)) taken

/-- Only what makes references, looks into them or fills them has to do with them. -/
theorem act_spares (other : i.op ∉ [.newRef, .deref, .bindRef]) (taken : List Value) :
    (s.act σ i taken).Spares σ := by
  obtain ⟨op, operand, small⟩ := i
  cases op with
  | newRef | deref | bindRef => exact absurd (by simp) other
  | label | noOp | retNull | retTrue | retFalse | nullLit | trueLit | falseLit | posInt | negInt | argLen | restArg
  | current => exact Turn.withNone_holds trivial (by first | exact trivial | exact rfl) taken
  | jump => exact Turn.withNone_holds trivial (goTo_spares _) taken
  | condJump =>
    refine Turn.withOne_holds trivial (fun v => ?_) taken
    split
    · exact goTo_spares _
    · exact rfl
  | ret => exact Turn.withOne_holds trivial (fun _ => trivial) taken
  | pop | panic =>
    refine Turn.withOne_holds trivial (fun v => ?_) taken
    exact rfl
  | const | arg | capture => exact Turn.withNone_holds trivial (fetch_spares _) taken
  | load =>
    refine Turn.withNone_holds trivial ?_ taken
    unfold load
    split <;> first | exact trivial | exact rfl
  | store =>
    refine Turn.withOne_holds trivial (fun v => ?_) taken
    unfold put
    split <;> first | exact trivial | exact rfl
  | bind =>
    refine Turn.withTwo_holds trivial (fun name v => keep_spares ?_ fun τ kept => ?_) taken
    · exact name.spares_symbol.bind fun _ => spares_bind _ _ _
    · obtain ⟨id, -, bound⟩ := bind_eq_ok.mp kept
      exact refs_bind bound
  | declare => exact Turn.withOne_holds trivial (mention_spares (σ.declare s.chunk.globals) fun _ => rfl) taken
  | hide => exact Turn.withOne_holds trivial (mention_spares (σ.hide s.chunk.globals) fun _ => rfl) taken
  | resolve =>
    exact Turn.withOne_holds trivial (fun v => giveResult_spares (v.spares_symbol.bind fun _ => spares_resolve _ _)) taken
  | makeClosure =>
    refine Turn.withFirst_holds trivial (fun v _ => ?_) taken
    cases v <;> exact rfl
  | call0 | call1 | call | tailCall => exact Turn.withFirst_holds trivial (fun _ _ => trivial) taken
  | pushArgs => exact rfl
  | popArgs =>
    refine Turn.withNone_holds trivial ?_ taken
    unfold popArgs
    split <;> first | exact trivial | exact rfl
  | neg => exact unary_spares .neg rfl taken
  | not => exact unary_spares .not rfl taken
  | car => exact unary_spares .car rfl taken
  | cdr => exact unary_spares .cdr rfl taken
  | empty => exact unary_spares .empty rfl taken
  | add => exact binary_spares .add rfl taken
  | sub => exact binary_spares .sub rfl taken
  | mul => exact binary_spares .mul rfl taken
  | div => exact binary_spares .div rfl taken
  | mod => exact binary_spares .mod rfl taken
  | numEq => exact binary_spares .numEq rfl taken
  | numLt => exact binary_spares .numLt rfl taken
  | numLte => exact binary_spares .numLte rfl taken
  | numGt => exact binary_spares .numGt rfl taken
  | numGte => exact binary_spares .numGte rfl taken
  | eq => exact binary_spares .eq rfl taken
  | cons => exact binary_spares .cons rfl taken

end Scene

end StackLisp
