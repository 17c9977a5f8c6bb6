import StackLisp.Builtin.Reply
import StackLisp.Proofs.Scene

/-!
Properties of values that hold of pairs and vectors if they hold of their parts, and of all that has no
parts and cannot be called, references apart. Builtins and instructions make no values without such a
property out of values that have it, closures and new references apart.
-/

namespace StackLisp

/-- Whether a value has no parts and is nothing to call or to make a closure of. -/
def Value.isScalar : Value → Bool
  | .pair _ _ | .vector _ | .procedure _ | .closure _ _ | .builtin _ => false
  | _ => true

structure Hereditary (S : Value → Prop) : Prop where
  scalar : ∀ {v : Value}, v.isScalar → (∀ id, v ≠ .ref id) → S v
  pair : ∀ {car cdr : Value}, S (.pair car cdr) ↔ S car ∧ S cdr
  vector : ∀ {items : List Value}, S (.vector items) ↔ ∀ v ∈ items, S v

/-- The payload of a fault has the property. -/
def Fault.Bears (S : Value → Prop) (f : Fault) : Prop :=
  ∀ {v : Value}, f = .raised v → S v

/-- A result with the property, or a fault with it. -/
def Brings (S : Value → Prop) {α : Type} (P : α → Prop) : Except Fault α → Prop
  | .ok a => P a
  | .error f => f.Bears S

def Reply.Bears (S : Value → Prop) : Reply → Prop
  | .answer v => S v
  | .noted _ v => S v
  | .fault f => f.Bears S
  | .call callee args => S callee ∧ ∀ v ∈ args, S v
  | .guarded thunk handler => S thunk ∧ S handler

/-- Everything bound to a name has the property. -/
def Namespace.Bears (S : Value → Prop) (n : Namespace) : Prop :=
  ∀ entry ∈ n.entries, ∀ {v : Value}, entry.2.value = some v → S v

/-- Everything bound to a name or filled into a reference has the property. -/
structure Store.Bears (S : Value → Prop) (σ : Store) : Prop where
  namespaces : ∀ n ∈ σ.namespaces, n.Bears S
  refs : ∀ {v : Value}, some v ∈ σ.refs → S v

variable {S : Value → Prop}

section

variable {α β : Type} {P : α → Prop} {Q : β → Prop}

theorem Brings.bind {x : Except Fault α} {f : α → Except Fault β} (h : Brings S P x)
    (next : ∀ a, P a → Brings S Q (f a)) : Brings S Q (x >>= f) := by
  cases x with
  | error f => exact h
  | ok a => exact next a h

theorem Brings.map {x : Except Fault α} {f : α → β} (h : Brings S P x) (next : ∀ a, P a → Q (f a)) :
    Brings S Q (x.map f) := by
  cases x with
  | error f => exact h
  | ok a => exact next a h

theorem brings_number (v : Value) : Brings S (fun _ => True) v.number? := by
  cases v <;> first | exact trivial | exact nofun

theorem brings_symbol (v : Value) : Brings S (fun _ => True) v.symbol? := by
  cases v <;> first | exact trivial | exact nofun

theorem brings_ref (v : Value) : Brings S (fun _ => True) v.ref? := by
  cases v <;> first | exact trivial | exact nofun

theorem brings_callable (v : Value) : Brings S (fun _ => True) v.callable? := by
  cases v <;> first | exact trivial | exact nofun

theorem brings_isEmpty (v : Value) : Brings S (fun _ => True) v.isEmpty? := by
  cases v <;> first | exact trivial | exact nofun

theorem brings_ofResult {r : Except Fault Value} (result : Brings S S r) : (Reply.ofResult r).Bears S := by
  cases r with
  | ok v => exact result
  | error f => exact result

theorem brings_ofNumbers {args : List Value} {f : List Number → Except Fault Value}
    (each : ∀ ns, Brings S S (f ns)) : Brings S S (Operation.numbers args >>= f) := by
  refine Brings.bind (P := fun _ => True) ?_ fun ns _ => each ns
  unfold Operation.numbers
  induction args with
  | nil => exact trivial
  | cons v vs ih =>
    rw [List.mapM_cons]
    exact (brings_number v).bind fun n _ => ih.bind fun ns _ => trivial

theorem brings_divide (a b : Number) : Brings S (fun _ => True) (Operation.divide a b) := by
  unfold Operation.divide
  split
  · exact trivial
  · exact nofun

theorem brings_divideAll (ns : List Number) (n : Number) :
    Brings S (fun _ => True) (ns.foldlM Operation.divide n) := by
  induction ns generalizing n with
  | nil => exact trivial
  | cons m ns ih =>
    rw [List.foldlM_cons]
    exact (brings_divide n m).bind fun n _ => ih n

theorem brings_chain {holds : Value → Value → Except Fault Bool}
    (each : ∀ a b, Brings S (fun _ => True) (holds a b)) (args : List Value) :
    Brings S (fun _ => True) (Operation.chain holds args) := by
  fun_induction Operation.chain holds args with
  | case1 a b rest ih =>
    refine (each a b).bind fun ordered _ => ?_
    cases ordered with
    | false => exact trivial
    | true => exact ih
  | case2 => exact trivial

end

namespace Hereditary

variable (h : Hereditary S)

include h

theorem number (n : Number) : S n.value := by
  cases n <;> exact h.scalar rfl nofun

theorem bool (b : Bool) : S (.bool b) :=
  h.scalar rfl nofun

theorem null : S .null :=
  h.scalar rfl nofun

theorem head {vs : List Value} (each : ∀ v ∈ vs, S v) : S (vs.head?.getD .null) := by
  cases vs with
  | nil => exact h.null
  | cons v vs => exact each v List.mem_cons_self

theorem ofListOnto {vs : List Value} {tail : Value} (each : ∀ v ∈ vs, S v) (last : S tail) :
    S (.ofListOnto vs tail) := by
  induction vs with
  | nil => exact last
  | cons v vs ih =>
    exact h.pair.mpr ⟨each v List.mem_cons_self, ih fun w member => each w (List.mem_cons_of_mem _ member)⟩

theorem ofList {vs : List Value} (each : ∀ v ∈ vs, S v) : S (.ofList vs) :=
  h.ofListOnto each h.null

theorem spine {v : Value} (whole : S v) : ∀ w ∈ v.spine.1, S w := by
  induction v using Value.spine.induct with
  | case1 car cdr ih =>
    obtain ⟨first, rest⟩ := h.pair.mp whole
    rw [Value.spine]
    exact List.forall_mem_cons.mpr ⟨first, ih rest⟩
  | case2 v other =>
    rw [Value.spine]
    · exact fun _ member => absurd member List.not_mem_nil
    · exact other

theorem items {v : Value} (whole : S v) : Brings S (fun items => ∀ w ∈ items, S w) v.items? := by
  have spine := h.spine whole
  unfold Value.items?
  split
  · exact h.vector.mp whole
  · split
    next items same =>
      rw [same] at spine
      exact spine
    · exact nofun
  · split
    next items same =>
      rw [same] at spine
      exact spine
    · exact nofun
  · exact nofun

theorem car {v : Value} (whole : S v) : Brings S S v.car? := by
  cases v with
  | pair car cdr => exact (h.pair.mp whole).1
  | vector items => exact h.head (h.vector.mp whole)
  | _ => exact nofun

theorem cdr {v : Value} (whole : S v) : Brings S S v.cdr? := by
  cases v with
  | pair car cdr => exact (h.pair.mp whole).2
  | vector items =>
    match items with
    | [] | [_] => exact h.null
    | first :: item :: items =>
      exact h.vector.mpr fun w member => h.vector.mp whole w (List.mem_cons_of_mem _ member)
  | _ => exact nofun

theorem prepend {v item : Value} (whole : S v) (first : S item) : Brings S S (v.prepend? item) := by
  cases v with
  | null => exact h.pair.mpr ⟨first, h.null⟩
  | pair car cdr => exact h.pair.mpr ⟨first, whole⟩
  | vector items => exact h.vector.mpr (List.forall_mem_cons.mpr ⟨first, h.vector.mp whole⟩)
  | _ => exact nofun

theorem arithmetic (f : Number → Number → Option Number) (a b : Value) :
    Brings S S (StackLisp.arithmetic f a b) := by
  refine (brings_number a).bind fun l _ => (brings_number b).bind fun r _ => ?_
  split
  · exact h.number _
  · exact nofun

theorem comparison (c : Comparison) (a b : Value) : Brings S S (Opcode.binary?.comparison c a b) := by
  refine Brings.map (P := fun _ => True) ?_ fun b _ => h.bool b
  exact (brings_number a).bind fun l _ => (brings_number b).bind fun r _ => trivial

theorem binary {op : Opcode} {f : Value → Value → Except Fault Value} (meaning : op.binary? = some f)
    {a b : Value} (left : S a) (right : S b) : Brings S S (f a b) := by
  cases op <;> cases meaning
  case eq => exact h.bool _
  case cons => exact h.prepend right left
  all_goals first | exact h.arithmetic _ a b | exact h.comparison _ a b

theorem unary {op : Opcode} {f : Value → Except Fault Value} (meaning : op.unary? = some f) {v : Value}
    (value : S v) : Brings S S (f v) := by
  cases op <;> cases meaning
  case neg => exact (brings_number v).map fun n _ => h.number _
  case not => exact h.bool _
  case car => exact h.car value
  case cdr => exact h.cdr value
  case empty => exact (brings_isEmpty v).map fun b _ => h.bool b

theorem nth {sequence index : Value} (whole : S sequence) : Brings S S (Operation.nth? sequence index) := by
  unfold Operation.nth?
  split
  next i =>
    refine (h.items whole).bind fun items each => ?_
    split
    next v found =>
      split at found
      · cases found
      · exact each v (List.mem_of_getElem? found)
    · exact nofun
  · exact nofun

theorem applyTo {args : List Value} (each : ∀ v ∈ args, S v) : (Operation.applyTo args).Bears S := by
  have last : S (args.getLastD .null) := by
    rw [List.getLastD_eq_getLast?]
    cases found : args.getLast? with
    | none => exact h.null
    | some v => exact each v (List.mem_of_getLast? found)
  have spread := h.items last
  unfold Operation.applyTo
  split
  next f _ failed =>
    rw [failed] at spread
    exact @spread
  next items callee firsts found split =>
    rw [found] at spread
    have inside : ∀ v ∈ callee :: firsts, S v := fun v member =>
      each v (List.dropLast_subset _ (split ▸ member))
    refine ⟨inside callee List.mem_cons_self, fun v member => ?_⟩
    rcases List.mem_append.mp member with first | rest
    · exact inside v (List.mem_cons_of_mem _ first)
    · exact spread v rest
  · exact nofun

theorem reply (b : Builtin) {args : List Value} (each : ∀ v ∈ args, S v) : (b.reply args).Bears S := by
  unfold Builtin.reply
  split
  · exact brings_ofResult (brings_ofNumbers fun ns => h.number _)
  · exact brings_ofResult (brings_ofNumbers fun ns => h.number _)
  · refine brings_ofResult (brings_ofNumbers fun ns => ?_)
    split
    · exact nofun
    · exact h.number _
    · exact h.number _
  · refine brings_ofResult (brings_ofNumbers fun ns => ?_)
    split
    · exact nofun
    · exact (brings_divide _ _).bind fun n _ => h.number n
    · exact (brings_divideAll _ _).bind fun n _ => h.number n
  · exact brings_ofResult (h.arithmetic _ _ _)
  · have total (a b : Value) : Brings S (fun _ => True) (.ok (a == b)) := trivial
    exact brings_ofResult ((brings_chain total _).map fun b _ => h.bool b)
  · refine brings_ofResult ((brings_chain (fun a b => ?_) _).map fun b _ => h.bool b)
    exact (brings_number a).bind fun l _ => (brings_number b).bind fun r _ => trivial
  · exact h.bool _
  · exact brings_ofResult (h.car (each _ List.mem_cons_self))
  · exact brings_ofResult (h.cdr (each _ List.mem_cons_self))
  · exact brings_ofResult (h.prepend (each _ (List.mem_cons_of_mem _ List.mem_cons_self)) (each _ List.mem_cons_self))
  · exact h.ofList each
  · exact h.vector.mpr each
  · exact brings_ofResult ((brings_isEmpty _).map fun b _ => h.bool b)
  · exact brings_ofResult (h.nth (each _ List.mem_cons_self))
  · exact brings_ofResult ((h.items (each _ List.mem_cons_self)).map fun items _ => h.scalar rfl nofun)
  · exact h.applyTo each
  · exact ⟨each _ List.mem_cons_self, each _ (List.mem_cons_of_mem _ List.mem_cons_self)⟩
  · exact fun same => Fault.raised.inj same ▸ each _ List.mem_cons_self
  · exact h.head each
  · exact nofun

end Hereditary

namespace Namespace

theorem Bears.mention {n : Namespace} (h : n.Bears S) (name : String) (hidden : Bool) :
    (n.mention name hidden).Bears S := by
  unfold Namespace.mention
  split
  · exact h
  · exact List.forall_mem_cons.mpr ⟨nofun, h⟩

theorem Bears.fill {n : Namespace} (h : n.Bears S) (name : String) {v : Value} (value : S v) :
    (n.fill name v).Bears S := by
  intro entry member w filled
  obtain ⟨⟨other, e⟩, inside, rfl⟩ := List.mem_map.mp member
  dsimp only at filled
  split at filled
  · exact Option.some.inj filled ▸ value
  · exact h _ inside filled

theorem Bears.find? {n : Namespace} (h : n.Bears S) {name : String} {e : Entry}
    (found : n.find? name = some e) {v : Value} (bound : e.value = some v) : S v := by
  obtain ⟨before, after, same, -⟩ := List.lookup_eq_some_iff.mp found
  exact h (name, e) (by rw [same]; simp) bound

end Namespace

namespace Namespaces

variable {ns : Namespaces}

theorem bears_modify (h : ∀ n ∈ ns, n.Bears S) {f : Namespace → Namespace}
    (keeps : ∀ n, n.Bears S → (f n).Bears S) (id : NamespaceId) :
    ∀ n ∈ modify f ns id, n.Bears S := by
  induction ns with
  | nil => exact fun _ => nofun
  | cons n older ih =>
    obtain ⟨newest, rest⟩ := List.forall_mem_cons.mp h
    unfold modify
    split
    · exact List.forall_mem_cons.mpr ⟨keeps n newest, rest⟩
    · exact List.forall_mem_cons.mpr ⟨newest, ih rest⟩

theorem bears_lookup? (h : ∀ n ∈ ns, n.Bears S) {inside : Bool} {name : String} {id : NamespaceId}
    {v : Value} (found : lookup? inside name ns id = some v) : S v := by
  induction ns generalizing inside id with
  | nil => cases found
  | cons n older ih =>
    obtain ⟨newest, rest⟩ := List.forall_mem_cons.mp h
    unfold lookup? at found
    split at found
    · split at found
      next w shown =>
        obtain rfl := Option.some.inj found
        obtain ⟨e, entry, visible⟩ := Option.bind_eq_some_iff.mp shown
        split at visible
        · exact newest.find? entry visible
        · cases visible
      · obtain ⟨parent, -, above⟩ := Option.bind_eq_some_iff.mp found
        exact ih rest above
    · exact ih rest found

end Namespaces

namespace Store

variable {σ : Store}

theorem Bears.mono (h : σ.Bears S) {T : Value → Prop} (wider : ∀ {v}, S v → T v) : σ.Bears T :=
  ⟨fun n member entry inside _ bound => wider (h.namespaces n member entry inside bound),
    fun member => wider (h.refs member)⟩

theorem Bears.resolve (h : σ.Bears S) (id : NamespaceId) (name : String) :
    Brings S S (σ.resolve id name) := by
  unfold Store.resolve
  split
  next v found => exact Namespaces.bears_lookup? h.namespaces found
  · exact nofun

theorem Bears.declare (h : σ.Bears S) (id : NamespaceId) (name : String) : (σ.declare id name).Bears S :=
  ⟨Namespaces.bears_modify h.namespaces (fun _ keeps => keeps.mention name false) id, h.refs⟩

theorem Bears.hide (h : σ.Bears S) (id : NamespaceId) (name : String) : (σ.hide id name).Bears S :=
  ⟨Namespaces.bears_modify h.namespaces (fun _ keeps => keeps.mention name true) id, h.refs⟩

theorem Bears.bind (h : σ.Bears S) (id : NamespaceId) (name : String) {v : Value} (value : S v) :
    Brings S (Store.Bears S) (σ.bind id name v) := by
  unfold Store.bind Namespaces.bind?
  split
  next bound =>
    split at bound
    · cases bound
    · obtain rfl := Option.some.inj bound
      exact ⟨Namespaces.bears_modify h.namespaces
        (fun _ keeps => (keeps.mention name false).fill name value) id, h.refs⟩
  · exact nofun

theorem Bears.newRef (h : σ.Bears S) : σ.newRef.2.Bears S := by
  refine ⟨h.namespaces, fun {v} member => ?_⟩
  rcases Array.mem_push.mp member with old | new
  · exact h.refs old
  · cases new

theorem Bears.deref (h : σ.Bears S) (id : RefId) : Brings S S (σ.deref id) := by
  unfold Store.deref
  split
  next v found => exact h.refs (Array.mem_of_getElem? found)
  · exact nofun

theorem Bears.fillRef (h : σ.Bears S) (id : RefId) {v : Value} (value : S v) :
    Brings S (Store.Bears S) (σ.fillRef id v) := by
  unfold Store.fillRef
  split
  · exact nofun
  · refine ⟨h.namespaces, fun {w} member => ?_⟩
    obtain ⟨k, there⟩ := Array.mem_iff_getElem?.mp member
    rw [Array.getElem?_setIfInBounds] at there
    split at there
    · split at there
      · obtain rfl := Option.some.inj (Option.some.inj there)
        exact value
      · cases there
    · exact h.refs (Array.mem_of_getElem? there)

end Store

/-- All values of a scene have the property. -/
structure Scene.Bears (S : Value → Prop) (s : Scene) : Prop where
  constants : ∀ v ∈ s.chunk.constants, S v
  captured : ∀ v ∈ s.closure.captured, S v
  args : ∀ v ∈ s.args, S v
  saved : ∀ vs ∈ s.saved, ∀ v ∈ vs, S v
  stack : ∀ v ∈ s.stack, S v
  locals : ∀ v, some v ∈ s.locals → S v

/-- The operands and arguments of a scene have the property. -/
structure Scene.Hands (S : Value → Prop) (s : Scene) : Prop where
  args : ∀ v ∈ s.args, S v
  saved : ∀ vs ∈ s.saved, ∀ v ∈ vs, S v
  stack : ∀ v ∈ s.stack, S v

/-- A value that an instruction finds in the code, among what is captured, or in a slot. -/
def Scene.Finds (s : Scene) (i : Instruction) (v : Value) : Prop :=
  (i.op = .const ∧ v ∈ s.chunk.constants) ∨ (i.op = .capture ∧ v ∈ s.closure.captured) ∨
    (i.op = .load ∧ some v ∈ s.locals)

def Turn.Bears (S : Value → Prop) : Turn → Prop
  | .go s σ => s.Bears S ∧ σ.Bears S
  | .answer v => S v
  | .call callee args s => S callee ∧ (∀ v ∈ args, S v) ∧ s.Bears S
  | .leave callee args => S callee ∧ ∀ v ∈ args, S v
  | .fault f => f.Bears S
  | .breach _ | .stray => True

/-- What a turn hands on has the property, and what it puts into a slot. -/
def Turn.Hands (S : Value → Prop) (s : Scene) : Turn → Prop
  | .go t σ => t.Hands S ∧ (∀ v, some v ∈ t.locals → some v ∈ s.locals ∨ S v) ∧ σ.Bears S
  | .answer v => S v
  | .call callee args t => S callee ∧ (∀ v ∈ args, S v) ∧ t.Hands S
  | .leave callee args => S callee ∧ ∀ v ∈ args, S v
  | .fault f => f.Bears S
  | .breach _ | .stray => True

namespace Turn

variable {taken : List Value} {s : Scene}

theorem hands_withNone {t : Turn} (h : t.Hands S s) : (withNone t taken).Hands S s :=
  withNone_holds trivial h taken

theorem hands_withOne {t : Value → Turn} (each : ∀ v ∈ taken, S v) (h : ∀ v, S v → (t v).Hands S s) :
    (withOne t taken).Hands S s := by
  match taken, each with
  | [v], each => exact h v (each v List.mem_cons_self)
  | [], _ | _ :: _ :: _, _ => exact trivial

theorem hands_withTwo {t : Value → Value → Turn} (each : ∀ v ∈ taken, S v)
    (h : ∀ v w, S v → S w → (t v w).Hands S s) : (withTwo t taken).Hands S s := by
  match taken, each with
  | [v, w], each =>
    exact h v w (each v List.mem_cons_self) (each w (List.mem_cons_of_mem _ List.mem_cons_self))
  | [], _ | [_], _ | _ :: _ :: _ :: _, _ => exact trivial

theorem hands_withFirst {t : Value → List Value → Turn} (each : ∀ v ∈ taken, S v)
    (h : ∀ v vs, taken = v :: vs → S v → (∀ w ∈ vs, S w) → (t v vs).Hands S s) :
    (withFirst t taken).Hands S s := by
  match taken, each, h with
  | v :: vs, each, h =>
    exact h v vs rfl (each v List.mem_cons_self) fun w member => each w (List.mem_cons_of_mem _ member)
  | [], _, _ => exact trivial

end Turn

namespace Scene

variable {s t : Scene} {σ : Store} {i : Instruction}

theorem Bears.push (h : s.Bears S) {v : Value} (value : S v) : (s.push v).Bears S :=
  { h with stack := List.forall_mem_cons.mpr ⟨value, h.stack⟩ }

theorem Bears.past (h : s.Bears S) (i : Instruction) : (s.past i).Bears S :=
  { h with stack := fun v member => h.stack v (List.mem_of_mem_drop member) }

theorem Bears.hands (h : s.Bears S) : s.Hands S :=
  ⟨h.args, h.saved, h.stack⟩

theorem Hands.push (h : s.Hands S) {v : Value} (value : S v) : (s.push v).Hands S :=
  { h with stack := List.forall_mem_cons.mpr ⟨value, h.stack⟩ }

theorem Hands.past (h : s.Hands S) (i : Instruction) : (s.past i).Hands S :=
  { h with stack := fun v member => h.stack v (List.mem_of_mem_drop member) }

theorem Hands.go (h : t.Hands S) (store : σ.Bears S) (locals : t.locals = s.locals) :
    (Turn.go t σ).Hands S s :=
  ⟨h, fun _ member => .inl (locals ▸ member), store⟩

theorem Hands.give (h : s.Hands S) (store : σ.Bears S) {v : Value} (value : S v) :
    (s.give σ v).Hands S s :=
  (h.push value).go store rfl

theorem Hands.giveResult (h : s.Hands S) (store : σ.Bears S) {r : Except Fault Value}
    (result : Brings S S r) : (s.giveResult σ r).Hands S s := by
  cases r with
  | ok v => exact h.give store result
  | error f => exact result

theorem Hands.fetch (h : s.Hands S) (store : σ.Bears S) {found : Option Value}
    (value : ∀ v, found = some v → S v) : (s.fetch σ found).Hands S s := by
  cases found with
  | none => exact trivial
  | some v => exact h.give store (value v rfl)

theorem Hands.keep (h : s.Hands S) {r : Except Fault Store} (result : Brings S (Store.Bears S) r) :
    (s.keep r).Hands S s := by
  cases r with
  | ok σ => exact h.go result rfl
  | error f => exact result

theorem Hands.goTo (h : s.Hands S) (store : σ.Bears S) (label : Nat) : (s.goTo σ label).Hands S s := by
  unfold Scene.goTo
  split
  · exact Hands.go { h with } store rfl
  · exact trivial

theorem Hands.load (h : s.Hands S) (store : σ.Bears S) (slot : Nat) (value : ∀ v, some v ∈ s.locals → S v) :
    (s.load σ slot).Hands S s := by
  unfold Scene.load
  split
  next v found => exact h.give store (value v (List.mem_of_getElem? found))
  · exact trivial

theorem Hands.put (h : s.Hands S) (store : σ.Bears S) (slot : Nat) {v : Value} (value : S v) :
    (s.put σ slot v).Hands S s := by
  unfold Scene.put
  split
  · refine ⟨{ h with }, fun w member => ?_, store⟩
    rcases List.mem_or_eq_of_mem_set member with old | new
    · exact .inl old
    · exact .inr (Option.some.inj new ▸ value)
  · exact trivial

theorem Hands.makeClosure (h : s.Hands S) (store : σ.Bears S) {captured : List Value} {template : Value}
    (made : ∀ p, template = .procedure p → S (.closure p captured)) :
    (s.makeClosure σ captured template).Hands S s := by
  unfold Scene.makeClosure
  split
  next p => exact h.give store (made p rfl)
  · exact nofun

theorem Hands.popArgs (h : s.Hands S) (store : σ.Bears S) : (s.popArgs σ).Hands S s := by
  unfold Scene.popArgs
  have saved := h.saved
  split
  · exact trivial
  next args rest same =>
    rw [same] at saved
    obtain ⟨first, others⟩ := List.forall_mem_cons.mp saved
    exact Hands.go { h with args := first, saved := others } store rfl

theorem Hands.unary (h : s.Hands S) (hereditary : Hereditary S) (store : σ.Bears S) {taken : List Value}
    (each : ∀ v ∈ taken, S v) (op : Opcode) {f : Value → Except Fault Value}
    (meaning : op.unary? = some f) : (Turn.withOne (fun v => s.giveResult σ (f v)) taken).Hands S s :=
  Turn.hands_withOne each fun _ value => h.giveResult store (hereditary.unary meaning value)

theorem Hands.binary (h : s.Hands S) (hereditary : Hereditary S) (store : σ.Bears S) {taken : List Value}
    (each : ∀ v ∈ taken, S v) (op : Opcode) {f : Value → Value → Except Fault Value}
    (meaning : op.binary? = some f) :
    (Turn.withTwo (fun left right => s.giveResult σ (f left right)) taken).Hands S s :=
  Turn.hands_withTwo each fun _ _ left right => h.giveResult store (hereditary.binary meaning left right)

/-- Whatever an instruction does with values that have the property, it hands on none without it, closures and
references that it makes and values that it finds apart. -/
theorem act_hands (hereditary : Hereditary S) (h : s.Hands S) (store : σ.Bears S) {taken : List Value}
    (each : ∀ v ∈ taken, S v) (found : ∀ v, s.Finds i v → S v) (fresh : i.op = .newRef → ∀ id, S (.ref id))
    (own : i.op = .current → S s.closure.value)
    (made : ∀ p captured, i.op = .makeClosure → taken = .procedure p :: captured →
      S (.closure p captured)) : (s.act σ i taken).Hands S s := by
  obtain ⟨op, operand, small⟩ := i
  unfold act
  cases op
  case label | noOp => exact Turn.hands_withNone (h.go store rfl)
  case jump => exact Turn.hands_withNone (h.goTo store _)
  case condJump =>
    refine Turn.hands_withOne each fun v _ => ?_
    split
    · exact h.goTo store _
    · exact h.go store rfl
  case ret => exact Turn.hands_withOne each fun v value => value
  case retNull | retTrue | retFalse => exact Turn.hands_withNone (hereditary.scalar rfl fun _ same => by cases same)
  case panic => exact Turn.hands_withOne each fun v value _ same => Fault.raised.inj same ▸ value
  case nullLit | trueLit | falseLit | posInt | negInt | argLen =>
    exact Turn.hands_withNone (h.give store (hereditary.scalar rfl fun _ same => by cases same))
  case const =>
    exact Turn.hands_withNone (h.fetch store fun v there => found v (.inl ⟨rfl, List.mem_of_getElem? there⟩))
  case arg => exact Turn.hands_withNone (h.fetch store fun v there => h.args v (List.mem_of_getElem? there))
  case restArg =>
    exact Turn.hands_withNone (h.give store (hereditary.ofList fun v member =>
      h.args v (List.mem_of_mem_drop member)))
  case load => exact Turn.hands_withNone (h.load store _ fun v there => found v (.inr (.inr ⟨rfl, there⟩)))
  case store => exact Turn.hands_withOne each fun v value => h.put store _ value
  case newRef => exact Turn.hands_withNone (h.give store.newRef (fresh rfl _))
  case bindRef =>
    exact Turn.hands_withTwo each fun cell v _ value =>
      h.keep ((brings_ref cell).bind fun id _ => store.fillRef id value)
  case deref =>
    exact Turn.hands_withOne each fun v _ =>
      h.giveResult store ((brings_ref v).bind fun id _ => store.deref id)
  case capture =>
    exact Turn.hands_withNone (h.fetch store fun v there =>
      found v (.inr (.inl ⟨rfl, List.mem_of_getElem? there⟩)))
  case current => exact Turn.hands_withNone (h.give store (own rfl))
  case makeClosure =>
    exact Turn.hands_withFirst each fun v captured same _ _ =>
      h.makeClosure store fun p template => made p captured rfl (template ▸ same)
  case pop => exact Turn.hands_withOne each fun v _ => h.go store rfl
  case call0 | call1 | call =>
    exact Turn.hands_withFirst each fun callee args _ called values => ⟨called, values, h⟩
  case tailCall => exact Turn.hands_withFirst each fun callee args _ called values => ⟨called, values⟩
  case pushArgs =>
    exact Hands.go { h with args := each, saved := List.forall_mem_cons.mpr ⟨h.args, h.saved⟩ } store rfl
  case popArgs => exact Turn.hands_withNone (h.popArgs store)
  case resolve =>
    exact Turn.hands_withOne each fun v _ =>
      h.giveResult store ((brings_symbol v).bind fun name _ => store.resolve _ name)
  case declare =>
    exact Turn.hands_withOne each fun v _ => h.keep ((brings_symbol v).map fun name _ => store.declare _ name)
  case hide =>
    exact Turn.hands_withOne each fun v _ => h.keep ((brings_symbol v).map fun name _ => store.hide _ name)
  case bind =>
    exact Turn.hands_withTwo each fun name v _ value =>
      h.keep ((brings_symbol name).bind fun name _ => store.bind _ name value)
  case neg => exact h.unary hereditary store each .neg rfl
  case not => exact h.unary hereditary store each .not rfl
  case car => exact h.unary hereditary store each .car rfl
  case cdr => exact h.unary hereditary store each .cdr rfl
  case empty => exact h.unary hereditary store each .empty rfl
  case add => exact h.binary hereditary store each .add rfl
  case sub => exact h.binary hereditary store each .sub rfl
  case mul => exact h.binary hereditary store each .mul rfl
  case div => exact h.binary hereditary store each .div rfl
  case mod => exact h.binary hereditary store each .mod rfl
  case numEq => exact h.binary hereditary store each .numEq rfl
  case numLt => exact h.binary hereditary store each .numLt rfl
  case numLte => exact h.binary hereditary store each .numLte rfl
  case numGt => exact h.binary hereditary store each .numGt rfl
  case numGte => exact h.binary hereditary store each .numGte rfl
  case eq => exact h.binary hereditary store each .eq rfl
  case cons => exact h.binary hereditary store each .cons rfl

theorem turn_bears (hereditary : Hereditary S) (h : s.Bears S) (store : σ.Bears S)
    (fresh : i.op = .newRef → ∀ id, S (.ref id)) (own : i.op = .current → S s.closure.value)
    (made : ∀ p captured, i.op = .makeClosure → s.stack.take i.pops = .procedure p :: captured →
      S (.closure p captured)) : (s.turn σ i).Bears S := by
  have hands := act_hands hereditary (h.past i).hands store (fun v member => h.stack v (List.mem_of_mem_take member))
    (fun v found => found.elim (fun const => h.constants v const.2) fun other =>
      other.elim (fun captured => h.captured v captured.2) fun slot => h.locals v slot.2) fresh own made
  have heeds := act_heeds σ (s.past i) i (s.stack.take i.pops)
  change (s.turn σ i).Hands S _ at hands
  change (s.turn σ i).Heeds (s.past i) i at heeds
  cases turned : s.turn σ i with
  | go t τ =>
    rw [turned] at hands heeds
    obtain ⟨own, locals, bears⟩ := hands
    refine ⟨⟨?_, ?_, own.args, own.saved, own.stack, fun v member => (locals v member).elim (h.locals v) id⟩, bears⟩
    · rw [heeds.chunk]
      exact h.constants
    · rw [heeds.closure]
      exact h.captured
  | call callee args t =>
    rw [turned] at hands heeds
    obtain ⟨rfl, -⟩ := heeds
    exact ⟨hands.1, hands.2.1, h.past i⟩
  | answer v | leave callee args =>
    rw [turned] at hands
    exact hands
  | fault f =>
    rw [turned] at hands
    exact fun _ same => hands same
  | breach b | stray => exact trivial

end Scene

end StackLisp
