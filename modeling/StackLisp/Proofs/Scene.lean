import StackLisp.Machine.Instruction
import StackLisp.Proofs.Depths

/-!
One call of a closure without its frame: the operands are a list, and a local slot is empty until it is
stored to. What an instruction does depends on the operands it takes and not on those below.
-/

namespace StackLisp

namespace Procedure

/-- The code of a procedure with what the code refers to. -/
def chunk (p : Procedure Value) : Chunk :=
  ⟨p.code, p.constants, p.localCount, p.labelCount, p.globals, p.name⟩

end Procedure

structure Scene where
  chunk : Chunk
  closure : Closure
  args : List Value
  saved : List (List Value) := []
  /-- The operands, the topmost first. -/
  stack : List Value := []
  locals : List (Option Value)
  pc : Nat := 0

/-- What an instruction comes to. A `call` waits for the operand that its scene lacks. A `stray`
instruction misses an operand, a local value or an anchor. -/
inductive Turn where
  | go (s : Scene) (store : Store)
  | answer (v : Value)
  | call (callee : Value) (args : List Value) (s : Scene)
  | leave (callee : Value) (args : List Value)
  | fault (f : Fault)
  | breach (b : Breach)
  | stray

namespace Turn

def withNone (t : Turn) : List Value → Turn
  | [] => t
  | _ => .stray

def withOne (t : Value → Turn) : List Value → Turn
  | [v] => t v
  | _ => .stray

def withTwo (t : Value → Value → Turn) : List Value → Turn
  | [v, w] => t v w
  | _ => .stray

def withFirst (t : Value → List Value → Turn) : List Value → Turn
  | v :: vs => t v vs
  | _ => .stray

end Turn

namespace Scene

/-- The scene in which a call starts. -/
def enter (chunk : Chunk) (c : Closure) (args : List Value) : Scene :=
  { chunk, closure := c, args, locals := List.replicate chunk.localCount none }

def push (s : Scene) (v : Value) : Scene :=
  { s with stack := v :: s.stack }

def give (store : Store) (s : Scene) (v : Value) : Turn :=
  .go (s.push v) store

def giveResult (store : Store) (s : Scene) : Except Fault Value → Turn
  | .ok v => s.give store v
  | .error f => .fault f

/-- Gives what an operand points to. -/
def fetch (store : Store) (s : Scene) : Option Value → Turn
  | some v => s.give store v
  | none => .breach .outOfRange

def keep (s : Scene) : Except Fault Store → Turn
  | .ok store => .go s store
  | .error f => .fault f

def goTo (store : Store) (s : Scene) (label : Nat) : Turn :=
  match Chunk.anchor? s.chunk.code label with
  | some target => .go { s with pc := target } store
  | none => .stray

def load (store : Store) (s : Scene) (slot : Nat) : Turn :=
  match s.locals[slot]? with
  | some (some v) => s.give store v
  | _ => .stray

def put (store : Store) (s : Scene) (slot : Nat) (v : Value) : Turn :=
  if slot < s.locals.length then .go { s with locals := s.locals.set slot (some v) } store
  else .stray

def makeClosure (store : Store) (s : Scene) (captured : List Value) : Value → Turn
  | .procedure p => s.give store (.closure p captured)
  | v => .fault (.mismatch .procedure v)

def popArgs (store : Store) (s : Scene) : Turn :=
  match s.saved with
  | [] => .breach (.argumentUnderflow (s.pc - 1))
  | args :: saved => .go { s with args, saved } store

/-- Runs an instruction on the operands it takes. The scene is past it and without them. -/
def act (store : Store) (s : Scene) (i : Instruction) : List Value → Turn :=
  let globals := s.chunk.globals
  match i.op with
  | .label | .noOp => .withNone (.go s store)
  | .jump => .withNone (s.goTo store i.operand)
  | .condJump => .withOne fun v => if v.holds then s.goTo store i.operand else .go s store
  | .ret => .withOne .answer
  | .retNull => .withNone (.answer .null)
  | .retTrue => .withNone (.answer (.bool true))
  | .retFalse => .withNone (.answer (.bool false))
  | .panic => .withOne fun v => .fault (.raised v)
  | .nullLit => .withNone (s.give store .null)
  | .trueLit => .withNone (s.give store (.bool true))
  | .falseLit => .withNone (s.give store (.bool false))
  | .posInt => .withNone (s.give store (.integer (Int64.ofNat i.operand)))
  | .negInt => .withNone (s.give store (.integer (-Int64.ofNat i.operand)))
  | .const => .withNone (s.fetch store s.chunk.constants[i.operand]?)
  | .arg => .withNone (s.fetch store s.args[i.operand]?)
  | .argLen => .withNone (s.give store (.integer (Int64.ofNat s.args.length)))
  | .restArg => .withNone (s.give store (.ofList (s.args.drop i.operand)))
  | .load => .withNone (s.load store i.operand)
  | .store => .withOne (s.put store i.operand)
  | .newRef => .withNone (s.give store.newRef.2 (.ref store.newRef.1))
  | .bindRef => .withTwo fun cell v => s.keep (cell.ref?.bind fun id => store.fillRef id v)
  | .deref => .withOne fun v => s.giveResult store (v.ref?.bind store.deref)
  | .capture => .withNone (s.fetch store s.closure.captured[i.operand]?)
  | .current => .withNone (s.give store s.closure.value)
  | .makeClosure => .withFirst fun v captured => s.makeClosure store captured v
  | .pop => .withOne fun _ => .go s store
  | .call0 | .call1 | .call => .withFirst fun callee args => .call callee args s
  | .tailCall => .withFirst .leave
  | .pushArgs => fun staged => .go { s with args := staged, saved := s.args :: s.saved } store
  | .popArgs => .withNone (s.popArgs store)
  | .resolve => .withOne fun v => s.giveResult store (v.symbol?.bind (store.resolve globals))
  | .declare => .withOne fun v => s.keep (v.symbol?.map (store.declare globals))
  | .hide => .withOne fun v => s.keep (v.symbol?.map (store.hide globals))
  | .bind => .withTwo fun name v => s.keep (name.symbol?.bind fun name => store.bind globals name v)
  | op =>
    match op.binary?, op.unary? with
    | some f, _ => .withTwo fun left right => s.giveResult store (f left right)
    | none, some f => .withOne fun v => s.giveResult store (f v)
    | none, none => fun _ => .stray

/-- The scene past an instruction and without the operands it takes. -/
def past (s : Scene) (i : Instruction) : Scene :=
  { s with stack := s.stack.drop i.pops, pc := s.pc + 1 }

/-- Runs the instruction at the address of the scene. -/
def turn (store : Store) (s : Scene) (i : Instruction) : Turn :=
  (s.past i).act store i (s.stack.take i.pops)

theorem turn_const {s : Scene} {k : Nat} {v : Value} (found : s.chunk.constants[k]? = some v)
    (h : k ≤ maxOperand) (store : Store) :
    s.turn store ⟨.const, k, h⟩ = .go { s with stack := v :: s.stack, pc := s.pc + 1 } store := by
  show Turn.withNone (Scene.fetch store (s.past _) s.chunk.constants[k]?) [] = _
  rw [found]
  rfl

/-- What an instruction that goes on leaves as it is, and where it goes on. `s` is past it. -/
structure Continues (s : Scene) (i : Instruction) (t : Scene) : Prop where
  chunk : t.chunk = s.chunk
  closure : t.closure = s.closure
  locals : t.locals = s.locals ∨
    i.op = .store ∧ ∃ v, t.locals = s.locals.set i.operand (some v)
  stack : ∃ given, t.stack = given ++ s.stack ∧ given.length = i.pushes
  saved : t.saved = s.saved ∨ i.op = .pushArgs ∨ i.op = .popArgs
  control : (i.op.effect.exits = false ∧ t.pc = s.pc) ∨
    (i.op.jumps ∧ Chunk.anchor? s.chunk.code i.operand = some t.pc)

end Scene

theorem Scene.Continues.slots {s t : Scene} {i : Instruction} (h : s.Continues i t) :
    t.locals.length = s.locals.length := by
  rcases h.locals with same | ⟨_, v, same⟩
  · rw [same]
  · rw [same, List.length_set]

namespace Turn

/-- A turn of an instruction: whatever is given goes on top, and only a jump moves control. A call
lacks the one operand that it waits for. -/
def Heeds (s : Scene) (i : Instruction) : Turn → Prop
  | .go t _ => s.Continues i t
  | .call _ _ t => t = s ∧ i.pushes = 1 ∧ i.op.effect.exits = false
  | _ => True

variable {P : Turn → Prop}

theorem withNone_holds {t : Turn} (stray : P .stray) (h : P t) (taken : List Value) :
    P (withNone t taken) := by
  cases taken with
  | nil => exact h
  | cons => exact stray

theorem withOne_holds {t : Value → Turn} (stray : P .stray) (h : ∀ v, P (t v)) (taken : List Value) :
    P (withOne t taken) := by
  match taken with
  | [v] => exact h v
  | [] | _ :: _ :: _ => exact stray

theorem withTwo_holds {t : Value → Value → Turn} (stray : P .stray) (h : ∀ v w, P (t v w))
    (taken : List Value) : P (withTwo t taken) := by
  match taken with
  | [v, w] => exact h v w
  | [] | [_] | _ :: _ :: _ :: _ => exact stray

theorem withFirst_holds {t : Value → List Value → Turn} (stray : P .stray) (h : ∀ v vs, P (t v vs))
    (taken : List Value) : P (withFirst t taken) := by
  cases taken with
  | nil => exact stray
  | cons v vs => exact h v vs

end Turn

namespace Scene

variable {store : Store} {s : Scene} {i : Instruction}

theorem heeds_give {v : Value} (one : i.pushes = 1) (stays : i.op.effect.exits = false) :
    (s.give store v).Heeds s i where
  chunk := rfl
  closure := rfl
  locals := Or.inl rfl
  stack := ⟨[v], rfl, one.symm⟩
  saved := Or.inl rfl
  control := Or.inl ⟨stays, rfl⟩

theorem heeds_go (none : i.pushes = 0) (stays : i.op.effect.exits = false) :
    (Turn.go s store).Heeds s i where
  chunk := rfl
  closure := rfl
  locals := Or.inl rfl
  stack := ⟨[], rfl, none.symm⟩
  saved := Or.inl rfl
  control := Or.inl ⟨stays, rfl⟩

theorem heeds_giveResult {r : Except Fault Value} (one : i.pushes = 1)
    (stays : i.op.effect.exits = false) : (s.giveResult store r).Heeds s i := by
  cases r with
  | error f => trivial
  | ok v => exact heeds_give one stays

theorem heeds_fetch {found : Option Value} (one : i.pushes = 1) (stays : i.op.effect.exits = false) :
    (s.fetch store found).Heeds s i := by
  cases found with
  | none => trivial
  | some v => exact heeds_give one stays

theorem heeds_keep {r : Except Fault Store} (none : i.pushes = 0)
    (stays : i.op.effect.exits = false) : (s.keep r).Heeds s i := by
  cases r with
  | error f => trivial
  | ok store => exact heeds_go none stays

theorem heeds_goTo (none : i.pushes = 0) (jumps : i.op.jumps) :
    (s.goTo store i.operand).Heeds s i := by
  unfold goTo
  split
  · rename_i target found
    exact ⟨rfl, rfl, Or.inl rfl, ⟨[], rfl, none.symm⟩, Or.inl rfl, Or.inr ⟨jumps, found⟩⟩
  · trivial

theorem heeds_load (one : i.pushes = 1) (stays : i.op.effect.exits = false) (slot : Nat) :
    (s.load store slot).Heeds s i := by
  unfold load
  split
  · exact heeds_give one stays
  · trivial

theorem heeds_put (stores : i.op = .store) (v : Value) :
    (s.put store i.operand v).Heeds s i := by
  unfold put
  split
  · refine ⟨rfl, rfl, Or.inr ⟨stores, v, rfl⟩, ⟨[], rfl, ?_⟩, Or.inl rfl, Or.inl ⟨?_, rfl⟩⟩
    · simp [Instruction.pushes, stores, Opcode.effect]
    · simp [stores, Opcode.effect]
  · trivial

theorem heeds_makeClosure {captured : List Value} (one : i.pushes = 1)
    (stays : i.op.effect.exits = false) (template : Value) :
    (s.makeClosure store captured template).Heeds s i := by
  cases template <;> first | exact heeds_give one stays | trivial

theorem heeds_popArgs (pops : i.op = .popArgs) : (s.popArgs store).Heeds s i := by
  unfold popArgs
  split
  · trivial
  · refine ⟨rfl, rfl, Or.inl rfl, ⟨[], rfl, ?_⟩, Or.inr (Or.inr pops), Or.inl ⟨?_, rfl⟩⟩
    · simp [Instruction.pushes, pops, Opcode.effect]
    · simp [pops, Opcode.effect]

theorem heeds_call {callee : Value} {args : List Value} (one : i.pushes = 1)
    (stays : i.op.effect.exits = false) : (Turn.call callee args s).Heeds s i :=
  ⟨rfl, one, stays⟩

/-- Every instruction keeps to its entry in the table of effects. -/
theorem act_heeds (store : Store) (s : Scene) (i : Instruction) (taken : List Value) :
    (s.act store i taken).Heeds s i := by
  obtain ⟨op, operand, small⟩ := i
  cases op with
  | label | noOp => exact Turn.withNone_holds trivial (heeds_go rfl rfl) taken
  | jump => exact Turn.withNone_holds trivial (heeds_goTo rfl rfl) taken
  | condJump =>
    refine Turn.withOne_holds trivial (fun v => ?_) taken
    split
    · exact heeds_goTo rfl rfl
    · exact heeds_go rfl rfl
  | ret | panic => exact Turn.withOne_holds trivial (fun _ => trivial) taken
  | retNull | retTrue | retFalse => exact Turn.withNone_holds trivial trivial taken
  | nullLit | trueLit | falseLit | posInt | negInt | argLen | restArg | newRef | current =>
    exact Turn.withNone_holds trivial (heeds_give rfl rfl) taken
  | const | arg | capture => exact Turn.withNone_holds trivial (heeds_fetch rfl rfl) taken
  | load => exact Turn.withNone_holds trivial (heeds_load rfl rfl operand) taken
  | store => exact Turn.withOne_holds trivial (heeds_put rfl) taken
  | bindRef | bind => exact Turn.withTwo_holds trivial (fun _ _ => heeds_keep rfl rfl) taken
  | deref | resolve | neg | not | car | cdr | empty =>
    exact Turn.withOne_holds trivial (fun _ => heeds_giveResult rfl rfl) taken
  | makeClosure =>
    exact Turn.withFirst_holds trivial (fun v _ => heeds_makeClosure rfl rfl v) taken
  | pop => exact Turn.withOne_holds trivial (fun _ => heeds_go rfl rfl) taken
  | call0 | call1 | call =>
    exact Turn.withFirst_holds trivial (fun _ _ => heeds_call rfl rfl) taken
  | tailCall => exact Turn.withFirst_holds trivial (fun _ _ => trivial) taken
  | pushArgs => exact ⟨rfl, rfl, Or.inl rfl, ⟨[], rfl, rfl⟩, Or.inr (Or.inl rfl), Or.inl ⟨rfl, rfl⟩⟩
  | popArgs => exact Turn.withNone_holds trivial (heeds_popArgs rfl) taken
  | declare | hide => exact Turn.withOne_holds trivial (fun _ => heeds_keep rfl rfl) taken
  | add | sub | mul | div | mod | numEq | numLt | numLte | numGt | numGte | eq | cons =>
    exact Turn.withTwo_holds trivial (fun _ _ => heeds_giveResult rfl rfl) taken

theorem giveResult_ne_stray (r : Except Fault Value) : s.giveResult store r ≠ .stray := by
  cases r <;> nofun

theorem fetch_ne_stray (found : Option Value) : s.fetch store found ≠ .stray := by
  cases found <;> nofun

theorem keep_ne_stray (r : Except Fault Store) : s.keep r ≠ .stray := by
  cases r <;> nofun

theorem makeClosure_ne_stray (captured : List Value) (template : Value) :
    s.makeClosure store captured template ≠ .stray := by
  cases template <;> nofun

theorem popArgs_ne_stray : s.popArgs store ≠ .stray := by
  unfold popArgs
  split <;> nofun

theorem goTo_of_anchor {label target : Nat} (found : Chunk.anchor? s.chunk.code label = some target) :
    s.goTo store label = .go { s with pc := target } store := by
  unfold goTo
  rw [found]

theorem goTo_ne_stray {label target : Nat}
    (found : Chunk.anchor? s.chunk.code label = some target) : s.goTo store label ≠ .stray := by
  rw [goTo_of_anchor found]
  nofun

/-- With its operands at hand and its anchor set, an instruction only strays to a local slot that is
not there or has nothing in it. -/
theorem act_stray {taken : List Value} (count : taken.length = i.pops)
    (anchored : i.op.jumps → ∃ target, Chunk.anchor? s.chunk.code i.operand = some target)
    (h : s.act store i taken = .stray) :
    (i.op = .load ∧ ∀ v, s.locals[i.operand]? ≠ some (some v)) ∨
      (i.op = .store ∧ s.locals.length ≤ i.operand) := by
  obtain ⟨op, operand, small⟩ := i
  cases op with
  | load =>
    obtain rfl := List.length_eq_zero_iff.mp count
    refine Or.inl ⟨rfl, fun v found => ?_⟩
    have given : s.load store operand = s.give store v := by
      unfold load
      rw [found]
    cases given.symm.trans h
  | store =>
    obtain ⟨v, rfl⟩ := List.length_eq_one_iff.mp count
    refine Or.inr ⟨rfl, Nat.le_of_not_lt fun inside => ?_⟩
    have put : s.put store operand v =
        .go { s with locals := s.locals.set operand (some v) } store := if_pos inside
    cases put.symm.trans h
  | jump =>
    obtain rfl := List.length_eq_zero_iff.mp count
    obtain ⟨target, found⟩ := anchored rfl
    exact absurd h (goTo_ne_stray found)
  | condJump =>
    obtain ⟨v, rfl⟩ := List.length_eq_one_iff.mp count
    obtain ⟨target, found⟩ := anchored rfl
    have chosen : (if v.holds then s.goTo store operand else .go s store) = Turn.stray := h
    split at chosen
    · exact absurd chosen (goTo_ne_stray found)
    · cases chosen
  | label | noOp | retNull | retTrue | retFalse | nullLit | trueLit | falseLit | posInt | negInt
  | argLen | restArg | newRef | current =>
    obtain rfl := List.length_eq_zero_iff.mp count
    cases h
  | ret | panic | pop | call0 | not =>
    obtain ⟨v, rfl⟩ := List.length_eq_one_iff.mp count
    cases h
  | const | arg | capture =>
    obtain rfl := List.length_eq_zero_iff.mp count
    exact absurd h (fetch_ne_stray _)
  | bindRef | bind =>
    match taken, count with
    | [_, _], _ => exact absurd h (keep_ne_stray _)
  | deref | resolve | neg | car | cdr | empty =>
    obtain ⟨v, rfl⟩ := List.length_eq_one_iff.mp count
    exact absurd h (giveResult_ne_stray _)
  | declare | hide =>
    obtain ⟨v, rfl⟩ := List.length_eq_one_iff.mp count
    exact absurd h (keep_ne_stray _)
  | makeClosure =>
    cases taken with
    | nil => cases (Nat.add_comm operand 1).trans count.symm
    | cons v vs => exact absurd h (makeClosure_ne_stray vs v)
  | call1 | eq =>
    match taken, count with
    | [_, _], _ => cases h
  | call | tailCall =>
    cases taken with
    | nil => cases (Nat.add_comm operand 1).trans count.symm
    | cons v vs => cases h
  | pushArgs => cases h
  | popArgs =>
    obtain rfl := List.length_eq_zero_iff.mp count
    exact absurd h popArgs_ne_stray
  | add | sub | mul | div | mod | numEq | numLt | numLte | numGt | numGte | cons =>
    match taken, count with
    | [_, _], _ => exact absurd h (giveResult_ne_stray _)

end Scene

end StackLisp
