import StackLisp.Machine
import StackLisp.Proofs.Meeting
import StackLisp.Proofs.Parallel

/-!
Plays: calls that run in scenes. A play has no frames and keeps no account of what it does, and a tail
call ends the scene that it is made in. Code can be read in more than one way.
-/

namespace StackLisp

/-- What a play does now. A play that has strayed does nothing more. -/
inductive Doing where
  | running (s : Scene)
  | calling (callee : Value) (args : List Value)
  | returning (v : Value)
  | unwinding (f : Fault)
  | breaching (b : Breach)
  | straying

/-- A scene that waits for a value, or a handler for a fault. -/
inductive Waiting where
  | resume (s : Scene)
  | guard (handler : Value)

structure Play where
  store : Store
  doing : Doing
  waiting : List Waiting := []

/-- A change to the globals. -/
inductive Edit where
  | declare (globals : NamespaceId) (name : String)
  | hide (globals : NamespaceId) (name : String)
  | bind (globals : NamespaceId) (name : String) (v : Value)

inductive Edit.Matches (P : Procedure Value → Procedure Value → Prop) : Edit → Edit → Prop where
  | declare (globals : NamespaceId) (name : String) : Matches P (.declare globals name) (.declare globals name)
  | hide (globals : NamespaceId) (name : String) : Matches P (.hide globals name) (.hide globals name)
  | bind (globals : NamespaceId) (name : String) {v w : Value} (value : v.Matches P w) :
    Matches P (.bind globals name v) (.bind globals name w)

/-- What an instruction does to the globals if it succeeds with these operands. -/
def Instruction.edit? (i : Instruction) (globals : NamespaceId) : List Value → Option Edit
  | .symbol name :: rest =>
    match i.op, rest with
    | .declare, _ => some (.declare globals name)
    | .hide, _ => some (.hide globals name)
    | .bind, v :: _ => some (.bind globals name v)
    | _, _ => none
  | _ => none

/-- A change that is made if the turn goes on. -/
def Turn.edits (change : Option Edit) : Turn → List Edit
  | .go _ _ => change.toList
  | _ => []

/-- How code is read: the chunk that a procedure runs, and what an instruction comes to. -/
structure Reading where
  chunk : Procedure Value → Chunk
  turn : Store → Scene → Instruction → Turn

/-- Every procedure runs its own chunk. -/
def Reading.plain : Reading :=
  ⟨Procedure.chunk, Scene.turn⟩

namespace Play

def follow (σ : Store) (waiting : List Waiting) : Turn → Play
  | .go s τ => ⟨τ, .running s, waiting⟩
  | .answer v => ⟨σ, .returning v, waiting⟩
  | .call callee args s => ⟨σ, .calling callee args, .resume s :: waiting⟩
  | .leave callee args => ⟨σ, .calling callee args, waiting⟩
  | .fault f => ⟨σ, .unwinding f, waiting⟩
  | .breach b => ⟨σ, .breaching b, waiting⟩
  | .stray => ⟨σ, .straying, waiting⟩

def reply (σ : Store) (waiting : List Waiting) : Reply → Play
  | .answer v => ⟨σ, .returning v, waiting⟩
  | .fault f => ⟨σ, .unwinding f, waiting⟩
  | .call callee args => ⟨σ, .calling callee args, waiting⟩
  | .guarded thunk handler => ⟨σ, .calling thunk [], .guard handler :: waiting⟩
  | .noted _ v => ⟨σ, .returning v, waiting⟩

/-- The outcome of a play at its end, with the store that it leaves. -/
def ended? : Play → Option (Outcome × Store)
  | ⟨σ, .returning v, []⟩ => some (.value v, σ)
  | ⟨σ, .unwinding f, []⟩ => some (.fault f, σ)
  | ⟨σ, .breaching b, []⟩ => some (.breach b, σ)
  | _ => none

variable (r : Reading)

def run (σ : Store) (waiting : List Waiting) (s : Scene) : Play :=
  match s.chunk.code[s.pc]? with
  | some i => follow σ waiting (r.turn σ s i)
  | none => ⟨σ, .straying, waiting⟩

/-- Calls a value that accepts so many arguments. -/
def enter (σ : Store) (waiting : List Waiting) (args : List Value) : Value → Play
  | .closure p captured => ⟨σ, .running (.enter (r.chunk p) ⟨p, captured⟩ args), waiting⟩
  | .builtin b => reply σ waiting (b.reply args)
  | v => ⟨σ, .unwinding (.mismatch .callable v), waiting⟩

def call (σ : Store) (waiting : List Waiting) (callee : Value) (args : List Value) : Play :=
  match callee.callable?.bind (·.check args.length) with
  | .error f => ⟨σ, .unwinding f, waiting⟩
  | .ok _ => enter r σ waiting args callee

omit r in
theorem callable?_closure (p : Procedure Value) (captured : List Value) (count : Nat) :
    (Value.closure p captured).callable?.bind (·.check count) = p.arity.check count :=
  rfl

def step : Play → Play
  | ⟨σ, .running s, waiting⟩ => run r σ waiting s
  | ⟨σ, .calling callee args, waiting⟩ => call r σ waiting callee args
  | ⟨σ, .returning v, .resume s :: waiting⟩ => ⟨σ, .running (s.push v), waiting⟩
  | ⟨σ, .returning v, .guard _ :: waiting⟩ => ⟨σ, .returning v, waiting⟩
  | ⟨σ, .unwinding f, .resume _ :: waiting⟩ => ⟨σ, .unwinding f, waiting⟩
  | ⟨σ, .unwinding f, .guard handler :: waiting⟩ => ⟨σ, .calling handler [f.payload], waiting⟩
  | ⟨σ, .breaching b, _ :: waiting⟩ => ⟨σ, .breaching b, waiting⟩
  | p => p

/-- What the next step does to the globals. -/
def edits : Play → List Edit
  | ⟨σ, .running s, _⟩ =>
    match s.chunk.code[s.pc]? with
    | some i => (r.turn σ s i).edits (i.edit? s.chunk.globals s.stack)
    | none => []
  | _ => []

theorem step_of_ended {p : Play} {o : Outcome × Store} (h : p.ended? = some o) :
    step r p = p ∧ edits r p = [] := by
  unfold ended? at h
  split at h <;> first | exact ⟨rfl, rfl⟩ | cases h

def system : System Play (Outcome × Store) Edit where
  step := step r
  ended?
  notes := edits r
  still h := (step_of_ended r h).1
  silent h := (step_of_ended r h).2

end Play

end StackLisp
