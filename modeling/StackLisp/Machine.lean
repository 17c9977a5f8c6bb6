import StackLisp.Builtin.Reply
import StackLisp.Compile
import StackLisp.Frame.Pool
import StackLisp.Machine.Instruction

/-!
The machine. A state is what control does now, with the work that waits for its outcome, innermost
first. One step runs one instruction or settles one piece of waiting work; every call of a closure
holds one frame from its start to its end.
-/

namespace StackLisp

structure Machine where
  settings : Settings
  store : Store
  pool : Pool
  /-- What the host's builtins have noted, the newest first. -/
  journal : List String := []

inductive Control where
  | running (a : Activation)
  | calling (callee : Value) (args : List Value)
  | returning (v : Value)
  | unwinding (f : Fault)
  | breaching (b : Breach)

/-- Work that waits: a caller for a value to push, an activation for the value that will be its own, a
handler for a fault. -/
inductive Pending where
  | resume (a : Activation)
  | finish (a : Activation)
  | guard (handler : Value)

inductive Outcome where
  | value (v : Value)
  | fault (f : Fault)
  | breach (b : Breach)

namespace Machine

def new (settings : Settings) (store : Store) : Machine :=
  { settings, store, pool := .new settings.pool }

def report (m : Machine) (e : Event) : Machine :=
  { m with store := m.store.report e }

/-- Takes over a pool that may have been refilled for a frame. -/
def granted (m : Machine) (g : Grant) : Machine :=
  let m := { m with pool := g.pool }
  if g.refilled then m.report (.refilled g.frame.length g.pool.spanEntries) else m

def release (m : Machine) (a : Activation) : Machine :=
  { m with pool := m.pool.free a.frame }

/-- Ends an activation by a fault. -/
def abandon (m : Machine) (a : Activation) (f : Fault) : Machine :=
  (m.report (.unwound a.procedure.name f)).release a

structure State where
  machine : Machine
  control : Control
  pending : List Pending := []

namespace State

/-- Starts a closure in a frame of its own. -/
def start (m : Machine) (pending : List Pending) (c : Closure) (args : List Value) : State :=
  let grant := m.pool.alloc c.procedure.frameSize
  ⟨m.granted grant, .running (.enter c args grant.frame), pending⟩

/-- Puts another closure into the place of an activation. -/
def switch (m : Machine) (pending : List Pending) (a : Activation) (c : Closure)
    (args : List Value) : State :=
  let grant := m.pool.reserve a.frame c.procedure.frameSize
  ⟨m.granted grant, .running (.enter c args grant.frame), pending⟩

def fail (m : Machine) (pending : List Pending) (a : Activation) : Failure → State
  | .fault f => ⟨m.abandon a f, .unwinding f, pending⟩
  | .breach b => ⟨m.release a, .breaching b, pending⟩

/-- How control goes on after an instruction. -/
def follow (m : Machine) (pending : List Pending) (a : Activation) : Move → State
  | .go => ⟨m, .running a, pending⟩
  | .answer v => ⟨m.release a, .returning v, pending⟩
  | .call callee args => ⟨m, .calling callee args, .resume a :: pending⟩
  | .leave callee args => ⟨m, .calling callee args, .finish a :: pending⟩
  | .switch c args => switch m pending a c args

def traced (m : Machine) (a : Activation) (i : Instruction) : Machine :=
  if m.settings.trace then m.report (.executed a.procedure.name a.pc i a.depth) else m

def runInstruction (m : Machine) (pending : List Pending) (a : Activation) : State :=
  match a.procedure.code[a.pc]? with
  | none => fail m pending a (.breach .outOfRange)
  | some i =>
    let m := traced m a i
    match (Act.perform m.store i).run { a with pc := a.pc + 1 } with
    | (.error e, a) => fail m pending a e
    | (.ok (move, store), a) => follow { m with store } pending a move

def reply (m : Machine) (pending : List Pending) : Reply → State
  | .answer v => ⟨m, .returning v, pending⟩
  | .fault f => ⟨m, .unwinding f, pending⟩
  | .call callee args => ⟨m, .calling callee args, pending⟩
  | .guarded thunk handler => ⟨m, .calling thunk [], .guard handler :: pending⟩
  | .noted line v => ⟨{ m with journal := line :: m.journal }, .returning v, pending⟩

/-- Calls a value after checking the count of its arguments. -/
def callValue (m : Machine) (pending : List Pending) (callee : Value) (args : List Value) : State :=
  match callee.callable?.bind (·.check args.length) with
  | .error f => ⟨m, .unwinding f, pending⟩
  | .ok _ =>
    match callee with
    | .closure p captured => start m pending ⟨p, captured⟩ args
    | .builtin b => reply m pending (b.reply args)
    | v => ⟨m, .unwinding (.mismatch .callable v), pending⟩

def returnTo (m : Machine) (pending : List Pending) (v : Value) : Pending → State
  | .resume a =>
    match (Act.push v).run a with
    | (.ok _, a) => ⟨m, .running a, pending⟩
    | (.error e, a) => fail m pending a e
  | .finish a => ⟨m.release a, .returning v, pending⟩
  | .guard _ => ⟨m, .returning v, pending⟩

def unwindTo (m : Machine) (pending : List Pending) (f : Fault) : Pending → State
  | .resume a | .finish a => ⟨m.abandon a f, .unwinding f, pending⟩
  | .guard handler => ⟨m, .calling handler [f.payload], pending⟩

def breachTo (m : Machine) (pending : List Pending) (b : Breach) : Pending → State
  | .resume a | .finish a => ⟨m.release a, .breaching b, pending⟩
  | .guard _ => ⟨m, .breaching b, pending⟩

def step : State → State
  | ⟨m, .running a, pending⟩ => runInstruction m pending a
  | ⟨m, .calling callee args, pending⟩ => callValue m pending callee args
  | ⟨m, .returning v, w :: pending⟩ => returnTo m pending v w
  | ⟨m, .unwinding f, w :: pending⟩ => unwindTo m pending f w
  | ⟨m, .breaching b, w :: pending⟩ => breachTo m pending b w
  | s => s

/-- The outcome of a state with nothing left to do. -/
def outcome? : State → Option Outcome
  | ⟨_, .returning v, []⟩ => some (.value v)
  | ⟨_, .unwinding f, []⟩ => some (.fault f)
  | ⟨_, .breaching b, []⟩ => some (.breach b)
  | _ => none

/-- At most `fuel` steps; `none` if they do not reach an outcome. -/
def run : Nat → State → Option (Outcome × Machine)
  | 0, _ => none
  | fuel + 1, s =>
    match s.outcome? with
    | some o => some (o, s.machine)
    | none => run fuel s.step

end State

def call (m : Machine) (fuel : Nat) (callee : Value) (args : List Value) :
    Option (Outcome × Machine) :=
  State.run fuel ⟨m, .calling callee args, []⟩

/-- Work of the compiler on the machine's store. -/
def build {α : Type} (m : Machine) (act : Build α) : Except Rejection α × Machine :=
  let (r, store) := act.run m.store
  (r, { m with store })

/-- Compiles a form into a closure of no arguments. -/
def compile (m : Machine) (globals : NamespaceId) (form : Value) :
    Except Rejection Closure × Machine :=
  let (r, m) := m.build (StackLisp.compile globals m.settings.compile form)
  (r.map fun p => ⟨p, []⟩, m)

/-- What evaluating a form comes to. -/
inductive Evaluation where
  | outcome (o : Outcome)
  | rejected (e : CompileError)

/-- Compiles and runs a form. -/
def eval (m : Machine) (fuel : Nat) (globals : NamespaceId) (form : Value) :
    Option (Evaluation × Machine) :=
  match m.compile globals form with
  | (.ok c, m) => (m.call fuel c.value []).map fun (o, m) => (.outcome o, m)
  | (.error (.error e), m) => some (.rejected e, m)
  | (.error (.breach b), m) => some (.outcome (.breach b), m)

end Machine

end StackLisp
