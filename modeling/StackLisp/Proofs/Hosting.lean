import StackLisp.Proofs.Confinement

/-!
Hosts that make no references of their own. Whatever forms are evaluated on a machine in the hands of one, with
inlining or without, references are confined at every step.
-/

namespace StackLisp

/-- A value that a host may bind: made of what has no parts and is no reference, and of builtins whose calls are
written in place, if at all, as operations on the arguments. -/
inductive Value.Harmless : Value → Prop
  | scalar {v : Value} (scalar : v.isScalar) (other : ∀ id, v ≠ .ref id) : Harmless v
  | builtin {b : Builtin} (proper : b.Proper) (operates : b.Operates) : Harmless (.builtin b)
  | pair {car cdr : Value} (first : Harmless car) (rest : Harmless cdr) : Harmless (.pair car cdr)
  | vector {items : List Value} (each : ∀ v ∈ items, Harmless v) : Harmless (.vector items)

/-- A machine in the hands of a host that makes machines over one store, sets their options, makes namespaces,
mentions names and binds harmless values in them, and evaluates data in any of them. -/
inductive Machine.Hosting : Machine → Prop
  | new (settings : Settings) : Hosting (.new settings {})
  | share {m : Machine} (hosting : Hosting m) (settings : Settings) : Hosting (.new settings m.store)
  | set {m : Machine} (hosting : Hosting m) (settings : Settings) : Hosting { m with settings }
  | addCore {m : Machine} (hosting : Hosting m) : Hosting { m with store := m.store.addCore.2 }
  | addNamespace {m : Machine} (hosting : Hosting m) (name : String) (parent : Option NamespaceId) :
    Hosting { m with store := (m.store.addNamespace name parent).2 }
  | declare {m : Machine} (hosting : Hosting m) (globals : NamespaceId) (name : String) :
    Hosting { m with store := m.store.declare globals name }
  | hide {m : Machine} (hosting : Hosting m) (globals : NamespaceId) (name : String) :
    Hosting { m with store := m.store.hide globals name }
  | bind {m : Machine} (hosting : Hosting m) {globals : NamespaceId} {name : String} {v : Value}
    (harmless : v.Harmless) {σ : Store} (bound : m.store.bind globals name v = .ok σ) :
    Hosting { m with store := σ }
  | eval {m n : Machine} (hosting : Hosting m) {globals : NamespaceId} {form : Value} (data : form.IsData)
    {fuel : Nat} {e : Machine.Evaluation} (ended : m.eval fuel globals form = some (e, n)) : Hosting n

variable {v form : Value} {m n : Machine} {known : Procedure Value → Prop} {globals : NamespaceId} {fuel : Nat}

theorem Value.Harmless.serves (h : v.Harmless) : v.Serves .plain := by
  induction h with
  | scalar scalar other => exact .scalar scalar other
  | builtin _ operates => exact .builtin operates
  | pair _ _ first rest => exact .pair first rest
  | vector _ each => exact .vector each

theorem Value.Harmless.hosted {given : List Value} (h : v.Harmless) : v.Hosted given := by
  induction h with
  | scalar scalar => exact .scalar scalar
  | builtin proper => exact .builtin proper
  | pair _ _ first rest => exact .pair first rest
  | vector _ each => exact .vector each

theorem Value.IsData.serves (h : v.IsData) : v.Serves .plain := by
  induction h with
  | pair _ _ first rest => exact .pair first rest
  | vector _ each => exact .vector each
  | _ => exact .scalar rfl nofun

/-- The operation that calls are written in place as. -/
def Intrinsic.opcode : Intrinsic → Opcode
  | .unary op | .binary op | .fold op => op

theorem Intrinsic.opcode_of_expand {own : Intrinsic} {count times : Nat} {op : Opcode}
    (expands : own.expand? count = some (op, times)) : own.opcode = op := by
  unfold Intrinsic.expand? at expands
  split at expands <;> cases expands <;> rfl

/-- The language's own builtins are written in place as operations on their arguments. -/
theorem Builtin.operates_of_core {b : Builtin} (h : b ∈ Builtin.core) : b.Operates := by
  have each : ∀ b ∈ Builtin.core, b.intrinsic.all (·.opcode.operates) := by decide
  intro count op times expands
  obtain ⟨intrinsic, own, expands⟩ := Option.bind_eq_some_iff.mp expands
  have operates := each b h
  rw [own] at operates
  exact Intrinsic.opcode_of_expand expands ▸ operates

namespace Machine

theorem Hosting.session (hosting : m.Hosting) : ∃ given, Session m given := by
  induction hosting with
  | new settings => exact ⟨[], .new settings⟩
  | share _ settings ih => exact ih.imp fun _ session => session.share settings
  | set _ settings ih => exact ih.imp fun _ session => session.set settings
  | addCore _ ih => exact ih.imp fun _ session => session.addCore
  | addNamespace _ name parent ih => exact ih.imp fun _ session => session.addNamespace name parent
  | declare _ globals name ih => exact ih.imp fun _ session => session.declare globals name
  | hide _ globals name ih => exact ih.imp fun _ session => session.hide globals name
  | bind _ harmless bound ih => exact ih.imp fun _ session => session.bind harmless.hosted bound
  | eval _ data ended ih =>
    obtain ⟨given, session⟩ := ih
    exact ⟨_, session.eval data ended⟩

/-- A call of plain values in a store of plain values stands, however far it goes. -/
theorem Sound.stands (h : m.Sound known) (bears : m.store.Bears (Value.Serves .plain)) {callee : Value}
    {args : List Value} (called : callee.Safe known) (values : ∀ v ∈ args, v.Safe known)
    (plain : callee.Serves .plain) (plains : ∀ v ∈ args, v.Serves .plain) (k : Nat) :
    ∃ p, State.Follows known p (State.step^[k] ⟨m, .calling callee args, []⟩) ∧ p.Stands :=
  State.stands_iterate h.store.library.roster (h.follows called values)
    ⟨bears, 0, Nat.zero_le _, ⟨plain, plains⟩, .nil 0⟩ k

/-- A form without references is compiled into a closure without references. -/
theorem Sound.compile_plain (h : m.Sound known) (bears : m.store.Bears (Value.Serves .plain)) {form : Value}
    (safe : form.Safe known) (plain : form.Serves .plain) (globals : NamespaceId) :
    (m.compile globals form).2.store.Bears (Value.Serves .plain) ∧
      ∀ c, (m.compile globals form).1 = .ok c → c.value.Serves .plain := by
  unfold Machine.compile Machine.build
  cases ended : (StackLisp.compile globals m.settings.compile form).run m.store with | mk r t => ?_
  obtain ⟨grown, -⟩ := compile_grants h.store safe r t ended
  refine ⟨⟨grown.namespaces ▸ bears.namespaces, grown.refs ▸ bears.refs⟩, fun c made => ?_⟩
  cases r with
  | ok p =>
    obtain rfl := Except.ok.inj made
    exact compile_serves ended plain bears
  | error e => cases made

/-- Whatever was evaluated on it, the store of a host's machine bears plain values only. -/
theorem Hosting.plain (hosting : m.Hosting) : m.store.Bears (Value.Serves .plain) := by
  induction hosting with
  | new => exact ⟨fun _ => nofun, fun member => nomatch member⟩
  | share _ settings ih | set _ settings ih => exact ih
  | addCore _ ih => exact ih.addCore (fun f => .scalar rfl nofun) fun b core => .builtin (Builtin.operates_of_core core)
  | addNamespace _ name parent ih => exact ih.addNamespace name parent
  | declare _ globals name ih => exact ih.declare globals name
  | hide _ globals name ih => exact ih.hide globals name
  | @bind m _ globals name v harmless σ bound ih =>
    have bears := ih.bind globals name harmless.serves
    rw [bound] at bears
    exact bears
  | @eval m n hosting globals form data fuel e ended ih =>
    obtain ⟨given, session⟩ := hosting.session
    obtain ⟨known, sound, -⟩ := session.sound
    obtain ⟨more, -, kept, granted⟩ := sound.compile data.safe globals
    obtain ⟨bears, plain⟩ := sound.compile_plain ih data.safe data.serves globals
    unfold Machine.eval at ended
    generalize m.compile globals form = compiled at kept granted bears plain ended
    obtain ⟨r, t⟩ := compiled
    match r with
    | .ok c =>
      obtain ⟨⟨o, u⟩, called, made⟩ := Option.map_eq_some_iff.mp ended
      obtain ⟨-, rfl⟩ := Prod.mk.inj made
      obtain ⟨k, rfl⟩ := State.machine_of_run called
      obtain ⟨p, follows, stands⟩ := kept.stands bears granted (List.forall_mem_nil _) (plain c rfl) (List.forall_mem_nil _) k
      exact State.bears_of_plays follows.plays stands.store
    | .error (.error _) | .error (.breach _) =>
      obtain ⟨-, rfl⟩ := Prod.mk.inj (Option.some.inj ended)
      exact bears

/-- At every step of what a host evaluates references are confined: those to look into or to fill are on top of
the operands, each is filled once, none leaks to an argument, a result, a pair, a vector or a global, and the
only fault with one is that it is looked into too early. -/
theorem Hosting.confines (hosting : m.Hosting) (data : form.IsData) {c : Closure}
    (compiled : m.compile globals form = (.ok c, n)) (k : Nat) :
    (State.step^[k] ⟨n, .calling c.value [], []⟩).Confines := by
  obtain ⟨given, session⟩ := hosting.session
  obtain ⟨known, sound, -⟩ := session.sound
  obtain ⟨more, -, kept, granted⟩ := sound.compile data.safe globals
  obtain ⟨bears, plain⟩ := sound.compile_plain hosting.plain data.safe data.serves globals
  rw [compiled] at kept granted bears plain
  obtain ⟨p, follows, stands⟩ := kept.stands bears granted (List.forall_mem_nil _) (plain c rfl) (List.forall_mem_nil _) k
  exact State.confines_of_stands kept.store.library.roster follows stands

/-- `(letrec (x x) x)` -/
def readingEarly : Value :=
  .ofList [.symbol "letrec", .ofList [.symbol "x", .symbol "x"], .symbol "x"]

theorem readingEarly_isData : readingEarly.IsData :=
  .pair (.symbol _) (.pair (.pair (.symbol _) (.pair (.symbol _) .null)) (.pair (.symbol _) .null))

/-- A name is read before it has a value, which is all that goes wrong. -/
theorem confines_readingEarly :
    ((Machine.new {} (Store.addUser {}).2).eval 20 (Store.addUser {}).1 readingEarly).map Prod.fst =
        some (.outcome (.fault .unboundRef)) ∧
      ∃ c n, (Machine.new {} (Store.addUser {}).2).compile (Store.addUser {}).1 readingEarly = (.ok c, n) ∧
        ∀ k, (State.step^[k] ⟨n, .calling c.value [], []⟩).Confines := by
  refine ⟨by with_unfolding_all rfl, ?_⟩
  have hosting : (Machine.new {} (Store.addUser {}).2).Hosting := (Hosting.new {}).addCore.addNamespace "user" (some 0)
  have made : ((Machine.new {} (Store.addUser {}).2).compile (Store.addUser {}).1 readingEarly).1.isOk := by
    decide +kernel
  cases compiled : (Machine.new {} (Store.addUser {}).2).compile (Store.addUser {}).1 readingEarly with | mk r n
  rw [compiled] at made
  cases r with
  | ok c => exact ⟨c, n, rfl, hosting.confines readingEarly_isData compiled⟩
  | error e => cases made

end Machine

end StackLisp
