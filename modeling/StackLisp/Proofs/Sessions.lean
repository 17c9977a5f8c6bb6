import StackLisp.Builtin.Core
import StackLisp.Proofs.Data
import StackLisp.Proofs.Upkeep

/-!
Sessions: what a host does with machines over one store. Whatever the forms that it evaluates there, the
code generated for them is accepted, and no evaluation comes to a breach.
-/

namespace StackLisp

/-- A value that a host may bind: made of what cannot be called, of proper builtins and of values that it was
given. -/
inductive Value.Hosted (given : List Value) : Value → Prop
  | scalar {v : Value} (scalar : v.isScalar) : Hosted given v
  | builtin {b : Builtin} (proper : b.Proper) : Hosted given (.builtin b)
  | given {v : Value} (member : v ∈ given) : Hosted given v
  | pair {car cdr : Value} (first : Hosted given car) (rest : Hosted given cdr) : Hosted given (.pair car cdr)
  | vector {items : List Value} (each : ∀ v ∈ items, Hosted given v) : Hosted given (.vector items)

variable {known : Procedure Value → Prop} {given : List Value} {m n : Machine} {σ : Store} {v form : Value}

theorem Value.IsData.safe (h : v.IsData) : v.Safe known := by
  induction h with
  | pair _ _ first rest => exact .pair first rest
  | vector _ each => exact .vector each
  | _ => exact .scalar rfl

theorem Value.Hosted.safe (each : ∀ v ∈ given, v.Safe known) (h : v.Hosted given) : v.Safe known := by
  induction h with
  | scalar scalar => exact .scalar scalar
  | builtin proper => exact .builtin proper
  | given member => exact each _ member
  | pair _ _ first rest => exact .pair first rest
  | vector _ each => exact .vector each

/-- The values that a host is given by an evaluation. -/
def Machine.Evaluation.values : Machine.Evaluation → List Value
  | .outcome (.value v) => [v]
  | .outcome (.fault f) => [f.payload]
  | _ => []

/-- A machine in the hands of a host, and the values that the host was given so far. A host makes machines
over one store, sets their options, makes namespaces, mentions and binds names in them, and evaluates data in
any of them. -/
inductive Session : Machine → List Value → Prop
  | new (settings : Settings) : Session (.new settings {}) []
  | share {m : Machine} {given : List Value} (session : Session m given) (settings : Settings) :
    Session (.new settings m.store) given
  | set {m : Machine} {given : List Value} (session : Session m given) (settings : Settings) :
    Session { m with settings } given
  | addCore {m : Machine} {given : List Value} (session : Session m given) :
    Session { m with store := m.store.addCore.2 } given
  | addNamespace {m : Machine} {given : List Value} (session : Session m given) (name : String)
    (parent : Option NamespaceId) : Session { m with store := (m.store.addNamespace name parent).2 } given
  | declare {m : Machine} {given : List Value} (session : Session m given) (globals : NamespaceId)
    (name : String) : Session { m with store := m.store.declare globals name } given
  | hide {m : Machine} {given : List Value} (session : Session m given) (globals : NamespaceId)
    (name : String) : Session { m with store := m.store.hide globals name } given
  | bind {m : Machine} {given : List Value} (session : Session m given) {globals : NamespaceId}
    {name : String} {v : Value} (hosted : v.Hosted given) {σ : Store}
    (bound : m.store.bind globals name v = .ok σ) : Session { m with store := σ } given
  | eval {m n : Machine} {given : List Value} (session : Session m given) {globals : NamespaceId}
    {form : Value} (data : form.IsData) {fuel : Nat} {e : Machine.Evaluation}
    (ended : m.eval fuel globals form = some (e, n)) : Session n (e.values ++ given)

/-- The language's own builtins stand for operations that take their arguments to one value. -/
theorem Builtin.proper_of_core {b : Builtin} (h : b ∈ Builtin.core) : b.Proper := by
  have each : ∀ b ∈ Builtin.core, b.intrinsic.all Intrinsic.computes := by decide
  intro intrinsic own
  have computes := each b h
  rwa [own] at computes

theorem Store.Bears.addCore {S : Value → Prop} (h : σ.Bears S) (special : ∀ f, S (.special f))
    (builtin : ∀ b ∈ Builtin.core, S (.builtin b)) : σ.addCore.2.Bears S := by
  refine ⟨List.forall_mem_cons.mpr ⟨fun entry member v bound => ?_, h.namespaces⟩, h.refs⟩
  obtain ⟨⟨name, w⟩, core, rfl⟩ := List.mem_map.mp member
  obtain rfl : w = v := Option.some.inj bound
  rcases List.mem_append.mp core with form | core
  · obtain ⟨⟨form, _⟩, -, same⟩ := List.mem_map.mp form
    exact (Prod.mk.inj same).2 ▸ special form
  · obtain ⟨b, core, same⟩ := List.mem_map.mp core
    exact (Prod.mk.inj same).2 ▸ builtin b core

theorem Store.Bears.addNamespace {S : Value → Prop} (h : σ.Bears S) (name : String)
    (parent : Option NamespaceId) : (σ.addNamespace name parent).2.Bears S :=
  ⟨List.forall_mem_cons.mpr ⟨fun _ => nofun, h.namespaces⟩, h.refs⟩

theorem Store.Keeps.empty : Store.Keeps (fun _ => False) {} where
  library := ⟨False.elim, fun h => h.elim, False.elim, False.elim⟩
  numbered := False.elim
  bears := ⟨fun _ => nofun, fun member => nomatch member⟩

theorem Store.Keeps.update (h : σ.Keeps known) {τ : Store} (built : τ.built = σ.built)
    (bears : τ.Bears (Value.Safe known)) : τ.Keeps known :=
  ⟨h.library, fun body => built ▸ h.numbered body, bears⟩

theorem Machine.Evaluation.Safe.values {e : Machine.Evaluation} (h : e.Safe known) :
    ∀ v ∈ e.values, v.Safe known := by
  match e with
  | .outcome (.value v) => exact List.forall_mem_singleton.mpr h
  | .outcome (.fault f) => exact List.forall_mem_singleton.mpr (Fault.Bears.payload h)
  | .rejected _ => exact fun _ => nofun

/-- In a session the machine is kept up, and the values given are safe. -/
theorem Session.sound (session : Session m given) :
    ∃ known, m.Sound known ∧ ∀ v ∈ given, v.Safe known := by
  induction session with
  | new settings => exact ⟨_, ⟨.empty, Pool.tidy_new _⟩, fun _ => nofun⟩
  | share _ settings ih =>
    obtain ⟨known, sound, each⟩ := ih
    exact ⟨known, ⟨sound.store, Pool.tidy_new _⟩, each⟩
  | set _ settings ih =>
    obtain ⟨known, sound, each⟩ := ih
    exact ⟨known, ⟨sound.store, sound.pool⟩, each⟩
  | addCore _ ih =>
    obtain ⟨known, sound, each⟩ := ih
    have bears := sound.store.bears.addCore (fun f => .scalar rfl) fun b core =>
      .builtin (Builtin.proper_of_core core)
    exact ⟨known, ⟨sound.store.update rfl bears, sound.pool⟩, each⟩
  | addNamespace _ name parent ih =>
    obtain ⟨known, sound, each⟩ := ih
    exact ⟨known, ⟨sound.store.update rfl (sound.store.bears.addNamespace name parent), sound.pool⟩, each⟩
  | declare _ globals name ih =>
    obtain ⟨known, sound, each⟩ := ih
    exact ⟨known, ⟨sound.store.update rfl (sound.store.bears.declare globals name), sound.pool⟩, each⟩
  | hide _ globals name ih =>
    obtain ⟨known, sound, each⟩ := ih
    exact ⟨known, ⟨sound.store.update rfl (sound.store.bears.hide globals name), sound.pool⟩, each⟩
  | @bind m given _ globals name v hosted σ bound ih =>
    obtain ⟨known, sound, each⟩ := ih
    have bears := sound.store.bears.bind globals name (hosted.safe each)
    rw [bound] at bears
    exact ⟨known, ⟨sound.store.update (Scene.built_bind bound) bears, sound.pool⟩, each⟩
  | eval _ data ended ih =>
    obtain ⟨known, sound, each⟩ := ih
    obtain ⟨more, wider, kept, safe⟩ := sound.eval data.safe ended
    exact ⟨more, kept, List.forall_mem_append.mpr ⟨Machine.Evaluation.Safe.values safe, fun v member => (each v member).mono wider⟩⟩

/-- In a session the check accepts what is generated for data: the code of the form and that of every
procedure inside. -/
theorem Session.compile_passes (session : Session m given) (data : form.IsData) (globals : NamespaceId)
    (options : CompileOptions) : Granted ((compile globals options form).run m.store).1 fun p =>
      ∃ known, Roster known ∧ known p := by
  obtain ⟨known, sound, -⟩ := session.sound
  cases ended : (compile globals options form).run m.store with | mk r t => ?_
  refine (compile_grants sound.store data.safe r t ended).2.mono fun p _ enlarges => ?_
  obtain ⟨more, -, keeps, body, -⟩ := enlarges
  exact ⟨more, keeps.library.roster, body⟩

/-- `(def same (lambda (x) x))` -/
def definingSame : Value :=
  .ofList [.symbol "def", .symbol "same", .ofList [.symbol "lambda", .ofList [.symbol "x"], .symbol "x"]]

/-- `(same 2)` -/
def callingSame : Value :=
  .ofList [.symbol "same", .integer 2]

theorem definingSame_isData : definingSame.IsData :=
  .pair (.symbol _) (.pair (.symbol _) (.pair (.pair (.symbol _) (.pair (.pair (.symbol _) .null)
    (.pair (.symbol _) .null))) .null))

theorem callingSame_isData : callingSame.IsData :=
  .pair (.symbol _) (.pair (.integer _) .null)

/-- A call of a closure that was defined before, written into the code. -/
theorem compile_passes_callingSame : ∃ n e,
    (Machine.new {} (Store.addUser {}).2).eval 20 (Store.addUser {}).1 definingSame = some (e, n) ∧
      Granted ((compile (Store.addUser {}).1 {} callingSame).run n.store).1 fun p =>
        ∃ known, Roster known ∧ known p := by
  have ends : ((Machine.new {} (Store.addUser {}).2).eval 20 (Store.addUser {}).1 definingSame).isSome := by
    decide +kernel
  obtain ⟨⟨e, n⟩, ended⟩ := Option.isSome_iff_exists.mp ends
  have session := ((Session.new {}).addCore.addNamespace "user" (some 0)).eval definingSame_isData ended
  exact ⟨n, e, ended, session.compile_passes callingSame_isData _ {}⟩

/-- A builtin of a host's that is written in place as a jump. -/
def jumping : Builtin :=
  { name := "f", arity := .any, operation := .note, intrinsic := some (.unary .jump) }

/-- A value that is no procedure and no closure. -/
def Value.IsPlain (v : Value) : Prop :=
  (∀ p, v ≠ .procedure p) ∧ ∀ p captured, v ≠ .closure p captured

theorem bears_user : (Store.addUser {}).2.Bears Value.IsPlain := by
  have empty : Store.Bears Value.IsPlain {} := ⟨fun _ => nofun, fun member => nomatch member⟩
  exact (empty.addCore (fun _ => ⟨nofun, nofun⟩) fun _ _ => ⟨nofun, nofun⟩).addNamespace "user" (some 0)

/-- Where a host's builtin stands for another operation, the check may reject the code of a call of it. -/
theorem compile_jumping : ∃ σ : Store,
    (Store.addUser {}).2.bind (Store.addUser {}).1 "f" (.builtin jumping) = .ok σ ∧
      σ.Bears Value.IsPlain ∧ (Value.ofList [.symbol "f", .integer 1]).IsData ∧
      ((compile (Store.addUser {}).1 {} (.ofList [.symbol "f", .integer 1])).run σ).1 =
        .error (.error (.unanchoredLabel 0)) := by
  refine ⟨_, rfl, ?_, .pair (.symbol "f") (.pair (.integer 1) .null), rfl⟩
  exact bears_user.bind (Store.addUser {}).1 "f" (v := .builtin jumping) ⟨nofun, nofun⟩

/-- The evaluations of forms in a namespace, one after another, each under options of its own, up to one that
does not end within so many steps. -/
def Machine.evalEach (m : Machine) (fuel : Nat) (globals : NamespaceId) :
    List (CompileOptions × Value) → List Machine.Evaluation
  | [] => []
  | (compile, form) :: forms =>
    match ({ m with settings := { m.settings with compile } } : Machine).eval fuel globals form with
    | none => []
    | some (e, n) => e :: n.evalEach fuel globals forms

/-- In a session no evaluation of data comes to a breach. -/
theorem Session.eval_ne_breach (session : Session m given) (data : form.IsData) {globals : NamespaceId}
    {fuel : Nat} {e : Machine.Evaluation} (ended : m.eval fuel globals form = some (e, n)) (b : Breach) :
    e ≠ .outcome (.breach b) := by
  obtain ⟨known, sound, -⟩ := session.sound
  obtain ⟨more, -, -, safe⟩ := sound.eval data.safe ended
  rintro rfl
  exact safe

theorem Session.evalEach_ne_breach (session : Session m given) {fuel : Nat} {globals : NamespaceId}
    {forms : List (CompileOptions × Value)} (data : ∀ entry ∈ forms, entry.2.IsData) :
    ∀ e ∈ m.evalEach fuel globals forms, ∀ b, e ≠ .outcome (.breach b) := by
  induction forms generalizing m given with
  | nil => exact fun _ => nofun
  | cons entry forms ih =>
    obtain ⟨compile, form⟩ := entry
    obtain ⟨first, rest⟩ := List.forall_mem_cons.mp data
    have session := session.set { m.settings with compile }
    unfold Machine.evalEach
    split
    · exact fun _ => nofun
    next e n ended =>
      exact List.forall_mem_cons.mpr ⟨session.eval_ne_breach first ended, ih (session.eval first ended) rest⟩

/-- No sequence of forms, evaluated one after another in a namespace above the language, comes to a breach. -/
theorem evalEach_user_ne_breach (settings : Settings) {forms : List (CompileOptions × Value)}
    (data : ∀ entry ∈ forms, entry.2.IsData) (fuel : Nat) :
    ∀ e ∈ (Machine.new settings (Store.addUser {}).2).evalEach fuel (Store.addUser {}).1 forms,
      ∀ b, e ≠ .outcome (.breach b) := by
  have session := (Session.new settings).addCore.addNamespace "user" (some 0)
  exact session.evalEach_ne_breach data

/-- Whether an evaluation ends in a value that equals the given one. -/
def Machine.Evaluation.tells (v : Value) : Machine.Evaluation → Bool
  | .outcome (.value w) => w == v
  | _ => false

theorem eq_of_tells_symbol {name : String} {e : Machine.Evaluation} (told : e.tells (.symbol name)) :
    e = .outcome (.value (.symbol name)) := by
  obtain ⟨⟨w⟩ | _ | _⟩ | _ := e
  · cases w with
    | symbol s => rw [eq_of_beq (show (s == name) = true from told)]
    | _ => cases told
  all_goals cases told

theorem eq_of_tells_integer {n : Int64} {e : Machine.Evaluation} (told : e.tells (.integer n)) :
    e = .outcome (.value (.integer n)) := by
  obtain ⟨⟨w⟩ | _ | _⟩ | _ := e
  · cases w with
    | integer m => rw [eq_of_beq (show (m == n) = true from told)]
    | _ => cases told
  all_goals cases told

/-- A closure is defined and called. -/
theorem evalEach_same : (Machine.new {} (Store.addUser {}).2).evalEach 20 (Store.addUser {}).1
      [({}, definingSame), ({}, callingSame)] =
        [.outcome (.value (.symbol "same")), .outcome (.value (.integer 2))] ∧
    ∀ e ∈ (Machine.new {} (Store.addUser {}).2).evalEach 20 (Store.addUser {}).1
      [({}, definingSame), ({}, callingSame)], ∀ b, e ≠ .outcome (.breach b) := by
  refine ⟨?_, evalEach_user_ne_breach {} ?_ 20⟩
  · have ends : ((Machine.new {} (Store.addUser {}).2).evalEach 20 (Store.addUser {}).1
        [({}, definingSame), ({}, callingSame)]).length = 2 := by
      decide +kernel
    have tells : List.zipWith Machine.Evaluation.tells [.symbol "same", .integer 2]
        ((Machine.new {} (Store.addUser {}).2).evalEach 20 (Store.addUser {}).1
          [({}, definingSame), ({}, callingSame)]) = [true, true] := by
      decide +kernel
    obtain ⟨first, second, both⟩ := List.length_eq_two.mp ends
    rw [both] at tells ⊢
    rw [eq_of_tells_symbol (List.cons.inj tells).1,
      eq_of_tells_integer (List.cons.inj (List.cons.inj tells).2).1]
  · exact List.forall_mem_cons.mpr ⟨definingSame_isData, List.forall_mem_singleton.mpr callingSame_isData⟩

end StackLisp
