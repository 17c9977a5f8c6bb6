import StackLisp.Proofs.Programs
import StackLisp.Proofs.Sessions

/-!
Evaluation and execution. What is compiled from a form with inlining off comes to what the form means, wherever
builtins of one name are one builtin: a run of it ends just if the evaluation of the form does, in the same value
or fault and with the same changes of the store.
-/

namespace StackLisp

/-! ### Values over builtins -/

/-- The value has no builtins but these, and neither do the constants of its procedures. -/
inductive Value.Over (genuine : Builtin → Prop) : Value → Prop
  | scalar {v : Value} (scalar : v.isScalar) : Over genuine v
  | pair {a b : Value} (car : Over genuine a) (cdr : Over genuine b) : Over genuine (.pair a b)
  | vector {items : List Value} (each : ∀ v ∈ items, Over genuine v) : Over genuine (.vector items)
  | procedure {p : Procedure Value} (constants : ∀ v ∈ p.constants, Over genuine v) : Over genuine (.procedure p)
  | closure {p : Procedure Value} {captured : List Value} (constants : ∀ v ∈ p.constants, Over genuine v)
    (each : ∀ v ∈ captured, Over genuine v) : Over genuine (.closure p captured)
  | builtin {b : Builtin} (h : genuine b) : Over genuine (.builtin b)

variable {known : Procedure Value → Prop} {genuine : Builtin → Prop} {v : Value}

theorem Value.hereditary_over : Hereditary (Value.Over genuine) where
  scalar scalar _ := .scalar scalar
  pair := ⟨fun h => by
    cases h with
    | scalar scalar => cases scalar
    | pair car cdr => exact ⟨car, cdr⟩, fun h => .pair h.1 h.2⟩
  vector := ⟨fun h => by
    cases h with
    | scalar scalar => cases scalar
    | vector each => exact each, .vector⟩

theorem Value.IsData.over (h : v.IsData) : v.Over genuine := by
  induction h with
  | pair _ _ first rest => exact .pair first rest
  | vector _ each => exact .vector each
  | _ => exact .scalar rfl

/-- Known procedures over these builtins. -/
def Vouched (known : Procedure Value → Prop) (genuine : Builtin → Prop) (p : Procedure Value) : Prop :=
  known p ∧ ∀ v ∈ p.constants, v.Over genuine

theorem Value.Over.made (h : v.Over genuine) (safe : v.Safe known) : v.Made (Vouched known genuine) genuine := by
  induction h with
  | @scalar v scalar => cases v <;> cases scalar <;> constructor
  | pair _ _ car cdr =>
    obtain ⟨first, rest⟩ := Value.hereditary_safe.pair.mp safe
    exact .pair (car first) (cdr rest)
  | vector _ each => exact .vector fun v member => each v member (Value.hereditary_safe.vector.mp safe v member)
  | procedure constants => exact .procedure ⟨safe.of_procedure, constants⟩
  | closure constants _ _ each =>
    obtain ⟨body, -, captured⟩ := safe.of_closure
    exact .closure ⟨body, constants⟩ fun v member => each v member (captured v member)
  | builtin h => exact .builtin h

theorem Library.distinct (library : Library known)
    (names : ∀ {b c : Builtin}, genuine b → genuine c → b.name = c.name → b = c) :
    Distinct (Vouched known genuine) genuine where
  constants body v member := (body.2 v member).made (library.constants body.1 v member)
  names := names

/-! ### Ends -/

/-- What a play comes to that attains an evaluation. -/
def Stop.outcome? : Except Stop Value → Option Outcome
  | .ok v => some (.value v)
  | .error (.fault f) => some (.fault f)
  | .error (.breach b) => some (.breach b)
  | .error .crowd => none

theorem Stop.outcome?_eq_none {a : Except Stop Value} (h : Stop.outcome? a = none) : a = .error .crowd := by
  match a with
  | .error .crowd => rfl
  | .ok _ | .error (.fault _) | .error (.breach _) => cases h

namespace Attains

variable {r : Reading} {n : Nat} {p : Play} {a : Except Stop Value} {o : Outcome} {τ : Store}

theorem ends (h : Attains r n [] p (fun v d => d = .returning v) (some (a, τ))) (out : Stop.outcome? a = some o) :
    ∃ edits, (Play.system r).Ends p (o, τ) edits := by
  have ended {d : Doing} (leads : r.Leads p ⟨τ, d, []⟩) (same : (Play.mk τ d []).ended? = some (o, τ)) :
      ∃ edits, (Play.system r).Ends p (o, τ) edits := by
    obtain ⟨k, led⟩ := leads
    exact ⟨_, k, (congrArg Play.ended? led).trans same, rfl⟩
  cases h with
  | value leads h =>
    subst h
    obtain rfl := Option.some.inj out
    exact ended leads rfl
  | fault leads =>
    obtain rfl := Option.some.inj out
    exact ended leads rfl
  | breach leads =>
    obtain rfl := Option.some.inj out
    exact ended leads rfl
  | crowd => cases out

/-- If the play ends before so many steps, then the evaluation ends as the play does. -/
theorem of_ends {m : Option (Except Stop Value × Store)} (h : Attains r n [] p (fun v d => d = .returning v) m)
    {edits : List Edit} {k : Nat} (ends : (Play.system r).EndsIn k p (o, τ) edits) (enough : k ≤ n) :
    ∃ a σ, m = some (a, σ) ∧ (a = .error .crowd ∨ Stop.outcome? a = some o ∧ σ = τ) := by
  cases m with
  | none =>
    cases h with
    | lasts lasts =>
      obtain ⟨more, rfl⟩ := Nat.exists_eq_add_of_le enough
      cases lasts.symm.trans (ends.add more).ended
  | some result =>
    obtain ⟨a, σ⟩ := result
    refine ⟨a, σ, rfl, ?_⟩
    cases out : Stop.outcome? a with
    | none => exact .inl (Stop.outcome?_eq_none out)
    | some c =>
      obtain ⟨notes, other⟩ := h.ends out
      obtain ⟨same, -⟩ := other.unique ⟨k, ends⟩
      obtain ⟨rfl, rfl⟩ := Prod.mk.inj same
      exact .inr ⟨rfl, rfl⟩

end Attains

/-- Equality takes the procedures for the same. -/
def Procedure.Same (p q : Procedure Value) : Prop :=
  Value.sameProcedure p q = true

/-- What an evaluation and a run of a machine come to is the same value or fault and the same store, but for
procedures that equality takes for the same. -/
inductive Machine.Agrees : Except Stop Value × Store → Outcome × Machine → Prop
  | value {v w : Value} {σ : Store} {n : Machine} (value : v.Matches Procedure.Same w)
    (store : σ.Matches Procedure.Same n.store) : Agrees (.ok v, σ) (.value w, n)
  | fault {f g : Fault} {σ : Store} {n : Machine} (fault : f.Matches Procedure.Same g)
    (store : σ.Matches Procedure.Same n.store) : Agrees (.error (.fault f), σ) (.fault g, n)

mutual

theorem Value.Matches.eq_of_pure {C : Procedure Value → Procedure Value → Prop} {v w : Value} (h : v.Matches C w)
    (pure : v.Within fun _ => False) : v = w := by
  cases h with
  | pair car cdr => cases pure with
    | pair first rest => rw [car.eq_of_pure first, cdr.eq_of_pure rest]
  | vector items => cases pure with
    | vector each => rw [eq_of_pureEach items (within_of_twins each)]
  | procedure => cases pure with
    | procedure bodies => exact bodies.2.elim
  | closure => cases pure with
    | closure bodies => exact bodies.2.elim
  | _ => rfl

theorem eq_of_pureEach {C : Procedure Value → Procedure Value → Prop} {vs ws : List Value}
    (h : List.Forall₂ (Value.Matches C) vs ws) (pure : ∀ v ∈ vs, v.Within fun _ => False) : vs = ws := by
  cases h with
  | nil => rfl
  | cons first rest =>
    obtain ⟨head, tail⟩ := List.forall_mem_cons.mp pure
    rw [first.eq_of_pure head, eq_of_pureEach rest tail]

end

theorem Machine.Agrees.eq_of_pure {v w : Value} {σ : Store} {n : Machine} (h : Machine.Agrees (.ok v, σ) (.value w, n))
    (pure : v.Within fun _ => False) : v = w := by
  cases h with
  | value value => exact value.eq_of_pure pure

namespace Program

variable {P : Program} {draft : Nat → Chunk} {T : Value → Prop} {more : Procedure Value → Prop} {c : Procedure Value}
  {form : Value} {e : Expr} {σ : Store} {n : Machine}

/-- What is alike at the end of an evaluation and of a run agrees, if the run has come to no breach. -/
theorem agrees_of_alike {a : Except Stop Value} {o : Outcome} (out : Stop.outcome? a = some o) {b : Outcome × Machine}
    (outcomes : o.Alike (.recalling P known) b.1) (stores : σ.Matches (Alike known) b.2.store) (safe : b.1.Safe more) :
    Machine.Agrees (a, σ) b := by
  obtain ⟨o', n⟩ := b
  have same {p q : Procedure Value} (alike : Alike known p q) : Procedure.Same p q := alike.2.2
  match a with
  | .ok v =>
    obtain rfl := Option.some.inj out
    cases outcomes with
    | value value => exact .value (value.mono same) (stores.mono same)
  | .error (.fault f) =>
    obtain rfl := Option.some.inj out
    cases outcomes with
    | fault fault =>
      refine .fault ?_ (stores.mono same)
      cases fault with
      | plain plain => exact .plain plain
      | raised value => exact .raised (value.mono same)
  | .error (.breach b) =>
    obtain rfl := Option.some.inj out
    cases outcomes with
    | breach => exact safe.elim
  | .error .crowd => cases out

/-- A play of the program's reading and a run of the machine end together. -/
theorem Kept.runs (kept : P.Kept draft known genuine T) (inside : known c)
    (stores : σ.Matches (Alike known) n.store) (sound : n.Sound more) (safe : (Value.closure c []).Safe more) :
    System.Together (Play.system (P.reading draft)) Machine.State.system
      (fun a b => a.1.Alike (.recalling P known) b.1 ∧ a.2.Matches (Alike known) b.2.store) (Edit.Matches (Alike known))
      ⟨σ, .calling (.closure c []) [], []⟩ ⟨n, .calling (.closure c []) [], []⟩ := by
  have callee : (Value.closure c []).Matches (Alike known) (.closure c []) := .closure (Alike.refl inside) .nil
  have plays := kept.together (p := ⟨σ, .calling (.closure c []) [], []⟩)
    (q := ⟨n.store, .calling (.closure c []) [], []⟩) ⟨stores, .calling callee .nil, .nil⟩
  have none : ∀ v ∈ ([] : List Value), v.Safe more := fun _ => nofun
  have machine := System.together_of_progress
    (fun h => Machine.State.progress_of_follows sound.store.library.roster h) (sound.follows safe none)
  refine plays.trans machine ?_ fun changes same => same ▸ changes
  rintro ⟨o, τ⟩ ⟨o', τ'⟩ ⟨o'', n'⟩ ⟨outcomes, alike⟩ ⟨rfl, same⟩
  exact ⟨outcomes, congrArg Store.namespaces same ▸ alike.namespaces, congrArg Store.refs same ▸ alike.refs⟩

/-- An evaluation of a form and a run of the procedure that was built for it end together. -/
theorem Kept.agrees (kept : P.Kept draft known genuine T) (own : P.lambda? c = some (.ofForm form e)) (inside : known c)
    (stores : σ.Matches (Alike known) n.store) (sound : n.Sound more) (safe : (Value.closure c []).Safe more) :
    (∀ {fuel : Nat} {a : Except Stop Value × Store}, P.evaluate e fuel σ = some a → a.1 ≠ .error .crowd →
      ∃ later b, n.call later (.closure c []) [] = some b ∧ Machine.Agrees a b) ∧
    ∀ {fuel : Nat} {b : Outcome × Machine}, n.call fuel (.closure c []) [] = some b →
      ∃ later a, P.evaluate e later σ = some a ∧ (a.1 = .error .crowd ∨ Machine.Agrees a b) := by
  have together := kept.runs inside stores sound safe
  have attains (fuel : Nat) : Attains (P.reading draft) (fuel + 1) [] ⟨σ, .calling (.closure c []) [], []⟩
      (fun v d => d = .returning v) (P.evaluate e fuel σ) :=
    call_form own fuel ▸ kept.attained (fuel + 1) (.closure c []) [] σ []
  have none : ∀ v ∈ ([] : List Value), v.Safe more := fun _ => nofun
  have outcome {fuel : Nat} {b : Outcome × Machine} (ran : n.call fuel (.closure c []) [] = some b) : b.1.Safe more :=
    (sound.call safe none ran).2
  refine ⟨fun {fuel a} evaluated fits => ?_, fun {fuel b} ran => ?_⟩
  · obtain ⟨a, τ⟩ := a
    cases out : Stop.outcome? a with
    | none => exact absurd (Stop.outcome?_eq_none out) fits
    | some o =>
      obtain ⟨edits, played⟩ := (evaluated ▸ attains fuel).ends out
      obtain ⟨b, _, ends, ⟨outcomes, alike⟩, -⟩ := together.1 _ _ played
      obtain ⟨later, ran⟩ := Machine.State.run_of_ends ends
      exact ⟨later, b, ran, agrees_of_alike out outcomes alike (outcome ran)⟩
  · obtain ⟨edits, ends⟩ := Machine.State.ends_of_run ran
    obtain ⟨⟨o, τ⟩, notes, ⟨k, played⟩, ⟨outcomes, alike⟩, -⟩ := together.2 _ _ ends
    obtain ⟨a, τ', evaluated, same⟩ := (attains k).of_ends played (Nat.le_succ k)
    refine ⟨k, _, evaluated, same.imp id ?_⟩
    rintro ⟨out, rfl⟩
    exact agrees_of_alike out outcomes alike (outcome ran)

end Program

theorem Workshop.Builds.lambda? {T : Value → Prop} {globals : NamespaceId} {w x : Workshop}
    {entries : List (Procedure Value × Lambda)} (builds : w.Builds T globals x entries) {p : Procedure Value} {l : Lambda}
    (member : (p, l) ∈ entries) :
    Program.lambda? ⟨globals, entries.map fun entry => (entry.1.serial, entry.2)⟩ p = some l := by
  obtain ⟨d, built⟩ := builds.each _ member
  refine Program.lambda?_eq_some.mpr ⟨?_, built.arity.symm⟩
  have distinct : ((entries.map fun entry => (entry.1.serial, entry.2)).map Prod.fst).Nodup := by
    rw [List.map_map]
    exact builds.distinct
  exact lookup_of_mem distinct (List.mem_map.mpr ⟨(p, l), member, rfl⟩)

variable {m n : Machine} {given : List Value}

theorem Machine.compile_yields {globals : NamespaceId} {form : Value} {c : Closure}
    (compiled : m.compile globals form = (.ok c, n)) : ∃ p t,
      Yields (StackLisp.compile globals m.settings.compile form) m.store p t ∧ c = ⟨p, []⟩ ∧
        n = { m with store := t } := by
  unfold Machine.compile Machine.build at compiled
  cases ended : (StackLisp.compile globals m.settings.compile form).run m.store with
  | mk r t =>
    rw [ended] at compiled
    obtain ⟨made, rfl⟩ := Prod.mk.inj compiled
    cases r with
    | error e => cases made
    | ok p => exact ⟨p, t, ended, (Except.ok.inj made).symm, rfl⟩

theorem Hereditary.and {S T : Value → Prop} (h : Hereditary S) (g : Hereditary T) : Hereditary fun v => S v ∧ T v where
  scalar scalar other := ⟨h.scalar scalar other, g.scalar scalar other⟩
  pair := (and_congr h.pair g.pair).trans and_and_and_comm
  vector := (and_congr h.vector g.vector).trans forall₂_and.symm

theorem Store.Bears.and {S T : Value → Prop} {σ : Store} (h : σ.Bears S) (g : σ.Bears T) :
    σ.Bears fun v => S v ∧ T v where
  namespaces n member entry inside _ bound :=
    ⟨h.namespaces n member entry inside bound, g.namespaces n member entry inside bound⟩
  refs member := ⟨h.refs member, g.refs member⟩

/-- The builtins of the language have names of their own. -/
theorem Builtin.eq_of_core {b c : Builtin} (first : b ∈ Builtin.core) (second : c ∈ Builtin.core)
    (same : b.name = c.name) : b = c :=
  List.inj_on_of_nodup_map (f := Builtin.name) (by decide +kernel) first second same

theorem bearsOver_user : (Store.addUser {}).2.Bears (Value.Over (· ∈ Builtin.core)) := by
  have empty : Store.Bears (Value.Over (· ∈ Builtin.core)) {} := ⟨fun _ => nofun, fun member => nomatch member⟩
  exact (empty.addCore (fun _ => .scalar rfl) fun _ core => .builtin core).addNamespace "user" (some 0)

/-- `((lambda (x) (+ x 1)) 2)` -/
def addingOne : Value :=
  .ofList [.ofList [.symbol "lambda", .ofList [.symbol "x"], .ofList [.symbol "+", .symbol "x", .integer 1]], .integer 2]

theorem addingOne_isData : addingOne.IsData :=
  .pair (.pair (.symbol _) (.pair (.pair (.symbol _) .null)
    (.pair (.pair (.symbol _) (.pair (.symbol _) (.pair (.integer _) .null))) .null))) (.pair (.integer _) .null)

/-- A machine over the language that inlines nothing. -/
def outlining : Machine :=
  .new { compile := { inline := false } } (Store.addUser {}).2

end StackLisp
