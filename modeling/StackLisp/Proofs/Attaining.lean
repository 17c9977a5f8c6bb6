import StackLisp.Proofs.Beside
import StackLisp.Proofs.Literals

/-!
Plays that come to what is evaluated. A play that starts where an evaluation does comes to the value, the fault
or the breach that the evaluation comes to; as long as the evaluation has too few steps, the play goes on.
-/

namespace StackLisp

namespace Reading

variable {r : Reading} {p q : Play}

/-- The play comes to another. -/
def Leads (r : Reading) (p q : Play) : Prop :=
  ∃ k, (Play.step r)^[k] p = q

theorem Leads.refl (r : Reading) (p : Play) : r.Leads p p :=
  ⟨0, rfl⟩

theorem Leads.trans {o : Play} (h : r.Leads o p) (g : r.Leads p q) : r.Leads o q := by
  obtain ⟨j, rfl⟩ := h
  obtain ⟨k, rfl⟩ := g
  exact ⟨k + j, Function.iterate_add_apply _ k j o⟩

theorem Leads.step (h : Play.step r p = q) : r.Leads p q :=
  ⟨1, h⟩

/-- The play is not at its end after so many steps. -/
def Lasts (r : Reading) (n : Nat) (p : Play) : Prop :=
  ((Play.step r)^[n] p).ended? = none

/-- A play that has strayed goes on for ever. -/
theorem lasts_straying (r : Reading) (n : Nat) (σ : Store) (ws : List Waiting) : r.Lasts n ⟨σ, .straying, ws⟩ := by
  unfold Lasts
  rw [Function.iterate_fixed (show Play.step r ⟨σ, .straying, ws⟩ = ⟨σ, .straying, ws⟩ from rfl)]
  rfl

/-- A play that comes to one which goes on so long goes on as long itself. -/
theorem Leads.lasts (h : r.Leads p q) {n : Nat} (lasts : r.Lasts n q) : r.Lasts n p := by
  obtain ⟨k, rfl⟩ := h
  cases ended : ((Play.step r)^[n] p).ended? with
  | none => exact ended
  | some o =>
    have stays := ((Play.system r).noted_of_ended ended k).1
    change (Play.step r)^[k] ((Play.step r)^[n] p) = (Play.step r)^[n] p at stays
    unfold Lasts at lasts
    rw [← Function.iterate_add_apply, Nat.add_comm, Function.iterate_add_apply, stays, ended] at lasts
    cases lasts

end Reading

/-- The play comes to what the evaluation comes to, with nothing but the given work waiting. `Q` says what it
does when there is a value. -/
inductive Attains (r : Reading) (n : Nat) (ws : List Waiting) {α : Type} (p : Play) (Q : α → Doing → Prop) :
    Option (Except Stop α × Store) → Prop
  | lasts (h : r.Lasts n p) : Attains r n ws p Q none
  | value {a : α} {d : Doing} {τ : Store} (leads : r.Leads p ⟨τ, d, ws⟩) (h : Q a d) :
    Attains r n ws p Q (some (.ok a, τ))
  | fault {f : Fault} {τ : Store} (leads : r.Leads p ⟨τ, .unwinding f, ws⟩) :
    Attains r n ws p Q (some (.error (.fault f), τ))
  | breach {b : Breach} {τ : Store} (leads : r.Leads p ⟨τ, .breaching b, ws⟩) :
    Attains r n ws p Q (some (.error (.breach b), τ))
  | crowd (τ : Store) : Attains r n ws p Q (some (.error .crowd, τ))

namespace Attains

variable {r : Reading} {n : Nat} {ws : List Waiting} {α β : Type} {p q : Play} {Q : α → Doing → Prop}
  {o : Option (Except Stop α × Store)}

theorem pure {σ : Store} {d : Doing} {a : α} (h : Q a d) :
    Attains r n ws ⟨σ, d, ws⟩ Q ((pure a : Meaning α) σ) :=
  .value (.refl r _) h

theorem after (h : Attains r n ws q Q o) (leads : r.Leads p q) : Attains r n ws p Q o := by
  cases h with
  | lasts h => exact .lasts (leads.lasts h)
  | value later h => exact .value (leads.trans later) h
  | fault later => exact .fault (leads.trans later)
  | breach later => exact .breach (leads.trans later)
  | crowd τ => exact .crowd τ

theorem step (h : Attains r n ws (Play.step r p) Q o) : Attains r (n + 1) ws p Q o := by
  cases h with
  | lasts h => exact .lasts h
  | value later h => exact .value ((Reading.Leads.step rfl).trans later) h
  | fault later => exact .fault ((Reading.Leads.step rfl).trans later)
  | breach later => exact .breach ((Reading.Leads.step rfl).trans later)
  | crowd τ => exact .crowd τ

theorem mono (h : Attains r n ws p Q o) {R : α → Doing → Prop} (weaker : ∀ {a d}, Q a d → R a d) :
    Attains r n ws p R o := by
  cases h with
  | lasts h => exact .lasts h
  | value leads h => exact .value leads (weaker h)
  | fault leads => exact .fault leads
  | breach leads => exact .breach leads
  | crowd τ => exact .crowd τ

theorem bind {m : Meaning α} {σ : Store} (h : Attains r n ws p Q (m σ)) {f : α → Meaning β}
    {R : β → Doing → Prop} (next : ∀ {a d τ}, Q a d → Attains r n ws ⟨τ, d, ws⟩ R (f a τ)) :
    Attains r n ws p R ((m >>= f) σ) := by
  rw [Meaning.bind_apply]
  revert h
  generalize m σ = o
  intro h
  cases h with
  | lasts h => exact .lasts h
  | value leads h => exact (next h).after leads
  | fault leads => exact .fault leads
  | breach leads => exact .breach leads
  | crowd τ => exact .crowd τ

theorem resume {s : Scene} {o : Option (Except Stop Value × Store)}
    (h : Attains r n (.resume s :: ws) p (fun v d => d = .returning v) o) :
    Attains r n ws p (fun v d => d = .running (s.push v)) o := by
  cases h with
  | lasts h => exact .lasts h
  | value leads h =>
    subst h
    exact .value (leads.trans (.step rfl)) rfl
  | fault leads => exact .fault (leads.trans (.step rfl))
  | breach leads => exact .breach (leads.trans (.step rfl))
  | crowd τ => exact .crowd τ

theorem guard {handler : Value} {m : Meaning Value} {f : Stop → Meaning Value} {σ : Store}
    (h : Attains r n (.guard handler :: ws) p (fun v d => d = .returning v) (m σ))
    (handles : ∀ {e τ}, Attains r n ws ⟨τ, .calling handler [e.payload], ws⟩ (fun v d => d = .returning v)
      (f (.fault e) τ))
    (breaks : ∀ {b τ}, f (.breach b) τ = some (.error (.breach b), τ))
    (stops : ∀ {τ}, f .crowd τ = some (.error .crowd, τ)) :
    Attains r n ws p (fun v d => d = .returning v) ((tryCatch m f : Meaning Value) σ) := by
  rw [Meaning.guard_apply]
  revert h
  generalize m σ = o
  intro h
  cases h with
  | lasts h => exact .lasts h
  | value leads h =>
    subst h
    exact .value (leads.trans (.step rfl)) rfl
  | fault leads => exact handles.after (leads.trans (.step rfl))
  | breach leads =>
    dsimp only
    rw [breaks]
    exact .breach (leads.trans (.step rfl))
  | crowd τ =>
    dsimp only
    rw [stops]
    exact .crowd τ

end Attains

/-- The meanings of calls that plays of them come to within so many steps. -/
def Attained (r : Reading) (n : Nat) (call : Value → List Value → Meaning Value) : Prop :=
  ∀ (callee : Value) (args : List Value) (σ : Store) (ws : List Waiting),
    Attains r n ws ⟨σ, .calling callee args, ws⟩ (fun v d => d = .returning v) (call callee args σ)

section

variable {r : Reading} {n : Nat} {call : Value → List Value → Meaning Value} {σ : Store} {ws : List Waiting}

theorem Attained.reply (h : Attained r n call) (reply : Reply) :
    Attains r n ws (Play.reply σ ws reply) (fun v d => d = .returning v) (Meaning.answer call reply σ) := by
  cases reply with
  | answer v => exact .pure rfl
  | fault f => exact .fault (.refl r _)
  | call callee args => exact h callee args σ ws
  | guarded thunk handler =>
    exact .guard (h thunk [] σ _) (fun {e τ} => h handler [e.payload] τ ws) rfl rfl
  | noted line v => exact .pure rfl

end

namespace Program

variable (P : Program) (draft : Nat → Chunk)

/-- The literal that an instruction of a lambda's code was emitted for. -/
def literal? (p : Procedure Value) (pc : Nat) : Option Value :=
  (P.lambda? p).bind fun l => l.literals[pc]?.join

/-- A turn in which constants of a lambda's code are the literals that they were emitted for. -/
def turn (σ : Store) (s : Scene) (i : Instruction) : Turn :=
  match i.op, P.literal? s.closure.procedure s.pc with
  | .const, some v => .go (s.after [v] 1) σ
  | _, _ => s.turn σ i

/-- Lambdas run the code that was emitted for them, with the literals that it was emitted for. -/
def reading : Reading where
  chunk p := if (P.lambda? p).isSome then draft p.serial else p.chunk
  turn := P.turn

variable {P draft}

theorem turn_of_none {σ : Store} {s : Scene} (foreign : P.lambda? s.closure.procedure = none) (i : Instruction) :
    P.turn σ s i = s.turn σ i := by
  unfold turn literal?
  rw [foreign]
  split
  next h => cases h
  · rfl

theorem regular_reading : (P.reading draft).Regular := by
  intro σ s i other
  change P.turn σ s i = s.turn σ i
  unfold turn
  split
  next const _ => exact absurd const other
  · rfl

/-- If the bodies of lambdas come to what these mean, so do all calls. -/
theorem attained (bodies : ∀ {n : Nat} {p : Procedure Value} {l : Lambda}, P.lambda? p = some l →
    Attained (P.reading draft) n (P.call n) → ∀ {captured args : List Value} {σ : Store} {ws : List Waiting},
      p.arity.accepts args.length → Attains (P.reading draft) n ws
        ⟨σ, .running (.enter (draft p.serial) ⟨p, captured⟩ args), ws⟩ (fun v d => d = .returning v)
        (l.apply P.globals (P.call n) (.closure p captured) captured args σ)) (n : Nat) :
    Attained (P.reading draft) n (P.call n) ∧
      ∀ (s : Scene) (σ : Store) (ws : List Waiting), P.lambda? s.closure.procedure = none →
        Attains (P.reading draft) n ws ⟨σ, .running s, ws⟩ (fun v d => d = .returning v) (P.perform n s σ) := by
  induction n with
  | zero => exact ⟨fun _ _ _ _ => .lasts rfl, fun _ _ _ _ => .lasts rfl⟩
  | succ n ih =>
    obtain ⟨calls, performs⟩ := ih
    refine ⟨fun callee args σ ws => .step ?_, fun s σ ws foreign => .step ?_⟩
    · change Attains _ _ _ (Play.call _ σ ws callee args) _ _
      unfold Play.call call
      cases checked : callee.callable?.bind (·.check args.length) with
      | error f => exact .fault (.refl _ _)
      | ok =>
        rw [Meaning.lift_ok_bind]
        cases callee with
        | closure p captured =>
          have accepts : p.arity.accepts args.length := Arity.accepts_of_check checked
          dsimp only [Play.enter, reading]
          cases own : P.lambda? p with
          | some l => exact bodies own calls accepts
          | none => exact performs _ σ ws own
        | builtin b => exact calls.reply _
        | _ => exact .fault (.refl _ _)
    · change Attains _ _ _ (Play.run _ σ ws s) _ _
      unfold Play.run perform
      cases here : s.chunk.code[s.pc]? with
      | none => exact .lasts (Reading.lasts_straying ..)
      | some i =>
        dsimp only
        rw [show (P.reading draft).turn σ s i = s.turn σ i from turn_of_none foreign i]
        have heeds := Scene.act_heeds σ (s.past i) i (s.stack.take i.pops)
        change (s.turn σ i).Heeds (s.past i) i at heeds
        rw [Option.map_some]
        cases turned : s.turn σ i with
        | go t τ =>
          rw [turned] at heeds
          exact performs t τ ws (by rw [heeds.closure]; exact foreign)
        | answer v => exact .value (.refl _ _) rfl
        | call callee args t =>
          rw [turned] at heeds
          obtain ⟨rfl, -⟩ := heeds
          refine .bind (calls callee args σ _).resume ?_
          rintro v d τ rfl
          exact performs _ τ ws foreign
        | leave callee args => exact calls callee args σ ws
        | fault f => exact .fault (.refl _ _)
        | breach b => exact .breach (.refl _ _)
        | stray => exact .lasts (Reading.lasts_straying ..)

end Program

end StackLisp
