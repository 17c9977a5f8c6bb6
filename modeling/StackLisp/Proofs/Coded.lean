import StackLisp.Proofs.Attained

/-!
Code that was emitted for lambdas. Where such code is run for the lambdas of a program, calls come to what the
program means by them.
-/

namespace StackLisp

open Workshop

/-- The code in the chunk was emitted for the lambda. -/
inductive Lambda.Coded (T : Value → Prop) (globals : NamespaceId) : Lambda → Chunk → Prop
  | form {options : CompileOptions} {store : Store} {u : Workshop} {form : Value} {e : Expr}
    (emits : Emits (.top globals options store) (.one e) u) (fair : e.Fair T) :
    Coded T globals (.ofForm form e) (u.emit Opcode.ret.bare).chunk
  | body {w u : Workshop} {name : Option String} {cs : Clauses} {bodies : List Expr}
    (emits : Emits (w.child name) (.body cs bodies) u) (fair : ∀ e ∈ bodies, e.Fair T)
    (here : w.encoder.globals = globals) :
    Coded T globals ⟨u.body.captured.map Prod.fst, name, cs, bodies⟩ u.chunk

/-- The code was emitted for the literals of the lambda, and so were all its constants. -/
theorem Lambda.Coded.writes {T : Value → Prop} {globals : NamespaceId} {l : Lambda} {c : Chunk}
    (h : l.Coded T globals c) : List.Forall₂ (Instruction.Spells c.constants) c.code l.literals ∧
      ∀ v ∈ c.constants, some v ∈ l.literals := by
  obtain ⟨w, x, code, constants, rfl, writes⟩ : ∃ w x : Workshop, w.body.code = [] ∧ w.body.constants = [] ∧
      c = x.chunk ∧ w.Writes x l.literals := by
    cases h with
    | @form options store u form e emits fair =>
      have returned : e.literals ++ [none] = (Lambda.ofForm form e).literals := (List.append_nil _).symm
      exact ⟨_, _, rfl, rfl, rfl, returned ▸ emits.writes.trans (writes_emit _)⟩
    | body emits fair here => exact ⟨_, _, rfl, rfl, rfl, emits.writes⟩
  obtain ⟨emitted, whole, spells⟩ := writes.code
  rw [code, List.nil_append] at whole
  refine ⟨by rwa [← whole] at spells, fun v member => ?_⟩
  have added := writes.pool v member
  rw [constants] at added
  exact added.resolve_left nofun

/-- A reading that pushes the literals that the constants of a procedure's code were emitted for. -/
structure Reading.Restores (r : Reading) (p : Procedure Value) (l : Lambda) : Prop where
  regular : r.Regular
  literal : ∀ {σ : Store} {s : Scene} {i : Instruction} {v : Value}, s.closure.procedure = p → i.op = .const →
    l.literals[s.pc]? = some (some v) → r.turn σ s i = .go (s.after [v] 1) σ

section

variable {T : Value → Prop} {r : Reading} {p : Procedure Value} {l : Lambda} {n : Nat} {ws : List Waiting}
  {globals : NamespaceId} {call : Value → List Value → Meaning Value} {self : Value} {captured args : List Value}
  {q : Play} {Q : Value → Doing → Prop} {σ : Store}

theorem Lambda.attains_apply {c : Clause} {body : Expr} (small : args.length < countLimit)
    (found : l.fitting? args.length = some (c, body))
    (h : Attains r n ws q Q (body.meaning globals call (c.binds args ++ l.outer self captured) σ)) :
    Attains r n ws q Q (l.apply globals call self captured args σ) := by
  unfold apply
  rw [if_pos small, found]
  exact h

/-- Where nothing is emitted yet and no scope is open, all that is shown is around. -/
theorem Script.poised_enter {S : Script} {w : Workshop} (code : w.body.code = []) (unscoped : w.body.scopes = [])
    (captured args : List Value) : S.Poised w (.enter S.final.chunk ⟨S.procedure, captured⟩ args)
      (S.outer ⟨S.procedure, captured⟩) where
  own := rfl
  chunk := rfl
  pc := by
    rw [code]
    rfl
  slots := Nat.le_of_eq List.length_replicate.symm
  shows :=
    { bound := fun {y cell} here => by simp [Body.scoped?, unscoped] at here
      free := fun _ => rfl }

/-- A call of the code of a lambda comes to what the lambda means. -/
theorem Lambda.Coded.attains {c : Chunk} (coded : l.Coded T globals c) (distinct : (Chunk.labelsOf c.code).Nodup)
    (restores : r.Restores p l) (calls : Attained r n call) (accepts : l.clauses.arity.accepts args.length) :
    Attains r n ws ⟨σ, .running (.enter c ⟨p, captured⟩ args), ws⟩ (fun v d => d = .returning v)
      (l.apply globals call (.closure p captured) captured args σ) := by
  by_cases small : args.length < countLimit
  · obtain ⟨regular, literal⟩ := restores
    cases coded with
    | @form options store u form e emits fair =>
      have stays := emits.leaves
      have sound : u.Sound := emits.extends.sound (.none rfl)
      let S : Script :=
        { reading := r
          procedure := p
          lambda := .ofForm form e
          final := u.emit Opcode.ret.bare
          sound := sound.congr rfl rfl rfl
          distinct
          name := emits.extends.name.symm
          captures := by rw [show (u.emit Opcode.ret.bare).body.captured = [] from sound.alone emits.extends.around]; rfl
          regular
          literal }
      have precedes : u.Precedes S.final := precedes_emit _
      have only : e.literals ++ [none] = S.lambda.literals := (List.append_nil _).symm
      have evaluates : S.Evaluates n ws call (.top globals options store) u e :=
        emits.comes calls precedes ⟨_, only⟩ (fair_one fair)
      obtain rfl : args = [] := by
        obtain ⟨d, member, fits⟩ := Clauses.arity_accepts.mp accepts
        obtain rfl := List.mem_singleton.mp member
        exact List.eq_nil_of_length_eq_zero ((Clauses.fits_of_fixed rfl).mp fits)
      have same : S.globals = globals := emits.extends.globals
      have poised := S.poised_enter (w := .top globals options store) rfl rfl captured []
      have answers := poised.answers evaluates stays (.refl S.final) σ
      exact attains_apply small rfl (same ▸ answers)
    | @body w u name cs bodies emits fair here =>
      let S : Script :=
        { reading := r
          procedure := p
          lambda := ⟨u.body.captured.map Prod.fst, name, cs, bodies⟩
          final := u
          sound := emits.extends.sound (sound_child w name)
          distinct
          name := emits.extends.name.symm
          captures := rfl
          regular
          literal }
      have same : S.globals = globals := emits.extends.globals.trans here
      have serves : S.Serves n ws call (w.child name) cs bodies :=
        emits.comes calls (.refl u) (List.prefix_refl _) fair rfl
      obtain ⟨d, body, fitting, attains⟩ :=
        serves (S.poised_enter (w := w.child name) rfl rfl captured args).toStands accepts small
      exact attains_apply small fitting (same ▸ attains)
  · unfold apply
    rw [if_neg small]
    exact .crowd σ

end

namespace Program

variable {P : Program} {draft : Nat → Chunk} {T : Value → Prop}

theorem lambda?_eq_some {p : Procedure Value} {l : Lambda} :
    P.lambda? p = some l ↔ P.lambdas.lookup p.serial = some l ∧ l.clauses.arity = p.arity := by
  simp [lambda?, Option.filter_eq_some_iff]

theorem restores {p : Procedure Value} {l : Lambda} (own : P.lambda? p = some l) : (P.reading draft).Restores p l where
  regular := regular_reading
  literal {σ s i v} here const entry := by
    have found : P.literal? s.closure.procedure s.pc = some v := by
      rw [literal?, here, own, Option.bind_some, entry]
      rfl
    change P.turn σ s i = _
    unfold turn
    rw [const, found]

variable (P draft T) in
/-- The drafts were emitted for the lambdas of the program, and no label stands twice in one of them. -/
structure Drafted : Prop where
  coded : ∀ {serial : Nat} {l : Lambda}, P.lambdas.lookup serial = some l → l.Coded T P.globals (draft serial)
  distinct : ∀ {serial : Nat} {l : Lambda}, P.lambdas.lookup serial = some l →
    (Chunk.labelsOf (draft serial).code).Nodup

theorem Drafted.attained (h : P.Drafted draft T) (n : Nat) : Attained (P.reading draft) n (P.call n) := by
  refine (P.attained (fun {n p l} own calls {captured args σ ws} accepts => ?_) n).1
  obtain ⟨found, same⟩ := lambda?_eq_some.mp own
  exact (h.coded found).attains (h.distinct found) (restores own) calls (same ▸ accepts)

theorem call_form {c : Procedure Value} {form : Value} {e : Expr} (own : P.lambda? c = some (.ofForm form e)) (n : Nat) :
    P.call (n + 1) (.closure c []) [] = P.evaluate e n := by
  have fits : c.arity.check 0 = .ok () := by
    rw [← (lambda?_eq_some.mp own).2]
    rfl
  funext σ
  unfold call
  rw [show (Value.closure c []).callable? = .ok c.arity from rfl]
  change (Meaning.lift (c.arity.check 0) >>= _) σ = _
  rw [fits, Meaning.lift_ok_bind]
  dsimp only
  rw [own]
  rfl

end Program

end StackLisp
