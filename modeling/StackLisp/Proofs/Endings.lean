import StackLisp.Proofs.Bodies

/-!
Ends of runs of code that calls are inlined in. Wherever builtins of one name are one builtin, the code and
the longer code end alike, and change the globals alike on their way.
-/

namespace StackLisp

variable {known : Procedure Value → Prop} {genuine : Builtin → Prop} {c d : Chunk} {longer : List Instruction}

namespace Scene

variable {s t : Scene} {hosts : List Scene} {σ τ : Store} {ws xs : List Waiting}

theorem Caller.turns (distinct : Distinct known genuine) (grafted : c.Grafted known genuine longer d)
    (h : s.Caller known genuine c longer d 0 t) (stores : σ.Matches (Alike known) τ)
    (waits : Queues (Alike known) (Stays known genuine c longer d) ws xs) :
    Play.Keeping (Alike known) (Stays known genuine c longer d) ⟨σ, .running s, Waiting.all [] ++ ws⟩
      ⟨τ, .running t, xs⟩ := by
  obtain ⟨i, here, -⟩ := h.sure.stands
  rw [h.source] at here
  cases h.along.next here with
  | kept there onward => exact h.keeps distinct grafted stores waits here there onward
  | replaced const found next shape guest home accepts before spliced later there onward =>
    exact h.replaces grafted stores waits here const found next shape guest home accepts before spliced later there
      onward

/-- Scenes beside each other come to such scenes again. -/
theorem Stays.keeps (distinct : Distinct known genuine) (grafted : c.Grafted known genuine longer d)
    (h : Stays known genuine c longer d s hosts t) (stores : σ.Matches (Alike known) τ)
    (waits : Queues (Alike known) (Stays known genuine c longer d) ws xs) :
    Play.Keeping (Alike known) (Stays known genuine c longer d) ⟨σ, .running s, Waiting.all hosts ++ ws⟩
      ⟨τ, .running t, xs⟩ := by
  obtain ⟨u, ⟨k, comes⟩, beside⟩ := h
  obtain ⟨runs, notes⟩ := comes τ xs
  refine System.Progress.earlier notes ?_
  change Play.Keeping _ _ _ ((Play.step .plain)^[k] ⟨τ, .running t, xs⟩)
  rw [runs]
  cases beside with
  | twin twin => exact keeping_twin twin stores waits
  | caller caller => exact caller.turns distinct grafted stores waits
  | body body rests => exact body.keeps distinct grafted rests stores waits

theorem twin_enter (careful : ∀ {r : Procedure Value}, known r → r.chunk.Careful) (distinct : Distinct known genuine)
    {p q : Procedure Value} (alike : Alike known p q) {captured others args values : List Value}
    (each : List.Forall₂ (Value.Matches (Alike known)) captured others)
    (given : List.Forall₂ (Value.Matches (Alike known)) args values) :
    (enter p.chunk ⟨p, captured⟩ args).Twin known (enter q.chunk ⟨q, others⟩ values) where
  sure := sure_enter (careful alike.1) _ _
  body := alike
  captured := each
  code := alike.code
  constants := alike.constants distinct
  pc := rfl
  lies := by
    refine ⟨min p.localCount q.localCount, ⟨alike.globals, given, ⟨[], .nil, rfl⟩, ⟨[], .nil, rfl⟩,
      fun {k v} _ found => ?_, ?_, ?_⟩, fun i member locals => Nat.lt_min.mpr ⟨?_, ?_⟩⟩
    · have entry : (List.replicate p.localCount none)[k]? = some (some v) := Option.join_eq_some_iff.mp found
      cases (List.mem_replicate.mp (List.mem_of_getElem? entry)).2
    · exact (Nat.min_le_left _ _).trans (List.length_replicate ..).ge
    · exact (Nat.zero_add _).le.trans ((Nat.min_le_right _ _).trans (List.length_replicate ..).ge)
    · exact (careful alike.1).bounded member locals
    · have also : i ∈ q.code := by
        rw [← alike.code]
        exact member
      exact (careful alike.2.1).bounded also locals

theorem caller_enter (grafted : c.Grafted known genuine longer d) {p q : Procedure Value} (source : p.chunk = c)
    (target : q.chunk = { d with code := longer }) {captured others args values : List Value}
    (each : List.Forall₂ (Value.Matches (Alike known)) captured others)
    (given : List.Forall₂ (Value.Matches (Alike known)) args values) :
    (enter p.chunk ⟨p, captured⟩ args).Caller known genuine c longer d 0 (enter q.chunk ⟨q, others⟩ values) := by
  subst source
  refine ⟨rfl, target, sure_enter grafted.careful _ _, ⟨?_, given, ⟨[], .nil, rfl⟩, ⟨[], .nil, rfl⟩,
    fun {k v} _ found => ?_, (List.length_replicate ..).ge, ?_⟩, each, grafted.start, ?_⟩
  · change p.chunk.globals = q.chunk.globals
    rw [target]
    exact grafted.inlines.extends.globals.symm
  · have entry : (List.replicate p.localCount none)[k]? = some (some v) := Option.join_eq_some_iff.mp found
    cases (List.mem_replicate.mp (List.mem_of_getElem? entry)).2
  · change 0 + p.chunk.localCount ≤ (List.replicate q.chunk.localCount none).length
    rw [Nat.zero_add, List.length_replicate, target]
    exact grafted.inlines.extends.locals
  · change (List.replicate q.chunk.localCount none).length = d.localCount
    rw [List.length_replicate, target]

end Scene

variable {p q : Procedure Value}

/-- Plays of a closure over code and of one over the longer code end together. -/
theorem Chunk.Grafted.plays (careful : ∀ {r : Procedure Value}, known r → r.chunk.Careful)
    (distinct : Distinct known genuine) (grafted : p.chunk.Grafted known genuine longer d)
    (target : q.chunk = { d with code := longer }) (arity : q.arity = p.arity) {σ : Store} (store : σ.Within known)
    {captured args : List Value} (inside : ∀ v ∈ captured, v.Within known) (values : ∀ v ∈ args, v.Within known) :
    System.Together (Play.system .plain) (Play.system .plain) (Play.EndAlike (.shortening (Alike known)))
      (Edit.Matches (Alike known)) ⟨σ, .calling (.closure p captured) args, []⟩
      ⟨σ, .calling (.closure q captured) args, []⟩ := by
  have alike {vs : List Value} (each : ∀ v ∈ vs, v.Within known) :
      List.Forall₂ (Value.Matches (Alike known)) vs vs :=
    List.forall₂_same.mpr fun v member => (each v member).alike
  have stores : σ.Matches (Alike known) σ := store.mono fun twins => twins.1 ▸ Alike.refl twins.2
  have welcomes : Play.Welcomes (Alike known) (Scene.Stays known genuine p.chunk longer d) :=
    fun bodies captured args => ⟨_, .refl _, .twin (Scene.twin_enter careful distinct bodies captured args)⟩
  have progress {a b : Play} (h : a.Hosted (Alike known) (Scene.Stays known genuine p.chunk longer d) b) :
      a.Keeping (Alike known) (Scene.Stays known genuine p.chunk longer d) b :=
    Play.keeping_of_hosted Alike.alikeness welcomes
      (fun scenes stores waits => Scene.Stays.keeps distinct grafted scenes stores waits) h
  refine System.together_of_step rfl rfl (System.together_of_progress progress ?_)
  change Play.Hosted (Alike known) (Scene.Stays known genuine p.chunk longer d)
    (Play.call .plain σ [] (.closure p captured) args) (Play.call .plain σ [] (.closure q captured) args)
  have checked := Value.agree_check (P := Alike known) p.arity args.length
  unfold Play.call
  rw [Play.callable?_closure, Play.callable?_closure, arity]
  revert checked
  generalize p.arity.check args.length = x
  intro checked
  cases checked with
  | error fault => exact .unwinding fault stores .nil
  | ok =>
    exact .running [] ⟨_, .refl _, .caller (Scene.caller_enter grafted rfl target (alike inside) (alike values))⟩ stores
      .nil

/-- In inviting code any number of calls can be inlined, unless an operand grows too large. -/
theorem Chunk.Inviting.grafted (inviting : c.Inviting known genuine) (budget : Nat) (s : Store) :
    Grants (inlineCalls budget c c.code) s fun result _ => c.Grafted known genuine result.1 result.2 := by
  have inlines : Grants (inlineCalls budget c c.code) s fun result _ =>
      Inlines (Closure.Guest known genuine) c c.code result.1 result.2 :=
    granted_inlineCalls (fun guest i member => guest.suits.fetches member)
      (fun i member => (inviting.mentions i member).constant) inviting.guests s
  exact inlines.mono fun result _ _ inlines => ⟨inviting, inlines⟩

/-- Runs that come to equal values or to the same fault, and to stores that hold the same. -/
structure EqualEnd (known : Procedure Value → Prop) (a b : Outcome × Machine) : Prop extends
    SameEnd (Alike known) a b where
  equal : ∀ {v w : Value}, a.1 = .value v → b.1 = .value w → (v == w) = true

namespace Machine.State

/-- Inlining preserves what code does where builtins of one name are one builtin. Whatever calls are replaced
in inviting code, the check accepts the longer code, and a call of a closure over the procedure ends together
with that of one over the longer code: in equal values or the same fault, with the same changes to the globals
made on the way. -/
theorem ends_iff_inlined (roster : Roster known) (careful : ∀ {r : Procedure Value}, known r → r.chunk.Careful)
    (distinct : Distinct known genuine) {checked : Checked} (joins : p.Joins known checked)
    (inviting : p.chunk.Inviting known genuine) :
    (∀ (budget : Nat) (s : Store), Grants (Chunk.inlineCalls budget p.chunk p.code) s fun result _ =>
        p.chunk.Grafted known genuine result.1 result.2) ∧
      ∀ {longer : List Instruction} {d : Chunk}, p.chunk.Grafted known genuine longer d →
        ∃ found, ({ d with code := longer } : Chunk).verify = .ok found ∧
          ∀ {q : Procedure Value}, q.chunk = { d with code := longer } → q.arity = p.arity → q.Joins known found →
            ∀ {m : Machine}, m.pool.Tidy → m.store.Within known →
              ∀ {captured args : List Value}, (∀ v ∈ captured, v.Within known) → (∀ v ∈ args, v.Within known) →
                System.Together system system (EqualEnd known) (Edit.Matches (Alike known))
                  ⟨m, .calling (.closure p captured) args, []⟩ ⟨m, .calling (.closure q captured) args, []⟩ := by
  refine ⟨inviting.grafted, fun {longer d} grafted => ?_⟩
  obtain ⟨found, accepted⟩ := grafted.result.accepted
  refine ⟨found, accepted, fun {q} target arity rejoins {m} pool store {captured args} inside values => ?_⟩
  have carefully : q.chunk.Careful := by
    rw [target]
    exact grafted.result
  have first := together_play roster careful joins inviting.careful pool store inside values
  have second := together_play roster careful rejoins carefully pool store inside values
  have plays := grafted.plays careful distinct target arity store inside values
  refine (first.flip.trans plays (Y := fun a b => Play.EndAlike (.shortening (Alike known))
    (a.1, a.2.store) b) ?_ fun same changes => same ▸ changes).trans second ?_ fun changes same => same ▸ changes
  · rintro ⟨o, n⟩ ⟨o', σ⟩ b ⟨rfl, same⟩ ⟨outcomes, stores⟩
    exact ⟨outcomes, ⟨congrArg Store.namespaces same ▸ stores.namespaces, congrArg Store.refs same ▸ stores.refs⟩⟩
  · rintro ⟨o, n⟩ ⟨o', σ⟩ ⟨o'', n'⟩ ⟨outcomes, stores⟩ ⟨rfl, same⟩
    refine ⟨⟨outcomes, ⟨congrArg Store.namespaces same ▸ stores.namespaces, congrArg Store.refs same ▸ stores.refs⟩⟩, ?_⟩
    rintro v w rfl rfl
    cases outcomes with
    | value value => exact value.equal

end Machine.State

open Chunk (answering)

/-- A body that asks `answering` twice, the second time in tail position. -/
def askingTwice : Procedure Value where
  serial := 1
  name := none
  arity := .fixed 0
  code := [Opcode.trueLit.bare, ⟨.const, 0, Nat.zero_le _⟩, Opcode.call1.bare, Opcode.pop.bare,
    Opcode.falseLit.bare, ⟨.const, 0, Nat.zero_le _⟩, ⟨.tailCall, 1, one_le_maxOperand⟩]
  constants := [.closure answering []]
  labels := []
  stackSize := 2
  localCount := 0
  labelCount := 0
  globals := 0
  inlinable := false

/-- The same body with both calls inlined. -/
def answeringTwice : Procedure Value :=
  { askingTwice with
    serial := 2
    code := [Opcode.trueLit.bare, ⟨.pushArgs, 1, one_le_maxOperand⟩, ⟨.arg, 0, Nat.zero_le _⟩,
      ⟨.condJump, 0, Nat.zero_le _⟩, Opcode.nullLit.bare, ⟨.jump, 1, one_le_maxOperand⟩,
      ⟨.label, 0, Nat.zero_le _⟩, ⟨.posInt, 1, one_le_maxOperand⟩, ⟨.jump, 1, one_le_maxOperand⟩,
      ⟨.label, 1, one_le_maxOperand⟩, Opcode.popArgs.bare, Opcode.pop.bare, Opcode.falseLit.bare,
      ⟨.pushArgs, 1, one_le_maxOperand⟩, ⟨.arg, 0, Nat.zero_le _⟩, ⟨.condJump, 2, two_le_maxOperand⟩,
      Opcode.retNull.bare, ⟨.label, 2, two_le_maxOperand⟩, ⟨.posInt, 1, one_le_maxOperand⟩, Opcode.ret.bare]
    labels := [some 6, some 9, some 17]
    stackSize := 1
    labelCount := 3 }

theorem verified_answering :
    answering.Verified ⟨1, [some 3], [some 0, some 1, some 0, some 0, some 0, some 1]⟩ where
  accepted := by with_unfolding_all rfl
  labels := rfl
  stackSize := rfl

theorem verified_askingTwice :
    askingTwice.Verified ⟨2, [], [some 0, some 1, some 2, some 1, some 0, some 1, some 2]⟩ where
  accepted := by with_unfolding_all rfl
  labels := rfl
  stackSize := rfl

theorem verified_answeringTwice : answeringTwice.Verified ⟨1, [some 6, some 9, some 17],
    [some 0, some 1, some 0, some 1, some 0, some 1, some 0, some 0, some 1, some 1, some 1, some 1, some 0, some 1,
      some 0, some 1, some 0, some 0, some 0, some 1]⟩ where
  accepted := by with_unfolding_all rfl
  labels := rfl
  stackSize := rfl

theorem inlined_askingTwice : Yields (Chunk.inlineCalls 2 askingTwice.chunk askingTwice.code) {}
    (answeringTwice.code, { askingTwice.chunk with labelCount := 3 })
    { events := [.inlined none 1 true, .inlined none 1 false] } := by
  with_unfolding_all rfl

theorem careful_answering {r : Procedure Value} (h : r = answering) : r.chunk.Careful :=
  h ▸ Chunk.careful_of_no_slots verified_answering.accepted (by decide)

theorem roster_answering : Roster (· = answering) where
  verified := by
    rintro p rfl
    exact ⟨_, verified_answering⟩
  identity := by
    rintro p q rfl rfl _
    rfl
  constants := by
    rintro p rfl
    exact nofun

theorem distinct_answering : Distinct (· = answering) fun _ => False where
  constants := by
    rintro p rfl
    exact nofun
  names := nofun

theorem inviting_askingTwice : askingTwice.chunk.Inviting (· = answering) fun _ => False := by
  have mentions : ∀ i ∈ askingTwice.code, (i.op.effect.operand = .labels → i.operand < 0) ∧
      (i.op = .const → i.operand < 1) := by decide
  have made : (Value.closure answering []).Made (· = answering) fun _ => False := .closure rfl nofun
  refine ⟨Chunk.careful_of_no_slots verified_askingTwice.accepted (by decide),
    fun i member => ⟨(mentions i member).1, (mentions i member).2⟩, by decide, ?_,
    fun {i j count tail callee} inside const found _ _ => ?_⟩
  · intro v member
    rw [List.mem_singleton.mp member]
    exact made
  · have first : i.operand = 0 := Nat.lt_one_iff.mp ((mentions i (inside.subset List.mem_cons_self)).2 const)
    rw [first] at found
    obtain ⟨p, captured⟩ := callee
    obtain ⟨rfl, rfl⟩ : answering = p ∧ [] = captured := Value.closure.inj (Option.some.inj found)
    exact ⟨Chunk.suits_answering _, careful_answering rfl, made, by decide⟩

/-- The body comes to null, and so does the body with both calls inlined. -/
theorem ends_answeringTwice : ∃ n : Machine, Machine.State.system.Ends
    ⟨.new {} {}, .calling (.closure answeringTwice []) [], []⟩ (.value .null, n) [] := by
  have within : (Value.closure answering []).Within (· = answering) := Value.Matches.closure ⟨rfl, rfl⟩ .nil
  have constants : ∀ v ∈ [Value.closure answering []], v.Within (· = answering) := by
    intro v member
    rw [List.mem_singleton.mp member]
    exact within
  have other {p : Procedure Value} (late : p.serial ≠ 0) {r : Procedure Value} (h : r = answering)
      (same : r.serial = p.serial) : r = p := by
    subst h
    exact absurd same.symm late
  have joins : askingTwice.Joins (· = answering) _ := ⟨verified_askingTwice, constants, other (by decide)⟩
  have rejoins : answeringTwice.Joins (· = answering) _ := ⟨verified_answeringTwice, constants, other (by decide)⟩
  have none : ∀ v ∈ ([] : List Value), v.Within (· = answering) := nofun
  obtain ⟨grants, together⟩ := Machine.State.ends_iff_inlined roster_answering careful_answering distinct_answering joins
    inviting_askingTwice
  obtain ⟨found, accepted, together⟩ := together ((grants 2 {}).ok inlined_askingTwice)
  obtain rfl := Except.ok.inj (verified_answeringTwice.accepted.symm.trans accepted)
  have runs := together rfl rfl rejoins (m := .new {} {}) (Pool.tidy_new {}) ⟨.nil, .nil⟩ none none
  have play := (Machine.State.together_play roster_answering careful_answering joins inviting_askingTwice.careful
    (m := .new {} {}) (Pool.tidy_new {}) ⟨.nil, .nil⟩ none none).1
  obtain ⟨⟨_, n⟩, _, first, ⟨rfl, -⟩, ⟨⟩⟩ := play (.value .null, {}) [] ⟨19, rfl, rfl⟩
  obtain ⟨⟨_, n'⟩, _, second, ⟨⟨⟨⟨⟩⟩, -⟩, -⟩, ⟨⟩⟩ := runs.1 _ _ first
  exact ⟨n', second⟩

end StackLisp
