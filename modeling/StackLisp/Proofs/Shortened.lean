import StackLisp.Proofs.Beside
import StackLisp.Proofs.Sameness
import StackLisp.Proofs.Shortening
import StackLisp.Proofs.Staging

/-!
Runs of shortened code. Shortened code runs as the code did, step for step but for labels, jumps and returns
that are gone. One thing tells the two apart: equality, which looks at the code of a procedure, in a body
that mentions its own closure.
-/

namespace StackLisp

open Chunk (Shortens Exits Closes StandsFor)

/-- The chunk after the passes that need nothing but the code. -/
def Chunk.shortened (c : Chunk) : Chunk :=
  { c with code := shorten c.code }

/-- Shortening keeps slots below the count and stores before loads. -/
theorem Chunk.Careful.of_shortens {c d : Chunk} {source : Nat → Nat} (careful : c.Careful)
    (h : Shortens c.code d.code source) (slots : d.localCount = c.localCount) : d.Careful where
  accepted := by
    obtain ⟨checked, accepted⟩ := careful.accepted
    obtain ⟨shortened, verified, -⟩ := h.verify accepted
    exact ⟨shortened, verified⟩
  bounded member operand := slots ▸ careful.bounded (h.mem_of_operand member (.inr operand)) operand
  stored := by
    obtain ⟨checked, accepted⟩ := careful.accepted
    have distinct := labels_nodup_of_verify accepted
    obtain ⟨stored, stores⟩ := careful.stored
    refine ⟨fun pc => stored (source pc), ?_, fun {pc slot i} here stays there => ?_,
      fun {pc target slot i} here jumps goal there => ?_, fun {pc i} here loads => ?_⟩
    · rw [h.start]
      exact stores.start
    · obtain ⟨original, onward⟩ := (h.stands here).same_of_stays stays
      rw [onward] at there
      exact stores.next original stays there
    · obtain ⟨original, -⟩ := (h.stands here).same_of_operand (.inl (Opcode.operand_of_jumps jumps))
      exact stores.target original jumps (h.anchor distinct goal) there
    · obtain ⟨original, -⟩ := (h.stands here).same_of_operand (.inr (by rw [loads]; rfl))
      exact stores.loads original loads

variable {P : Procedure Value → Procedure Value → Prop}

/-- A scene in code and one in the same code shortened. -/
structure Scene.Shortens (P : Procedure Value → Procedure Value → Prop) (s t : Scene) : Prop where
  resembles : s.Resembles P t
  slots : s.locals.length = t.locals.length
  distinct : (Chunk.labelsOf s.chunk.code).Nodup
  code : ∃ source, Chunk.Shortens s.chunk.code t.chunk.code source ∧ s.pc = source t.pc
  body : s.chunk.contains .current → P s.closure.procedure t.closure.procedure

/-- Breaches may have different texts. -/
def Likeness.shortening (P : Procedure Value → Procedure Value → Prop) : Likeness :=
  ⟨P, fun _ _ => True, Scene.Shortens P⟩

namespace Scene

variable {s t : Scene} {σ τ : Store}

theorem Shortens.push (h : s.Shortens P t) {v w : Value} (value : v.Matches P w) :
    (s.push v).Shortens P (t.push w) :=
  { h with resembles := h.resembles.push value }

theorem shortens_enter {c d : Chunk} {source : Nat → Nat} (shortens : Chunk.Shortens c.code d.code source)
    (distinct : (Chunk.labelsOf c.code).Nodup) (globals : c.globals = d.globals)
    (slots : c.localCount = d.localCount)
    (constants : List.Forall₂ (Value.Matches P) c.constants d.constants) (f g : Closure)
    (body : c.contains .current → P f.procedure g.procedure)
    (captured : List.Forall₂ (Value.Matches P) f.captured g.captured) {as bs : List Value}
    (args : List.Forall₂ (Value.Matches P) as bs) : (enter c f as).Shortens P (enter d g bs) where
  resembles := resembles_enter globals constants captured args
  slots := by
    change (List.replicate _ _).length = (List.replicate _ _).length
    rw [List.length_replicate, List.length_replicate, slots]
  distinct
  code := ⟨source, shortens, shortens.start.symm⟩
  body

theorem edit?_eq_none {i : Instruction} (h : i.op ∉ [.declare, .hide, .bind]) (globals : NamespaceId)
    (operands : List Value) : i.edit? globals operands = none := by
  obtain ⟨op, operand, small⟩ := i
  unfold Instruction.edit?
  split
  · split <;> simp_all
  · rfl

variable {r : Reading}

theorem quiet_run {s t : Scene} {i : Instruction} (here : s.chunk.code[s.pc]? = some i)
    (quiet : i.op ∉ [.declare, .hide, .bind]) (goes : r.turn σ s i = .go t σ) {ws : List Waiting} {k : Nat}
    {p : Play} (notes : (Play.system r).noted k ⟨σ, .running t, ws⟩ = [])
    (runs : (Play.step r)^[k] ⟨σ, .running t, ws⟩ = p) :
    (Play.system r).noted (k + 1) ⟨σ, .running s, ws⟩ = [] ∧
      (Play.step r)^[k + 1] ⟨σ, .running s, ws⟩ = p := by
  have stepped : Play.step r ⟨σ, .running s, ws⟩ = ⟨σ, .running t, ws⟩ := by
    rw [Play.step_running here]
    exact congrArg (Play.follow σ ws) goes
  have edits : Play.edits r ⟨σ, .running s, ws⟩ = [] := by
    rw [Play.edits_running here, edit?_eq_none quiet]
    exact congrArg (Turn.edits none) goes
  refine ⟨?_, ?_⟩
  · change Play.edits r ⟨σ, .running s, ws⟩ ++
      (Play.system r).noted k (Play.step r ⟨σ, .running s, ws⟩) = []
    rw [edits, stepped, notes, List.append_nil]
  · rw [Function.iterate_succ_apply, stepped, runs]

/-- On the way to a return the scene comes to answer what is on top of the stack. -/
theorem exits_run (regular : r.Regular) {s : Scene} (exits : Exits s.chunk.code s.pc) (σ : Store)
    (ws : List Waiting) : ∃ k, (Play.system r).noted (k + 1) ⟨σ, .running s, ws⟩ = [] ∧
      (Play.step r)^[k + 1] ⟨σ, .running s, ws⟩ =
        Play.follow σ ws (.withOne .answer (s.stack.take 1)) := by
  generalize code : s.chunk.code = c at exits
  generalize address : s.pc = pc at exits
  induction exits generalizing s with
  | @ret pc i here ret =>
    subst code address
    obtain ⟨op, operand, small⟩ := i
    obtain rfl : op = .ret := ret
    refine ⟨0, ?_, ?_⟩
    · change Play.edits r ⟨σ, .running s, ws⟩ ++ [] = []
      rw [Play.edits_running here, edit?_eq_none (by simp)]
      cases r.turn σ s _ <;> rfl
    · exact (Play.step_running here).trans (congrArg (Play.follow σ ws) (regular (by simp)))
  | @label pc i here label next ih =>
    subst code address
    obtain ⟨op, operand, small⟩ := i
    obtain rfl : op = .label := label
    obtain ⟨k, notes, runs⟩ := ih (s := s.past ⟨.label, operand, small⟩) rfl rfl
    exact ⟨k + 1, quiet_run here (by simp) (regular nofun) notes runs⟩
  | @jump pc target i here jump goal next ih =>
    subst code address
    obtain ⟨op, operand, small⟩ := i
    obtain rfl : op = .jump := jump
    obtain ⟨k, notes, runs⟩ := ih (s := { s with pc := target }) rfl rfl
    have goes : s.turn σ ⟨.jump, operand, small⟩ = .go { s with pc := target } σ :=
      goTo_of_anchor (s := s.past ⟨.jump, operand, small⟩) goal
    exact ⟨k + 1, quiet_run here (by simp) ((regular (by simp)).trans goes) notes runs⟩

theorem spent_of_exits (regular : r.Regular) {s : Scene} (exits : Exits s.chunk.code s.pc) : r.Spent s := by
  intro σ v waiting
  obtain ⟨k, notes, runs⟩ := exits_run regular (s := s.push v) exits σ waiting
  exact ⟨k + 2, runs, notes⟩

variable (P) in
/-- Scenes that two others came to, one in code and one in the same code shortened. -/
structure Parted (source : Nat → Nat) (s t u v : Scene) : Prop where
  resembles : u.Resembles P v
  pc : u.pc = source v.pc
  first : u.chunk = s.chunk ∧ u.closure = s.closure ∧ u.locals.length = s.locals.length
  second : v.chunk = t.chunk ∧ v.closure = t.closure ∧ v.locals.length = t.locals.length

/-- Turns of an instruction that stands in both are alike if the scenes that they come to are. -/
theorem alike_of_resembles {L : Likeness} {x y : Turn} {i : Instruction} {source : Nat → Nat}
    (turns : x.Resembles L.bodies (s.past i) (t.past i) i y) (first : x.Heeds (s.past i) i)
    (second : y.Heeds (t.past i) i) (h : s.Resembles L.bodies t)
    (shortens : Chunk.Shortens s.chunk.code t.chunk.code source) (distinct : (Chunk.labelsOf s.chunk.code).Nodup)
    (onward : i.op.effect.exits = false → source (t.pc + 1) = s.pc + 1) (breaches : ∀ b c, L.breaches b c)
    (scenes : ∀ {u v : Scene}, Parted L.bodies source s t u v → L.scenes u v) : x.Alike L y := by
  cases turns with
  | @go u v _ _ resembles control stores =>
    have address : u.pc = source v.pc := by
      rcases control with ⟨before, after⟩ | ⟨before, after⟩
      · rcases first.control with ⟨stays, -⟩ | ⟨jumps, goal⟩
        · rw [before, after]
          exact (onward stays).symm
        · rcases second.control with ⟨stays, -⟩ | ⟨-, target⟩
          · rw [before, after]
            exact (onward stays).symm
          · exact Option.some.inj (goal.symm.trans (shortens.anchor distinct target))
      · exact Option.some.inj (before.symm.trans (shortens.anchor distinct after))
    exact .go (scenes ⟨resembles, address, ⟨first.chunk, first.closure, first.slots⟩,
      ⟨second.chunk, second.closure, second.slots⟩⟩) stores
  | answer value => exact .answer value
  | call callee args =>
    obtain ⟨-, -, stays⟩ := first
    exact .call callee args fun value =>
      scenes ⟨(h.past i).push value, (onward stays).symm, ⟨rfl, rfl, rfl⟩, ⟨rfl, rfl, rfl⟩⟩
  | leave callee args => exact .leave callee args
  | fault fault => exact .fault fault
  | breach b => exact .breach (breaches _ _)
  | underflow => exact .breach (breaches _ _)
  | stray => exact .stray

theorem Shortens.parted (h : s.Shortens P t) {source : Nat → Nat}
    (shortens : Chunk.Shortens s.chunk.code t.chunk.code source) {u v : Scene} (parted : Parted P source s t u v) :
    u.Shortens P v := by
  obtain ⟨resembles, address, ⟨chunk, closure, slots⟩, ⟨chunk', closure', slots'⟩⟩ := parted
  refine ⟨resembles, ?_, ?_, ⟨source, ?_, address⟩, ?_⟩
  · rw [slots, slots']
    exact h.slots
  · rw [chunk]
    exact h.distinct
  · rw [chunk, chunk']
    exact shortens
  · rw [chunk, closure, closure']
    exact h.body

theorem Shortens.turn_alike (alike : Alikeness P) (h : s.Shortens P t) (stores : σ.Matches P τ)
    {source : Nat → Nat} (shortens : Chunk.Shortens s.chunk.code t.chunk.code source) {i : Instruction}
    (here : s.chunk.code[s.pc]? = some i) (onward : i.op.effect.exits = false → source (t.pc + 1) = s.pc + 1) :
    (s.turn σ i).Alike (.shortening P) (t.turn τ i) := by
  have own : i.op = .current → P s.closure.procedure t.closure.procedure := fun current => by
    refine h.body (List.any_eq_true.mpr ⟨i, List.mem_of_getElem? here, ?_⟩)
    simp [current]
  have turns := turn_resembles alike h.resembles stores i (fun _ => by rw [h.slots])
    (fun _ => shortens.anchor_isSome i.operand) own
  exact alike_of_resembles (L := .shortening P) turns (act_heeds σ (s.past i) i _) (act_heeds τ (t.past i) i _)
    h.resembles shortens h.distinct onward (fun _ _ => trivial) (h.parted shortens)

/-- An instruction that closes either gives what its return pushes first, or calls what the tail call
calls. -/
theorem turn_closes {i k : Instruction} (closes : Closes i k) (s t : Scene) (σ τ : Store) :
    (∃ v : Value, s.turn σ i = .go ((s.past i).push v) σ ∧ t.turn τ k = .answer v ∧ v.Matches P v) ∨
      (s.turn σ i = .withFirst (fun callee args => .call callee args (s.past i)) (s.stack.take i.pops) ∧
        t.turn τ k = .withFirst .leave (t.stack.take i.pops)) := by
  rw [← closes.spec.pops]
  obtain ⟨op, operand, small⟩ := i
  rcases closes with ⟨fused, fuses, rfl⟩ | form
  · refine .inl ?_
    cases op <;> cases fuses
    · exact ⟨.null, rfl, rfl, .null⟩
    · exact ⟨.bool true, rfl, rfl, .bool _⟩
    · exact ⟨.bool false, rfl, rfl, .bool _⟩
  · refine .inr ?_
    cases op <;> cases form <;> exact ⟨rfl, rfl⟩

end Scene

namespace Play

variable {σ τ : Store} {ws xs : List Waiting} {s t : Scene}

theorem alike_answer {L : Likeness} {as bs : List Value} (taken : List.Forall₂ (Value.Matches L.bodies) as bs) :
    (Turn.withOne .answer as).Alike L (Turn.withOne .answer bs) := by
  match as, bs, taken with
  | [], [], .nil => exact .stray
  | [_], [_], .cons value .nil => exact .answer value
  | _ :: _ :: _, _ :: _ :: _, .cons _ (.cons _ _) => exact .stray

theorem edits_of_exits {i : Instruction} (here : t.chunk.code[t.pc]? = some i)
    (exits : i.op.effect.exits) : edits .plain ⟨τ, .running t, xs⟩ = [] := by
  rw [edits_running here, Scene.edit?_eq_none]
  · cases Reading.plain.turn τ t i <;> rfl
  · intro member
    simp only [List.mem_cons, List.not_mem_nil, or_false] at member
    rcases member with op | op | op <;> rw [op] at exits <;> cases exits

variable {L : Likeness} {r : Reading}

/-- Where the one scene leads to a return, the other may answer at once. -/
theorem meets_exits (stores : σ.Matches L.bodies τ) (waits : L.Waits r ws xs)
    {i : Instruction} (there : t.chunk.code[t.pc]? = some i) (exits : i.op.effect.exits) {k : Nat} {x : Turn}
    (notes : (system r).noted (k + 1) ⟨σ, .running s, ws⟩ = [])
    (runs : (step r)^[k + 1] ⟨σ, .running s, ws⟩ = follow σ ws x)
    (turns : x.Alike L (t.turn τ i)) :
    Meets L r .plain ⟨σ, .running s, ws⟩ ⟨τ, .running t, xs⟩ := by
  refine ⟨k + 1, 1, Nat.succ_pos k, Nat.one_pos, ?_, ?_⟩
  · rw [notes]
    change List.Forall₂ _ [] (edits .plain ⟨τ, .running t, xs⟩ ++ [])
    rw [edits_of_exits there exits]
    exact .nil
  · rw [runs, Function.iterate_one, step_running there]
    exact alike_follow stores waits turns

/-- An instruction that closes is followed by what leads to a return. -/
theorem meets_closes (regular : r.Regular) (stack : List.Forall₂ (Value.Matches L.bodies) s.stack t.stack)
    (stores : σ.Matches L.bodies τ) (waits : L.Waits r ws xs) {i k : Instruction}
    (here : s.chunk.code[s.pc]? = some i) (there : t.chunk.code[t.pc]? = some k) (closes : Closes i k)
    (exits : Exits s.chunk.code (s.pc + 1)) :
    Meets L r .plain ⟨σ, .running s, ws⟩ ⟨τ, .running t, xs⟩ := by
  obtain ⟨quiet, plain⟩ : i.op ∉ [.declare, .hide, .bind] ∧ i.op ≠ .const := by
    obtain ⟨op, operand, small⟩ := i
    rcases closes with ⟨fused, fuses, -⟩ | form
    · cases op <;> cases fuses <;> simp
    · cases op <;> cases form <;> simp
  have same : r.turn σ s i = s.turn σ i := regular plain
  rcases Scene.turn_closes (P := L.bodies) closes s t σ τ with ⟨v, goes, answers, value⟩ | ⟨calls, leaves⟩
  · obtain ⟨k, notes, runs⟩ := Scene.exits_run regular (s := (s.past i).push v) exits σ ws
    obtain ⟨notes, runs⟩ := Scene.quiet_run here quiet (same.trans goes) notes runs
    refine meets_exits stores waits there closes.spec.exits.1 notes runs ?_
    rw [answers]
    exact .answer value
  · refine .once ?_ ?_
    · rw [edits_running here, Scene.edit?_eq_none quiet, edits_of_exits there closes.spec.exits.1]
      cases r.turn σ s i <;> exact .nil
    · rw [step_running here, step_running there, same]
      change Alike _ _ (follow σ ws (s.turn σ i)) (follow τ xs (t.turn τ k))
      rw [calls, leaves]
      have taken := List.forall₂_take i.pops stack
      revert taken
      generalize s.stack.take i.pops = as
      generalize t.stack.take i.pops = bs
      intro taken
      cases taken with
      | nil => exact ⟨stores, .straying, waits⟩
      | cons callee args =>
        exact ⟨stores, .calling callee args, .spent (Scene.spent_of_exits regular (s := s.past i) exits) waits⟩

/-- Scenes in code and in the shortened code meet again if the instructions that stay come to turns alike. -/
theorem meets_of_shortens (regular : r.Regular) (h : s.Resembles L.bodies t) (stores : σ.Matches L.bodies τ)
    (waits : L.Waits r ws xs) {source : Nat → Nat} (shortens : Chunk.Shortens s.chunk.code t.chunk.code source)
    (address : s.pc = source t.pc)
    (turns : ∀ {i : Instruction}, s.chunk.code[s.pc]? = some i → t.chunk.code[t.pc]? = some i →
      (i.op.effect.exits = false → source (t.pc + 1) = s.pc + 1) → (r.turn σ s i).Alike L (t.turn τ i)) :
    Meets L r .plain ⟨σ, .running s, ws⟩ ⟨τ, .running t, xs⟩ := by
  cases there : t.chunk.code[t.pc]? with
  | none =>
    have beyond := shortens.ends there
    rw [← address] at beyond
    exact meets_beyond stores waits beyond there
  | some k =>
    have stands := shortens.stands there
    rw [← address] at stands
    cases stands with
    | same here onward => exact meets_of_turns stores waits here there h.globals h.stack (turns here there onward)
    | ret exits returns =>
      subst returns
      obtain ⟨k, notes, runs⟩ := Scene.exits_run regular exits σ ws
      exact meets_exits stores waits there rfl notes runs (alike_answer (List.forall₂_take 1 h.stack))
    | closes here closes exits => exact meets_closes regular h.stack stores waits here there closes exits

/-- Scenes in code and in the shortened code come to scenes in both. -/
theorem meets_shortened (alike : Alikeness P) (h : s.Shortens P t) (stores : σ.Matches P τ)
    (waits : (Likeness.shortening P).Waits .plain ws xs) :
    Meets (.shortening P) .plain .plain ⟨σ, .running s, ws⟩ ⟨τ, .running t, xs⟩ := by
  obtain ⟨source, shortens, address⟩ := h.code
  exact meets_of_shortens Reading.regular_plain h.resembles stores waits shortens address fun here _ onward =>
    h.turn_alike alike stores shortens here onward

end Play

variable {known : Procedure Value → Prop} {p q : Procedure Value}

/-- A known procedure beside itself, and the first of two beside the second if its code can mention the
closure that it runs in. -/
def Swapped (known : Procedure Value → Prop) (p q a b : Procedure Value) : Prop :=
  Twins known a b ∨ p.chunk.contains .current ∧ a = p ∧ b = q

/-- A procedure with its code shortened. Equality tells them apart from the same known procedures, if the
code can mention the closure that it runs in. -/
structure Procedure.Shortened (known : Procedure Value → Prop) (p q : Procedure Value) : Prop where
  chunk : q.chunk = p.chunk.shortened
  arity : q.arity = p.arity
  same : p.chunk.contains .current → ∀ {r : Procedure Value}, known r →
    Value.sameProcedure p r = Value.sameProcedure q r

namespace Procedure

theorem sameProcedure_symm (p q : Procedure Value) : Value.sameProcedure p q = Value.sameProcedure q p :=
  Bool.eq_iff_iff.mpr ⟨Value.sameProcedure_comm, Value.sameProcedure_comm⟩

theorem Shortened.alikeness (h : p.Shortened known q) : Alikeness (Swapped known p q) where
  arity {a b} related := by
    rcases related with ⟨rfl, -⟩ | ⟨-, rfl, rfl⟩
    · rfl
    · exact h.arity.symm
  same {a b c d} first second := by
    rcases first with ⟨rfl, inside⟩ | ⟨current, rfl, rfl⟩
    · rcases second with ⟨rfl, -⟩ | ⟨current, rfl, rfl⟩
      · rfl
      · rw [sameProcedure_symm, h.same current inside, sameProcedure_symm]
    · rcases second with ⟨rfl, inside⟩ | ⟨-, rfl, rfl⟩
      · exact h.same current inside
      · rw [Value.sameProcedure_self, Value.sameProcedure_self]

end Procedure

theorem Twins.swapped (p q : Procedure Value) {a b : Procedure Value} (h : Twins known a b) :
    Swapped known p q a b :=
  .inl h

theorem swapped_of_within {vs : List Value} (h : ∀ v ∈ vs, v.Within known) :
    List.Forall₂ (Value.Matches (Swapped known p q)) vs vs :=
  matches_monoEach (twins_of_within h) (Twins.swapped p q)

namespace Play

/-- A closure over a procedure and one over the shortened procedure start in scenes that are alike. -/
theorem shortens_body (h : p.Shortened known q) (careful : p.chunk.Careful)
    (constants : ∀ v ∈ p.constants, v.Within known) {as bs args args' : List Value}
    (captured : List.Forall₂ (Value.Matches (Swapped known p q)) as bs)
    (values : List.Forall₂ (Value.Matches (Swapped known p q)) args args') :
    (Scene.enter p.chunk ⟨p, as⟩ args).Shortens (Swapped known p q) (.enter q.chunk ⟨q, bs⟩ args') := by
  obtain ⟨checked, accepted⟩ := careful.accepted
  have distinct := Chunk.labels_nodup_of_verify accepted
  obtain ⟨source, shortens⟩ := Chunk.shortens_shorten distinct
  rw [h.chunk]
  exact Scene.shortens_enter (d := p.chunk.shortened) shortens distinct rfl rfl (swapped_of_within constants)
    ⟨p, as⟩ ⟨q, bs⟩ (fun current => .inr ⟨current, rfl, rfl⟩) captured values

theorem enters_shortened (h : p.Shortened known q) (careful : p.chunk.Careful)
    (constants : ∀ v ∈ p.constants, v.Within known) (prudent : Prudent known) :
    Enters (.shortening (Swapped known p q)) .plain .plain := by
  intro a b as bs args args' bodies captured values
  rcases bodies with ⟨rfl, inside⟩ | ⟨-, rfl, rfl⟩
  · obtain ⟨checked, accepted⟩ := (prudent.careful inside).accepted
    exact Scene.shortens_enter (.refl _) (Chunk.labels_nodup_of_verify accepted) rfl rfl
      (swapped_of_within (prudent.constants inside)) ⟨a, as⟩ ⟨a, bs⟩ (fun _ => .inl ⟨rfl, inside⟩)
      captured values
  · exact shortens_body h careful constants captured values

/-- The plays of a call of a closure and of one over the shortened procedure are alike after a step. -/
theorem alike_shortened (h : p.Shortened known q) (careful : p.chunk.Careful)
    (constants : ∀ v ∈ p.constants, v.Within known) {σ : Store} (store : σ.Within known)
    {captured args : List Value} (inside : ∀ v ∈ captured, v.Within known)
    (values : ∀ v ∈ args, v.Within known) :
    Alike (.shortening (Swapped known p q)) .plain (step .plain ⟨σ, .calling (.closure p captured) args, []⟩)
      (step .plain ⟨σ, .calling (.closure q captured) args, []⟩) := by
  have stores : σ.Matches (Swapped known p q) σ := store.mono (Twins.swapped p q)
  change Alike _ _ (call .plain σ [] (.closure p captured) args) (call .plain σ [] (.closure q captured) args)
  have checked := Value.agree_check (P := Swapped known p q) p.arity args.length
  unfold call
  rw [callable?_closure, callable?_closure, h.arity]
  revert checked
  generalize p.arity.check args.length = x
  intro checked
  cases checked with
  | error fault => exact ⟨stores, .unwinding fault, .nil⟩
  | ok =>
    exact ⟨stores, .running (shortens_body h careful constants (swapped_of_within inside)
      (swapped_of_within values)), .nil⟩

end Play

/-- A procedure that is what a check found, with known procedures inside and a number of its own. -/
structure Procedure.Joins (known : Procedure Value → Prop) (p : Procedure Value) (checked : Checked) : Prop where
  verified : p.Verified checked
  constants : ∀ v ∈ p.constants, v.Within known
  identity : ∀ {r : Procedure Value}, known r → r.serial = p.serial → r = p

theorem Value.Within.mono {wider : Procedure Value → Prop} {v : Value} (h : v.Within known)
    (more : ∀ {p : Procedure Value}, known p → wider p) : v.Within wider :=
  Value.Matches.mono h fun twins => ⟨twins.1, more twins.2⟩

theorem Roster.join (roster : Roster known) {checked : Checked} (joins : p.Joins known checked) :
    Roster fun r => known r ∨ r = p where
  verified inside := by
    rcases inside with old | rfl
    · exact roster.verified old
    · exact ⟨checked, joins.verified⟩
  identity first second same := by
    rcases first with old | rfl
    · rcases second with older | rfl
      · exact roster.identity old older same
      · exact joins.identity old same
    · rcases second with older | rfl
      · exact (joins.identity older same.symm).symm
      · rfl
  constants inside v member := by
    rcases inside with old | rfl
    · exact (roster.constants old v member).mono .inl
    · exact (joins.constants v member).mono .inl

/-- Runs that come to the same, but for texts of breaches and for closures over one procedure in place of
another. -/
structure SameEnd (P : Procedure Value → Procedure Value → Prop) (a b : Outcome × Machine) : Prop where
  outcome : a.1.Alike (.shortening P) b.1
  store : a.2.store.Matches P b.2.store

/-- Plays of a closure and of one over the shortened procedure end together. -/
theorem Play.together_shortened (h : p.Shortened known q) (careful : p.chunk.Careful)
    (constants : ∀ v ∈ p.constants, v.Within known) (prudent : Prudent known) {σ : Store}
    (store : σ.Within known) {captured args : List Value} (inside : ∀ v ∈ captured, v.Within known)
    (values : ∀ v ∈ args, v.Within known) :
    System.Together (system .plain) (system .plain) (EndAlike (.shortening (Swapped known p q)))
      (Edit.Matches (Swapped known p q)) ⟨σ, .calling (.closure p captured) args, []⟩
      ⟨σ, .calling (.closure q captured) args, []⟩ :=
  System.together_of_step rfl rfl (System.together_of_progress
    (going_of_alike h.alikeness (enters_shortened h careful constants prudent)
      fun scenes stores waits => meets_shortened h.alikeness scenes stores waits)
    (alike_shortened h careful constants store inside values))

namespace Machine.State

/-- A call of a closure over a procedure that joins known ones ends together with its play. -/
theorem together_play (roster : Roster known) (careful : ∀ {r : Procedure Value}, known r → r.chunk.Careful)
    {checked : Checked} (joins : p.Joins known checked) (own : p.chunk.Careful) {m : Machine}
    (pool : m.pool.Tidy) (store : m.store.Within known) {captured args : List Value}
    (inside : ∀ v ∈ captured, v.Within known) (values : ∀ v ∈ args, v.Within known) :
    System.Together (Play.system .plain) system SameOutcome Eq
      ⟨m.store, .calling (.closure p captured) args, []⟩ ⟨m, .calling (.closure p captured) args, []⟩ := by
  have called : (Value.closure p captured).Within fun r => known r ∨ r = p :=
    Value.Matches.closure ⟨rfl, .inr rfl⟩ (twins_of_within fun v member => (inside v member).mono .inl)
  refine System.together_of_progress (fun h => progress_of_follows (roster.join joins) h)
    (follows_start (roster.join joins) ?_ pool (store.mono fun twins => ⟨twins.1, .inl twins.2⟩) called
      fun v member => (values v member).mono .inl)
  rintro r (old | rfl)
  · exact careful old
  · exact own

/-- Shortening keeps code accepted, with no more of the stack, and a call of a closure over the procedure
ends together with that of one over the shortened procedure. -/
theorem ends_iff_shortened (roster : Roster known)
    (careful : ∀ {r : Procedure Value}, known r → r.chunk.Careful) {checked : Checked}
    (joins : p.Joins known checked) (own : p.chunk.Careful) :
    ∃ shortened, p.chunk.shortened.verify = .ok shortened ∧ shortened.stackSize ≤ checked.stackSize ∧
      ∀ {q : Procedure Value}, p.Shortened known q → q.Joins known shortened →
        ∀ {m : Machine}, m.pool.Tidy → m.store.Within known →
          ∀ {captured args : List Value}, (∀ v ∈ captured, v.Within known) →
            (∀ v ∈ args, v.Within known) →
            System.Together system system (SameEnd (Swapped known p q)) (Edit.Matches (Swapped known p q))
              ⟨m, .calling (.closure p captured) args, []⟩ ⟨m, .calling (.closure q captured) args, []⟩ := by
  obtain ⟨source, shortens⟩ :=
    Chunk.shortens_shorten (Chunk.labels_nodup_of_verify joins.verified.accepted)
  obtain ⟨shortened, accepted, low⟩ := shortens.verify (d := p.chunk.shortened) joins.verified.accepted
  refine ⟨shortened, accepted, low, fun {q} short rejoins {m} pool store {captured args} inside values => ?_⟩
  have carefully : q.chunk.Careful := by
    rw [short.chunk]
    exact own.of_shortens shortens rfl
  have first := together_play roster careful joins own pool store inside values
  have second := together_play roster careful rejoins carefully pool store inside values
  have plays := Play.together_shortened short own joins.constants ⟨careful, roster.constants⟩ store inside values
  refine (first.flip.trans plays (Y := fun a b => Play.EndAlike (.shortening (Swapped known p q))
    (a.1, a.2.store) b) ?_ fun same changes => same ▸ changes).trans second ?_ fun changes same => same ▸ changes
  · rintro ⟨o, n⟩ ⟨o', σ⟩ b ⟨rfl, same⟩ ⟨outcomes, stores⟩
    exact ⟨outcomes, ⟨congrArg Store.namespaces same ▸ stores.namespaces, congrArg Store.refs same ▸ stores.refs⟩⟩
  · rintro ⟨o, n⟩ ⟨o', σ⟩ ⟨o'', n'⟩ ⟨outcomes, stores⟩ ⟨rfl, same⟩
    exact ⟨outcomes, ⟨congrArg Store.namespaces same ▸ stores.namespaces, congrArg Store.refs same ▸ stores.refs⟩⟩

end Machine.State

/-- A body of one parameter that asks whether it is equal to its own closure. -/
def comparing : Procedure Value where
  serial := 0
  name := none
  arity := .fixed 1
  code := [⟨.arg, 0, Nat.zero_le _⟩, Opcode.current.bare, Opcode.eq.bare, ⟨.jump, 0, Nat.zero_le _⟩,
    ⟨.label, 0, Nat.zero_le _⟩, Opcode.ret.bare]
  constants := []
  labels := [some 4]
  stackSize := 2
  localCount := 0
  labelCount := 1
  globals := 0
  inlinable := false

/-- The same body after the passes. -/
def comparingEarly : Procedure Value :=
  { comparing with
    serial := 1
    code := [⟨.arg, 0, Nat.zero_le _⟩, Opcode.current.bare, Opcode.eq.bare, Opcode.ret.bare,
      ⟨.label, 0, Nat.zero_le _⟩, Opcode.ret.bare] }

theorem verified_comparing : comparing.Verified ⟨2, [some 4], [some 0, some 1, some 2, some 1, some 1, some 1]⟩ where
  accepted := by with_unfolding_all rfl
  labels := rfl
  stackSize := rfl

theorem verified_comparingEarly :
    comparingEarly.Verified ⟨2, [some 4], [some 0, some 1, some 2, some 1, none, none]⟩ where
  accepted := by with_unfolding_all rfl
  labels := rfl
  stackSize := rfl

theorem comparingEarly_chunk : comparingEarly.chunk = comparing.chunk.shortened := by
  with_unfolding_all rfl

theorem roster_none : Roster fun _ => False :=
  ⟨nofun, nofun, nofun⟩

theorem roster_comparingEarly : Roster (· = comparingEarly) where
  verified := by
    rintro p rfl
    exact ⟨_, verified_comparingEarly⟩
  identity := by
    rintro p q rfl rfl _
    rfl
  constants := by
    rintro p rfl
    exact nofun

theorem careful_comparing : comparing.chunk.Careful :=
  Chunk.careful_of_no_slots verified_comparing.accepted (by decide)

theorem careful_comparingEarly : comparingEarly.chunk.Careful :=
  Chunk.careful_of_no_slots verified_comparingEarly.accepted (by decide)

/-- Null is not the closure, before the passes and after them. -/
theorem ends_comparingEarly : ∃ n : Machine, Machine.State.system.Ends
    ⟨.new {} {}, .calling (.closure comparingEarly []) [.null], []⟩ (.value (.bool false), n) [] := by
  have captured : ∀ v ∈ ([] : List Value), v.Within fun _ => False := nofun
  have values : ∀ v ∈ [Value.null], v.Within fun _ => False := by
    intro v member
    rw [List.mem_singleton.mp member]
    exact .null
  have joins : comparing.Joins (fun _ => False) _ := ⟨verified_comparing, nofun, nofun⟩
  have rejoins : comparingEarly.Joins (fun _ => False) _ := ⟨verified_comparingEarly, nofun, nofun⟩
  obtain ⟨shortened, accepted, -, together⟩ :=
    Machine.State.ends_iff_shortened roster_none nofun joins careful_comparing
  rw [← comparingEarly_chunk] at accepted
  obtain rfl := Except.ok.inj (verified_comparingEarly.accepted.symm.trans accepted)
  have runs := together ⟨comparingEarly_chunk, rfl, fun _ => nofun⟩ rejoins (m := .new {} {})
    (Pool.tidy_new {}) ⟨.nil, .nil⟩ captured values
  have play := (Machine.State.together_play roster_none nofun joins careful_comparing (m := .new {} {})
    (Pool.tidy_new {}) ⟨.nil, .nil⟩ captured values).1
  obtain ⟨⟨_, n⟩, _, first, ⟨rfl, -⟩, ⟨⟩⟩ := play (.value (.bool false), {}) [] ⟨8, rfl, rfl⟩
  obtain ⟨⟨_, n'⟩, _, second, ⟨⟨⟨⟩⟩, -⟩, ⟨⟩⟩ := runs.1 _ _ first
  exact ⟨n', second⟩

/-- Given a closure over the body after the passes, the body before them finds it different from its own,
and the body after them finds it equal. -/
theorem comparing_tells : comparingEarly.chunk = comparing.chunk.shortened ∧ comparing.chunk.Careful ∧
    (∃ n : Machine, Machine.State.system.Ends ⟨.new {} {}, .calling (.closure comparing [])
      [.closure comparingEarly []], []⟩ (.value (.bool false), n) []) ∧
    ∃ n : Machine, Machine.State.system.Ends ⟨.new {} {}, .calling (.closure comparingEarly [])
      [.closure comparingEarly []], []⟩ (.value (.bool true), n) [] := by
  have careful : ∀ {r : Procedure Value}, r = comparingEarly → r.chunk.Careful := by
    rintro r rfl
    exact careful_comparingEarly
  have captured : ∀ v ∈ ([] : List Value), v.Within (· = comparingEarly) := nofun
  have values : ∀ v ∈ [Value.closure comparingEarly []], v.Within (· = comparingEarly) := by
    intro v member
    rw [List.mem_singleton.mp member]
    exact Value.Matches.closure ⟨rfl, rfl⟩ .nil
  have other : ∀ {r : Procedure Value}, r = comparingEarly → r.serial = comparing.serial → r = comparing := by
    rintro r rfl same
    cases same
  have before : comparing.Joins (· = comparingEarly) _ := ⟨verified_comparing, nofun, other⟩
  have after : comparingEarly.Joins (· = comparingEarly) _ :=
    ⟨verified_comparingEarly, nofun, fun known _ => known⟩
  have first := (Machine.State.together_play roster_comparingEarly careful before careful_comparing
    (m := .new {} {}) (Pool.tidy_new {}) ⟨.nil, .nil⟩ captured values).1
  have second := (Machine.State.together_play roster_comparingEarly careful after careful_comparingEarly
    (m := .new {} {}) (Pool.tidy_new {}) ⟨.nil, .nil⟩ captured values).1
  obtain ⟨⟨_, n⟩, _, early, ⟨rfl, -⟩, ⟨⟩⟩ := first (.value (.bool false), {}) [] ⟨8, rfl, rfl⟩
  obtain ⟨⟨_, n'⟩, _, late, ⟨rfl, -⟩, ⟨⟩⟩ := second (.value (.bool true), {}) [] ⟨8, rfl, rfl⟩
  exact ⟨comparingEarly_chunk, careful_comparing, ⟨n, early⟩, n', late⟩

end StackLisp
