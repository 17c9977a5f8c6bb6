import StackLisp.Proofs.Computing

/-!
Scenes that differ in nothing but their procedures. Side by side they come to turns that differ in
nothing else, whatever the instruction.
-/

namespace StackLisp

open Value (Matches)

variable {P : Procedure Value → Procedure Value → Prop}

/-- The value in a local slot, if there is one. -/
def Scene.slot? (s : Scene) (k : Nat) : Option Value :=
  s.locals[k]?.join

/-- Two scenes that have the same but for their code, the address in it and the procedure it belongs to. One
may have more local slots than the other. -/
structure Scene.Resembles (P : Procedure Value → Procedure Value → Prop) (s t : Scene) : Prop where
  globals : s.chunk.globals = t.chunk.globals
  constants : List.Forall₂ (Value.Matches P) s.chunk.constants t.chunk.constants
  captured : List.Forall₂ (Value.Matches P) s.closure.captured t.closure.captured
  args : List.Forall₂ (Value.Matches P) s.args t.args
  saved : List.Forall₂ (List.Forall₂ (Value.Matches P)) s.saved t.saved
  stack : List.Forall₂ (Value.Matches P) s.stack t.stack
  locals : ∀ k, Option.Rel (Value.Matches P) (s.slot? k) (t.slot? k)

/-- Two scenes in one code at one address. -/
structure Scene.Matches (P : Procedure Value → Procedure Value → Prop) (s t : Scene) : Prop extends
    s.Resembles P t where
  body : P s.closure.procedure t.closure.procedure
  code : s.chunk.code = t.chunk.code
  pc : s.pc = t.pc

/-- Control goes on in both scenes, or to the anchors of one label. -/
def Scene.Parts (s t : Scene) (i : Instruction) (u v : Scene) : Prop :=
  (u.pc = s.pc ∧ v.pc = t.pc) ∨ (Chunk.anchor? s.chunk.code i.operand = some u.pc ∧
    Chunk.anchor? t.chunk.code i.operand = some v.pc)

/-- Turns of an instruction in two scenes that come to the same. A breach may name its address. -/
inductive Turn.Resembles (P : Procedure Value → Procedure Value → Prop) (s t : Scene) (i : Instruction) :
    Turn → Turn → Prop where
  | go {u v : Scene} {σ τ : Store} (scenes : u.Resembles P v) (control : s.Parts t i u v)
    (stores : σ.Matches P τ) : Resembles P s t i (.go u σ) (.go v τ)
  | answer {v w : Value} (h : v.Matches P w) : Resembles P s t i (.answer v) (.answer w)
  | call {v w : Value} {as bs : List Value} (callee : v.Matches P w)
    (args : List.Forall₂ (Value.Matches P) as bs) : Resembles P s t i (.call v as s) (.call w bs t)
  | leave {v w : Value} {as bs : List Value} (callee : v.Matches P w)
    (args : List.Forall₂ (Value.Matches P) as bs) : Resembles P s t i (.leave v as) (.leave w bs)
  | fault {f g : Fault} (h : f.Matches P g) : Resembles P s t i (.fault f) (.fault g)
  | breach (b : Breach) : Resembles P s t i (.breach b) (.breach b)
  | underflow : Resembles P s t i (.breach (.argumentUnderflow (s.pc - 1)))
    (.breach (.argumentUnderflow (t.pc - 1)))
  | stray : Resembles P s t i .stray .stray

/-- Turns that come to the same, in scenes and with values that match. -/
inductive Turn.Agrees (P : Procedure Value → Procedure Value → Prop) : Turn → Turn → Prop where
  | go {s t : Scene} {σ τ : Store} (scenes : s.Matches P t) (stores : σ.Matches P τ) :
    Agrees P (.go s σ) (.go t τ)
  | answer {v w : Value} (h : v.Matches P w) : Agrees P (.answer v) (.answer w)
  | call {v w : Value} {as bs : List Value} {s t : Scene} (callee : v.Matches P w)
    (args : List.Forall₂ (Value.Matches P) as bs) (scenes : s.Matches P t) :
    Agrees P (.call v as s) (.call w bs t)
  | leave {v w : Value} {as bs : List Value} (callee : v.Matches P w)
    (args : List.Forall₂ (Value.Matches P) as bs) : Agrees P (.leave v as) (.leave w bs)
  | fault {f g : Fault} (h : f.Matches P g) : Agrees P (.fault f) (.fault g)
  | breach (b : Breach) : Agrees P (.breach b) (.breach b)
  | stray : Agrees P .stray .stray

namespace Turn

variable {s t : Scene} {i : Instruction}

theorem resembles_withNone {x y : Turn} (h : x.Resembles P s t i y) {as bs : List Value}
    (taken : List.Forall₂ (Value.Matches P) as bs) :
    (withNone x as).Resembles P s t i (withNone y bs) := by
  cases taken with
  | nil => exact h
  | cons => exact .stray

theorem resembles_withOne {x y : Value → Turn}
    (h : ∀ {v w : Value}, v.Matches P w → (x v).Resembles P s t i (y w)) {as bs : List Value}
    (taken : List.Forall₂ (Value.Matches P) as bs) :
    (withOne x as).Resembles P s t i (withOne y bs) := by
  match as, bs, taken with
  | [_], [_], .cons first .nil => exact h first
  | [], [], .nil | _ :: _ :: _, _ :: _ :: _, .cons _ (.cons _ _) => exact .stray

theorem resembles_withFirst {x y : Value → List Value → Turn}
    (h : ∀ {v w : Value} {as bs : List Value}, v.Matches P w →
      List.Forall₂ (Value.Matches P) as bs → (x v as).Resembles P s t i (y w bs))
    {as bs : List Value} (taken : List.Forall₂ (Value.Matches P) as bs) :
    (withFirst x as).Resembles P s t i (withFirst y bs) := by
  cases taken with
  | nil => exact .stray
  | cons first rest => exact h first rest

end Turn

namespace Scene

variable {s t : Scene} {i : Instruction} {σ τ : Store}

theorem Resembles.push (h : s.Resembles P t) {v w : Value} (value : v.Matches P w) :
    (s.push v).Resembles P (t.push w) :=
  { h with stack := .cons value h.stack }

theorem Resembles.past (h : s.Resembles P t) (i : Instruction) : (s.past i).Resembles P (t.past i) :=
  { h with stack := List.forall₂_drop _ h.stack }

theorem Matches.push (h : s.Matches P t) {v w : Value} (value : v.Matches P w) :
    (s.push v).Matches P (t.push w) :=
  { h with stack := .cons value h.stack }

theorem Matches.past (h : s.Matches P t) (i : Instruction) : (s.past i).Matches P (t.past i) :=
  { h with
    stack := List.forall₂_drop _ h.stack
    pc := congrArg (· + 1) h.pc }

theorem resembles_give (h : s.Resembles P t) (stores : σ.Matches P τ) {v w : Value}
    (value : v.Matches P w) : (s.give σ v).Resembles P s t i (t.give τ w) :=
  .go (h.push value) (.inl ⟨rfl, rfl⟩) stores

theorem resembles_fetch (h : s.Resembles P t) (stores : σ.Matches P τ) {v w : Option Value}
    (found : Option.Rel (Value.Matches P) v w) :
    (s.fetch σ v).Resembles P s t i (t.fetch τ w) := by
  cases found with
  | none => exact .breach .outOfRange
  | some value => exact resembles_give h stores value

theorem resembles_goTo (h : s.Resembles P t) (stores : σ.Matches P τ)
    (both : (Chunk.anchor? s.chunk.code i.operand).isSome = (Chunk.anchor? t.chunk.code i.operand).isSome) :
    (s.goTo σ i.operand).Resembles P s t i (t.goTo τ i.operand) := by
  unfold goTo
  cases here : Chunk.anchor? s.chunk.code i.operand with
  | none =>
    rw [here] at both
    rw [Option.isNone_iff_eq_none.mp (Option.isSome_eq_false_iff.mp both.symm)]
    exact .stray
  | some target =>
    rw [here] at both
    obtain ⟨other, there⟩ := Option.isSome_iff_exists.mp both.symm
    rw [there]
    exact .go { h with } (.inr ⟨here, there⟩) stores

theorem load_eq (s : Scene) (σ : Store) (slot : Nat) :
    s.load σ slot = match s.slot? slot with
      | some v => s.give σ v
      | none => .stray := by
  unfold load slot?
  rcases s.locals[slot]? with _ | _ | v <;> rfl

theorem slot?_set {v : Value} {k : Nat} (inside : k < s.locals.length) (j : Nat) :
    ({ s with locals := s.locals.set k (some v) } : Scene).slot? j =
      if j = k then some v else s.slot? j := by
  unfold slot?
  by_cases same : j = k
  · subst same
    simp [inside]
  · simp [same, Ne.symm same]

theorem resembles_load (h : s.Resembles P t) (stores : σ.Matches P τ) (slot : Nat) :
    (s.load σ slot).Resembles P s t i (t.load τ slot) := by
  have found := h.locals slot
  rw [load_eq, load_eq]
  revert found
  generalize s.slot? slot = x
  generalize t.slot? slot = y
  intro found
  cases found with
  | none => exact .stray
  | some value => exact resembles_give h stores value

theorem resembles_put (h : s.Resembles P t) (stores : σ.Matches P τ) {slot : Nat}
    (room : slot < s.locals.length ↔ slot < t.locals.length) {v w : Value} (value : v.Matches P w) :
    (s.put σ slot v).Resembles P s t i (t.put τ slot w) := by
  unfold put
  by_cases inside : slot < s.locals.length
  · rw [if_pos inside, if_pos (room.mp inside)]
    refine .go { h with locals := fun k => ?_ } (.inl ⟨rfl, rfl⟩) stores
    rw [slot?_set inside, slot?_set (room.mp inside)]
    split
    · exact .some value
    · exact h.locals k
  · rw [if_neg inside, if_neg fun within => inside (room.mpr within)]
    exact .stray

theorem resembles_popArgs (h : s.Resembles P t) (stores : σ.Matches P τ) :
    (s.popArgs σ).Resembles P s t i (t.popArgs τ) := by
  have saved := h.saved
  unfold popArgs
  revert saved
  generalize s.saved = x
  generalize t.saved = y
  intro saved
  cases saved with
  | nil => exact .underflow
  | cons first rest => exact .go { h with args := first, saved := rest } (.inl ⟨rfl, rfl⟩) stores

theorem resembles_of_matches {x y : Turn} (h : s.Resembles P t) (turns : x.Matches P s t y) :
    x.Resembles P s t i y := by
  cases turns with
  | go given stores => exact .go { h with stack := List.rel_append given h.stack } (.inl ⟨rfl, rfl⟩) stores
  | fault faults => exact .fault faults
  | stray => exact .stray

/-- An instruction that has taken its operands in scenes with the same, wherever their code is. -/
theorem act_resembles (alike : Alikeness P) (h : s.Resembles P t) (stores : σ.Matches P τ)
    (i : Instruction)
    (room : i.op = .store → (i.operand < s.locals.length ↔ i.operand < t.locals.length))
    (both : i.op.jumps →
      (Chunk.anchor? s.chunk.code i.operand).isSome = (Chunk.anchor? t.chunk.code i.operand).isSome)
    (own : i.op = .current → P s.closure.procedure t.closure.procedure)
    {as bs : List Value} (taken : List.Forall₂ (Value.Matches P) as bs) :
    (s.act σ i as).Resembles P s t i (t.act τ i bs) := by
  by_cases computes : i.op.computes
  · exact resembles_of_matches h (act_matches alike computes h.globals stores taken)
  obtain ⟨op, operand, small⟩ := i
  cases op <;> first | exact absurd rfl computes | skip
  case jump => exact Turn.resembles_withNone (resembles_goTo h stores (both rfl)) taken
  case condJump =>
    refine Turn.resembles_withOne (fun {v w} value => ?_) taken
    rw [value.holds]
    split
    · exact resembles_goTo h stores (both rfl)
    · exact .go h (.inl ⟨rfl, rfl⟩) stores
  case ret => exact Turn.resembles_withOne .answer taken
  case retNull => exact Turn.resembles_withNone (.answer .null) taken
  case retTrue | retFalse => exact Turn.resembles_withNone (.answer (.bool _)) taken
  case panic => exact Turn.resembles_withOne (fun value => .fault (.raised value)) taken
  case const =>
    exact Turn.resembles_withNone (resembles_fetch h stores (rel_getElem? h.constants operand)) taken
  case arg => exact Turn.resembles_withNone (resembles_fetch h stores (rel_getElem? h.args operand)) taken
  case capture =>
    exact Turn.resembles_withNone (resembles_fetch h stores (rel_getElem? h.captured operand)) taken
  case argLen =>
    refine Turn.resembles_withNone (resembles_give h stores ?_) taken
    rw [h.args.length_eq]
    exact .integer _
  case restArg =>
    exact Turn.resembles_withNone
      (resembles_give h stores (Value.Matches.ofList (List.forall₂_drop _ h.args))) taken
  case current => exact Turn.resembles_withNone (resembles_give h stores (.closure (own rfl) h.captured)) taken
  case load => exact Turn.resembles_withNone (resembles_load h stores operand) taken
  case store => exact Turn.resembles_withOne (resembles_put h stores (room rfl)) taken
  case call0 | call1 | call =>
    exact Turn.resembles_withFirst (fun callee args => .call callee args) taken
  case tailCall => exact Turn.resembles_withFirst .leave taken
  case pushArgs =>
    exact .go { h with args := taken, saved := .cons h.args h.saved } (.inl ⟨rfl, rfl⟩) stores
  case popArgs => exact Turn.resembles_withNone (resembles_popArgs h stores) taken

theorem turn_resembles (alike : Alikeness P) (h : s.Resembles P t) (stores : σ.Matches P τ)
    (i : Instruction)
    (room : i.op = .store → (i.operand < s.locals.length ↔ i.operand < t.locals.length))
    (both : i.op.jumps →
      (Chunk.anchor? s.chunk.code i.operand).isSome = (Chunk.anchor? t.chunk.code i.operand).isSome)
    (own : i.op = .current → P s.closure.procedure t.closure.procedure) :
    (s.turn σ i).Resembles P (s.past i) (t.past i) i (t.turn τ i) :=
  act_resembles alike (h.past i) stores i room both own (List.forall₂_take _ h.stack)

theorem agrees_of_resembles {x y : Turn} (h : s.Matches P t) (turns : x.Resembles P s t i y)
    (first : x.Heeds s i) (second : y.Heeds t i) : x.Agrees P y := by
  cases turns with
  | go scenes control stores =>
    refine .go ⟨scenes, ?_, ?_, ?_⟩ stores
    · rw [first.closure, second.closure]
      exact h.body
    · rw [first.chunk, second.chunk, h.code]
    · rcases control with ⟨here, there⟩ | ⟨here, there⟩
      · rw [here, there, h.pc]
      · rw [h.code, there] at here
        exact (Option.some.inj here).symm
  | answer value => exact .answer value
  | call callee args => exact .call callee args h
  | leave callee args => exact .leave callee args
  | fault fault => exact .fault fault
  | breach b => exact .breach b
  | underflow =>
    rw [h.pc]
    exact .breach _
  | stray => exact .stray

theorem turn_agrees (alike : Alikeness P) (h : s.Matches P t) (stores : σ.Matches P τ)
    (i : Instruction)
    (room : i.op = .store → (i.operand < s.locals.length ↔ i.operand < t.locals.length)) :
    (s.turn σ i).Agrees P (t.turn τ i) :=
  agrees_of_resembles (h.past i)
    (turn_resembles alike h.toResembles stores i room (fun _ => by rw [h.code]) fun _ => h.body)
    (act_heeds σ (s.past i) i _) (act_heeds τ (t.past i) i _)

/-- Calls of closures start in scenes with the same, wherever their code is. -/
theorem resembles_enter {c d : Chunk} {f g : Closure} {as bs : List Value} (globals : c.globals = d.globals)
    (constants : List.Forall₂ (Value.Matches P) c.constants d.constants)
    (captured : List.Forall₂ (Value.Matches P) f.captured g.captured)
    (args : List.Forall₂ (Value.Matches P) as bs) : (enter c f as).Resembles P (enter d g bs) := by
  have unset : ∀ (c : Chunk) (f : Closure) (as : List Value) (k : Nat),
      (enter c f as).slot? k = none := by
    intro c f as k
    unfold enter slot?
    rw [List.getElem?_replicate]
    split <;> rfl
  refine ⟨globals, constants, captured, args, .nil, .nil, fun k => ?_⟩
  rw [unset, unset]
  exact .none

theorem matches_enter {c d : Chunk} {f g : Closure} {as bs : List Value} (code : c.code = d.code)
    (globals : c.globals = d.globals)
    (constants : List.Forall₂ (Value.Matches P) c.constants d.constants)
    (closures : f.value.Matches P g.value) (args : List.Forall₂ (Value.Matches P) as bs) :
    (enter c f as).Matches P (enter d g bs) := by
  obtain ⟨p, captured⟩ := f
  obtain ⟨q, captured'⟩ := g
  cases closures with
  | closure body captured => exact ⟨resembles_enter globals constants captured args, body, code, rfl⟩

end Scene

end StackLisp
