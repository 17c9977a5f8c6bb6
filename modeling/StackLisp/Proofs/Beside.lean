import StackLisp.Proofs.Play

/-!
Plays side by side. If scenes that are alike come to scenes that are alike again, each after turns of its
own, then two plays end alike or both go on. A scene that only hands on the value it waits for may stand
in one play and be missing in the other.
-/

namespace StackLisp

/-- What counts as alike in two plays: procedures in values, breaches, and scenes that run. -/
structure Likeness where
  bodies : Procedure Value → Procedure Value → Prop
  breaches : Breach → Breach → Prop
  scenes : Scene → Scene → Prop

/-- Nothing but constants is read in a way of its own. -/
def Reading.Regular (r : Reading) : Prop :=
  ∀ {σ : Store} {s : Scene} {i : Instruction}, i.op ≠ .const → r.turn σ s i = s.turn σ i

theorem Reading.regular_plain : Reading.plain.Regular :=
  fun _ => rfl

/-- Whatever value the scene is given, it returns that value and does nothing else. -/
def Reading.Spent (r : Reading) (s : Scene) : Prop :=
  ∀ (σ : Store) (v : Value) (waiting : List Waiting), ∃ k,
    (Play.step r)^[k] ⟨σ, .returning v, .resume s :: waiting⟩ = ⟨σ, .returning v, waiting⟩ ∧
      (Play.system r).noted k ⟨σ, .returning v, .resume s :: waiting⟩ = []

variable {r r' : Reading} {L : Likeness}

inductive Outcome.Alike (L : Likeness) : Outcome → Outcome → Prop
  | value {v w : Value} (h : v.Matches L.bodies w) : Alike L (.value v) (.value w)
  | fault {f g : Fault} (h : f.Matches L.bodies g) : Alike L (.fault f) (.fault g)
  | breach {b c : Breach} (h : L.breaches b c) : Alike L (.breach b) (.breach c)

inductive Doing.Alike (L : Likeness) : Doing → Doing → Prop
  | running {s t : Scene} (h : L.scenes s t) : Alike L (.running s) (.running t)
  | calling {v w : Value} {as bs : List Value} (callee : v.Matches L.bodies w)
    (args : List.Forall₂ (Value.Matches L.bodies) as bs) : Alike L (.calling v as) (.calling w bs)
  | returning {v w : Value} (h : v.Matches L.bodies w) : Alike L (.returning v) (.returning w)
  | unwinding {f g : Fault} (h : f.Matches L.bodies g) : Alike L (.unwinding f) (.unwinding g)
  | breaching {b c : Breach} (h : L.breaches b c) : Alike L (.breaching b) (.breaching c)
  | straying : Alike L .straying .straying

/-- Turns that come to the same, in scenes and with values that are alike. -/
inductive Turn.Alike (L : Likeness) : Turn → Turn → Prop
  | go {s t : Scene} {σ τ : Store} (scenes : L.scenes s t) (stores : σ.Matches L.bodies τ) :
    Alike L (.go s σ) (.go t τ)
  | answer {v w : Value} (h : v.Matches L.bodies w) : Alike L (.answer v) (.answer w)
  | call {v w : Value} {as bs : List Value} {s t : Scene} (callee : v.Matches L.bodies w)
    (args : List.Forall₂ (Value.Matches L.bodies) as bs)
    (push : ∀ {v w : Value}, v.Matches L.bodies w → L.scenes (s.push v) (t.push w)) :
    Alike L (.call v as s) (.call w bs t)
  | leave {v w : Value} {as bs : List Value} (callee : v.Matches L.bodies w)
    (args : List.Forall₂ (Value.Matches L.bodies) as bs) : Alike L (.leave v as) (.leave w bs)
  | fault {f g : Fault} (h : f.Matches L.bodies g) : Alike L (.fault f) (.fault g)
  | breach {b c : Breach} (h : L.breaches b c) : Alike L (.breach b) (.breach c)
  | stray : Alike L .stray .stray

/-- Work that waits in two plays, with spent scenes in the first of them. -/
inductive Likeness.Waits (L : Likeness) (r : Reading) : List Waiting → List Waiting → Prop
  | nil : Waits L r [] []
  | resume {s t : Scene} {ws xs : List Waiting}
    (push : ∀ {v w : Value}, v.Matches L.bodies w → L.scenes (s.push v) (t.push w))
    (rest : Waits L r ws xs) : Waits L r (.resume s :: ws) (.resume t :: xs)
  | guard {v w : Value} {ws xs : List Waiting} (handler : v.Matches L.bodies w) (rest : Waits L r ws xs) :
    Waits L r (.guard v :: ws) (.guard w :: xs)
  | spent {s : Scene} {ws xs : List Waiting} (h : r.Spent s) (rest : Waits L r ws xs) :
    Waits L r (.resume s :: ws) xs

theorem Instruction.rel_edit? {P : Procedure Value → Procedure Value → Prop} (i : Instruction)
    (globals : NamespaceId) {as bs : List Value} (operands : List.Forall₂ (Value.Matches P) as bs) :
    Option.Rel (Edit.Matches P) (i.edit? globals as) (i.edit? globals bs) := by
  cases operands with
  | nil => exact .none
  | cons first rest =>
    cases first with
    | symbol name =>
      obtain ⟨op, operand, small⟩ := i
      cases op with
      | declare => exact .some (.declare _ _)
      | hide => exact .some (.hide _ _)
      | bind =>
        cases rest with
        | nil => exact .none
        | cons value _ => exact .some (.bind _ _ value)
      | _ => exact .none
    | _ => exact .none

theorem Turn.Alike.edits {x y : Turn} (h : x.Alike L y) {c d : Option Edit}
    (changes : Option.Rel (Edit.Matches L.bodies) c d) :
    List.Forall₂ (Edit.Matches L.bodies) (x.edits c) (y.edits d) := by
  cases h with
  | go =>
    cases changes with
    | none => exact .nil
    | some change => exact .cons change .nil
  | _ => exact .nil

namespace Play

structure Alike (L : Likeness) (r : Reading) (p q : Play) : Prop where
  store : p.store.Matches L.bodies q.store
  doing : p.doing.Alike L q.doing
  waits : L.Waits r p.waiting q.waiting

/-- Each play takes steps, with changes to the globals that match, and they are alike again. -/
def Meets (L : Likeness) (r r' : Reading) (p q : Play) : Prop :=
  ∃ j k, 0 < j ∧ 0 < k ∧
    List.Forall₂ (Edit.Matches L.bodies) ((system r).noted j p) ((system r').noted k q) ∧
      Alike L r ((step r)^[j] p) ((step r')^[k] q)

theorem Meets.once {p q : Play}
    (edits : List.Forall₂ (Edit.Matches L.bodies) (Play.edits r p) (Play.edits r' q))
    (alike : Alike L r (step r p) (step r' q)) : Meets L r r' p q := by
  refine ⟨1, 1, Nat.one_pos, Nat.one_pos, ?_, alike⟩
  change List.Forall₂ _ (Play.edits r p ++ []) (Play.edits r' q ++ [])
  rw [List.append_nil, List.append_nil]
  exact edits

variable {σ τ : Store} {ws xs : List Waiting}

theorem alike_follow (stores : σ.Matches L.bodies τ) (waits : L.Waits r ws xs) {x y : Turn}
    (turns : x.Alike L y) : Alike L r (follow σ ws x) (follow τ xs y) := by
  cases turns with
  | go scenes stores => exact ⟨stores, .running scenes, waits⟩
  | answer value => exact ⟨stores, .returning value, waits⟩
  | call callee args push => exact ⟨stores, .calling callee args, .resume push waits⟩
  | leave callee args => exact ⟨stores, .calling callee args, waits⟩
  | fault fault => exact ⟨stores, .unwinding fault, waits⟩
  | breach breach => exact ⟨stores, .breaching breach, waits⟩
  | stray => exact ⟨stores, .straying, waits⟩

theorem step_running {s : Scene} {i : Instruction} (here : s.chunk.code[s.pc]? = some i) :
    step r ⟨σ, .running s, ws⟩ = follow σ ws (r.turn σ s i) := by
  change run r σ ws s = _
  unfold run
  rw [here]

theorem edits_running {s : Scene} {i : Instruction} (here : s.chunk.code[s.pc]? = some i) :
    edits r ⟨σ, .running s, ws⟩ = (r.turn σ s i).edits (i.edit? s.chunk.globals s.stack) := by
  unfold edits
  simp only [here]

theorem step_beyond {s : Scene} (beyond : s.chunk.code[s.pc]? = none) :
    step r ⟨σ, .running s, ws⟩ = ⟨σ, .straying, ws⟩ ∧ edits r ⟨σ, .running s, ws⟩ = [] := by
  constructor
  · change run r σ ws s = _
    unfold run
    rw [beyond]
  · unfold edits
    simp only [beyond]

theorem meets_of_turns {s t : Scene} {i : Instruction} (stores : σ.Matches L.bodies τ)
    (waits : L.Waits r ws xs) (here : s.chunk.code[s.pc]? = some i) (there : t.chunk.code[t.pc]? = some i)
    (globals : s.chunk.globals = t.chunk.globals)
    (operands : List.Forall₂ (Value.Matches L.bodies) s.stack t.stack)
    (turns : (r.turn σ s i).Alike L (r'.turn τ t i)) :
    Meets L r r' ⟨σ, .running s, ws⟩ ⟨τ, .running t, xs⟩ := by
  refine .once ?_ ?_
  · rw [edits_running here, edits_running there, ← globals]
    exact turns.edits (i.rel_edit? _ operands)
  · rw [step_running here, step_running there]
    exact alike_follow stores waits turns

theorem meets_beyond {s t : Scene} (stores : σ.Matches L.bodies τ) (waits : L.Waits r ws xs)
    (here : s.chunk.code[s.pc]? = none) (there : t.chunk.code[t.pc]? = none) :
    Meets L r r' ⟨σ, .running s, ws⟩ ⟨τ, .running t, xs⟩ := by
  obtain ⟨first, quiet⟩ := step_beyond here
  obtain ⟨second, silent⟩ := step_beyond there
  refine .once ?_ ?_
  · rw [quiet, silent]
    exact .nil
  · rw [first, second]
    exact ⟨stores, .straying, waits⟩

/-- The ends of two plays that are alike. -/
def EndAlike (L : Likeness) (a b : Outcome × Store) : Prop :=
  a.1.Alike L b.1 ∧ a.2.Matches L.bodies b.2

/-- Two plays that are alike come to the same outcome, or both go on. -/
abbrev Going (L : Likeness) (r r' : Reading) (p q : Play) : Prop :=
  System.Progress (system r) (system r') (Alike L r) (EndAlike L) (Edit.Matches L.bodies) p q

theorem going_of_meets {p q : Play} (first : p.ended? = none) (second : q.ended? = none)
    (meets : Meets L r r' p q) : Going L r r' p q := by
  obtain ⟨j, k, hj, hk, edits, alike⟩ := meets
  exact .inr ⟨first, second, j, k, hj, hk, edits, alike⟩

theorem going_of_ended {p q : Play} {a b : Outcome} (first : p.ended? = some (a, p.store))
    (second : q.ended? = some (b, q.store)) (outcomes : a.Alike L b)
    (stores : p.store.Matches L.bodies q.store) : Going L r r' p q :=
  .inl ⟨_, _, [], [], ⟨0, first, rfl⟩, ⟨0, second, rfl⟩, ⟨outcomes, stores⟩, .nil⟩

theorem going_returning (waits : L.Waits r ws xs) (stores : σ.Matches L.bodies τ) {v w : Value}
    (value : v.Matches L.bodies w) : Going L r r' ⟨σ, .returning v, ws⟩ ⟨τ, .returning w, xs⟩ := by
  induction waits with
  | nil => exact going_of_ended rfl rfl (.value value) stores
  | resume push rest => exact going_of_meets rfl rfl (.once .nil ⟨stores, .running (push value), rest⟩)
  | guard handler rest => exact going_of_meets rfl rfl (.once .nil ⟨stores, .returning value, rest⟩)
  | @spent s ws xs spent rest ih =>
    obtain ⟨k, returned, quiet⟩ := spent σ v ws
    refine System.Progress.sooner (k := k) quiet ?_
    change Going L r r' ((step r)^[k] _) _
    rw [returned]
    exact ih

theorem going_unwinding (waits : L.Waits r ws xs) (stores : σ.Matches L.bodies τ) {f g : Fault}
    (fault : f.Matches L.bodies g) : Going L r r' ⟨σ, .unwinding f, ws⟩ ⟨τ, .unwinding g, xs⟩ := by
  induction waits with
  | nil => exact going_of_ended rfl rfl (.fault fault) stores
  | resume push rest => exact going_of_meets rfl rfl (.once .nil ⟨stores, .unwinding fault, rest⟩)
  | guard handler rest =>
    have payload : f.payload.Matches L.bodies g.payload := fault.payload
    exact going_of_meets rfl rfl (.once .nil ⟨stores, .calling handler (.cons payload .nil), rest⟩)
  | @spent s ws xs spent rest ih => exact System.Progress.sooner (k := 1) rfl ih

theorem going_breaching (waits : L.Waits r ws xs) (stores : σ.Matches L.bodies τ) {b c : Breach}
    (breach : L.breaches b c) : Going L r r' ⟨σ, .breaching b, ws⟩ ⟨τ, .breaching c, xs⟩ := by
  induction waits with
  | nil => exact going_of_ended rfl rfl (.breach breach) stores
  | resume push rest => exact going_of_meets rfl rfl (.once .nil ⟨stores, .breaching breach, rest⟩)
  | guard handler rest => exact going_of_meets rfl rfl (.once .nil ⟨stores, .breaching breach, rest⟩)
  | @spent s ws xs spent rest ih => exact System.Progress.sooner (k := 1) rfl ih

theorem alike_reply (stores : σ.Matches L.bodies τ) (waits : L.Waits r ws xs) {x y : Reply}
    (replies : x.Matches L.bodies y) : Alike L r (reply σ ws x) (reply τ xs y) := by
  cases replies with
  | answer value => exact ⟨stores, .returning value, waits⟩
  | fault fault => exact ⟨stores, .unwinding fault, waits⟩
  | call callee args => exact ⟨stores, .calling callee args, waits⟩
  | guarded thunk handler => exact ⟨stores, .calling thunk .nil, .guard handler waits⟩
  | noted _ _ value => exact ⟨stores, .returning value, waits⟩

/-- Procedures that are alike start in scenes that are alike. -/
def Enters (L : Likeness) (r r' : Reading) : Prop :=
  ∀ {p q : Procedure Value} {as bs args args' : List Value}, L.bodies p q →
    List.Forall₂ (Value.Matches L.bodies) as bs → List.Forall₂ (Value.Matches L.bodies) args args' →
    L.scenes (.enter (r.chunk p) ⟨p, as⟩ args) (.enter (r'.chunk q) ⟨q, bs⟩ args')

theorem alike_call (alike : Alikeness L.bodies) (enters : Enters L r r') (stores : σ.Matches L.bodies τ)
    (waits : L.Waits r ws xs) {v w : Value} {as bs : List Value} (callee : v.Matches L.bodies w)
    (args : List.Forall₂ (Value.Matches L.bodies) as bs) :
    Alike L r (call r σ ws v as) (call r' τ xs w bs) := by
  have checked := callee.check alike as.length
  unfold call
  rw [← args.length_eq]
  revert checked
  generalize v.callable?.bind (·.check as.length) = x
  generalize w.callable?.bind (·.check as.length) = y
  intro checked
  cases checked with
  | error fault => exact ⟨stores, .unwinding fault, waits⟩
  | ok =>
    cases callee with
    | closure body captured => exact ⟨stores, .running (enters body captured args), waits⟩
    | builtin b => exact alike_reply stores waits (b.matches_reply alike args)
    | _ => exact ⟨stores, .unwinding (.plain nofun), waits⟩

/-- Two plays that are alike keep meeting if their scenes do. -/
theorem going_of_alike (alike : Alikeness L.bodies) (enters : Enters L r r')
    (turns : ∀ {s t : Scene} {σ τ : Store} {ws xs : List Waiting}, L.scenes s t →
      σ.Matches L.bodies τ → L.Waits r ws xs →
      Meets L r r' ⟨σ, .running s, ws⟩ ⟨τ, .running t, xs⟩) {p q : Play} (h : Alike L r p q) :
    Going L r r' p q := by
  obtain ⟨σ, doing, ws⟩ := p
  obtain ⟨τ, other, xs⟩ := q
  obtain ⟨stores, does, waits⟩ := h
  cases does with
  | running scenes => exact going_of_meets rfl rfl (turns scenes stores waits)
  | calling callee args =>
    exact going_of_meets rfl rfl (.once .nil (alike_call alike enters stores waits callee args))
  | returning value => exact going_returning waits stores value
  | unwinding fault => exact going_unwinding waits stores fault
  | breaching breach => exact going_breaching waits stores breach
  | straying => exact going_of_meets rfl rfl (.once .nil ⟨stores, .straying, waits⟩)

end Play

section

variable {P : Procedure Value → Procedure Value → Prop}

/-- Scenes in the same code at the same address, with values that match. -/
def Likeness.matching (P : Procedure Value → Procedure Value → Prop) : Likeness :=
  ⟨P, Eq, fun s t => s.Matches P t ∧ s.locals.length = t.locals.length⟩

theorem Turn.Agrees.alike {x y : Turn} (h : x.Agrees P y) {s t : Scene} {i : Instruction}
    (first : x.Heeds s i) (second : y.Heeds t i) (slots : s.locals.length = t.locals.length) :
    x.Alike (.matching P) y := by
  cases h with
  | go scenes stores => exact .go ⟨scenes, first.slots.trans (slots.trans second.slots.symm)⟩ stores
  | answer value => exact .answer value
  | call callee args scenes =>
    obtain ⟨rfl, -⟩ := first
    obtain ⟨rfl, -⟩ := second
    exact .call callee args fun value => ⟨scenes.push value, slots⟩
  | leave callee args => exact .leave callee args
  | fault fault => exact .fault fault
  | breach b => exact .breach rfl
  | stray => exact .stray

theorem Scene.turn_alike (alike : Alikeness P) {s t : Scene} {σ τ : Store} (h : s.Matches P t)
    (slots : s.locals.length = t.locals.length) (stores : σ.Matches P τ) (i : Instruction) :
    (s.turn σ i).Alike (.matching P) (t.turn τ i) :=
  (turn_agrees alike h stores i fun _ => by rw [slots]).alike (act_heeds σ (s.past i) i _)
    (act_heeds τ (t.past i) i _) slots

theorem Play.enters_matching
    (chunks : ∀ {p q : Procedure Value}, P p q → (r.chunk p).code = (r'.chunk q).code ∧
      (r.chunk p).globals = (r'.chunk q).globals ∧ (r.chunk p).localCount = (r'.chunk q).localCount ∧
      List.Forall₂ (Value.Matches P) (r.chunk p).constants (r'.chunk q).constants) :
    Enters (.matching P) r r' := by
  intro p q as bs args args' bodies captured values
  obtain ⟨code, globals, slots, constants⟩ := chunks bodies
  refine ⟨Scene.matches_enter code globals constants (.closure bodies captured) values, ?_⟩
  change (List.replicate _ _).length = (List.replicate _ _).length
  rw [List.length_replicate, List.length_replicate, slots]

end

end StackLisp
