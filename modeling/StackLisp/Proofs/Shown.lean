import Mathlib.Data.List.Basic
import StackLisp.Proofs.Scene

/-!
How a frame shows a scene: the operands lie from the stack pointer up to the base, the local slots from
there on. Each step of an activation is followed by the scene that it shows.
-/

namespace StackLisp

/-- The jumps of a procedure find the anchors of their labels. -/
def Procedure.Anchored (p : Procedure Value) : Prop :=
  ∀ {i : Instruction}, i ∈ p.code → i.op.jumps →
    ∃ target, Chunk.anchor? p.code i.operand = some target ∧
      p.labels[i.operand]?.bind id = some target

namespace Activation

structure Shows (a : Activation) (s : Scene) : Prop where
  closure : a.closure = s.closure
  chunk : a.procedure.chunk = s.chunk
  args : a.args = s.args
  saved : a.saved = s.saved
  pc : a.pc = s.pc
  level : a.sp + s.stack.length = a.base
  operands : ∀ {k : Nat} {v : Value}, s.stack[k]? = some v → a.frame.slots[a.sp + k]? = some v
  locals : ∀ {k : Nat} {v : Value}, s.locals[k]? = some (some v) →
    a.frame.slots[a.base + k]? = some v
  room : a.base + s.locals.length ≤ a.frame.length

end Activation

namespace Act

variable {α β : Type} {s t u : Scene}

/-- From every activation that shows one scene the action ends the same way, and shows another scene. -/
def Does (act : Act α) (s : Scene) (r : Except Failure α) (t : Scene) : Prop :=
  ∀ a : Activation, a.Shows s →
    ∃ b, Ends act a r b ∧ b.Shows t ∧ b.frame.length = a.frame.length

theorem does_bind {act : Act α} {f : α → Act β} {x : α} {r : Except Failure β}
    (first : act.Does s (.ok x) t) (next : (f x).Does t r u) : (act >>= f).Does s r u := by
  intro a shown
  obtain ⟨b, ended, shows, length⟩ := first a shown
  obtain ⟨c, finished, last, same⟩ := next b shows
  exact ⟨c, ended.bind_ok finished, last, same.trans length⟩

theorem does_bind_error {act : Act α} {f : α → Act β} {e : Failure}
    (first : act.Does s (.error e) t) : (act >>= f).Does s (.error e) t := by
  intro a shown
  obtain ⟨b, ended, shows, length⟩ := first a shown
  exact ⟨b, ended.bind_error, shows, length⟩

theorem does_pure (x : α) : (pure x : Act α).Does s (.ok x) s :=
  fun a shown => ⟨a, rfl, shown, rfl⟩

theorem does_throw (e : Failure) : (throw e : Act α).Does s (.error e) s :=
  fun a shown => ⟨a, rfl, shown, rfl⟩

theorem does_get {f : Activation → Act α} {r : Except Failure α}
    (next : ∀ a : Activation, a.Shows s → (f a).Does s r t) :
    (get >>= f : Act α).Does s r t := by
  intro a shown
  obtain ⟨b, ended, shows, length⟩ := next a shown a shown
  exact ⟨b, Ends.bind_ok rfl ended, shows, length⟩

theorem does_lift (r : Except Fault α) :
    (lift r).Does s (r.mapError .fault) s :=
  fun a shown => ⟨a, rfl, shown, rfl⟩

theorem does_lift_ok {r : Except Fault α} {x : α} (h : r = .ok x) : (lift r).Does s (.ok x) s := by
  subst h
  exact does_lift (.ok x)

theorem does_lift_error {r : Except Fault α} {f : Fault} (h : r = .error f) :
    (lift r).Does s (.error (.fault f)) s := by
  subst h
  exact does_lift (.error f)

theorem does_require_some {x : α} : (require (some x)).Does s (.ok x) s :=
  does_pure x

theorem does_require_none : (require (none : Option α)).Does s (.error (.breach .outOfRange)) s :=
  does_throw _

theorem ends_writeSlot {a : Activation} {i : Nat} (inside : i < a.frame.length) (v : Value) :
    Ends (writeSlot i v) a (.ok ())
      { a with frame := ⟨a.frame.slots.setIfInBounds i v, a.frame.span⟩ } := by
  show writeSlot i v a = _
  simp [writeSlot, inside]

theorem does_pop {v : Value} : pop.Does (s.push v) (.ok v) s := by
  intro a shown
  have level : a.sp + (s.stack.length + 1) = a.base := shown.level
  have found : a.frame.slots[a.sp]? = some v := shown.operands (k := 0) rfl
  have inside : a.sp < a.frame.length := (Array.getElem?_eq_some_iff.mp found).1
  have read : a.frame.read? a.sp = some v := found
  have taken : Ends (require (a.frame.read? a.sp)) a (.ok v) a := by rw [read]; rfl
  refine ⟨{ a with
    frame := ⟨a.frame.slots.setIfInBounds a.sp .null, a.frame.span⟩
    sp := a.sp + 1 }, ?_, ?_, ?_⟩
  · exact Ends.bind_ok rfl (Ends.bind_ok rfl
      (Ends.bind_ok taken (Ends.bind_ok (ends_writeSlot inside .null) rfl)))
  · refine ⟨shown.closure, shown.chunk, shown.args, shown.saved, shown.pc, ?_, ?_, ?_, ?_⟩
    · show a.sp + 1 + s.stack.length = a.base
      omega
    · intro k w there
      have old := shown.operands (k := k + 1) (v := w) there
      show (a.frame.slots.setIfInBounds a.sp .null)[a.sp + 1 + k]? = some w
      rw [Array.getElem?_setIfInBounds_ne (by omega), Nat.add_assoc, Nat.add_comm 1]
      exact old
    · intro k w there
      show (a.frame.slots.setIfInBounds a.sp .null)[a.base + k]? = some w
      rw [Array.getElem?_setIfInBounds_ne (by omega)]
      exact shown.locals there
    · show a.base + s.locals.length ≤ (a.frame.slots.setIfInBounds a.sp .null).size
      rw [Array.size_setIfInBounds]
      exact shown.room
  · exact Array.size_setIfInBounds

theorem does_push {v : Value} (room : s.stack.length < s.closure.procedure.stackSize) :
    (push v).Does s (.ok ()) (s.push v) := by
  intro a shown
  obtain ⟨closure, args, saved, frame, sp, pc⟩ := a
  have base : closure.procedure.stackSize = s.closure.procedure.stackSize :=
    congrArg (fun c : Closure => c.procedure.stackSize) shown.closure
  have level : sp + s.stack.length = closure.procedure.stackSize := shown.level
  have wide : closure.procedure.stackSize + s.locals.length ≤ frame.slots.size := shown.room
  cases sp with
  | zero => omega
  | succ sp =>
    have inside : sp < frame.length := by
      show sp < frame.slots.size
      omega
    refine ⟨{ closure, args, saved, pc, sp, frame := ⟨frame.slots.setIfInBounds sp v, frame.span⟩ },
      Ends.bind_ok rfl (Ends.bind_ok (ends_writeSlot inside v) rfl), ?_, Array.size_setIfInBounds⟩
    refine ⟨shown.closure, shown.chunk, shown.args, shown.saved, shown.pc, ?_, ?_, ?_, ?_⟩
    · show sp + (s.stack.length + 1) = closure.procedure.stackSize
      omega
    · intro k w there
      show (frame.slots.setIfInBounds sp v)[sp + k]? = some w
      cases k with
      | zero =>
        cases there
        exact Array.getElem?_setIfInBounds_self_of_lt inside
      | succ k =>
        rw [Array.getElem?_setIfInBounds_ne (by omega), Nat.add_comm k, ← Nat.add_assoc]
        exact shown.operands there
    · intro k w there
      show (frame.slots.setIfInBounds sp v)[closure.procedure.stackSize + k]? = some w
      rw [Array.getElem?_setIfInBounds_ne (by omega)]
      exact shown.locals there
    · show closure.procedure.stackSize + s.locals.length ≤ (frame.slots.setIfInBounds sp v).size
      rw [Array.size_setIfInBounds]
      exact wide

theorem does_popMany (taken : List Value) :
    (popMany taken.length).Does { s with stack := taken ++ s.stack } (.ok taken) s := by
  induction taken with
  | nil => exact does_pure _
  | cons v vs ih =>
    exact does_bind (does_pop (s := { s with stack := vs ++ s.stack })) (does_bind ih (does_pure (v :: vs)))

theorem does_loadLocal {slot : Nat} {v : Value} (found : s.locals[slot]? = some (some v)) :
    (loadLocal slot).Does s (.ok v) s := by
  refine does_get fun a shown => ?_
  have read : a.frame.read? (a.base + slot) = some v := shown.locals found
  rw [read]
  exact does_require_some

theorem does_storeLocal {slot : Nat} (inside : slot < s.locals.length) (v : Value) :
    (storeLocal slot v).Does s (.ok ()) { s with locals := s.locals.set slot (some v) } := by
  intro a shown
  have level := shown.level
  have room := shown.room
  have small : a.base + slot < a.frame.length := by omega
  refine ⟨_, Ends.bind_ok rfl (ends_writeSlot small v), ?_, Array.size_setIfInBounds⟩
  refine ⟨shown.closure, shown.chunk, shown.args, shown.saved, shown.pc, level, ?_, ?_, ?_⟩
  · intro k w there
    have low : k < s.stack.length := (List.getElem?_eq_some_iff.mp there).1
    show (a.frame.slots.setIfInBounds (a.base + slot) v)[a.sp + k]? = some w
    rw [Array.getElem?_setIfInBounds_ne (by omega)]
    exact shown.operands there
  · intro k w there
    show (a.frame.slots.setIfInBounds (a.base + slot) v)[a.base + k]? = some w
    by_cases same : slot = k
    · subst same
      rw [List.getElem?_set_self inside] at there
      cases there
      exact Array.getElem?_setIfInBounds_self_of_lt small
    · rw [List.getElem?_set_ne same] at there
      rw [Array.getElem?_setIfInBounds_ne (by omega)]
      exact shown.locals there
  · show a.base + (s.locals.set slot (some v)).length ≤
      (a.frame.slots.setIfInBounds (a.base + slot) v).size
    rw [List.length_set, Array.size_setIfInBounds]
    exact room

theorem does_jump {label target : Nat}
    (goal : s.closure.procedure.labels[label]?.bind id = some target) :
    (jump label).Does s (.ok ()) { s with pc := target } := by
  intro a shown
  have found : Ends (require (a.procedure.labels[label]?.bind id)) a (.ok target) a := by
    have same : a.procedure = s.closure.procedure := congrArg Closure.procedure shown.closure
    rw [same, goal]
    rfl
  refine ⟨{ a with pc := target }, Ends.bind_ok rfl (Ends.bind_ok found rfl), ?_, rfl⟩
  exact ⟨shown.closure, shown.chunk, shown.args, shown.saved, rfl, shown.level, shown.operands,
    shown.locals, shown.room⟩

theorem does_quietly {store : Store} {act : Act Unit} (h : act.Does s (.ok ()) t) :
    (quietly store act).Does s (.ok (.go, store)) t :=
  does_bind h (does_pure (Move.go, store))

theorem does_quietly_error {store : Store} {act : Act Unit} {e : Failure}
    (h : act.Does s (.error e) t) : (quietly store act).Does s (.error e) t :=
  does_bind_error h

theorem does_pushResult {store : Store} {act : Act Value} {v : Value} (h : act.Does s (.ok v) t)
    (room : t.stack.length < t.closure.procedure.stackSize) :
    (pushResult store act).Does s (.ok (.go, store)) (t.push v) :=
  does_quietly (does_bind h (does_push room))

theorem does_pushResult_error {store : Store} {act : Act Value} {e : Failure}
    (h : act.Does s (.error e) t) : (pushResult store act).Does s (.error e) t :=
  does_quietly_error (does_bind_error h)

/-- How a tail call ends. A closure over the procedure at hand starts again in place. -/
structure Leaves (store : Store) (act : Act (Move × Store)) (s rest : Scene) (callee : Value)
    (args : List Value) : Prop where
  refused : ∀ {p : Procedure Value} {captured : List Value} {f : Fault},
    callee = .closure p captured → p.arity.check args.length = .error f →
      act.Does s (.error (.fault f)) rest
  restarted : ∀ {p : Procedure Value} {captured : List Value},
    callee = .closure p captured → p.arity.check args.length = .ok () →
    p = rest.closure.procedure → act.Does s (.ok (.go, store))
      { rest with closure := ⟨p, captured⟩, args, saved := [], stack := [], pc := 0 }
  switched : ∀ {p : Procedure Value} {captured : List Value},
    callee = .closure p captured → p.arity.check args.length = .ok () →
    p.serial ≠ rest.closure.procedure.serial →
      act.Does s (.ok (.switch ⟨p, captured⟩ args, store)) rest
  left : (∀ p captured, callee ≠ .closure p captured) →
    act.Does s (.ok (.leave callee args, store)) rest

/-- The action takes the turn, from a scene to the one without the operands it takes. -/
def Takes (store : Store) (act : Act (Move × Store)) (s rest : Scene) : Turn → Prop
  | .go t kept => act.Does s (.ok (.go, kept)) t
  | .answer v => act.Does s (.ok (.answer v, store)) rest
  | .call callee args t => act.Does s (.ok (.call callee args, store)) t
  | .leave callee args => Leaves store act s rest callee args
  | .fault f => act.Does s (.error (.fault f)) rest
  | .breach b => act.Does s (.error (.breach b)) rest
  | .stray => True

variable {store : Store} {rest : Scene}

theorem takes_result {act : Act Value} {r : Except Fault Value}
    (h : act.Does s (r.mapError .fault) rest)
    (room : rest.stack.length < rest.closure.procedure.stackSize) :
    Takes store (pushResult store act) s rest (rest.giveResult store r) := by
  cases r with
  | error f => exact does_pushResult_error h
  | ok v => exact does_pushResult h room

theorem takes_fetch {act : Act Value} {found : Option Value}
    (h : ∀ v, found = some v → act.Does s (.ok v) rest)
    (missing : found = none → act.Does s (.error (.breach .outOfRange)) rest)
    (room : rest.stack.length < rest.closure.procedure.stackSize) :
    Takes store (pushResult store act) s rest (rest.fetch store found) := by
  cases found with
  | none => exact does_pushResult_error (missing rfl)
  | some v => exact does_pushResult (h v rfl) room

theorem takes_goTo {act : Act (Move × Store)} {label : Nat}
    (h : ∀ target, Chunk.anchor? rest.chunk.code label = some target →
      act.Does s (.ok (.go, store)) { rest with pc := target }) :
    Takes store act s rest (rest.goTo store label) := by
  unfold Scene.goTo
  split
  · rename_i target found
    exact h target found
  · trivial

theorem does_call (callee : Value) (args : List Value) :
    (call args.length).Does { s with stack := callee :: args ++ s.stack }
      (.ok (.call callee args)) s :=
  does_bind (does_pop (s := { s with stack := args ++ s.stack }))
    (does_bind (does_popMany args) (does_pure (Move.call callee args)))

theorem does_restart {p : Procedure Value} {captured args : List Value}
    (same : p = s.closure.procedure) :
    (restart ⟨p, captured⟩ args).Does s (.ok ())
      { s with closure := ⟨p, captured⟩, args, saved := [], stack := [], pc := 0 } := by
  intro a shown
  have level := shown.level
  have depth : a.depth = s.stack.length := by
    show a.base - a.sp = _
    omega
  have emptied : (popMany a.depth).Does { s with stack := s.stack ++ [] } (.ok s.stack)
      { s with stack := [] } := by
    rw [depth]
    exact does_popMany (s := { s with stack := [] }) s.stack
  rw [List.append_nil] at emptied
  obtain ⟨b, ended, shows, length⟩ := emptied a shown
  refine ⟨{ b with closure := ⟨p, captured⟩, args, saved := [], pc := 0 },
    Ends.bind_ok rfl (Ends.bind_ok ended rfl), ?_, length⟩
  have before : b.procedure = p := (congrArg Closure.procedure shows.closure).trans same.symm
  have base : b.base = p.stackSize := congrArg Procedure.stackSize before
  refine ⟨rfl, ?_, rfl, rfl, rfl, ?_, shows.operands, ?_, ?_⟩
  · rw [← shows.chunk, before]
    rfl
  · show b.sp + 0 = p.stackSize
    rw [← base]
    exact shows.level
  · intro k v there
    show b.frame.slots[p.stackSize + k]? = some v
    rw [← base]
    exact shows.locals there
  · show p.stackSize + s.locals.length ≤ b.frame.length
    rw [← base]
    exact shows.room

theorem leaves_tailCall (callee : Value) (args : List Value) :
    Leaves store (do return (← tailCall args.length, store))
      { rest with stack := callee :: args ++ rest.stack } rest callee args := by
  have popped : (pop : Act Value).Does { rest with stack := callee :: args ++ rest.stack }
      (.ok callee) { rest with stack := args ++ rest.stack } :=
    does_pop (s := { rest with stack := args ++ rest.stack })
  refine ⟨?_, ?_, ?_, ?_⟩
  · rintro p captured f rfl failed
    exact does_bind_error (does_bind popped (does_bind (does_popMany (s := rest) args)
      (does_bind_error (does_lift_error failed))))
  · rintro p captured rfl accepted same
    have chosen : (do
        if p.serial = (← get).procedure.serial then
          restart ⟨p, captured⟩ args
          return .go
        else return .switch ⟨p, captured⟩ args : Act Move).Does rest (.ok .go)
        { rest with closure := ⟨p, captured⟩, args, saved := [], stack := [], pc := 0 } := by
      refine does_get fun a shown => ?_
      have here : a.procedure = p := (congrArg Closure.procedure shown.closure).trans same.symm
      rw [here, if_pos rfl]
      exact does_bind (does_restart same) (does_pure Move.go)
    exact does_bind (does_bind popped (does_bind (does_popMany (s := rest) args)
      (does_bind (does_lift_ok accepted) chosen))) (does_pure (Move.go, store))
  · rintro p captured rfl accepted other
    have chosen : (do
        if p.serial = (← get).procedure.serial then
          restart ⟨p, captured⟩ args
          return .go
        else return .switch ⟨p, captured⟩ args : Act Move).Does rest
        (.ok (.switch ⟨p, captured⟩ args)) rest := by
      refine does_get fun a shown => ?_
      have here : a.procedure = rest.closure.procedure := congrArg Closure.procedure shown.closure
      rw [here, if_neg other]
      exact does_pure (Move.switch ⟨p, captured⟩ args)
    exact does_bind (does_bind popped (does_bind (does_popMany (s := rest) args)
      (does_bind (does_lift_ok accepted) chosen))) (does_pure (Move.switch ⟨p, captured⟩ args, store))
  · intro plain
    refine does_bind (does_bind popped (does_bind (does_popMany (s := rest) args)
      (?_ : Act.Does _ rest (.ok (.leave callee args)) rest))) (does_pure (Move.leave callee args, store))
    cases callee with
    | closure p captured => exact absurd rfl (plain p captured)
    | _ => exact does_pure _

theorem does_makeClosure (template : Value) (captured : List Value) :
    (makeClosure captured.length).Does { rest with stack := template :: captured ++ rest.stack }
      (match template with
        | .procedure p => .ok (.closure p captured)
        | v => .error (.fault (.mismatch .procedure v))) rest := by
  have popped : (pop : Act Value).Does { rest with stack := template :: captured ++ rest.stack }
      (.ok template) { rest with stack := captured ++ rest.stack } :=
    does_pop (s := { rest with stack := captured ++ rest.stack })
  refine does_bind popped (does_bind (does_popMany captured) ?_)
  cases template <;> first | exact does_pure _ | exact does_throw _

theorem does_pushArgs {staged : List Value} :
    (pushArgs staged.length).Does { rest with stack := staged ++ rest.stack } (.ok ())
      { rest with args := staged, saved := rest.args :: rest.saved } := by
  refine does_bind (does_popMany staged) fun a shown => ?_
  refine ⟨{ a with saved := a.args :: a.saved, args := staged }, rfl, ?_, rfl⟩
  refine ⟨shown.closure, shown.chunk, rfl, ?_, shown.pc, shown.level, shown.operands,
    shown.locals, shown.room⟩
  show a.args :: a.saved = rest.args :: rest.saved
  rw [shown.args, shown.saved]

theorem takes_popArgs : Takes store (quietly store popArgs) rest rest (rest.popArgs store) := by
  unfold Scene.popArgs
  split
  · rename_i empty
    refine does_quietly_error (does_get fun a shown => ?_)
    have same : a.saved = [] := shown.saved.trans empty
    have place : a.pc = rest.pc := shown.pc
    rw [same, place]
    exact does_throw _
  · rename_i args saved found
    refine does_quietly fun a shown => ?_
    refine ⟨{ a with args, saved }, ?_, ?_, rfl⟩
    · refine Ends.bind_ok rfl ?_
      have same : a.saved = args :: saved := shown.saved.trans found
      rw [same]
      rfl
    · exact ⟨shown.closure, shown.chunk, rfl, rfl, shown.pc, shown.level, shown.operands,
        shown.locals, shown.room⟩

theorem Takes.lift {act wider : Act (Move × Store)} {t : Scene} {turn : Turn}
    (h : Takes store act s rest turn)
    (does : ∀ {r : Except Failure (Move × Store)} {u : Scene}, act.Does s r u → wider.Does t r u) :
    Takes store wider t rest turn := by
  cases turn with
  | go t kept => exact does h
  | call callee args t => exact does h
  | answer v => exact does h
  | leave callee args =>
    exact ⟨fun called failed => does (h.refused called failed),
      fun called accepted again => does (h.restarted called accepted again),
      fun called accepted other => does (h.switched called accepted other),
      fun plain => does (h.left plain)⟩
  | fault f => exact does h
  | breach b => exact does h
  | stray => trivial

theorem takes_globals {f : NamespaceId → Act (Move × Store)} {turn : Turn}
    (same : s.closure = rest.closure)
    (h : Takes store (f rest.closure.procedure.globals) s rest turn) :
    Takes store (do f (← get).procedure.globals) s rest turn := by
  refine h.lift fun does => does_get fun a shown => ?_
  have here : a.procedure = rest.closure.procedure :=
    congrArg Closure.procedure (shown.closure.trans same)
  rw [here]
  exact does

theorem takes_pop {f : Value → Act (Move × Store)} {v : Value} {turn : Turn}
    (h : Takes store (f v) s rest turn) : Takes store (do f (← pop)) (s.push v) rest turn :=
  h.lift fun does => does_bind does_pop does

theorem takes_keep {r : Except Fault Store} :
    Takes store (do return (.go, ← lift r)) rest rest (rest.keep r) := by
  cases r with
  | error f => exact does_bind_error (does_lift_error rfl)
  | ok kept => exact does_bind (does_lift_ok rfl) (does_pure (Move.go, kept))

theorem takes_keep_bind {α : Type} {x : Except Fault α} {f : α → Except Fault Store} :
    Takes store (do return (.go, ← lift (f (← lift x)))) rest rest (rest.keep (x.bind f)) := by
  cases x with
  | error e => exact does_bind_error (does_lift_error rfl)
  | ok a => exact takes_keep.lift fun does => does_bind (does_lift_ok rfl) does

theorem does_lift_bind {α : Type} {x : Except Fault α} {f : α → Except Fault Value} :
    (do lift (f (← lift x)) : Act Value).Does s ((x.bind f).mapError .fault) s := by
  cases x with
  | error e => exact does_bind_error (does_lift_error rfl)
  | ok a => exact does_bind (does_lift_ok rfl) (does_lift (f a))

theorem does_symbolOnTop {v : Value} :
    symbolOnTop.Does (s.push v) (v.symbol?.mapError .fault) s :=
  does_bind does_pop (does_lift v.symbol?)

theorem takes_symbolOnTop {v : Value} {f : String → Store} :
    Takes store (do return (.go, f (← symbolOnTop))) (rest.push v) rest
      (rest.keep (v.symbol?.map f)) := by
  have read := does_symbolOnTop (s := rest) (v := v)
  cases named : v.symbol? with
  | error e =>
    rw [named] at read
    exact does_bind_error read
  | ok name =>
    rw [named] at read
    exact does_bind read (does_pure (Move.go, f name))

theorem takes_resolve {v : Value} {f : String → Except Fault Value}
    (room : rest.stack.length < rest.closure.procedure.stackSize) :
    Takes store (pushResult store do lift (f (← symbolOnTop))) (rest.push v) rest
      (rest.giveResult store (v.symbol?.bind f)) := by
  refine takes_result ?_ room
  have read := does_symbolOnTop (s := rest) (v := v)
  cases named : v.symbol? with
  | error e =>
    rw [named] at read
    exact does_bind_error read
  | ok name =>
    rw [named] at read
    exact does_bind read (does_lift (f name))

theorem takes_unary (f : Value → Except Fault Value) {v : Value}
    (room : rest.stack.length < rest.closure.procedure.stackSize) :
    Takes store (pushResult store do lift (f (← pop))) (rest.push v) rest
      (rest.giveResult store (f v)) :=
  takes_result (does_bind does_pop (does_lift (f v))) room

theorem takes_binary (f : Value → Value → Except Fault Value) {left right : Value}
    (room : rest.stack.length < rest.closure.procedure.stackSize) :
    Takes store (pushResult store do
        let left ← pop
        let right ← pop
        lift (f left right)) ((rest.push right).push left) rest
      (rest.giveResult store (f left right)) :=
  takes_result (does_bind does_pop (does_bind does_pop (does_lift (f left right)))) room

theorem takes_read {found : Option Value} (read : Activation → Option Value)
    (same : ∀ a : Activation, a.Shows rest → read a = found)
    (room : rest.stack.length < rest.closure.procedure.stackSize) :
    Takes store (pushResult store (do require (read (← get)))) rest rest
      (rest.fetch store found) := by
  refine takes_fetch (fun v there => ?_) (fun missing => ?_) room
  · refine does_get fun a shown => ?_
    rw [same a shown, there]
    exact does_require_some
  · refine does_get fun a shown => ?_
    rw [same a shown, missing]
    exact does_require_none

theorem first_of_length {taken : List Value} {n : Nat} (count : taken.length = 1 + n) :
    ∃ v vs, taken = v :: vs ∧ n = vs.length := by
  cases taken with
  | nil =>
    rw [List.length_nil] at count
    omega
  | cons v vs =>
    rw [List.length_cons] at count
    exact ⟨v, vs, rfl, by omega⟩

theorem takes_makeClosure {template : Value} {captured : List Value}
    (room : rest.stack.length < rest.closure.procedure.stackSize) :
    Takes store (pushResult store (makeClosure captured.length))
      { rest with stack := template :: captured ++ rest.stack } rest
      (rest.makeClosure store captured template) := by
  have made := @does_makeClosure rest template captured
  cases template with
  | procedure p => exact does_pushResult made room
  | _ => exact does_pushResult_error made

/-- Running an instruction takes the turn that the scene says, if there is room for what it gives. -/
theorem perform_takes {i : Instruction} {taken : List Value} (store : Store)
    (whole : rest.chunk = rest.closure.procedure.chunk) (member : i ∈ rest.chunk.code)
    (anchored : rest.closure.procedure.Anchored) (count : taken.length = i.pops)
    (room : rest.stack.length + i.pushes ≤ rest.closure.procedure.stackSize) :
    Takes store (perform store i) { rest with stack := taken ++ rest.stack } rest
      (rest.act store i taken) := by
  have globals : rest.chunk.globals = rest.closure.procedure.globals := by rw [whole]; rfl
  have constants : rest.chunk.constants = rest.closure.procedure.constants := by rw [whole]; rfl
  have goal {target : Nat} (jumps : i.op.jumps)
      (found : Chunk.anchor? rest.chunk.code i.operand = some target) :
      rest.closure.procedure.labels[i.operand]?.bind id = some target := by
    rw [whole] at member found
    obtain ⟨known, here, listed⟩ := anchored member jumps
    cases here.symm.trans found
    exact listed
  obtain ⟨op, operand, small⟩ := i
  refine takes_globals (f := fun globals => performIn globals store ⟨op, operand, small⟩) rfl ?_
  rw [← globals]
  cases op with
  | label | noOp =>
    obtain rfl := List.length_eq_zero_iff.mp count
    exact does_pure (Move.go, store)
  | jump =>
    obtain rfl := List.length_eq_zero_iff.mp count
    exact takes_goTo fun target found => does_quietly (does_jump (goal rfl found))
  | condJump =>
    obtain ⟨v, rfl⟩ := List.length_eq_one_iff.mp count
    show Takes store _ (rest.push v) rest (if v.holds then rest.goTo store operand else .go rest store)
    split
    · rename_i holds
      refine takes_goTo fun target found => does_quietly (does_bind does_pop ?_)
      rw [if_pos holds]
      exact does_jump (goal rfl found)
    · rename_i fails
      refine does_quietly (does_bind (s := rest.push v) does_pop ?_)
      rw [if_neg fails]
      exact does_pure ()
  | ret =>
    obtain ⟨v, rfl⟩ := List.length_eq_one_iff.mp count
    exact does_bind (does_pop (s := rest)) (does_pure (Move.answer v, store))
  | retNull | retTrue | retFalse =>
    obtain rfl := List.length_eq_zero_iff.mp count
    exact does_pure _
  | panic =>
    obtain ⟨v, rfl⟩ := List.length_eq_one_iff.mp count
    exact does_bind (does_pop (s := rest)) (does_throw _)
  | nullLit | trueLit | falseLit | posInt | negInt | newRef =>
    obtain rfl := List.length_eq_zero_iff.mp count
    exact does_pushResult (does_pure _) room
  | const =>
    obtain rfl := List.length_eq_zero_iff.mp count
    exact takes_read (fun a => a.procedure.constants[operand]?)
      (fun a shown => by rw [constants, ← shown.closure]; rfl) room
  | arg =>
    obtain rfl := List.length_eq_zero_iff.mp count
    exact takes_read (fun a => a.args[operand]?) (fun a shown => by rw [shown.args]) room
  | capture =>
    obtain rfl := List.length_eq_zero_iff.mp count
    exact takes_read (fun a => a.closure.captured[operand]?) (fun a shown => by rw [shown.closure])
      room
  | argLen =>
    obtain rfl := List.length_eq_zero_iff.mp count
    refine does_pushResult (does_get fun a shown => ?_) room
    rw [shown.args]
    exact does_pure _
  | restArg =>
    obtain rfl := List.length_eq_zero_iff.mp count
    refine does_pushResult (does_get fun a shown => ?_) room
    rw [shown.args]
    exact does_pure _
  | current =>
    obtain rfl := List.length_eq_zero_iff.mp count
    refine does_pushResult (does_get fun a shown => ?_) room
    rw [shown.closure]
    exact does_pure _
  | load =>
    obtain rfl := List.length_eq_zero_iff.mp count
    show Takes store _ rest rest (rest.load store operand)
    unfold Scene.load
    split
    · rename_i v found
      exact does_pushResult (does_loadLocal found) room
    · trivial
  | store =>
    obtain ⟨v, rfl⟩ := List.length_eq_one_iff.mp count
    show Takes store _ (rest.push v) rest (rest.put store operand v)
    unfold Scene.put
    split
    · rename_i inside
      exact does_quietly (does_bind does_pop (does_storeLocal inside v))
    · trivial
  | bindRef =>
    obtain ⟨cell, v, rfl⟩ := List.length_eq_two.mp count
    exact takes_pop (s := rest.push v) (takes_pop takes_keep_bind)
  | bind =>
    obtain ⟨name, v, rfl⟩ := List.length_eq_two.mp count
    exact takes_pop (s := rest.push v) (takes_pop takes_keep_bind)
  | deref =>
    obtain ⟨v, rfl⟩ := List.length_eq_one_iff.mp count
    exact takes_result (does_bind (s := rest.push v) does_pop does_lift_bind) room
  | resolve =>
    obtain ⟨v, rfl⟩ := List.length_eq_one_iff.mp count
    exact takes_resolve room
  | makeClosure =>
    obtain ⟨template, captured, rfl, rfl⟩ := first_of_length count
    exact takes_makeClosure room
  | pop =>
    obtain ⟨v, rfl⟩ := List.length_eq_one_iff.mp count
    exact does_quietly (does_bind (s := rest.push v) does_pop (does_pure ()))
  | call0 =>
    obtain ⟨callee, rfl⟩ := List.length_eq_one_iff.mp count
    exact does_bind (does_call callee []) (does_pure (Move.call callee [], store))
  | call1 =>
    obtain ⟨callee, arg, rfl⟩ := List.length_eq_two.mp count
    exact does_bind (does_call callee [arg]) (does_pure (Move.call callee [arg], store))
  | call =>
    obtain ⟨callee, args, rfl, rfl⟩ := first_of_length count
    exact does_bind (does_call callee args) (does_pure (Move.call callee args, store))
  | tailCall =>
    obtain ⟨callee, args, rfl, rfl⟩ := first_of_length count
    exact leaves_tailCall callee args
  | pushArgs =>
    obtain rfl : taken.length = operand := count.trans (Nat.zero_add operand)
    exact does_quietly does_pushArgs
  | popArgs =>
    obtain rfl := List.length_eq_zero_iff.mp count
    exact takes_popArgs
  | declare | hide =>
    obtain ⟨v, rfl⟩ := List.length_eq_one_iff.mp count
    exact takes_symbolOnTop
  | neg | not | car | cdr | empty =>
    obtain ⟨v, rfl⟩ := List.length_eq_one_iff.mp count
    exact takes_unary _ room
  | add | sub | mul | div | mod | numEq | numLt | numLte | numGt | numGte | eq | cons =>
    obtain ⟨left, right, rfl⟩ := List.length_eq_two.mp count
    exact takes_binary _ room

theorem ends_writeSlot_beyond {a : Activation} {i : Nat} (beyond : a.frame.length ≤ i) (v : Value) :
    Ends (writeSlot i v) a (.error (.breach .outOfRange)) a := by
  show writeSlot i v a = _
  simp [writeSlot, Nat.not_lt.mpr beyond]

/-- An instruction that strays beyond the frame is a breach. -/
theorem perform_beyond {a : Activation} {i : Instruction} {taken : List Value}
    (shown : a.Shows { rest with stack := taken ++ rest.stack }) (count : taken.length = i.pops)
    (beyond : a.frame.length ≤ a.base + i.operand) (reaches : i.op = .load ∨ i.op = .store) :
    ∃ b, Ends (perform store i) a (.error (.breach .outOfRange)) b ∧ b.Shows rest ∧
      b.frame.length = a.frame.length := by
  obtain ⟨op, operand, small⟩ := i
  rcases reaches with rfl | rfl
  · obtain rfl := List.length_eq_zero_iff.mp count
    have missing : a.frame.read? (a.base + operand) = none :=
      Array.getElem?_eq_none beyond
    have fails : Ends (loadLocal operand) a (.error (.breach .outOfRange)) a := by
      refine Ends.bind_ok rfl ?_
      rw [missing]
      rfl
    exact ⟨a, Ends.bind_ok rfl (Ends.bind_error (Ends.bind_error fails)), shown, rfl⟩
  · obtain ⟨v, rfl⟩ := List.length_eq_one_iff.mp count
    obtain ⟨b, popped, shows, length⟩ := does_pop (s := rest) a shown
    have base : b.base = a.base := by
      show b.closure.procedure.stackSize = a.closure.procedure.stackSize
      rw [shows.closure, shown.closure]
    have further : b.frame.length ≤ b.base + operand := by
      rw [length, base]
      exact beyond
    exact ⟨b, Ends.bind_ok rfl (Ends.bind_error (Ends.bind_ok popped
      (Ends.bind_ok rfl (ends_writeSlot_beyond further v)))), shows, length⟩

end Act

namespace Activation

variable {a : Activation} {s : Scene} {i : Instruction}

theorem Shows.advanced (h : a.Shows s) (i : Instruction) : ({ a with pc := a.pc + 1 } : Activation).Shows
    { s.past i with stack := s.stack.take i.pops ++ (s.past i).stack } := by
  show ({ a with pc := a.pc + 1 } : Activation).Shows
    { s with stack := s.stack.take i.pops ++ s.stack.drop i.pops, pc := s.pc + 1 }
  rw [List.take_append_drop]
  exact { h with pc := congrArg (· + 1) h.pc }

/-- Where an activation has the operands and the room for an instruction, it takes the turn of the scene
that it shows. -/
theorem Shows.takes (h : a.Shows s) (anchored : a.procedure.Anchored)
    (here : a.procedure.code[a.pc]? = some i) (pops : i.pops ≤ s.stack.length)
    (room : s.stack.length - i.pops + i.pushes ≤ a.procedure.stackSize) (store : Store) :
    Act.Takes store (Act.perform store i)
      { s.past i with stack := s.stack.take i.pops ++ (s.past i).stack } (s.past i)
      (s.turn store i) := by
  have same : a.procedure = s.closure.procedure := congrArg Closure.procedure h.closure
  refine Act.perform_takes store ?_ ?_ ?_ (List.length_take_of_le pops) ?_
  · show s.chunk = s.closure.procedure.chunk
    rw [← h.chunk, same]
  · show i ∈ s.chunk.code
    rw [← h.chunk]
    exact List.mem_of_getElem? here
  · show s.closure.procedure.Anchored
    rw [← same]
    exact anchored
  · show (s.stack.drop i.pops).length + i.pushes ≤ s.closure.procedure.stackSize
    rw [List.length_drop, ← same]
    exact room

end Activation

end StackLisp
