import StackLisp.Proofs.Emission
import StackLisp.Proofs.Grafts
import StackLisp.Proofs.Sharing
import StackLisp.Value.Printer

/-!
What values are shown as once they are pooled. Equal values are printed alike but for the names of their
closures, which equality takes no notice of. So a lambda is shown with its own name just if the first
constant of its unit that equals its own has that name.
-/

namespace StackLisp

namespace Value

mutual

/-- The names that a value is printed with, those of its closures. -/
def titles : Value → List (Option String)
  | pair car cdr => titles car ++ titles cdr
  | vector items => titlesEach items
  | closure p _ => [p.name]
  | _ => []
termination_by structural v => v

def titlesEach : List Value → List (Option String)
  | [] => []
  | v :: vs => titles v ++ titlesEach vs
termination_by structural vs => vs

end

mutual

theorem length_titles : ∀ {v w : Value}, same v w = true → (titles v).length = (titles w).length
  | pair a b, w, h => by
    cases w with
    | pair c d =>
      rw [same, Bool.and_eq_true] at h
      rw [titles, titles, List.length_append, List.length_append, length_titles h.1, length_titles h.2]
    | _ => cases h
  | vector items, w, h => by
    cases w with
    | vector others => exact length_titlesEach h
    | _ => cases h
  | closure p captured, w, h => by cases w <;> first | rfl | cases h
  | procedure p, w, h => by cases w <;> first | rfl | cases h
  | null, w, h | bool _, w, h | integer _, w, h | float _, w, h | string _, w, h | symbol _, w, h
  | builtin _, w, h | special _, w, h | ref _, w, h => by cases w <;> first | rfl | cases h
termination_by structural v => v

theorem length_titlesEach : ∀ {vs ws : List Value}, sameEach vs ws = true →
    (titlesEach vs).length = (titlesEach ws).length
  | [], ws, h => by cases ws <;> first | rfl | cases h
  | v :: vs, ws, h => by
    cases ws with
    | nil => cases h
    | cons w ws =>
      rw [sameEach, Bool.and_eq_true] at h
      rw [titlesEach, titlesEach, List.length_append, List.length_append, length_titles h.1, length_titlesEach h.2]
termination_by structural vs => vs

end

mutual

/-- Equal values with the same names in them are printed alike. -/
theorem chars_congr : ∀ {v w : Value} (inTail : Bool), same v w = true → titles v = titles w →
    chars inTail v = chars inTail w
  | pair a b, w, _, h, names => by
    cases w with
    | pair c d =>
      rw [same, Bool.and_eq_true] at h
      obtain ⟨first, second⟩ := List.append_inj names (length_titles h.1)
      rw [chars, chars, chars_congr false h.1 first, chars_congr true h.2 second]
    | _ => cases h
  | vector items, w, _, h, names => by
    cases w with
    | vector others => rw [chars, chars, charsEach_congr h names]
    | _ => cases h
  | closure p captured, w, _, h, names => by
    cases w with
    | closure q others => rw [chars, chars, (List.cons.inj names).1]
    | _ => cases h
  | procedure p, w, _, h, _ => by cases w <;> first | rfl | cases h
  | null, w, _, h, _ => by cases w <;> first | rfl | cases h
  | bool a, w, _, h, _ => by cases w <;> simp_all [same]
  | integer a, w, _, h, _ => by cases w <;> simp_all [same]
  | float a, w, _, h, _ => by cases w <;> simp_all [same, toBits_inj]
  | string a, w, _, h, _ => by cases w <;> simp_all [same]
  | symbol a, w, _, h, _ => by cases w <;> simp_all [same]
  | builtin a, w, _, h, _ => by cases w <;> simp_all [same, chars]
  | special a, w, _, h, _ => by cases w <;> simp_all [same]
  | ref a, w, _, h, _ => by cases w <;> first | rfl | cases h
termination_by structural v => v

theorem charsEach_congr : ∀ {vs ws : List Value}, sameEach vs ws = true → titlesEach vs = titlesEach ws →
    charsEach vs = charsEach ws
  | [], ws, h, _ => by cases ws <;> first | rfl | cases h
  | v :: vs, ws, h, names => by
    cases ws with
    | nil => cases h
    | cons w ws =>
      rw [sameEach, Bool.and_eq_true] at h
      obtain ⟨first, rest⟩ := List.append_inj names (length_titles h.1)
      rw [charsEach, charsEach, chars_congr false h.1 first, charsEach_congr h.2 rest]
termination_by structural vs => vs

end

theorem text_congr {v w : Value} (h : (v == w) = true) (names : titles v = titles w) : text v = text w :=
  congrArg String.ofList (chars_congr false h names)

theorem closureToken_inj {name other : Option String} (h : closureToken name = closureToken other) : name = other := by
  have spaced (name : String) : closureToken (some name) =
      ['#', '<', 'c', 'l', 'o', 's', 'u', 'r', 'e', ' '] ++ name.toList ++ ['>'] := by
    show ['#', '<'] ++ ("closure " ++ name).toList ++ ['>'] = _
    rw [String.toList_append]
    rfl
  have plain : closureToken none = ['#', '<', 'c', 'l', 'o', 's', 'u', 'r', 'e', '>'] := rfl
  cases name with
  | none =>
    cases other with
    | none => rfl
    | some other => simp [spaced, plain] at h
  | some name =>
    cases other with
    | none => simp [spaced, plain] at h
    | some other =>
      rw [spaced, spaced, List.append_left_inj, List.append_right_inj] at h
      exact congrArg some (String.toList_inj.mp h)

/-- Closures are printed alike just if they have one name. -/
theorem text_closure_inj {p q : Procedure Value} {captured others : List Value} :
    text (closure p captured) = text (closure q others) ↔ p.name = q.name := by
  refine ⟨fun printed => ?_, fun names => ?_⟩
  · have printed : closureToken p.name = closureToken q.name := String.ofList_injective printed
    exact closureToken_inj printed
  · exact congrArg (String.ofList ∘ closureToken) names

end Value

/-- What stands in a pool for a value: the first constant equal to it, or else the value itself. -/
def pooled (constants : List Value) (v : Value) : Value :=
  (constants.find? (· == v)).getD v

theorem pooled_place (constants : List Value) (v : Value) :
    (poolConstant constants v).2[(poolConstant constants v).1]? = some (pooled constants v) := by
  unfold poolConstant pooled
  cases found : constants.findIdx? (· == v) with
  | some i =>
    obtain ⟨inside, same, before⟩ := List.findIdx?_eq_some_iff_getElem.mp found
    have first : constants.find? (· == v) = some constants[i] :=
      List.find?_eq_some_iff_getElem.mpr ⟨same, i, inside, rfl, fun j less => by simpa using before j less⟩
    rw [first]
    exact List.getElem?_eq_getElem inside
  | none =>
    have none : constants.find? (· == v) = none := by
      rw [List.findIdx?_eq_none_iff] at found
      exact List.find?_eq_none.mpr fun w member => by simp [found w member]
    rw [none]
    exact List.getElem?_concat_length

theorem pooled_same (constants : List Value) (v : Value) : (pooled constants v == v) = true := by
  unfold pooled
  cases found : constants.find? (· == v) with
  | some w => exact (List.find?_eq_some_iff_append.mp found).1
  | none => exact v.beq_self

/-- A value that is pooled is printed as before if the names in the constant for it are its own. -/
theorem text_pooled {constants : List Value} {v : Value} (names : (pooled constants v).titles = v.titles) :
    (pooled constants v).text = v.text :=
  Value.text_congr (pooled_same constants v) names

/-- A constant of a body in the place of a call is printed as before if the one for it in the chunk has the
names that it has. -/
theorem Chunk.relocated_constant {s : Chunk.Site} {callee : Closure} {c d : Chunk} {i : Instruction}
    {code : List Instruction} (h : Chunk.Relocated s callee c i code d) {v : Value}
    (found : Chunk.constantFor? callee i = some v) :
    ∃ (k : Nat) (small : k ≤ maxOperand), code = [⟨.const, k, small⟩] ∧
      d.constants[k]? = some (pooled c.constants v) ∧
      ((pooled c.constants v).titles = v.titles → (pooled c.constants v).text = v.text) := by
  obtain ⟨op, operand, small⟩ := i
  have fetches : op = .capture ∨ op = .const := Chunk.constantFor?_fetches found
  cases h with
  | @constant w fetched small =>
    obtain rfl := Option.some.inj (found.symm.trans fetched)
    exact ⟨_, small, rfl, pooled_place c.constants v, text_pooled⟩
  | ret tail is h | call tail is h => rcases fetches with rfl | rfl <;> cases is
  | @literal tail opens fused h => rcases fetches with rfl | rfl <;> cases opens <;> cases fused
  | slot kind h | label kind h => rcases fetches with rfl | rfl <;> cases kind
  | kept closed other => exact (fetches.elim other.1 other.2.1).elim

/-- Runs instructions one after another, as long as they go on. -/
def Scene.turns (store : Store) (s : Scene) : List Instruction → Turn
  | [] => .go s store
  | i :: code =>
    match s.turn store i with
    | .go t store => t.turns store code
    | t => t

/-- What a lambda has for its constant: a closure if it captures nothing, or what closures are made of. -/
def lambdaConstant (p : Procedure Value) (captures : List (String × CellKind)) : Value :=
  if captures = [] then .closure p [] else .procedure p

/-- The code of a lambda pushes its constant, perhaps to make a closure of it with captured values. -/
inductive Pushes (captures : List (String × CellKind)) (k : Nat) : List Instruction → Prop
  | closed (alone : captures = []) (h : k ≤ maxOperand) : Pushes captures k [⟨.const, k, h⟩]
  | captured (some : captures ≠ []) (h : k ≤ maxOperand) (count : captures.length ≤ maxOperand) :
    Pushes captures k [⟨.const, k, h⟩, ⟨.makeClosure, captures.length, count⟩]

theorem Chunk.Inlines.name {good : Bool → Closure → Prop} {c d : Chunk} {code longer : List Instruction}
    (h : Chunk.Inlines good c code longer d) : d.name = c.name := by
  induction h with
  | nil => rfl
  | keep _ ih => exact ih
  | splice _ _ _ _ _ _ _ spliced _ ih => exact ih.trans (by rw [spliced.mem.1]; rfl)

theorem Chunk.build_keeps {c : Chunk} {arity : Arity} {o : CompileOptions} {s t : Store} {p : Procedure Value}
    (h : Yields (c.build arity o) s p t) : p.name = c.name ∧ c.constants <+: p.constants := by
  obtain ⟨d, u, checked, optimized, -, chunk, -⟩ := build_yields h
  have named : p.name = d.name := congrArg Chunk.name chunk
  have pool : p.constants = d.constants := congrArg Chunk.constants chunk
  rw [named, pool]
  unfold optimize at optimized
  dsimp only at optimized
  split at optimized
  · obtain ⟨result, v, inlined, kept⟩ := Yields.bind_iff.mp optimized
    obtain ⟨rfl, -⟩ := Yields.pure_iff.mp kept
    have inlines := inlines_of_yields (S := fun _ => True) (fun _ _ => trivial) inlined fun _ _ => trivial
    exact ⟨inlines.name, inlines.constants⟩
  · obtain ⟨rfl, -⟩ := Yields.pure_iff.mp optimized
    exact ⟨rfl, List.prefix_refl _⟩

variable {captures : List (String × CellKind)} {p : Procedure Value} {name : Option String} {cs : Clauses}
  {bodies : List Expr} {w z : Workshop}

/-- A lambda is built with its name, and its code ends with its constant. -/
theorem Emits.lambda_ends (h : Emits w (.one (.lambda p captures name cs bodies)) z) :
    p.name = name ∧ ∃ (x : Workshop) (code : List Instruction), w.Extends x ∧
      z.body.code = x.body.code ++ code ∧
      Pushes captures (poolConstant x.body.constants (lambdaConstant p captures)).1 code ∧
      z.body.constants = (poolConstant x.body.constants (lambdaConstant p captures)).2 := by
  have outside {u : Workshop} {store : Store} (inner : (w.child name).Stays u)
      (built : Yields (u.chunk.build cs.arity w.encoder.options) u.store p store) :
      p.name = name ∧ w.Extends { w with store } := by
    have kept : w.Stays { w with store } :=
      Workshop.stays_store ((Chunk.build_namespaces built).trans inner.namespaces)
    exact ⟨(Chunk.build_keeps built).1.trans inner.name, kept.toExtends⟩
  cases h with
  | constant inner alone built h =>
    obtain ⟨named, beyond⟩ := outside inner.leaves built
    exact ⟨named, _, _, beyond, rfl, .closed rfl h, rfl⟩
  | @closure _ u x _ _ _ _ store inner some built loads h count =>
    obtain ⟨named, beyond⟩ := outside inner.leaves built
    have loaded : Workshop.Stays { w with store } x := loads.leaves
    have constant : lambdaConstant p u.body.captured = .procedure p := if_neg some
    rw [constant]
    exact ⟨named, x, _, beyond.trans loaded.toExtends, List.append_assoc .., .captured some h count, rfl⟩

theorem pooled_lambda (constants : List Value) (p : Procedure Value) (captures : List (String × CellKind)) :
    ∃ q : Procedure Value, pooled constants (lambdaConstant p captures) = lambdaConstant q captures := by
  have same := pooled_same constants (lambdaConstant p captures)
  unfold lambdaConstant at same ⊢
  split
  next alone =>
    rw [if_pos alone] at same
    cases found : pooled constants (.closure p []) with
    | closure q captured =>
      rw [found] at same
      obtain ⟨-, -, -, -, none⟩ := Value.closure_same_iff.mp same
      exact ⟨q, by rw [List.forall₂_nil_right_iff.mp none]⟩
    | _ =>
      rw [found] at same
      cases same
  next some =>
    rw [if_neg some] at same
    cases found : pooled constants (.procedure p) with
    | procedure q => exact ⟨q, rfl⟩
    | _ =>
      rw [found] at same
      cases same

theorem Scene.turn_makeClosure {s : Scene} {n : Nat} {q : Procedure Value} {rest : List Value}
    (stack : s.stack = .procedure q :: rest) (h : n ≤ maxOperand) (σ : Store) :
    s.turn σ ⟨.makeClosure, n, h⟩ =
      .go { s with stack := .closure q (rest.take n) :: rest.drop n, pc := s.pc + 1 } σ := by
  have pops : Instruction.pops ⟨.makeClosure, n, h⟩ = n + 1 := Nat.add_comm 1 n
  show Turn.withFirst _ _ = _
  rw [Scene.past, pops, stack]
  rfl

/-- What the code of a lambda leaves is a closure of the procedure in its constant. -/
theorem Pushes.turns {k : Nat} {code : List Instruction} (h : Pushes captures k code) {s : Scene}
    {q : Procedure Value} (found : s.chunk.constants[k]? = some (lambdaConstant q captures)) (σ : Store) :
    s.turns σ code = .go { s with
      stack := .closure q (s.stack.take captures.length) :: s.stack.drop captures.length
      pc := s.pc + code.length } σ := by
  cases h with
  | closed alone small =>
    subst alone
    rw [Scene.turns, Scene.turn_const found]
    rfl
  | captured some small count =>
    rw [lambdaConstant, if_neg some] at found
    rw [Scene.turns, Scene.turn_const found]
    show Scene.turns σ _ [_] = _
    rw [Scene.turns, Scene.turn_makeClosure rfl]
    rfl

/-- A lambda without parameters that answers null. -/
def answeringNull (name : String) : Procedure Value where
  serial := 0
  name := some name
  arity := .fixed 0
  code := [Opcode.retNull.bare]
  constants := []
  labels := []
  stackSize := 0
  localCount := 0
  labelCount := 0
  globals := 0
  inlinable := true

/-- A unit that has such a lambda for a constant. -/
def holdingFirst : Workshop :=
  (Workshop.top 0 {} {}).pool (.closure (answeringNull "first") [])

theorem emits_second : ∃ z, Emits holdingFirst
    (.one (.lambda (answeringNull "second") [] (some "second") [⟨[], none, [.null]⟩] [.literal .null])) z := by
  have inner : Emits (holdingFirst.child (some "second")) (.body [⟨[], none, [.null]⟩] [.literal .null]) _ :=
    .single (.clause (by decide) (.literal (Encode.emit_iff.mpr rfl)))
  have built : Yields (Chunk.build ⟨[Opcode.nullLit.bare, Opcode.ret.bare], [], 0, 0, 0, some "second"⟩ (.fixed 0) {})
      {} (answeringNull "second") { built := 1, events := [.built (some "second") 1 0 0 true] } := by
    with_unfolding_all rfl
  exact ⟨_, .constant inner rfl built (by decide)⟩

end StackLisp
