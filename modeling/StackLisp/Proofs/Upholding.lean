import StackLisp.Proofs.Building

/-!
What a chart says of an address holds of every scene that comes there. A scene on its chart finds the
constants, arguments and captured values that its code asks for, turn by turn.
-/

namespace StackLisp

namespace Operand

/-- A value is as known, in a call with so many arguments. -/
def Holds (count : Nat) : Operand → Value → Prop
  | .any, _ => True
  | .number n, v => n ≤ maxOperand ∧ v = .integer (Int64.ofNat n)
  | .count, v => v = .integer (Int64.ofNat count)
  | .test n, v => v.holds → n ≤ count
  | .template code, v => ∃ p, v = .procedure p ∧ p.code = code

variable {count other : Nat} {a b : Operand} {v l r : Value} {stack : List Operand} {values : List Value}

theorem Holds.mono (h : a.Holds count v) (le : a ≤ b) : b.Holds count v := by
  rcases le with rfl | rfl
  · exact trivial
  · exact h

theorem holds_ofConstant (v : Value) : (ofConstant (some v)).Holds count v := by
  cases v <;> first | exact ⟨_, rfl, rfl⟩ | exact trivial

theorem hold_of_each (h : List.Forall₂ (Holds count) stack values) {weaker : List Operand}
    (each : Each stack weaker) : List.Forall₂ (Holds count) weaker values := by
  induction h generalizing weaker with
  | nil =>
    cases each
    exact .nil
  | cons holds _ ih =>
    obtain ⟨b, bs, first, rest, rfl⟩ := List.forall₂_cons_left_iff.mp each
    exact .cons (holds.mono first) (ih rest)

theorem hold_any {n : Nat} (length : values.length = n) :
    List.Forall₂ (Holds count) (List.replicate n .any) values := by
  refine List.forall₂_iff_get.mpr ⟨by rw [List.length_replicate, length], fun k _ _ => ?_⟩
  rw [List.get_eq_getElem, List.getElem_replicate]
  exact trivial

/-- What is forgotten of a stack holds with any arguments. -/
theorem hold_forget (h : List.Forall₂ (Holds count) stack values) :
    List.Forall₂ (Holds other) (forget stack) values :=
  hold_any h.length_eq.symm

theorem toInt_ofNat {n : Nat} (small : n ≤ maxOperand) : (Int64.ofNat n).toInt = n := by
  refine Int64.toInt_ofNat_of_lt ?_
  unfold maxOperand at small
  omega

/-- A comparison that fails below what it compares with. -/
theorem holds_compared {c : Comparison} (below : c.holds (some .lt) = false)
    (h : List.Forall₂ (Holds count) stack (l :: r :: values))
    (result : Opcode.binary?.comparison c l r = .ok v) : (compared stack).Holds count v := by
  unfold compared
  split
  next n rest =>
    obtain ⟨left, more⟩ := List.forall₂_cons.mp h
    obtain ⟨⟨small, rfl⟩, -⟩ := List.forall₂_cons.mp more
    obtain rfl : l = .integer (Int64.ofNat count) := left
    obtain rfl := Except.ok.inj result
    intro holds
    by_contra fewer
    have less : count < n := Nat.lt_of_not_le fewer
    have order : compare (Int64.ofNat count).toInt (Int64.ofNat n).toInt = .lt := by
      rw [toInt_ofNat small, toInt_ofNat (Nat.le_trans (Nat.le_of_lt less) small)]
      exact compare_lt_iff_lt.mpr (Int.ofNat_lt.mpr less)
    change c.holds (some (compare _ _)) = true at holds
    rw [order, below] at holds
    cases holds
  · exact trivial

/-- Where the topmost operand holds, there are as many arguments as that says. -/
theorem leastIf_le_count {least : Nat} (h : List.Forall₂ (Holds count) stack (v :: values)) (holds : v.holds)
    (enough : least ≤ count) : leastIf least stack ≤ count := by
  unfold leastIf
  split
  · exact Nat.max_le.mpr ⟨enough, (List.forall₂_cons.mp h).1 holds⟩
  · exact enough

end Operand

namespace Scene

/-- What the outlook says holds of the scene. -/
structure Upholds (s : Scene) (X : Outlook) : Prop where
  stack : List.Forall₂ (Operand.Holds s.args.length) X.stack s.stack
  least : X.least ≤ s.args.length
  saved : List.Forall₂ (fun n args => n ≤ args.length) X.saved s.saved

/-- What the operand of an instruction points to is there. -/
structure Serves (s : Scene) (i : Instruction) : Prop where
  const : i.op = .const → i.operand < s.chunk.constants.length
  arg : i.op = .arg → i.operand < s.args.length
  capture : i.op = .capture → i.operand < s.closure.captured.length
  saved : i.op = .popArgs → s.saved ≠ []

end Scene

/-- A turn that is no breach. It builds nothing, only staging changes the arguments, and only a call waits. -/
def Turn.Tame (s : Scene) (σ : Store) (i : Instruction) : Turn → Prop
  | .go t τ => τ.built = σ.built ∧
    (i.op ≠ .pushArgs → i.op ≠ .popArgs → t.args = s.args ∧ t.saved = s.saved)
  | .call _ _ _ => i.op = .call0 ∨ i.op = .call1 ∨ i.op = .call
  | .breach _ => False
  | _ => True

namespace Scene

variable {s t : Scene} {σ τ : Store} {i : Instruction} {X Y : Outlook}

theorem Upholds.mono (h : s.Upholds X) (le : X ≤ Y) : s.Upholds Y where
  stack := Operand.hold_of_each h.stack le.stack
  least := Nat.le_trans le.least h.least
  saved := by
    have trans : ∀ {ns ms : List Nat} {saved : List (List Value)}, List.Forall₂ (· ≤ ·) ms ns →
        List.Forall₂ (fun n args => n ≤ args.length) ns saved →
        List.Forall₂ (fun n args => n ≤ args.length) ms saved := by
      intro ns ms saved below holds
      induction holds generalizing ms with
      | nil =>
        cases below
        exact .nil
      | cons first _ ih =>
        obtain ⟨m, ms, less, rest, rfl⟩ := List.forall₂_cons_right_iff.mp below
        exact .cons (Nat.le_trans less first) (ih rest)
    exact trans le.saved h.saved

theorem Upholds.serves (h : s.Upholds X) (allows : X.Allows i) (fits : s.chunk.Fits i)
    (captures : i.op = .capture → i.operand < s.closure.captured.length) : (s.past i).Serves i where
  const op := by
    unfold Chunk.Fits at fits
    rwa [op] at fits
  arg op := Nat.lt_of_lt_of_le (allows.args op) h.least
  capture := captures
  saved op none := by
    have length := h.saved.length_eq
    rw [show s.saved = [] from none] at length
    exact allows.saved op (List.length_eq_zero_iff.mp length)

theorem tame_give {v : Value} : (s.give σ v).Tame s σ i :=
  ⟨rfl, fun _ _ => ⟨rfl, rfl⟩⟩

theorem tame_giveResult (r : Except Fault Value) : (s.giveResult σ r).Tame s σ i := by
  cases r with
  | ok v => exact tame_give
  | error f => exact trivial

theorem tame_fetch {found : List Value} {k : Nat} (inside : k < found.length) :
    (s.fetch σ found[k]?).Tame s σ i := by
  rw [List.getElem?_eq_getElem inside]
  exact tame_give

theorem tame_keep {r : Except Fault Store} (kept : ∀ τ, r = .ok τ → τ.built = σ.built) :
    (s.keep r).Tame s σ i := by
  cases r with
  | ok τ => exact ⟨kept τ rfl, fun _ _ => ⟨rfl, rfl⟩⟩
  | error f => exact trivial

theorem tame_goTo (label : Nat) : (s.goTo σ label).Tame s σ i := by
  unfold goTo
  split
  · exact ⟨rfl, fun _ _ => ⟨rfl, rfl⟩⟩
  · exact trivial

theorem tame_load (slot : Nat) : (s.load σ slot).Tame s σ i := by
  unfold load
  split
  · exact tame_give
  · exact trivial

theorem tame_put (slot : Nat) (v : Value) : (s.put σ slot v).Tame s σ i := by
  unfold put
  split
  · exact ⟨rfl, fun _ _ => ⟨rfl, rfl⟩⟩
  · exact trivial

theorem tame_makeClosure (captured : List Value) (template : Value) :
    (s.makeClosure σ captured template).Tame s σ i := by
  cases template <;> first | exact tame_give | exact trivial

theorem built_fillRef {id : RefId} {v : Value} (h : σ.fillRef id v = .ok τ) : τ.built = σ.built := by
  unfold Store.fillRef at h
  split at h
  · cases h
  · exact Except.ok.inj h ▸ rfl

theorem built_bind {id : NamespaceId} {name : String} {v : Value} (h : σ.bind id name v = .ok τ) :
    τ.built = σ.built := by
  unfold Store.bind at h
  split at h
  · exact Except.ok.inj h ▸ rfl
  · cases h

/-- An instruction that finds what it asks for is no breach. -/
theorem act_tame (serves : s.Serves i) (taken : List Value) : (s.act σ i taken).Tame s σ i := by
  obtain ⟨op, operand, small⟩ := i
  cases op with
  | label | noOp => exact Turn.withNone_holds trivial ⟨rfl, fun _ _ => ⟨rfl, rfl⟩⟩ taken
  | jump => exact Turn.withNone_holds trivial (tame_goTo _) taken
  | condJump =>
    refine Turn.withOne_holds trivial (fun v => ?_) taken
    split
    · exact tame_goTo _
    · exact ⟨rfl, fun _ _ => ⟨rfl, rfl⟩⟩
  | ret | panic => exact Turn.withOne_holds trivial (fun _ => trivial) taken
  | retNull | retTrue | retFalse => exact Turn.withNone_holds trivial trivial taken
  | nullLit | trueLit | falseLit | posInt | negInt | argLen | restArg | current =>
    exact Turn.withNone_holds trivial tame_give taken
  | newRef => exact Turn.withNone_holds trivial ⟨rfl, fun _ _ => ⟨rfl, rfl⟩⟩ taken
  | const => exact Turn.withNone_holds trivial (tame_fetch (serves.const rfl)) taken
  | arg => exact Turn.withNone_holds trivial (tame_fetch (serves.arg rfl)) taken
  | capture => exact Turn.withNone_holds trivial (tame_fetch (serves.capture rfl)) taken
  | load => exact Turn.withNone_holds trivial (tame_load _) taken
  | store => exact Turn.withOne_holds trivial (tame_put _) taken
  | bindRef =>
    refine Turn.withTwo_holds trivial (fun cell v => tame_keep fun τ kept => ?_) taken
    obtain ⟨id, -, filled⟩ := bind_eq_ok.mp kept
    exact built_fillRef filled
  | bind =>
    refine Turn.withTwo_holds trivial (fun name v => tame_keep fun τ kept => ?_) taken
    obtain ⟨id, -, bound⟩ := bind_eq_ok.mp kept
    exact built_bind bound
  | declare | hide =>
    refine Turn.withOne_holds trivial (fun v => tame_keep fun τ kept => ?_) taken
    cases named : v.symbol? with
    | error f =>
      rw [named] at kept
      cases kept
    | ok name =>
      rw [named] at kept
      exact Except.ok.inj kept ▸ rfl
  | deref | resolve | neg | not | car | cdr | empty =>
    exact Turn.withOne_holds trivial (fun _ => tame_giveResult _) taken
  | makeClosure => exact Turn.withFirst_holds trivial (fun v _ => tame_makeClosure _ v) taken
  | pop => exact Turn.withOne_holds trivial (fun _ => ⟨rfl, fun _ _ => ⟨rfl, rfl⟩⟩) taken
  | call0 => exact Turn.withFirst_holds trivial (fun _ _ => .inl rfl) taken
  | call1 => exact Turn.withFirst_holds trivial (fun _ _ => .inr (.inl rfl)) taken
  | call => exact Turn.withFirst_holds trivial (fun _ _ => .inr (.inr rfl)) taken
  | tailCall => exact Turn.withFirst_holds trivial (fun _ _ => trivial) taken
  | pushArgs => exact ⟨rfl, fun pushes => absurd rfl pushes⟩
  | popArgs =>
    refine Turn.withNone_holds trivial ?_ taken
    unfold popArgs
    split
    next none => exact absurd none (serves.saved rfl)
    · exact ⟨rfl, fun _ pops => absurd rfl pops⟩
  | add | sub | mul | div | mod | numEq | numLt | numLte | numGt | numGte | eq | cons =>
    exact Turn.withTwo_holds trivial (fun _ _ => tame_giveResult _) taken

theorem turn_tame (serves : (s.past i).Serves i) : (s.turn σ i).Tame s σ i := by
  have tame := act_tame (σ := σ) serves (s.stack.take i.pops)
  change (s.turn σ i).Tame (s.past i) σ i at tame
  exact tame

theorem turn_continues (turned : s.turn σ i = .go t τ) : (s.past i).Continues i t := by
  have heeds := act_heeds σ (s.past i) i (s.stack.take i.pops)
  change (s.turn σ i).Heeds (s.past i) i at heeds
  rwa [turned] at heeds

theorem Upholds.on (h : s.Upholds X) (i : Instruction) {v : Value} {a : Operand}
    (holds : a.Holds s.args.length v) :
    ((s.past i).push v).Upholds { X with stack := a :: X.stack.drop i.pops } :=
  ⟨.cons holds (List.forall₂_drop _ h.stack), h.least, h.saved⟩

/-- Operands are given of which nothing is known, and perhaps a slot is stored to. -/
theorem Upholds.plain (h : s.Upholds X) {given : List Value} (stack : t.stack = given ++ s.stack.drop i.pops)
    (length : given.length = i.pushes) (kept : t.args = s.args ∧ t.saved = s.saved) (stored : Nat → Prop) :
    t.Upholds { X with stack := List.replicate i.pushes .any ++ X.stack.drop i.pops, stored } where
  stack := by
    rw [stack, kept.1]
    exact List.rel_append (Operand.hold_any length) (List.forall₂_drop _ h.stack)
  least := kept.1 ▸ h.least
  saved := kept.2 ▸ h.saved

/-- A comparison tells about the number of arguments. -/
theorem Upholds.compared (h : s.Upholds X) {c : Comparison} (below : c.holds (some .lt) = false)
    (turned : Turn.withTwo (fun l r => (s.past i).giveResult σ (Opcode.binary?.comparison c l r))
      (s.stack.take 2) = .go t τ) : t.Upholds { X with stack := .compared X.stack :: X.stack.drop i.pops } := by
  have whole := h.stack
  match stack : s.stack with
  | [] | [_] =>
    rw [stack] at turned
    cases turned
  | l :: r :: rest =>
    rw [stack] at turned whole
    change (s.past i).giveResult σ (Opcode.binary?.comparison c l r) = _ at turned
    cases result : Opcode.binary?.comparison c l r with
    | error f =>
      rw [result] at turned
      cases turned
    | ok v =>
      rw [result] at turned
      obtain ⟨rfl, -⟩ := Turn.go.inj turned
      exact h.on i (Operand.holds_compared below whole result)

theorem withFirst_call_ne_go {taken : List Value} :
    Turn.withFirst (fun callee args => .call callee args s) taken ≠ .go t τ := by
  cases taken <;> nofun

theorem Upholds.after (h : s.Upholds X) (serves : (s.past i).Serves i) (pops : i.pops ≤ s.stack.length)
    (turned : s.turn σ i = .go t τ) : t.Upholds (X.after s.chunk.constants i) := by
  have tame := turn_tame (σ := σ) serves
  rw [turned] at tame
  obtain ⟨given, stack, pushed⟩ := (turn_continues turned).stack
  have below := List.forall₂_drop i.pops h.stack
  obtain ⟨op, operand, small⟩ := i
  unfold Outlook.after
  dsimp only
  split
  case h_1 =>
    obtain ⟨rfl, -⟩ := Turn.go.inj turned
    exact h.on _ ⟨small, rfl⟩
  case h_2 =>
    obtain ⟨rfl, -⟩ := Turn.go.inj turned
    exact h.on _ rfl
  case h_3 =>
    have inside : operand < s.chunk.constants.length := serves.const rfl
    change (s.past _).fetch σ s.chunk.constants[operand]? = _ at turned
    rw [List.getElem?_eq_getElem inside] at turned ⊢
    obtain ⟨rfl, -⟩ := Turn.go.inj turned
    exact h.on _ (Operand.holds_ofConstant _)
  case h_4 => exact h.compared (c := .eq) rfl turned
  case h_5 => exact h.compared (c := .ge) rfl turned
  case h_6 => exact h.plain stack pushed (tame.2 (fun put => by cases put) fun taken => by cases taken) _
  case h_7 | h_8 | h_9 => exact absurd turned withFirst_call_ne_go
  case h_10 =>
    obtain ⟨rfl, -⟩ := Turn.go.inj turned
    refine ⟨Operand.hold_forget below, Nat.le_of_eq ?_, .cons h.least h.saved⟩
    have staged : operand ≤ s.stack.length := Nat.zero_add operand ▸ pops
    have all : (s.stack.take (0 + operand)).length = operand := by
      rw [Nat.zero_add, List.length_take_of_le staged]
    exact all.symm
  case h_11 =>
    change (s.past _).popArgs σ = _ at turned
    have saved := h.saved
    unfold popArgs at turned
    split at turned
    · cases turned
    next args rest aside =>
      rw [show s.saved = args :: rest from aside] at saved
      obtain ⟨n, ns, first, others, known⟩ := List.forall₂_cons_right_iff.mp saved
      obtain ⟨rfl, -⟩ := Turn.go.inj turned
      rw [known]
      exact ⟨Operand.hold_forget below, first, others⟩
  case h_12 pushes pops => exact h.plain stack pushed (tame.2 pushes pops) _

/-- A call that waits has forgotten what it knew of its operands. -/
theorem Upholds.call (h : s.Upholds X) (serves : (s.past i).Serves i) {callee : Value} {args : List Value}
    (turned : s.turn σ i = .call callee args t) (v : Value) :
    (t.push v).Upholds (X.after s.chunk.constants i) := by
  have tame := turn_tame (σ := σ) serves
  have heeds := act_heeds σ (s.past i) i (s.stack.take i.pops)
  change (s.turn σ i).Heeds (s.past i) i at heeds
  rw [turned] at tame heeds
  obtain ⟨rfl, -⟩ := heeds
  have below : List.Forall₂ (Operand.Holds s.args.length) (Operand.forget (X.stack.drop i.pops))
      (s.stack.drop i.pops) := Operand.hold_forget (List.forall₂_drop _ h.stack)
  obtain ⟨op, operand, small⟩ := i
  rcases tame with op | op | op <;>
  · obtain rfl : _ = _ := op
    exact ⟨.cons trivial below, h.least, h.saved⟩

theorem Upholds.taken (h : s.Upholds X) (least : i.op = .condJump → Operand.leastIf X.least X.stack ≤ s.args.length)
    (target : Nat) : ({ s.past i with pc := target } : Scene).Upholds (X.taken i) where
  stack := List.forall₂_drop _ h.stack
  least := by
    unfold Outlook.taken
    split
    next branches => exact least branches
    next => exact h.least
  saved := h.saved

/-- A jump goes to its label, or else on with nothing but its operands gone. -/
theorem Upholds.jumped (h : s.Upholds X) (jumps : i.op.jumps) (turned : s.turn σ i = .go t τ) :
    (Chunk.anchor? s.chunk.code i.operand = some t.pc ∧ t.Upholds (X.taken i)) ∨
      (i.op.effect.exits = false ∧ t.pc = s.pc + 1) := by
  have goes : (i.op = .condJump → Operand.leastIf X.least X.stack ≤ s.args.length) →
      (s.past i).goTo σ i.operand = .go t τ →
        Chunk.anchor? s.chunk.code i.operand = some t.pc ∧ t.Upholds (X.taken i) := by
    intro least turned
    unfold goTo at turned
    split at turned
    next target found =>
      obtain ⟨rfl, -⟩ := Turn.go.inj turned
      exact ⟨found, h.taken least target⟩
    · cases turned
  obtain ⟨op, operand, small⟩ := i
  cases op <;> try cases jumps
  case jump => exact .inl (goes nofun turned)
  case condJump =>
    have whole := h.stack
    change Turn.withOne (fun v => if v.holds then (s.past _).goTo σ operand else .go (s.past _) σ)
      (s.stack.take 1) = _ at turned
    cases stack : s.stack with
    | nil =>
      rw [stack] at turned
      cases turned
    | cons v rest =>
      rw [stack] at turned whole
      change (if v.holds then (s.past _).goTo σ operand else Turn.go (s.past _) σ) = _ at turned
      split at turned
      next holds => exact .inl (goes (fun _ => Operand.leastIf_le_count whole holds h.least) turned)
      next =>
        obtain ⟨rfl, -⟩ := Turn.go.inj turned
        exact .inr ⟨rfl, rfl⟩

theorem Upholds.onward {D : Nat → Option Outlook} (charted : Outlook.view.Charted s.chunk.constants s.chunk.code D)
    (at_pc : D s.pc = some X) (h : s.Upholds X) (here : s.chunk.code[s.pc]? = some i)
    (serves : (s.past i).Serves i) (pops : i.pops ≤ s.stack.length) (turned : s.turn σ i = .go t τ) :
    ∃ Y, D t.pc = some Y ∧ t.Upholds Y := by
  have next : i.op.effect.exits = false ∧ t.pc = s.pc + 1 → ∃ Y, D t.pc = some Y ∧ t.Upholds Y := by
    rintro ⟨stays, pc⟩
    obtain ⟨Y, there, le⟩ := charted.after at_pc here stays
    exact ⟨Y, pc ▸ there, (h.after serves pops turned).mono le⟩
  rcases (turn_continues turned).control with onward | ⟨jumps, -⟩
  · exact next onward
  · rcases h.jumped jumps turned with ⟨found, upheld⟩ | onward
    · obtain ⟨target, again, le⟩ := charted.target at_pc here jumps
      obtain rfl := Option.some.inj (again.symm.trans found)
      obtain ⟨Y, there, le⟩ := some_of_known le
      exact ⟨Y, there, upheld.mono le⟩
    · exact next onward

end Scene

end StackLisp
