import StackLisp.Proofs.Flows
import StackLisp.Proofs.Grants

/-!
Bodies in place of calls. What is known along the code of a body is known in its place too, on top of what
was known at the call: the body leaves the operands below and the argument lists put aside as they are.
-/

namespace StackLisp

open Outlook

/-- What is known in a body that runs in the place of a call, where `U` is known as its arguments are
staged. Its slots are numbered from `base` on. -/
def Outlook.under (S : Outlook) (base : Nat) (U : Outlook) : Outlook where
  stack := S.stack ++ U.stack
  least := S.least
  saved := S.saved ++ U.saved
  stored slot := U.stored slot ∨ ∃ k, slot = k + base ∧ S.stored k

/-- What is known where such a body is left with its value. -/
def Outlook.exit (U : Outlook) : Outlook :=
  { U with stack := .any :: U.stack, least := 0 }

namespace Outlook

variable {base : Nat} {U S T : Outlook} {i j : Instruction} {constants pool : List Value}

theorem under_le (h : S ≤ T) : S.under base U ≤ T.under base U := by
  refine ⟨List.rel_append h.stack (Operand.each_refl _), h.least,
    List.rel_append h.saved (List.forall₂_refl _), fun slot => ?_⟩
  rintro (around | ⟨k, same, stored⟩)
  · exact .inl around
  · exact .inr ⟨k, same, h.stored k stored⟩

theorem compared_append (h : 2 ≤ S.stack.length) :
    Operand.compared (S.stack ++ U.stack) = Operand.compared S.stack := by
  match S.stack, h with
  | a :: b :: rest, _ => cases a <;> cases b <;> rfl

theorem leastIf_append (h : 1 ≤ S.stack.length) (least : Nat) :
    Operand.leastIf least (S.stack ++ U.stack) = Operand.leastIf least S.stack := by
  match S.stack, h with
  | a :: rest, _ => cases a <;> rfl

theorem drop_under (h : i.pops ≤ S.stack.length) :
    (S.under base U).stack.drop i.pops = S.stack.drop i.pops ++ U.stack :=
  List.drop_append_of_le_length h

/-- In place of a call an instruction does what it does in the body. -/
theorem after_under (h : i.pops ≤ S.stack.length) (forgot : Operand.forget U.stack = U.stack)
    (op : i.op ≠ .pushArgs ∧ i.op ≠ .popArgs ∧ i.op ≠ .const ∧ i.op ≠ .store) (same : j.op = i.op)
    (pops : j.pops = i.pops) (number : i.op = .posInt → j.operand = i.operand) :
    (S.under base U).after pool j = (S.after constants i).under base U := by
  have pushes : j.pushes = i.pushes := by rw [Instruction.pushes, same, Instruction.pushes]
  unfold after
  dsimp only
  rw [same, pops, pushes, drop_under h]
  split
  case h_1 literal => rw [number literal]; rfl
  case h_3 const => exact absurd const op.2.2.1
  case h_6 stores => exact absurd stores op.2.2.2
  case h_10 pushes => exact absurd pushes op.1
  case h_11 pops => exact absurd pops op.2.1
  case h_4 compares =>
    have two : 2 ≤ S.stack.length := by simpa [Instruction.pops, compares, Opcode.effect] using h
    simp only [under, compared_append two, List.cons_append]
  case h_5 compares =>
    have two : 2 ≤ S.stack.length := by simpa [Instruction.pops, compares, Opcode.effect] using h
    simp only [under, compared_append two, List.cons_append]
  case h_7 | h_8 | h_9 => simp only [under, Operand.forget_append, forgot, List.cons_append]
  case h_12 => simp only [under, List.append_assoc]
  all_goals rfl

theorem allows_under (h : S.Allows i) (saved : S.saved = [])
    (stays : i.op.effect.exits = true → i.op = .panic ∨ i.op = .jump ∨ U.stack = [])
    (load : i.op ≠ .load) : (S.under base U).Allows i where
  pops := by
    rw [under, List.length_append]
    exact Nat.le_trans h.pops (Nat.le_add_right _ _)
  exits leaves panics jumps := by
    have alone := ((stays leaves).resolve_left panics).resolve_left jumps
    rw [under, alone, List.append_nil]
    exact h.exits leaves panics jumps
  args := h.args
  slots loads := absurd loads load
  saved pops := absurd saved (h.saved pops)
  template makes := by
    obtain ⟨code, rest, stack, captures⟩ := h.template makes
    exact ⟨code, rest ++ U.stack, by rw [under, stack, List.cons_append], captures⟩

theorem after_store (h : i.pops ≤ S.stack.length) (op : i.op = .store) (same : j.op = .store)
    (shifted : j.operand = i.operand + base) :
    (S.under base U).after pool j ≤ (S.after constants i).under base U := by
  have pops : j.pops = i.pops := by simp [Instruction.pops, op, same, Opcode.effect]
  unfold after
  simp only [op, same, pops, drop_under h]
  refine ⟨Operand.each_refl _, Nat.le_refl _, List.forall₂_refl _, fun slot => ?_⟩
  rintro (around | ⟨k, rfl, here | stored⟩)
  · exact .inr (.inl around)
  · exact .inl (by rw [here, shifted])
  · exact .inr (.inr ⟨k, rfl, stored⟩)

end Outlook

namespace Chunk

/-- The constant that a body fetches for an instruction. -/
def constantFor? (callee : Closure) (i : Instruction) : Option Value :=
  match i.op with
  | .capture => callee.captured[i.operand]?
  | .const => callee.procedure.constants[i.operand]?
  | _ => none

theorem constantFor?_fetches {callee : Closure} {i : Instruction} {v : Value} (h : constantFor? callee i = some v) :
    i.op = .capture ∨ i.op = .const := by
  unfold constantFor? at h
  split at h
  next op => exact .inl op
  next op => exact .inr op
  · cases h

/-- How an instruction of a body stands in the place of a call, and the chunk then. -/
inductive Relocated (s : Site) (callee : Closure) (c : Chunk) (i : Instruction) :
    List Instruction → Chunk → Prop
  | ret (plain : s.tail = false) (op : i.op = .ret) (h : s.exit ≤ maxOperand) :
    Relocated s callee c i [⟨.jump, s.exit, h⟩] c
  | literal (plain : s.tail = false) {op : Opcode} (fused : fused? op = some i.op)
      (h : s.exit ≤ maxOperand) : Relocated s callee c i [op.bare, ⟨.jump, s.exit, h⟩] c
  | call (plain : s.tail = false) (op : i.op = .tailCall) (h : s.exit ≤ maxOperand) :
    Relocated s callee c i [⟨.call, i.operand, i.operand_le⟩, ⟨.jump, s.exit, h⟩] c
  | constant {v : Value} (found : constantFor? callee i = some v) (h : (c.addConstant v).1 ≤ maxOperand) :
    Relocated s callee c i [⟨.const, (c.addConstant v).1, h⟩] (c.addConstant v).2
  | slot (locals : i.op.effect.operand = .locals) (h : i.operand + s.localBase ≤ maxOperand) :
    Relocated s callee c i [⟨i.op, i.operand + s.localBase, h⟩] c
  | label (labels : i.op.effect.operand = .labels) (h : i.operand + s.labelBase ≤ maxOperand) :
    Relocated s callee c i [⟨i.op, i.operand + s.labelBase, h⟩] c
  | kept (closed : s.tail = false → i.op.effect.exits → i.op = .panic)
      (op : i.op ≠ .capture ∧ i.op ≠ .const ∧ i.op.effect.operand ≠ .locals ∧ i.op.effect.operand ≠ .labels) :
    Relocated s callee c i [i] c

variable {s : Site} {callee : Closure} {c d : Chunk} {i : Instruction} {code body : List Instruction}

/-- An instruction of a body has its place, if it has the constant that it fetches. -/
theorem granted_relocate (s : Site) (c : Chunk)
    (known : i.op = .capture ∨ i.op = .const → ∃ v, constantFor? callee i = some v) :
    Granted (relocate s callee c i) fun result => Relocated s callee c i result.1 result.2 := by
  obtain ⟨op, operand, small⟩ := i
  have constant {xs : List Value} (inside : operand < xs.length)
      (found : ∀ v, xs[operand]? = some v → constantFor? callee ⟨op, operand, small⟩ = some v) :
      Granted (do
        let v ← fetch xs operand
        let pushed ← Opcode.const.withOperand (c.addConstant v).1
        .ok ([pushed], (c.addConstant v).2)) fun result =>
          Relocated s callee c ⟨op, operand, small⟩ result.1 result.2 := by
    refine (granted_fetch inside).bind fun v there => ?_
    refine (granted_withOperand _ _).bind ?_
    rintro _ ⟨h, rfl⟩
    exact .constant (found v there) h
  unfold relocate
  cases op
  case ret =>
    dsimp only
    split
    next tail => exact .kept (fun plain => by rw [tail] at plain; cases plain) (by dsimp only; decide)
    next plain =>
      refine (granted_withOperand _ _).bind ?_
      rintro _ ⟨h, rfl⟩
      exact .ret (by simpa using plain) rfl h
  case const =>
    obtain ⟨v, found⟩ := known (.inr rfl)
    exact constant (List.getElem?_eq_some_iff.mp found).1 fun v there => there
  case capture =>
    obtain ⟨v, found⟩ := known (.inl rfl)
    exact constant (List.getElem?_eq_some_iff.mp found).1 fun v there => there
  case retNull | retTrue | retFalse =>
    dsimp only
    split
    next tail => exact .kept (fun plain => by rw [tail] at plain; cases plain) (by dsimp only; decide)
    next plain =>
      refine (granted_withOperand _ _).bind ?_
      rintro _ ⟨h, rfl⟩
      exact .literal (by simpa using plain) rfl h
  case tailCall =>
    dsimp only
    split
    next tail => exact .kept (fun plain => by rw [tail] at plain; cases plain) (by dsimp only; decide)
    next plain =>
      refine (granted_withOperand _ _).bind ?_
      rintro _ ⟨h, rfl⟩
      exact .call (by simpa using plain) rfl h
  case load | store =>
    refine (granted_withOperand _ _).bind ?_
    rintro _ ⟨h, rfl⟩
    exact .slot rfl h
  case label | jump | condJump =>
    refine (granted_withOperand _ _).bind ?_
    rintro _ ⟨h, rfl⟩
    exact .label rfl h
  case panic => exact .kept (fun _ _ => rfl) (by dsimp only; decide)
  all_goals exact .kept (fun _ exits => by cases exits) (by dsimp only; decide)

/-- What is known at the labels of a body in its place, and where it is left. In place of a tail call there
is nothing below it. -/
structure Hosts (s : Site) (U : Outlook) (goals places : Nat → Option Outlook) : Prop where
  labels : ∀ label, label + s.labelBase < s.exit →
    places (label + s.labelBase) = (goals label).map (·.under s.localBase U)
  exit : s.tail = false → places s.exit = some U.exit
  alone : s.tail = true → U.stack = []
  forgot : Operand.forget U.stack = U.stack

variable {U S : Outlook} {goals places : Nat → Option Outlook} {pool : List Value}

theorem Hosts.leaves (host : Hosts s U goals places) (plain : s.tail = false) {T : Outlook}
    (stack : Operand.Each T.stack (.any :: U.stack)) (saved : T.saved = U.saved)
    (stored : ∀ slot, U.stored slot → T.stored slot) (h : s.exit ≤ maxOperand) :
    view.Flows pool places (some T) [⟨.jump, s.exit, h⟩] none := by
  refine .cons ⟨nofun, ?_, ?_⟩ (.refl none)
  · rintro X same
    exact ⟨Nat.zero_le _, fun _ _ other => absurd rfl other, nofun, nofun, nofun, nofun⟩
  · rintro X same -
    obtain rfl := Option.some.inj same
    rw [host.exit plain]
    exact Option.some_le_some.mpr ⟨stack, Nat.zero_le _, saved ▸ List.forall₂_refl _, stored⟩

/-- A literal that is fused with a return pushes one value, and the fused return takes none. -/
theorem effect_fused {op closed : Opcode} (h : fused? op = some closed) :
    op.effect = { pops := 0, pushes := 1 } ∧ closed.effect = { pops := 0, pushes := 0, exits := true } := by
  cases op <;> cases h <;> exact ⟨rfl, rfl⟩

theorem after_fused {op closed : Opcode} (h : fused? op = some closed) (X : Outlook) :
    X.after pool op.bare = { X with stack := .any :: X.stack } := by
  cases op <;> cases h <;> rfl

section

variable (host : Hosts s U goals places) (allows : S.Allows i)

include host allows

theorem Hosts.ret (saved : S.saved = []) (plain : s.tail = false) (op : i.op = .ret) (h : s.exit ≤ maxOperand) :
    view.Flows pool places (some (S.under s.localBase U)) [⟨.jump, s.exit, h⟩] none := by
  have one : S.stack.length = 1 := by
    rw [allows.exits (by rw [op]; rfl) (by rw [op]; nofun) (by rw [op]; nofun)]
    simp [Instruction.pops, op, Opcode.effect]
  obtain ⟨a, alone⟩ := List.length_eq_one_iff.mp one
  refine host.leaves plain ?_ (by simp [Outlook.under, saved]) (fun _ => Or.inl) h
  rw [Outlook.under, alone]
  exact .cons (Operand.le_any a) (Operand.each_refl _)

theorem Hosts.literal (saved : S.saved = []) (plain : s.tail = false) {op : Opcode} (fused : fused? op = some i.op)
    (h : s.exit ≤ maxOperand) : view.Flows pool places (some (S.under s.localBase U))
      [op.bare, ⟨.jump, s.exit, h⟩] none := by
  obtain ⟨effect, exits⟩ := effect_fused fused
  have empty : S.stack = [] := List.length_eq_zero_iff.mp (by
    rw [allows.exits (by rw [exits]) (by rintro panic; rw [panic] at exits; cases exits)
      (by rintro jump; rw [jump] at exits; cases exits), Instruction.pops, exits]
    rfl)
  have pushes : (S.under s.localBase U).after pool op.bare =
      { S.under s.localBase U with stack := .any :: U.stack } := by
    rw [after_fused fused, Outlook.under, empty]
    rfl
  have free : (S.under s.localBase U).Allows op.bare := by
    cases op <;> first
      | cases fused
      | constructor <;> first | exact Nat.zero_le _ | (intro same; cases same)
  have opens : op.bare.op.effect.operand ≠ .labels := by
    rw [Opcode.bare, effect]
    decide
  refine .cons (Outlook.passes opens free) ?_
  rw [Outlook.onward_some (by rw [Opcode.bare, effect]), pushes]
  exact host.leaves plain (Operand.each_refl _) (by simp [Outlook.under, saved])
    (fun _ => Or.inl) h

theorem Hosts.call (saved : S.saved = []) (plain : s.tail = false) (op : i.op = .tailCall) (h : s.exit ≤ maxOperand) :
    view.Flows pool places (some (S.under s.localBase U))
      [⟨.call, i.operand, i.operand_le⟩, ⟨.jump, s.exit, h⟩] none := by
  have whole : S.stack.length = 1 + i.operand := by
    rw [allows.exits (by rw [op]; rfl) (by rw [op]; decide) (by rw [op]; decide)]
    simp [Instruction.pops, op, Opcode.effect]
  have enough : 1 + i.operand ≤ (S.under s.localBase U).stack.length := by
    rw [Outlook.under, List.length_append]
    omega
  let called : Instruction := ⟨.call, i.operand, i.operand_le⟩
  have free : (S.under s.localBase U).Allows called := by
    constructor <;> first | exact enough | (intro same; cases same)
  refine .cons (Outlook.passes (i := called) (show OperandKind.stack ≠ .labels by decide) free) ?_
  rw [Outlook.onward_some rfl]
  refine host.leaves plain ?_ (by simp [Outlook.after, Outlook.under, saved]) (fun _ => Or.inl) h
  have below : (S.stack ++ U.stack).drop (1 + i.operand) = U.stack := by
    rw [← whole, List.drop_left]
  show Operand.Each (.any :: Operand.forget ((S.stack ++ U.stack).drop (1 + i.operand))) _
  rw [below, host.forgot]
  exact Operand.each_refl _

theorem Hosts.slot (locals : i.op.effect.operand = .locals) (h : i.operand + s.localBase ≤ maxOperand) :
    view.Flows pool places (some (S.under s.localBase U)) [⟨i.op, i.operand + s.localBase, h⟩]
      ((view.onward callee.procedure.constants i (some S)).map (·.under s.localBase U)) := by
  obtain ⟨op, operand, small⟩ := i
  have pops : Instruction.pops ⟨op, operand + s.localBase, h⟩ = Instruction.pops ⟨op, operand, small⟩ := by
    cases op <;> cases locals <;> rfl
  have enough : Instruction.pops ⟨op, operand + s.localBase, h⟩ ≤ (S.under s.localBase U).stack.length := by
    rw [pops, Outlook.under, List.length_append]
    exact Nat.le_trans allows.pops (Nat.le_add_right _ _)
  have stays : op.effect.exits = false := by cases op <;> cases locals <;> rfl
  have free : (S.under s.localBase U).Allows ⟨op, operand + s.localBase, h⟩ := by
    refine ⟨enough, fun leaves => ?_, fun reads => ?_, fun loads => ?_, fun pops => ?_, fun makes => ?_⟩
    · cases stays.symm.trans leaves
    · cases reads
      cases locals
    · exact .inr ⟨operand, rfl, allows.slots loads⟩
    · cases pops
      cases locals
    · cases makes
      cases locals
  refine .cons (Outlook.passes (by rw [locals]; nofun) free) ?_
  rw [Outlook.onward_some stays, Outlook.onward_some stays, Option.map_some]
  refine Option.some_le_some.mpr ?_
  by_cases stores : op = .store
  · exact Outlook.after_store allows.pops stores stores rfl
  · refine le_of_eq (Outlook.after_under allows.pops host.forgot ⟨?_, ?_, ?_, stores⟩ rfl pops ?_) <;>
    · rintro rfl
      cases locals

end

theorem Hosts.label (host : Hosts s U goals places) (passes : view.Passes callee.procedure.constants goals i (some S))
    (labels : i.op.effect.operand = .labels) (inside : i.operand + s.labelBase < s.exit)
    (h : i.operand + s.labelBase ≤ maxOperand) :
    view.Flows pool places (some (S.under s.localBase U)) [⟨i.op, i.operand + s.labelBase, h⟩]
      ((view.onward callee.procedure.constants i (some S)).map (·.under s.localBase U)) := by
  have allows := passes.allows rfl
  obtain ⟨op, operand, small⟩ := i
  have place := host.labels operand inside
  have pops : Instruction.pops ⟨op, operand + s.labelBase, h⟩ = Instruction.pops ⟨op, operand, small⟩ := by
    cases op <;> cases labels <;> rfl
  have free : (S.under s.localBase U).Allows ⟨op, operand + s.labelBase, h⟩ := by
    have enough : Instruction.pops ⟨op, operand + s.labelBase, h⟩ ≤ (S.under s.localBase U).stack.length := by
      rw [pops, Outlook.under, List.length_append]
      exact Nat.le_trans allows.pops (Nat.le_add_right _ _)
    refine ⟨enough, fun leaves _ other => ?_, ?_, ?_, ?_, ?_⟩
    · cases op <;> cases labels <;> first | exact absurd rfl other | cases leaves
    all_goals
      intro same
      cases op <;> cases labels <;> cases same
  refine .cons ⟨fun label => ?_, fun same => Option.some.inj same ▸ free, fun same jumps => ?_⟩ ?_
  · rw [place, ← passes.anchor label, Option.map_some]
  · obtain rfl := Option.some.inj same
    have under : ∀ {A B : Outlook}, A ≤ B → A.under s.localBase U ≤ B.under s.localBase U := Outlook.under_le
    have goal := map_known_le under (passes.goal rfl jumps)
    rw [place]
    refine known_trans (Option.some_le_some.mpr (le_of_eq ?_)) goal
    show (S.under s.localBase U).taken ⟨op, operand + s.labelBase, h⟩ =
      (S.taken ⟨op, operand, small⟩).under s.localBase U
    unfold Outlook.taken
    rw [pops, Outlook.drop_under allows.pops]
    by_cases tests : op = .condJump
    · have one : 1 ≤ S.stack.length := by
        simpa [Instruction.pops, tests, Opcode.effect] using allows.pops
      simp only [tests, ↓reduceIte, Outlook.under, Outlook.leastIf_append one]
    · simp only [tests, ↓reduceIte, Outlook.under]
  · cases leaves : op.effect.exits with
    | true =>
      rw [View.onward_exits _ leaves, View.onward_exits _ leaves]
      exact .refl none
    | false =>
      rw [Outlook.onward_some leaves, Outlook.onward_some leaves, Option.map_some]
      refine Option.some_le_some.mpr (le_of_eq (Outlook.after_under allows.pops host.forgot
        ⟨?_, ?_, ?_, ?_⟩ rfl pops ?_)) <;>
      · rintro rfl
        cases labels

theorem constant_flows {v : Value} (found : (c.addConstant v).2.constants <+: pool)
    (fetched : constantFor? callee i = some v) (h : (c.addConstant v).1 ≤ maxOperand) :
    view.Flows pool places (some (S.under s.localBase U)) [⟨.const, (c.addConstant v).1, h⟩]
      ((view.onward callee.procedure.constants i (some S)).map (·.under s.localBase U)) := by
  obtain ⟨u, there, same⟩ := poolConstant_place c.constants v
  have pooled : pool[(c.addConstant v).1]? = some u := getElem?_of_longer found there
  refine .cons (Outlook.passes (i := ⟨.const, _, h⟩) (show OperandKind.constants ≠ .labels from nofun)
    ⟨Nat.zero_le _, nofun, nofun, nofun, nofun, nofun⟩) ?_
  obtain ⟨op, operand, small⟩ := i
  have pushes : (S.under s.localBase U).after pool ⟨.const, (c.addConstant v).1, h⟩ =
      { S.under s.localBase U with stack := .ofConstant (some v) :: (S.stack ++ U.stack) } := by
    rw [← Operand.ofConstant_congr same, ← pooled]
    rfl
  rw [Outlook.onward_some rfl, pushes]
  cases op with
  | const =>
    rw [Outlook.onward_some rfl, Option.map_some, Outlook.after, show callee.procedure.constants[operand]? = some v from fetched]
    exact known_refl _
  | capture =>
    rw [Outlook.onward_some rfl, Option.map_some]
    exact Option.some_le_some.mpr ⟨.cons (Operand.le_any _) (Operand.each_refl _), Nat.le_refl _,
      List.forall₂_refl _, fun _ => id⟩
  | _ => cases fetched

/-- An instruction of a body does in its place what it does in the body. -/
theorem Relocated.flows (r : Relocated s callee c i code d) (host : Hosts s U goals places)
    (found : d.constants <+: pool) (passes : view.Passes callee.procedure.constants goals i (some S)) (saved : S.saved = [])
    (plain : i.op ≠ .pushArgs) (inside : i.op.effect.operand = .labels → i.operand + s.labelBase < s.exit) :
    view.Flows pool places (some (S.under s.localBase U)) code
      ((view.onward callee.procedure.constants i (some S)).map (·.under s.localBase U)) := by
  have allows := passes.allows rfl
  cases r with
  | ret tail op h =>
    rw [View.onward_exits _ (by rw [op]; rfl)]
    exact host.ret allows saved tail op h
  | literal tail fused h =>
    rw [View.onward_exits _ (by rw [(effect_fused fused).2])]
    exact host.literal allows saved tail fused h
  | call tail op h =>
    rw [View.onward_exits _ (by rw [op]; rfl)]
    exact host.call allows saved tail op h
  | constant fetched h => exact constant_flows found fetched h
  | slot locals h => exact host.slot allows locals h
  | label labels h =>
    exact host.label passes labels (inside labels) h
  | kept closed op =>
    have free : (S.under s.localBase U).Allows i := by
      refine Outlook.allows_under allows saved (fun leaves => ?_) (by rintro load; exact op.2.2.1 (by rw [load]; rfl))
      cases tail : s.tail with
      | true => exact .inr (.inr (host.alone tail))
      | false => exact .inl (closed tail leaves)
    refine .cons (Outlook.passes op.2.2.2 free) ?_
    cases leaves : i.op.effect.exits with
    | true =>
      rw [View.onward_exits _ leaves, View.onward_exits _ leaves]
      exact .refl none
    | false =>
      rw [Outlook.onward_some leaves, Outlook.onward_some leaves, Option.map_some]
      refine Option.some_le_some.mpr (le_of_eq (Outlook.after_under allows.pops host.forgot
        ⟨plain, ?_, op.2.1, ?_⟩ rfl rfl fun _ => rfl))
      · exact fun pops => allows.saved pops saved
      · rintro stores
        exact op.2.2.1 (by rw [stores]; rfl)

/-- A body in its place, and the chunk then. -/
inductive RelocatedAll (s : Site) (callee : Closure) : Chunk → List Instruction → List Instruction →
    Chunk → Prop
  | nil {c : Chunk} : RelocatedAll s callee c [] [] c
  | cons {c d e : Chunk} {i : Instruction} {body code rest : List Instruction}
    (first : Relocated s callee c i code d) (others : RelocatedAll s callee d body rest e) :
    RelocatedAll s callee c (i :: body) (code ++ rest) e

theorem granted_relocateAll (s : Site) (known : ∀ i ∈ body, i.op = .capture ∨ i.op = .const →
      ∃ v, constantFor? callee i = some v) (c : Chunk) :
    Granted (relocateAll s callee c body) fun result => RelocatedAll s callee c body result.1 result.2 := by
  induction body generalizing c with
  | nil => exact .nil
  | cons i body ih =>
    refine (granted_relocate s c (known i List.mem_cons_self)).bind fun result first => ?_
    refine (ih (fun j member => known j (List.mem_cons_of_mem _ member)) result.2).bind fun others rest => ?_
    exact .cons first rest

theorem Relocated.constants (h : Relocated s callee c i code d) : c.constants <+: d.constants := by
  cases h with
  | constant => exact poolConstant_extends _ _
  | _ => exact List.prefix_refl _

theorem RelocatedAll.constants (h : RelocatedAll s callee c body code d) :
    c.constants <+: d.constants := by
  induction h with
  | nil => exact List.prefix_refl _
  | cons first _ ih => exact first.constants.trans ih

theorem Relocated.labels (h : Relocated s callee c i code d) :
    labelsOf code = (labelsOf [i]).map (· + s.labelBase) := by
  by_cases anchors : i.op = .label
  · have one : labelsOf [i] = [i.operand] := labelsOf_cons_label anchors []
    cases h with
    | label labels h =>
      have moved : labelsOf [⟨i.op, i.operand + s.labelBase, h⟩] = [i.operand + s.labelBase] :=
        labelsOf_cons_label (i := ⟨i.op, i.operand + s.labelBase, h⟩) anchors []
      rw [one, moved, List.map_singleton]
    | ret tail op h => cases op.symm.trans anchors
    | literal tail fused h =>
      obtain ⟨-, exits⟩ := effect_fused fused
      rw [anchors] at exits
      cases exits
    | call tail op h => cases op.symm.trans anchors
    | constant fetched h => simp [constantFor?, anchors] at fetched
    | slot locals h =>
      rw [anchors] at locals
      cases locals
    | kept closed op =>
      rw [anchors] at op
      exact absurd rfl op.2.2.2
  · have none : labelsOf [i] = [] := labelsOf_cons_plain anchors []
    rw [none, List.map_nil]
    refine labelsOf_eq_nil fun j member label => ?_
    cases h with
    | literal tail fused h =>
      obtain ⟨effect, -⟩ := effect_fused fused
      rcases List.mem_cons.mp member with rfl | jump
      · cases label
        cases effect
      · obtain rfl := List.mem_singleton.mp jump
        cases label
    | call tail op h =>
      rcases List.mem_cons.mp member with rfl | jump
      · cases label
      · obtain rfl := List.mem_singleton.mp jump
        cases label
    | ret tail op h | constant fetched h =>
      obtain rfl := List.mem_singleton.mp member
      cases label
    | slot locals h | label labels h =>
      obtain rfl := List.mem_singleton.mp member
      exact anchors label
    | kept closed op =>
      obtain rfl := List.mem_singleton.mp member
      exact anchors label

theorem RelocatedAll.labels (h : RelocatedAll s callee c body code d) :
    labelsOf code = (labelsOf body).map (· + s.labelBase) := by
  induction h with
  | nil => rfl
  | @cons _ _ _ i body _ _ first _ ih =>
    rw [labelsOf_append, first.labels, ih, ← List.map_append, ← labelsOf_append, List.singleton_append]

/-- What an instruction in the place of a call mentions: the exit, a constant, what an instruction of the
body mentions, or nothing of the chunk. -/
inductive Placed (s : Site) (body : List Instruction) (constants : List Value) (j : Instruction) : Prop
  | exit (plain : s.tail = false) (op : j.op = .jump) (goal : j.operand = s.exit)
  | constant (op : j.op = .const) (inside : j.operand < constants.length)
  | slot {i : Instruction} (member : i ∈ body) (locals : i.op.effect.operand = .locals) (op : j.op = i.op)
      (shifted : j.operand = i.operand + s.localBase)
  | label {i : Instruction} (member : i ∈ body) (labels : i.op.effect.operand = .labels) (op : j.op = i.op)
      (shifted : j.operand = i.operand + s.labelBase)
  | free (op : j.op ≠ .capture ∧ j.op ≠ .const ∧ j.op.effect.operand ≠ .locals ∧
      j.op.effect.operand ≠ .labels)

theorem Relocated.placed (h : Relocated s callee c i code d) (inside : i ∈ body) {j : Instruction}
    (member : j ∈ code) : Placed s body d.constants j := by
  cases h with
  | ret tail op h =>
    obtain rfl := List.mem_singleton.mp member
    exact .exit tail rfl rfl
  | @literal tail op fused h =>
    rcases List.mem_cons.mp member with rfl | jump
    · obtain ⟨effect, -⟩ := effect_fused fused
      refine .free ⟨?_, ?_, by rw [Opcode.bare, effect]; decide, by rw [Opcode.bare, effect]; decide⟩ <;>
      · rintro same
        rw [show op = _ from same] at effect
        cases effect
    · obtain rfl := List.mem_singleton.mp jump
      exact .exit tail rfl rfl
  | call tail op h =>
    rcases List.mem_cons.mp member with rfl | jump
    · exact .free (by dsimp only; decide)
    · obtain rfl := List.mem_singleton.mp jump
      exact .exit tail rfl rfl
  | @constant v fetched h =>
    obtain rfl := List.mem_singleton.mp member
    obtain ⟨u, there, -⟩ := poolConstant_place c.constants v
    exact .constant rfl (List.getElem?_eq_some_iff.mp there).1
  | slot locals h =>
    obtain rfl := List.mem_singleton.mp member
    exact .slot inside locals rfl rfl
  | label labels h =>
    obtain rfl := List.mem_singleton.mp member
    exact .label inside labels rfl rfl
  | kept closed op =>
    obtain rfl := List.mem_singleton.mp member
    exact .free op

theorem Placed.mono {other : List Instruction} {constants more : List Value} {j : Instruction}
    (h : Placed s body constants j) (within : ∀ i ∈ body, i ∈ other) (grows : constants <+: more) :
    Placed s other more j := by
  cases h with
  | exit plain op goal => exact .exit plain op goal
  | constant op inside => exact .constant op (Nat.lt_of_lt_of_le inside grows.length_le)
  | slot member locals op shifted => exact .slot (within _ member) locals op shifted
  | label member labels op shifted => exact .label (within _ member) labels op shifted
  | free op => exact .free op

theorem RelocatedAll.placed (h : RelocatedAll s callee c body code d) {j : Instruction}
    (member : j ∈ code) : Placed s body d.constants j := by
  induction h with
  | nil => cases member
  | cons first others ih =>
    rcases List.mem_append.mp member with here | there
    · exact (first.placed List.mem_cons_self here).mono (fun _ => id) others.constants
    · exact (ih there).mono (fun _ => List.mem_cons_of_mem _) (List.prefix_refl _)

/-- A body does in its place what its chart says, if each of its instructions does. -/
theorem RelocatedAll.flows {W : Type} [Preorder W] {u v : View W} {D goals : Nat → Option W} {place : W → W}
    {whole : List Instruction} (h : RelocatedAll s callee c body code d)
    (charted : u.Charted callee.procedure.constants whole D) (distinct : (labelsOf whole).Nodup)
    (mono : ∀ {X Y : W}, X ≤ Y → place X ≤ place Y)
    (labels : ∀ i ∈ whole, i.op.effect.operand = .labels →
      goals (i.operand + s.labelBase) = (View.goalsOf whole D i.operand).map place)
    (each : ∀ {b e : Chunk} {pc : Nat} {i : Instruction} {code : List Instruction} {S : W},
      Relocated s callee b i code e → e.constants <+: d.constants → whole[pc]? = some i → D pc = some S →
        u.Passes callee.procedure.constants (View.goalsOf whole D) i (some S) → v.Flows pool goals
          (some (place S)) code ((u.onward callee.procedure.constants i (some S)).map place))
    {start : Nat} (suffix : whole.drop start = body) :
    v.Flows pool goals ((D start).map place) code none := by
  induction h generalizing start with
  | nil =>
    rw [charted.ends (List.drop_eq_nil_iff.mp suffix)]
    exact .refl none
  | @cons c d e i body code rest first others ih =>
    obtain ⟨here, later⟩ := suffix_cons suffix
    refine View.Flows.append ?_ ((ih each later).weaken (map_known_le mono (charted.next here)))
    have passes := charted.passes distinct here
    cases at_start : D start with
    | none =>
      rw [at_start] at passes
      rw [View.onward_none]
      refine .dead fun j member label => ?_
      have labelled : j.operand ∈ labelsOf code := mem_labelsOf.mpr ⟨j, member, label, rfl⟩
      rw [first.labels] at labelled
      obtain ⟨l, listed, same⟩ := List.mem_map.mp labelled
      obtain ⟨k, single, anchors, rfl⟩ := mem_labelsOf.mp listed
      obtain rfl := List.mem_singleton.mp single
      rw [← same, labels k (List.mem_of_getElem? here) (by rw [anchors]; rfl), ← passes.anchor anchors]
      rfl
    | some S =>
      rw [at_start] at passes
      exact each first others.constants here at_start passes

/-- A body that puts no arguments aside does in its place what its chart says. -/
theorem Hosts.flows {D : Nat → Option Outlook} {whole : List Instruction}
    (host : Hosts s U (View.goalsOf whole D) places) (h : RelocatedAll s callee c whole code d)
    (charted : view.Charted callee.procedure.constants whole D) (distinct : (labelsOf whole).Nodup)
    (trim : ∀ {pc : Nat} {X : Outlook}, D pc = some X → X.saved = []) (plain : ∀ i ∈ whole, i.op ≠ .pushArgs)
    (inside : ∀ i ∈ whole, i.op.effect.operand = .labels → i.operand + s.labelBase < s.exit)
    (found : d.constants <+: pool) :
    view.Flows pool places ((D 0).map (·.under s.localBase U)) code none :=
  h.flows charted distinct Outlook.under_le (fun i member labels => host.labels _ (inside i member labels))
    (fun first grows here at_pc passes => first.flows host (grows.trans found) passes (trim at_pc)
      (plain _ (List.mem_of_getElem? here)) (inside _ (List.mem_of_getElem? here))) rfl

end Chunk

end StackLisp
