import StackLisp.Chunk
import StackLisp.CompileError

/-!
Checking a chunk. Labels are anchored at most once, and those that control may go to at least once.
Every path from the start is walked with the effects of its instructions: each address is reached with
one stack depth, nothing pops more than there is, and no path leaves the code.
-/

namespace StackLisp

/-- What the check finds: the stack slots needed, the address of each label, and the depth at each
address that is reached. -/
structure Checked where
  stackSize : Nat
  labels : List (Option Nat)
  depths : List (Option Nat)
deriving DecidableEq

namespace Chunk

/-- The label that an instruction mentions. -/
def labelOf? (i : Instruction) : Option Nat :=
  if i.op.effect.operand = .labels then some i.operand else none

/-- The anchors from address `pc` on, after those in `found`, as pairs of label and address. -/
def anchorsFrom (pc : Nat) (found : List (Nat × Nat)) :
    List Instruction → Except CompileError (List (Nat × Nat))
  | [] => .ok found
  | i :: code =>
    if i.op.effect.anchors then
      match found.lookup i.operand with
      | some _ => .error (.duplicateLabel i.operand)
      | none => anchorsFrom (pc + 1) ((i.operand, pc) :: found) code
    else anchorsFrom (pc + 1) found code

/-- The address of each label, if every jump has one to go to. -/
def anchors (code : List Instruction) : Except CompileError (List (Nat × Nat)) := do
  let found ← anchorsFrom 0 [] code
  match code.find? fun i => i.op.jumps && (found.lookup i.operand).isNone with
  | some i => .error (.unanchoredLabel i.operand)
  | none => .ok found

/-- Labels are numbered below this. -/
def labelBound (code : List Instruction) (labelCount : Nat) : Nat :=
  ((code.filterMap labelOf?).map (· + 1)).foldl max labelCount

/-- Where control goes from an instruction at `pc`, the next address first. -/
def successors (found : List (Nat × Nat)) (pc : Nat) (i : Instruction) : List Nat :=
  (if i.op.effect.exits then [] else [pc + 1]) ++
    (if i.op.jumps then (found.lookup i.operand).toList else [])

theorem length_successors_le (found : List (Nat × Nat)) (pc : Nat) (i : Instruction) :
    (successors found pc i).length ≤ 2 := by
  unfold successors
  split <;> split <;> cases found.lookup i.operand <;> simp

/-- Addresses without a depth yet. -/
def unreached (depths : List (Option Nat)) : Nat :=
  depths.countP Option.isNone

theorem unreached_set_lt {depths : List (Option Nat)} {pc depth : Nat}
    (h : depths[pc]? = some none) : unreached (depths.set pc (some depth)) < unreached depths := by
  induction depths generalizing pc with
  | nil => simp at h
  | cons d ds ih =>
    cases pc with
    | zero =>
      have hd : d = none := by simpa using h
      simp [unreached, hd]
    | succ pc =>
      have step : unreached (ds.set pc (some depth)) < unreached ds := ih (by simpa using h)
      simp only [unreached, List.set_cons_succ, List.countP_cons] at step ⊢
      omega

/-- Follows every path. `work` holds addresses and the depths they are reached with, the next one first;
`deepest` is the greatest depth after an instruction so far. -/
def walk (code : List Instruction) (found : List (Nat × Nat)) (depths : List (Option Nat))
    (work : List (Nat × Nat)) (deepest : Nat) : Except CompileError (Nat × List (Option Nat)) :=
  match work with
  | [] => .ok (deepest, depths)
  | (pc, depth) :: work =>
    match code[pc]? with
    | none => .error .missingReturn
    | some i =>
      match _h : depths[pc]? with
      | none => .error .missingReturn
      | some (some seen) =>
        if seen = depth then walk code found depths work deepest
        else .error (.stackImbalance pc seen depth)
      | some none =>
        if depth < i.pops then .error (.stackUnderflow pc)
        else
          let next := depth - i.pops + i.pushes
          walk code found (depths.set pc (some depth))
            ((successors found pc i).map (·, next) ++ work) (max deepest next)
termination_by 2 * unreached depths + work.length
decreasing_by
  · simp
  · have fewer : unreached (depths.set pc (some depth)) < unreached depths := unreached_set_lt _h
    have few := length_successors_le found pc i
    simp only [List.length_append, List.length_map, List.length_cons]
    omega

def verify (c : Chunk) : Except CompileError Checked := do
  let found ← anchors c.code
  let (stackSize, depths) ← walk c.code found (List.replicate c.code.length none) [(0, 0)] 0
  let labels := (List.range (labelBound c.code c.labelCount)).map fun label => found.lookup label
  .ok { stackSize, labels, depths }

end Chunk

end StackLisp
