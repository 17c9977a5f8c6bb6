import StackLisp.Frame
import StackLisp.Settings

/-!
A pool of frames in eight size classes, of 8 to 1024 slots. A class without a free frame makes a span of
them at once. Frames above the largest class are made and dropped singly.
-/

namespace StackLisp

structure SizeClass where
  free : List Frame := []
  allocated : Nat := 0
  released : Nat := 0
  refills : Nat := 0

structure Pool where
  classes : List SizeClass
  spanEntries : Nat
  unpooled : Nat := 0
  /-- The number of the next span. -/
  nextSpan : Nat := 0

/-- A frame handed out, the pool left, and whether a class was refilled for it. -/
structure Grant where
  frame : Frame
  pool : Pool
  refilled : Bool

namespace Pool

def classCount : Nat := 8

def capacity (i : Nat) : Nat :=
  8 * Nat.pow 2 i

/-- The smallest class whose frames have the size. -/
def classFor? (size : Nat) : Option Nat :=
  (List.range classCount).find? fun i => size ≤ capacity i

def new (o : PoolOptions) : Pool :=
  { classes := List.replicate classCount {}, spanEntries := max o.spanEntries 1 }

def classAt (p : Pool) (i : Nat) : SizeClass :=
  p.classes[i]?.getD {}

def setClass (p : Pool) (i : Nat) (c : SizeClass) : Pool :=
  { p with classes := p.classes.set i c }

/-- Frames of one new span. -/
def carve (p : Pool) (length entries : Nat) : List Frame × Pool :=
  (List.replicate entries (Frame.blank length p.nextSpan), { p with nextSpan := p.nextSpan + 1 })

/-- A frame that is the whole of a new span. -/
def lone (p : Pool) (length : Nat) : Frame × Pool :=
  (Frame.blank length p.nextSpan, { p with nextSpan := p.nextSpan + 1 })

def alloc (p : Pool) (size : Nat) : Grant :=
  match classFor? size with
  | none =>
    let (frame, p) := p.lone size
    ⟨frame, { p with unpooled := p.unpooled + 1 }, false⟩
  | some i =>
    let c := p.classAt i
    match c.free with
    | frame :: free =>
      ⟨frame, p.setClass i { c with free, allocated := c.allocated + 1 }, false⟩
    | [] =>
      let (frames, p) := p.carve (capacity i) p.spanEntries
      let c := { c with allocated := c.allocated + 1, refills := c.refills + 1 }
      match frames with
      | frame :: free => ⟨frame, p.setClass i { c with free }, true⟩
      | [] =>
        let (frame, p) := p.lone (capacity i)
        ⟨frame, p.setClass i c, true⟩

/-- Takes back a frame of exactly the size of a class, cleared; any other is dropped. -/
def free (p : Pool) (frame : Frame) : Pool :=
  match classFor? frame.length with
  | none => p
  | some i =>
    if capacity i = frame.length then
      let c := p.classAt i
      p.setClass i { c with free := frame.clear :: c.free, released := c.released + 1 }
    else p

/-- A frame of at least the size: the one in hand, cleared, or a new one for it. -/
def reserve (p : Pool) (frame : Frame) (size : Nat) : Grant :=
  if size ≤ frame.length then ⟨frame.clear, p, false⟩
  else
    let grant := p.alloc size
    { grant with pool := grant.pool.free frame }

/-- Frames of the classes that are handed out. -/
def inUse (p : Pool) : Nat :=
  p.classes.foldr (fun c n => c.allocated - c.released + n) 0

theorem capacity_lt {i j : Nat} (h : i < j) : capacity i < capacity j :=
  Nat.mul_lt_mul_of_pos_left (Nat.pow_lt_pow_right (by decide) h) (by decide)

theorem classFor?_eq_some_iff {size i : Nat} :
    classFor? size = some i ↔ i < classCount ∧ size ≤ capacity i ∧ ∀ j < i, capacity j < size := by
  simp only [classFor?, List.find?_range_eq_some, decide_eq_true_eq, List.mem_range,
    Bool.not_eq_true', decide_eq_false_iff_not, Nat.not_le]
  constructor
  · rintro ⟨fits, inside, least⟩
    exact ⟨inside, fits, least⟩
  · rintro ⟨inside, fits, least⟩
    exact ⟨fits, inside, least⟩

theorem classFor?_capacity {i : Nat} (h : i < classCount) : classFor? (capacity i) = some i :=
  classFor?_eq_some_iff.mpr ⟨h, Nat.le_refl _, fun _ => capacity_lt⟩

end Pool

end StackLisp
