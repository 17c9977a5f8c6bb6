import Mathlib.Algebra.BigOperators.Group.Finset.Piecewise
import Mathlib.Data.List.Perm.Basic
import StackLisp.Proofs.Pools

/-!
The accounts of a pool. Whatever is taken from it and given back to it, its counters tell how many frames
are free, and how many it has handed out if no others were given to it.
-/

namespace StackLisp

/-- Whether a frame has the size of a class. -/
def Frame.isOf (f : Frame) (i : Nat) : Bool :=
  f.length = Pool.capacity i

/-- The frames of a class among others. -/
def tally (frames : List Frame) (i : Nat) : Nat :=
  frames.countP (·.isOf i)

theorem tally_append (fs gs : List Frame) (i : Nat) : tally (fs ++ gs) i = tally fs i + tally gs i :=
  List.countP_append

theorem tally_cons (f : Frame) (fs : List Frame) (i : Nat) : tally (f :: fs) i = tally [f] i + tally fs i :=
  tally_append [f] fs i

theorem tally_perm {fs gs : List Frame} (h : fs.Perm gs) (i : Nat) : tally fs i = tally gs i :=
  h.countP_eq _

theorem tally_single (f : Frame) (i : Nat) : tally [f] i = if f.length = Pool.capacity i then 1 else 0 := by
  simp [tally, Frame.isOf, List.countP_cons]

theorem tally_congr {f g : Frame} (h : f.length = g.length) (i : Nat) : tally [f] i = tally [g] i := by
  rw [tally_single, tally_single, h]

namespace Pool

variable {p q : Pool} {frame : Frame} {size i j : Nat}

theorem capacity_injective : Function.Injective capacity :=
  StrictMono.injective fun _ _ => capacity_lt

theorem classFor?_eq_none (h : classFor? size = none) : ∀ i < classCount, capacity i < size := by
  unfold classFor? at h
  rw [List.find?_eq_none] at h
  intro i inside
  simpa using h i (List.mem_range.mpr inside)

/-- What is there to be handed out of a class: the free frames, or those of a new span if there are none. -/
def stock (p : Pool) (i : Nat) : List Frame :=
  match (p.classAt i).free with
  | [] => (p.carve (capacity i) p.spanEntries).1
  | free => free

theorem stock_ne_nil (entries : 0 < p.spanEntries) (i : Nat) : p.stock i ≠ [] := by
  unfold stock
  split
  · simpa [carve] using Nat.ne_of_gt entries
  next filled => exact filled

/-- The class after one frame was handed out of its stock. -/
def drawn (c : SizeClass) (rest : List Frame) : SizeClass :=
  { c with
    free := rest
    allocated := c.allocated + 1
    refills := c.refills + if c.free.isEmpty then 1 else 0 }

/-- The class after one frame was given back to it. -/
def returned (c : SizeClass) (frame : Frame) : SizeClass :=
  { c with free := frame.clear :: c.free, released := c.released + 1 }

theorem classAt_of_classes (h : q.classes = p.classes) : q.classAt i = p.classAt i := by
  unfold classAt
  rw [h]

theorem classAt_of_set {c : SizeClass} (h : q.classes = p.classes.set i c) (inside : i < p.classes.length) :
    q.classAt j = if i = j then c else p.classAt j := by
  unfold classAt
  rw [h, List.getElem?_set]
  by_cases same : i = j
  · rw [if_pos same, if_pos same, if_pos inside, Option.getD_some]
  · rw [if_neg same, if_neg same]

theorem alloc_of_large (h : classFor? size = none) :
    p.alloc size = ⟨.blank size p.nextSpan,
      { p with nextSpan := p.nextSpan + 1, unpooled := p.unpooled + 1 }, false⟩ := by
  simp only [alloc, h, lone]

theorem alloc_of_class (h : classFor? size = some i) (entries : 0 < p.spanEntries) :
    ∃ rest, p.stock i = (p.alloc size).frame :: rest ∧
      (p.alloc size).pool.classes = p.classes.set i (drawn (p.classAt i) rest) ∧
      (p.alloc size).pool.spanEntries = p.spanEntries ∧
      (p.alloc size).pool.unpooled = p.unpooled := by
  cases listed : (p.classAt i).free with
  | cons frame free =>
    refine ⟨free, ?_⟩
    simp [alloc, stock, h, listed, setClass, drawn]
  | nil =>
    obtain ⟨n, count⟩ := Nat.exists_eq_add_one.mpr entries
    refine ⟨List.replicate n (.blank (capacity i) p.nextSpan), ?_⟩
    simp [alloc, stock, h, listed, carve, count, List.replicate_succ, setClass, drawn]

theorem free_of_class (inside : i < classCount) (whole : frame.length = capacity i) :
    p.free frame = p.setClass i (returned (p.classAt i) frame) := by
  unfold free
  rw [whole, classFor?_capacity inside]
  exact if_pos rfl

theorem free_of_other (odd : ∀ i < classCount, frame.length ≠ capacity i) : p.free frame = p := by
  unfold free
  split
  · rfl
  next i chosen =>
    rw [classFor?_eq_some_iff] at chosen
    exact if_neg (Ne.symm (odd i chosen.1))

theorem class_or_not (frame : Frame) :
    (∃ i < classCount, frame.length = capacity i) ∨ ∀ i < classCount, frame.length ≠ capacity i := by
  by_cases h : ∃ i < classCount, frame.length = capacity i
  · exact Or.inl h
  · exact Or.inr fun i inside same => h ⟨i, inside, same⟩

/-- The counters of each class account for its free frames. -/
structure Balanced (p : Pool) (entries : Nat) : Prop where
  tidy : p.Tidy
  classes : p.classes.length = classCount
  spanEntries : p.spanEntries = entries
  account : ∀ i, (p.classAt i).free.length + (p.classAt i).allocated =
    (p.classAt i).released + (p.classAt i).refills * entries

variable {entries : Nat}

theorem classAt_new (o : PoolOptions) (i : Nat) : (new o).classAt i = {} := by
  show (List.replicate classCount ({} : SizeClass))[i]?.getD {} = {}
  rw [List.getElem?_replicate]
  split <;> rfl

theorem balanced_new (o : PoolOptions) : (new o).Balanced (max o.spanEntries 1) where
  tidy := tidy_new o
  classes := List.length_replicate
  spanEntries := rfl
  account i := by simp [classAt_new]

theorem length_stock (h : p.spanEntries = entries) :
    (p.stock i).length = (p.classAt i).free.length +
      (if (p.classAt i).free.isEmpty then 1 else 0) * entries := by
  unfold stock
  split
  next none => simp [none, carve, h]
  next some => cases listed : (p.classAt i).free <;> simp_all

theorem Balanced.alloc (h : p.Balanced entries) (positive : 0 < entries) (size : Nat) :
    (p.alloc size).pool.Balanced entries := by
  have tidy := (h.tidy.alloc size).2
  cases chosen : classFor? size with
  | none =>
    rw [alloc_of_large chosen] at tidy ⊢
    exact ⟨tidy, h.classes, h.spanEntries, h.account⟩
  | some i =>
    obtain ⟨rest, stock, classes, same, -⟩ := alloc_of_class chosen (h.spanEntries ▸ positive)
    have inside : i < p.classes.length := h.classes ▸ (classFor?_eq_some_iff.mp chosen).1
    refine ⟨tidy, by rw [classes, List.length_set, h.classes], same.trans h.spanEntries, fun j => ?_⟩
    rw [classAt_of_set classes inside]
    split
    · have count := length_stock (i := i) h.spanEntries
      rw [stock, List.length_cons] at count
      have before := h.account i
      simp only [drawn, Nat.add_mul]
      omega
    · exact h.account j

theorem Balanced.free (h : p.Balanced entries) (frame : Frame) : (p.free frame).Balanced entries := by
  have tidy := h.tidy.free frame
  rcases class_or_not frame with ⟨i, small, whole⟩ | odd
  · rw [free_of_class small whole] at tidy ⊢
    have inside : i < p.classes.length := h.classes ▸ small
    refine ⟨tidy, List.length_set.trans h.classes, h.spanEntries, fun j => ?_⟩
    rw [classAt_of_set (p := p) rfl inside]
    split
    · have before := h.account i
      simp only [returned, List.length_cons]
      omega
    · exact h.account j
  · rwa [free_of_other odd]

theorem Balanced.reserve (h : p.Balanced entries) (positive : 0 < entries) (frame : Frame) (size : Nat) :
    (p.reserve frame size).pool.Balanced entries := by
  unfold Pool.reserve
  split
  · exact h
  · exact (h.alloc positive size).free frame

theorem Balanced.carve (h : p.Balanced entries) (length count : Nat) :
    (p.carve length count).2.Balanced entries :=
  ⟨h.tidy, h.classes, h.spanEntries, h.account⟩

/-- A frame that is handed out is clear and large enough; it has the size of the smallest class that is, or
the size asked for if none is. -/
structure Grants (p : Pool) (size : Nat) (g : Grant) : Prop where
  clear : g.frame.isClear
  enough : size ≤ g.frame.length
  pooled : ∀ {i}, classFor? size = some i → g.frame.length = capacity i ∧ g.pool.unpooled = p.unpooled ∧
    p.stock i = g.frame :: (g.pool.classAt i).free ∧
    (g.pool.classAt i).allocated = (p.classAt i).allocated + 1 ∧
    ∀ j, j ≠ i → g.pool.classAt j = p.classAt j
  single : classFor? size = none → g.frame.length = size ∧ g.pool.unpooled = p.unpooled + 1 ∧
    g.pool.classes = p.classes

theorem mem_stock (tidy : p.Tidy) (member : frame ∈ p.stock i) :
    ∃ span, frame = Frame.blank (capacity i) span := by
  unfold stock at member
  split at member
  · exact ⟨_, (List.mem_replicate.mp member).2⟩
  · exact tidy i frame member

theorem Balanced.grants (h : p.Balanced entries) (positive : 0 < entries) (size : Nat) :
    p.Grants size (p.alloc size) := by
  obtain ⟨⟨length, span, blank, enough⟩, -⟩ := h.tidy.alloc size
  refine ⟨?_, ?_, fun {i} chosen => ?_, fun chosen => ?_⟩
  · rw [blank]
    exact Frame.isClear_blank length span
  · rw [blank, Frame.length_blank]
    exact enough
  · obtain ⟨rest, stock, classes, -, unpooled⟩ := alloc_of_class chosen (h.spanEntries ▸ positive)
    have inside : i < p.classes.length := h.classes ▸ (classFor?_eq_some_iff.mp chosen).1
    obtain ⟨span, same⟩ := mem_stock h.tidy (stock ▸ List.mem_cons_self)
    refine ⟨by rw [same, Frame.length_blank], unpooled, ?_, ?_, fun j other => ?_⟩
    · rw [stock, classAt_of_set classes inside, if_pos rfl]
      rfl
    · rw [classAt_of_set classes inside, if_pos rfl]
      rfl
    · rw [classAt_of_set classes inside, if_neg other.symm]
  · rw [alloc_of_large chosen]
    exact ⟨Frame.length_blank _ _, rfl, rfl⟩

/-- How many more frames of a class were handed out than given back. -/
def balance (p : Pool) (i : Nat) : Int :=
  (p.classAt i).allocated - (p.classAt i).released

theorem balance_of_classes (h : q.classes = p.classes) : q.balance i = p.balance i := by
  unfold balance
  rw [classAt_of_classes h]

theorem balance_alloc (h : p.Balanced entries) (positive : 0 < entries) (size : Nat) (small : i < classCount) :
    (p.alloc size).pool.balance i = p.balance i + tally [(p.alloc size).frame] i := by
  have grants := h.grants positive size
  rw [tally_single]
  cases chosen : classFor? size with
  | none =>
    obtain ⟨length, -, classes⟩ := grants.single chosen
    have larger := classFor?_eq_none chosen i small
    rw [balance_of_classes classes, length, if_neg (Nat.ne_of_gt larger)]
    omega
  | some j =>
    obtain ⟨length, -, -, allocated, others⟩ := grants.pooled chosen
    by_cases same : i = j
    · subst same
      obtain ⟨rest, -, classes, -, -⟩ := alloc_of_class chosen (h.spanEntries ▸ positive)
      rw [length, if_pos rfl, balance, classAt_of_set classes (h.classes ▸ small), if_pos rfl]
      simp only [drawn, balance]
      omega
    · rw [length, if_neg fun equal => same (capacity_injective equal).symm, balance, others i same, balance]
      omega

theorem balance_free (h : p.classes.length = classCount) (frame : Frame) (small : i < classCount) :
    (p.free frame).balance i = p.balance i - tally [frame] i := by
  rw [tally_single]
  rcases class_or_not frame with ⟨j, inside, whole⟩ | odd
  · rw [free_of_class inside whole, whole, balance, classAt_of_set (p := p) rfl (h ▸ inside)]
    by_cases same : j = i
    · subst same
      rw [if_pos rfl, if_pos rfl]
      simp only [returned, balance]
      omega
    · rw [if_neg same, if_neg fun equal => same (capacity_injective equal), balance]
      omega
  · rw [free_of_other odd, if_neg (odd i small)]
    omega

/-- The pool has lent just these frames since its balances were as at the start. -/
structure Lends (p : Pool) (entries : Nat) (start : Nat → Int) (out : List Frame) : Prop where
  balanced : p.Balanced entries
  balance : ∀ i < classCount, p.balance i = start i + tally out i

variable {start : Nat → Int} {out rest : List Frame} {f g : Frame}

theorem Balanced.lends (h : p.Balanced entries) : p.Lends entries p.balance [] :=
  ⟨h, fun i _ => (Int.add_zero (p.balance i)).symm⟩

theorem Lends.perm (h : p.Lends entries start out) (same : out.Perm rest) : p.Lends entries start rest :=
  ⟨h.balanced, fun i small => tally_perm same i ▸ h.balance i small⟩

theorem Lends.resize (h : p.Lends entries start (f :: rest)) (same : f.length = g.length) :
    p.Lends entries start (g :: rest) := by
  refine ⟨h.balanced, fun i small => ?_⟩
  rw [h.balance i small, tally_cons f rest, tally_congr same, ← tally_cons g rest]

theorem Lends.alloc (h : p.Lends entries start out) (positive : 0 < entries) (size : Nat) :
    (p.alloc size).pool.Lends entries start ((p.alloc size).frame :: out) := by
  refine ⟨h.balanced.alloc positive size, fun i small => ?_⟩
  rw [balance_alloc h.balanced positive size small, h.balance i small, tally_cons _ out]
  omega

theorem Lends.free (h : p.Lends entries start (f :: rest)) : (p.free f).Lends entries start rest := by
  refine ⟨h.balanced.free f, fun i small => ?_⟩
  rw [balance_free h.balanced.classes f small, h.balance i small, tally_cons f rest]
  omega

theorem Lends.reserve (h : p.Lends entries start (f :: rest)) (positive : 0 < entries) (size : Nat) :
    (p.reserve f size).pool.Lends entries start ((p.reserve f size).frame :: rest) := by
  unfold Pool.reserve
  split
  · exact h.resize (Frame.length_clear f).symm
  · exact ((h.alloc positive size).perm (.swap _ _ _)).free

/-- The frames in use are those that the classes have handed out on balance. -/
theorem inUse_eq_sum (h : p.classes.length = classCount) :
    p.inUse = ∑ i ∈ Finset.range classCount, (p.balance i).toNat := by
  have listed : p.classes = (List.range classCount).map p.classAt := by
    refine List.ext_getElem? fun i => ?_
    rw [List.getElem?_map]
    rcases Nat.lt_or_ge i classCount with inside | beyond
    · rw [List.getElem?_range inside, Option.map_some, classAt, List.getElem?_eq_getElem (h ▸ inside)]
      rfl
    · rw [List.getElem?_eq_none (h ▸ beyond), List.getElem?_eq_none (by simpa using beyond)]
      rfl
  have folded : p.inUse = ((List.range classCount).map fun i =>
      (p.classAt i).allocated - (p.classAt i).released).sum := by
    rw [inUse, listed, List.foldr_map, List.sum_eq_foldr, List.foldr_map]
  have range : (List.range classCount).toFinset = Finset.range classCount := by
    ext i
    simp
  rw [folded, ← List.sum_toFinset _ List.nodup_range, range]
  refine Finset.sum_congr rfl fun i _ => ?_
  unfold Pool.balance
  omega

/-- Frames that are of some class, told class by class. -/
theorem sum_tally (frames : List Frame) (sized : ∀ f ∈ frames, (∃ i < classCount, f.length = capacity i) ∨
      classFor? f.length = none) :
    ∑ i ∈ Finset.range classCount, tally frames i = frames.countP fun f => (classFor? f.length).isSome := by
  induction frames with
  | nil => simp [tally]
  | cons f fs ih =>
    obtain ⟨first, rest⟩ := List.forall_mem_cons.mp sized
    simp only [tally_cons f fs, Finset.sum_add_distrib, ih rest, List.countP_cons, tally_single]
    rw [Nat.add_comm]
    congr 1
    rcases first with ⟨i, inside, whole⟩ | large
    · simp only [whole, classFor?_capacity inside, capacity_injective.eq_iff]
      simp [inside]
    · rw [large]
      refine (Finset.sum_eq_zero fun i member => if_neg fun same => ?_).trans rfl
      rw [same, classFor?_capacity (Finset.mem_range.mp member)] at large
      cases large

end Pool

end StackLisp
