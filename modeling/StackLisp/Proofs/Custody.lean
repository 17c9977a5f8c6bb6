import StackLisp.Proofs.Accounts

/-!
Histories of a pool. Frames are taken from it, held, written to, dropped and given back, also frames that
it has never handed out. All the while its free frames are clear and of their class, its counters agree,
and what it hands out is as asked for.
-/

namespace StackLisp

/-- A frame outside the pool. One on loan goes back by itself when it is dropped. -/
structure Held where
  frame : Frame
  onLoan : Bool

/-- A pool, the frames that are held outside, and those that were dropped without going back. -/
structure Custody where
  pool : Pool
  held : List Held := []
  lost : List Frame := []

/-- What is done with a pool and with frames, which are told by their places among those held. -/
inductive Deed where
  | alloc (size : Nat)
  | lease (size : Nat)
  | carve (length entries : Nat)
  | free (i : Nat)
  | drop (i : Nat)
  | reserve (i size : Nat)
  | write (i slot : Nat) (v : Value)

/-- Whether a deed leaves the pool with frames of its own. -/
def Deed.isOwn : Deed → Bool
  | carve _ _ => false
  | _ => true

namespace Custody

variable {c : Custody} {entries i : Nat}

def new (o : PoolOptions) : Custody :=
  { pool := .new o }

def take (c : Custody) (g : Grant) (onLoan : Bool) : Custody :=
  { c with pool := g.pool, held := ⟨g.frame, onLoan⟩ :: c.held }

def putBack (c : Custody) (i : Nat) (frame : Frame) : Custody :=
  { c with pool := c.pool.free frame, held := c.held.eraseIdx i }

/-- A deed with a frame that is not there, or that it cannot be done with, does nothing. -/
def step (c : Custody) : Deed → Custody
  | .alloc size => c.take (c.pool.alloc size) false
  | .lease size => c.take (c.pool.alloc size) true
  | .carve length entries =>
    let (frames, pool) := c.pool.carve length entries
    { c with pool, held := frames.map (⟨·, false⟩) ++ c.held }
  | .free i =>
    match c.held[i]? with
    | some ⟨frame, false⟩ => c.putBack i frame
    | _ => c
  | .drop i =>
    match c.held[i]? with
    | some ⟨frame, true⟩ => c.putBack i frame
    | some ⟨frame, false⟩ => { c with held := c.held.eraseIdx i, lost := frame :: c.lost }
    | none => c
  | .reserve i size =>
    match c.held[i]? with
    | some ⟨frame, true⟩ =>
      let g := c.pool.reserve frame size
      { c with pool := g.pool, held := c.held.set i ⟨g.frame, true⟩ }
    | _ => c
  | .write i slot v =>
    match c.held[i]? with
    | some h => { c with held := c.held.set i { h with frame := (h.frame.write? slot v).getD h.frame } }
    | none => c

def after (c : Custody) (deeds : List Deed) : Custody :=
  deeds.foldl step c

theorem balanced_step (h : c.pool.Balanced entries) (positive : 0 < entries) (d : Deed) :
    (c.step d).pool.Balanced entries := by
  cases d with
  | alloc size => exact h.alloc positive size
  | lease size => exact h.alloc positive size
  | carve length count => exact h.carve length count
  | free i =>
    unfold step
    dsimp only
    split
    next frame _ => exact h.free frame
    · exact h
  | drop i =>
    unfold step
    dsimp only
    split
    next frame _ => exact h.free frame
    · exact h
    · exact h
  | reserve i size =>
    unfold step
    dsimp only
    split
    next frame _ => exact h.reserve positive frame size
    · exact h
  | write i slot v =>
    unfold step
    dsimp only
    split <;> exact h

theorem balanced_after (h : c.pool.Balanced entries) (positive : 0 < entries) (deeds : List Deed) :
    (c.after deeds).pool.Balanced entries := by
  induction deeds generalizing c with
  | nil => exact h
  | cons d deeds ih => exact ih (balanced_step h positive d)

/-- The frames that have not gone back. -/
def outside (c : Custody) : List Frame :=
  c.held.map Held.frame ++ c.lost

/-- The frames outside are those that the pool has lent: of a class, or above all. -/
structure Accounted (c : Custody) (entries : Nat) : Prop where
  lends : c.pool.Lends entries (fun _ => 0) c.outside
  sized : ∀ f ∈ c.outside, (∃ i < Pool.classCount, f.length = Pool.capacity i) ∨
    Pool.classFor? f.length = none

theorem outside_erase {h : Held} (found : c.held[i]? = some h) :
    c.outside.Perm (h.frame :: ((c.held.eraseIdx i).map Held.frame ++ c.lost)) := by
  obtain ⟨inside, rfl⟩ := List.getElem?_eq_some_iff.mp found
  exact ((List.getElem_cons_eraseIdx_perm inside).symm.map Held.frame).append_right c.lost

theorem outside_set {h k : Held} (found : c.held[i]? = some h) :
    (k.frame :: ((c.held.eraseIdx i).map Held.frame ++ c.lost)).Perm
      ((c.held.set i k).map Held.frame ++ c.lost) := by
  obtain ⟨inside, -⟩ := List.getElem?_eq_some_iff.mp found
  exact ((List.set_perm_cons_eraseIdx inside k).symm.map Held.frame).append_right c.lost

theorem sized_grant {p : Pool} {size : Nat} {g : Grant} (h : p.Grants size g) :
    (∃ i < Pool.classCount, g.frame.length = Pool.capacity i) ∨ Pool.classFor? g.frame.length = none := by
  cases chosen : Pool.classFor? size with
  | some i => exact Or.inl ⟨i, (Pool.classFor?_eq_some_iff.mp chosen).1, (h.pooled chosen).1⟩
  | none => exact Or.inr ((h.single chosen).1 ▸ chosen)

theorem Accounted.take (h : c.Accounted entries) (positive : 0 < entries) (size : Nat) (onLoan : Bool) :
    (c.take (c.pool.alloc size) onLoan).Accounted entries :=
  ⟨h.lends.alloc positive size,
    List.forall_mem_cons.mpr ⟨sized_grant (h.lends.balanced.grants positive size), h.sized⟩⟩

theorem Accounted.putBack (h : c.Accounted entries) {k : Held} (found : c.held[i]? = some k) :
    (c.putBack i k.frame).Accounted entries :=
  ⟨(h.lends.perm (outside_erase found)).free,
    fun f member => h.sized f ((outside_erase found).symm.subset (List.mem_cons_of_mem _ member))⟩

theorem sized_set (h : c.Accounted entries) {k l : Held} (found : c.held[i]? = some k)
    (sized : (∃ i < Pool.classCount, l.frame.length = Pool.capacity i) ∨
      Pool.classFor? l.frame.length = none) :
    ∀ f ∈ (c.held.set i l).map Held.frame ++ c.lost,
      (∃ i < Pool.classCount, f.length = Pool.capacity i) ∨ Pool.classFor? f.length = none := by
  intro f member
  rcases List.mem_cons.mp ((outside_set found).symm.subset member) with rfl | other
  · exact sized
  · exact h.sized f ((outside_erase found).symm.subset (List.mem_cons_of_mem _ other))

theorem Accounted.replace (h : c.Accounted entries) {k l : Held} (found : c.held[i]? = some k)
    (same : l.frame.length = k.frame.length) :
    ({ c with held := c.held.set i l } : Custody).Accounted entries := by
  refine ⟨((h.lends.perm (outside_erase found)).resize same.symm).perm (outside_set found), ?_⟩
  refine sized_set h found ?_
  rw [same]
  exact h.sized k.frame ((outside_erase found).symm.subset List.mem_cons_self)

theorem Accounted.reserve (h : c.Accounted entries) (positive : 0 < entries) {k : Held}
    (found : c.held[i]? = some k) (size : Nat) :
    ({ c with
        pool := (c.pool.reserve k.frame size).pool
        held := c.held.set i ⟨(c.pool.reserve k.frame size).frame, true⟩ } : Custody).Accounted entries := by
  have set := outside_set (k := ⟨(c.pool.reserve k.frame size).frame, true⟩) found
  refine ⟨((h.lends.perm (outside_erase found)).reserve positive size).perm set, ?_⟩
  refine sized_set h found ?_
  dsimp only [Pool.reserve]
  split
  · rw [Frame.length_clear]
    exact h.sized k.frame ((outside_erase found).symm.subset List.mem_cons_self)
  · exact sized_grant (g := c.pool.alloc size) (h.lends.balanced.grants positive size)

theorem length_write (f : Frame) (slot : Nat) (v : Value) : ((f.write? slot v).getD f).length = f.length := by
  unfold Frame.write?
  split
  · exact Array.size_setIfInBounds
  · rfl

theorem Accounted.step (h : c.Accounted entries) (positive : 0 < entries) {d : Deed} (own : d.isOwn) :
    (c.step d).Accounted entries := by
  cases d with
  | alloc size => exact h.take positive size false
  | lease size => exact h.take positive size true
  | carve length count => cases own
  | free i =>
    unfold Custody.step
    dsimp only
    split
    next found => exact h.putBack found
    · exact h
  | drop i =>
    unfold Custody.step
    dsimp only
    split
    next found => exact h.putBack found
    next frame found =>
      have same : c.outside.Perm ((c.held.eraseIdx i).map Held.frame ++ frame :: c.lost) :=
        (outside_erase found).trans List.perm_middle.symm
      exact ⟨h.lends.perm same, fun f member => h.sized f (same.symm.subset member)⟩
    · exact h
  | reserve i size =>
    unfold Custody.step
    dsimp only
    split
    next found => exact h.reserve positive found size
    · exact h
  | write i slot v =>
    unfold Custody.step
    dsimp only
    split
    next k found => exact h.replace found (length_write k.frame slot v)
    · exact h

theorem Accounted.after (h : c.Accounted entries) (positive : 0 < entries) {deeds : List Deed}
    (own : ∀ d ∈ deeds, d.isOwn) : (c.after deeds).Accounted entries := by
  induction deeds generalizing c with
  | nil => exact h
  | cons d deeds ih =>
    obtain ⟨first, rest⟩ := List.forall_mem_cons.mp own
    exact ih (h.step positive first) rest

theorem accounted_new (o : PoolOptions) : (new o).Accounted (max o.spanEntries 1) where
  lends := by
    refine ⟨Pool.balanced_new o, fun i _ => ?_⟩
    show Pool.balance (.new o) i = 0
    unfold Pool.balance
    rw [Pool.classAt_new]
    rfl
  sized _ := nofun

/-- After any history, each class accounts for its free frames, which are clear and of its capacity; any
frame that is handed out is as asked for and comes out of the stock of its class, which is never empty;
and without frames from elsewhere the count of those in use is that of the pooled frames outside. -/
theorem after_accounts (o : PoolOptions) (deeds : List Deed) :
    (∀ i < Pool.classCount,
      let k := ((new o).after deeds).pool.classAt i
      k.free.length + k.allocated = k.released + k.refills * max o.spanEntries 1 ∧
        ∀ frame ∈ k.free, frame.length = Pool.capacity i ∧ frame.isClear) ∧
    (∀ size, ((new o).after deeds).pool.Grants size (((new o).after deeds).pool.alloc size)) ∧
    (∀ frame size,
      let g := ((new o).after deeds).pool.reserve frame size
      g.frame.isClear ∧ size ≤ g.frame.length ∧
        (frame.length < size → g.frame = (((new o).after deeds).pool.alloc size).frame)) ∧
    (∀ i, ((new o).after deeds).pool.stock i ≠ []) ∧
    ((∀ d ∈ deeds, d.isOwn) → ((new o).after deeds).pool.inUse =
      ((new o).after deeds).outside.countP fun f => (Pool.classFor? f.length).isSome) := by
  have positive : 0 < max o.spanEntries 1 := Nat.lt_of_lt_of_le Nat.one_pos (Nat.le_max_right _ _)
  have balanced := balanced_after (c := new o) (Pool.balanced_new o) positive deeds
  refine ⟨fun i _ => ⟨balanced.account i, fun frame member => ?_⟩, balanced.grants positive,
    fun frame size => ?_, Pool.stock_ne_nil (balanced.spanEntries ▸ positive), fun own => ?_⟩
  · obtain ⟨span, rfl⟩ := balanced.tidy i frame member
    exact ⟨Frame.length_blank _ span, Frame.isClear_blank _ span⟩
  · obtain ⟨⟨length, span, same, enough⟩, -⟩ := balanced.tidy.reserve frame size
    refine ⟨?_, ?_, fun short => ?_⟩
    · rw [same]
      exact Frame.isClear_blank length span
    · rw [same, Frame.length_blank]
      exact enough
    · rw [Pool.reserve, if_neg (Nat.not_le.mpr short)]
  · have accounted := (accounted_new o).after positive own
    rw [Pool.inUse_eq_sum balanced.classes, ← Pool.sum_tally _ accounted.sized]
    refine Finset.sum_congr rfl fun i small => ?_
    rw [accounted.lends.balance i (Finset.mem_range.mp small), Int.zero_add, Int.toNat_natCast]

/-- One frame is written to and given back, another is made larger on loan, a third is above all classes,
and a fourth is dropped. -/
def busy : List Deed :=
  [.alloc 5, .write 0 3 (.bool true), .free 0, .lease 20, .reserve 0 100, .alloc 4000, .alloc 8, .drop 0]

theorem after_accounts_busy :
    (∀ d ∈ busy, d.isOwn) ∧ ((new ⟨2⟩).after busy).pool.inUse = 2 ∧
      (((new ⟨2⟩).after busy).pool.alloc 3).frame.isClear := by
  have own : ∀ d ∈ busy, d.isOwn := by decide
  obtain ⟨-, grants, -, -, inUse⟩ := after_accounts ⟨2⟩ busy
  exact ⟨own, (inUse own).trans (by decide +kernel), (grants 3).clear⟩

end Custody

end StackLisp
