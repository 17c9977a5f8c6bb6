import StackLisp.Proofs.Minding

/-!
The code of neat expressions handles references as it should. It leads from what is known of the slots to
the same, with a plain value on top; under a scope the references that are made are filled one after
another, each in the slot that it was made for.
-/

namespace StackLisp

open Workshop Whereabouts

/-- A stretch of code whose constants have roles, and that leads from what is known of references before it
to what is known after it. -/
def Stage.Traced (refs : Nat → Bool) (a b : Stage) (anchors goals : List Nat)
    (L : List (Nat × Whereabouts)) (X Y : Option Whereabouts) : Prop :=
  (∀ v ∈ b.constants, v.HasRole) ∧ ∃ seg, Stretch a b anchors goals seg ∧
    ∀ {room : Nat}, b.localCount ≤ room → (within (.genuine refs) room).Leads a b L X seg Y

namespace Stage

variable {refs : Nat → Bool} {a b c : Stage} {E F G H : List Nat} {L : List (Nat × Whereabouts)}
  {X Y Z : Option Whereabouts}

theorem Traced.labels (h : Traced refs a b E F L X Y) : a.labelCount ≤ b.labelCount := by
  obtain ⟨-, seg, stretch, -⟩ := h
  exact stretch.labels

theorem Traced.locals (h : Traced refs a b E F L X Y) : a.localCount ≤ b.localCount := by
  obtain ⟨-, seg, stretch, -⟩ := h
  exact stretch.locals

theorem Traced.quiet (stretch : Stretch a b [] [] []) (stocked : ∀ v ∈ b.constants, v.HasRole) (X : Option Whereabouts) :
    Traced refs a b [] [] L X X :=
  ⟨stocked, [], stretch, fun _ => .quiet a b X⟩

theorem Traced.append (h : Traced refs a b E F L X Y) (g : Traced refs b c G H L Y Z)
    (old : ∀ label ∈ E ++ G, label < a.labelCount) (apart : ∀ label ∈ E, label ∉ G) :
    Traced refs a c (E ++ G) (F ++ H) L X Z := by
  obtain ⟨-, seg, stretch, leads⟩ := h
  obtain ⟨stocked, rest, stretch', leads'⟩ := g
  refine ⟨stocked, seg ++ rest, stretch.append stretch' old apart, fun room => ?_⟩
  exact (leads (Nat.le_trans stretch'.locals room)).append (leads' room) stretch.labels stretch'.labels
    stretch'.constants

theorem Traced.then (h : Traced refs a b [] [] L X Y) (g : Traced refs b c [] [] L Y Z) :
    Traced refs a c [] [] L X Z :=
  h.append g (fun _ => nofun) fun _ => nofun

theorem Traced.amid (h : Traced refs a b E F [] X Y) (L : List (Nat × Whereabouts)) : Traced refs a b E F L X Y := by
  obtain ⟨stocked, seg, stretch, leads⟩ := h
  exact ⟨stocked, seg, stretch, fun room => (leads room).amid L⟩

theorem Traced.widen (h : Traced refs a b E F L X Y) (after : Y ≤ Z) : Traced refs a b E F L X Z := by
  obtain ⟨stocked, seg, stretch, leads⟩ := h
  exact ⟨stocked, seg, stretch, fun room => (leads room).widen after⟩

theorem Traced.seal (h : Traced refs b c E F L X Y) (before : Stretch a b [] [] [])
    (own : ∀ label ∈ E, a.labelCount ≤ label ∧ label < b.labelCount) (goals : ∀ label ∈ F, label ∈ E)
    (places : L.map Prod.fst = E) (distinct : E.Nodup) : Traced refs a c [] [] [] X Y := by
  obtain ⟨stocked, seg, stretch, leads⟩ := h
  refine ⟨stocked, seg, stretch.seal before own goals, fun room => ?_⟩
  refine (leads room).seal before.labels (places ▸ distinct) (fun place member => own _ ?_) stretch.labels
  rw [← places]
  exact List.mem_map_of_mem member

/-- The code of a body is built into a template. -/
theorem Traced.template {w : Workshop} (h : Traced refs ⟨[], [], 0, 0, 0⟩ w.stage [] [] [] (some {}) none)
    {arity : Arity} {o : CompileOptions} {σ τ : Store} {p : Procedure Value}
    (built : Yields (w.chunk.build arity o) σ p τ) : (Value.procedure p).Serves (.template refs) := by
  obtain ⟨stocked, seg, stretch, leads⟩ := h
  obtain ⟨own, flows⟩ := leads (Nat.le_refl _)
  have whole : w.chunk.code = seg := stretch.code
  have formed : w.chunk.Formed := stretch.formed _ _
  refine Chunk.build_serves built formed stocked ?_
  rw [whole]
  exact (@flows own _ (fun _ _ _ => rfl) (fun _ => nofun) (List.prefix_refl _)).charted stretch.distinct
    fun i member op => (stretch.jumps i member op).resolve_left nofun

end Stage

namespace Workshop

open Stage

variable {w u x y : Workshop} {refs : Nat → Bool} {X Y : Whereabouts} {L : List (Nat × Whereabouts)}
  {i : Instruction} {Z : Option Whereabouts} {name : String} {cell : Cell}

theorem Settled.traced (h : w.Settled) (stays : w.Stays x) {E F : List Nat} {V : Option Whereabouts}
    (traced : Traced refs w.stage x.stage E F L V Z) : x.Settled :=
  h.stays stays traced.1 traced.locals

/-- What is known of no free slot is known of none beyond the slots there are. -/
theorem Settled.within (h : w.Settled) (small : X.below w.body.nextLocal = X) {room : Nat}
    (le : w.body.localCount ≤ room) : X.below room = X :=
  below_of_le small (Nat.le_trans h.room le)

theorem traced_emit (settled : w.Settled) (small : X.below w.body.nextLocal = X) (holds : w.stage.Holds i)
    (labels : i.op.effect.operand ≠ .labels)
    (allows : ∀ {pool : List Value}, w.body.constants <+: pool → X.Allows (.genuine refs) pool i)
    (next : ∀ {pool : List Value}, w.body.constants <+: pool → (view (.genuine refs)).onward pool i (some X) ≤ Z) :
    Traced refs w.stage (w.emit i).stage [] [] L (some X) Z :=
  ⟨settled.stocked, [i], stretch_emit holds labels, fun room =>
    .step labels (fun found => ⟨settled.within small room, allows found⟩) next⟩

theorem holds_ordinary (op : i.op.conveys = false) (labels : i.op.effect.operand ≠ .labels) (a : Stage) :
    a.Holds i := by
  obtain ⟨constants, locals, capture⟩ := Opcode.operand_of_ordinary op
  exact ⟨Chunk.fits_of_free constants locals labels, fun same => absurd same capture⟩

theorem traced_ordinary (settled : w.Settled) (minds : w.Minds refs X) (bare : X.Bare)
    (op : i.op.conveys = false) (labels : i.op.effect.operand ≠ .labels) (stays : i.op.effect.exits = false) :
    Traced refs w.stage (w.emit i).stage [] [] L (some X) (some X) := by
  refine traced_emit settled minds.small (holds_ordinary op labels _) labels (fun _ => (allows_of_ordinary op).mpr bare)
    fun _ => ?_
  rw [View.onward_some _ stays]
  exact Option.some_le_some.mpr (le_of_eq ((after_of_ordinary op).trans bare.bare))

theorem traced_exit (settled : w.Settled) (minds : w.Minds refs X) (bare : X.Bare) (op : i.op.conveys = false)
    (labels : i.op.effect.operand ≠ .labels) (leaves : i.op.effect.exits = true) :
    Traced refs w.stage (w.emit i).stage [] [] L (some X) none := by
  refine traced_emit settled minds.small (holds_ordinary op labels _) labels (fun _ => (allows_of_ordinary op).mpr bare)
    fun _ => ?_
  rw [View.onward_exits _ leaves]
  exact Option.none_le

theorem Settled.pool (h : w.Settled) {v : Value} (role : v.HasRole) : (w.pool v).Settled :=
  h.stays (stays_pool v) (fun u member => (mem_poolConstant member).elim (h.stocked u) fun same => same ▸ role)
    (Nat.le_refl _)

theorem traced_pool (settled : w.Settled) (minds : w.Minds refs X) {v : Value} {r : Role} (serves : v.Serves r)
    (h : w.place v ≤ maxOperand) {k : Content}
    (allows : ∀ u : Value, u.Serves r → (∀ p, u = .procedure p →
      ∃ needs, u.Serves (.template needs) ∧ ∀ j, (X.tops j).Suits (needs j)) ∧ Content.ofConstant (some u) = k) :
    Traced refs w.stage (w.emitConst v h).stage [] [] L (some X) (some (X.push k)) := by
  obtain ⟨u, there, same⟩ := poolConstant_place w.body.constants v
  have stocked := (settled.pool ⟨r, serves⟩).stocked
  obtain ⟨s, role⟩ := stocked u (List.mem_of_getElem? there)
  obtain ⟨template, pushed⟩ := allows u (serves.congr role same)
  refine ⟨stocked, _, stretch_const v h, fun room => .step (by nofun) (fun {pool} found => ?_) fun {pool} found => ?_⟩
  · have pooled : pool[w.place v]? = some u := getElem?_of_longer found there
    refine ⟨settled.within minds.small room, fun p listed => ?_⟩
    obtain rfl := Option.some.inj (pooled.symm.trans listed)
    exact template p rfl
  · have pooled : pool[w.place v]? = some u := getElem?_of_longer found there
    rw [View.onward_some _ (by rfl)]
    refine Option.some_le_some.mpr (le_of_eq ?_)
    show X.push (.ofConstant pool[w.place v]?) = X.push k
    rw [pooled, pushed]

theorem traced_const (settled : w.Settled) (minds : w.Minds refs X) (bare : X.Bare) {v : Value}
    (plain : v.Serves .plain) (h : w.place v ≤ maxOperand) :
    Traced refs w.stage (w.emitConst v h).stage [] [] L (some X) (some X) := by
  have traced : Traced refs w.stage (w.emitConst v h).stage [] [] L (some X) (some (X.push .plain)) :=
    traced_pool settled minds plain h fun u serves => by
      have role : u.Serves (.ofCaptured false) := serves
      exact ⟨fun p same => absurd same (serves.ne_procedure p), role.of_captured.1⟩
  rwa [bare.push] at traced

theorem traced_template (settled : w.Settled) (minds : w.Minds refs X) {p : Procedure Value} {needs : Nat → Bool}
    (template : (Value.procedure p).Serves (.template needs)) (suits : ∀ j, (X.tops j).Suits (needs j))
    (h : w.place (.procedure p) ≤ maxOperand) :
    Traced refs w.stage (w.emitConst (.procedure p) h).stage [] [] L (some X) (some (X.push .ready)) :=
  traced_pool settled minds template h fun u serves => by
    obtain ⟨q, rfl, -⟩ := serves.of_template
    exact ⟨fun _ _ => ⟨needs, serves, suits⟩, rfl⟩

theorem traced_load (settled : w.Settled) (minds : w.Minds refs X) (found : w.cell? name = some cell)
    (loads : cell.Loads i) (fixes : (w.reach name).Fixes refs) : ∃ k : Content, k.Suits cell.kind.refers ∧
      Traced refs w.stage ((w.reach name).emit i).stage [] [] L (some X) (some (X.push k)) := by
  have stays := stays_reach (w := w) name
  have stretch := stretch_reach w name
  obtain ⟨k, suits, pushes⟩ := loads.pushes (cell?_known settled minds found fixes)
  have constants : (w.reach name).body.constants = w.body.constants := by
    unfold reach
    split <;> rfl
  have stocked : ∀ v ∈ (w.reach name).body.constants, v.HasRole := constants ▸ settled.stocked
  have settled' : (w.reach name).Settled := settled.stays stays stocked stretch.locals
  have spec := loads.spec
  have places : (w.reach name).stage.Holds i := by
    rcases cell?_places found with ⟨s, member, entry, inside, rfl⟩ | far
    · exact loads.holds (.inl ((settled.housed s member entry inside).mono (Nat.le_trans settled.room stretch.locals)))
    · exact loads.holds (.inr far)
  refine ⟨k, suits, .then (.quiet stretch stocked _) (traced_emit settled' (minds.stays stays).small places spec.labels
    (fun _ => (pushes _).1) fun {pool} _ => ?_)⟩
  rw [View.onward_some _ spec.stays]
  exact Option.some_le_some.mpr (le_of_eq (pushes pool).2)

theorem traced_deref (settled : w.Settled) (minds : w.Minds refs X) (bare : X.Bare) {k : Content}
    (suits : k.Suits true) :
    Traced refs w.stage (w.emit Opcode.deref.bare).stage [] [] L (some (X.push k)) (some X) := by
  refine traced_emit settled (below_congr minds.small rfl) ⟨trivial, nofun⟩ (by nofun)
    (fun _ => ⟨suits, bare⟩) fun _ => ?_
  rw [View.onward_some _ (by rfl)]
  exact Option.some_le_some.mpr (le_of_eq bare.bare)

theorem traced_newRef (settled : w.Settled) (small : X.below w.body.nextLocal = X) :
    Traced refs w.stage (w.emit Opcode.newRef.bare).stage [] [] L (some X) (some (X.push .pending)) := by
  refine traced_emit settled small ⟨trivial, nofun⟩ (by nofun) (fun _ => trivial) fun _ => ?_
  rw [View.onward_some _ (by rfl)]
  exact known_refl _

theorem traced_store (settled : w.Settled) (small : X.below w.body.nextLocal = X) (bare : X.Bare) {slot : Nat}
    (taken : slot < w.body.nextLocal) (h : slot ≤ maxOperand) {k : Content} (which : k = .plain ∨ k = .pending) :
    Traced refs w.stage (w.emit ⟨.store, slot, h⟩).stage [] [] L (some (X.push k)) (some (X.put slot k)) := by
  refine traced_emit settled (below_congr small rfl) ⟨Nat.lt_of_lt_of_le taken settled.room, nofun⟩ (by nofun)
    (fun _ => ⟨which, bare⟩) fun _ => ?_
  rw [View.onward_some _ (by rfl)]
  exact known_refl _

theorem traced_bindRef (settled : w.Settled) (minds : w.Minds refs X) (bare : X.Bare) {slot : Nat}
    (pending : X.slots slot = .pending) :
    Traced refs w.stage (w.emit Opcode.bindRef.bare).stage [] [] L (some (X.push (.own slot)))
      (some (X.put slot .reference)) := by
  refine traced_emit settled (below_congr minds.small rfl) ⟨trivial, nofun⟩ (by nofun)
    (fun _ => ⟨⟨slot, rfl, pending⟩, bare⟩) fun _ => ?_
  rw [View.onward_some _ (by rfl)]
  exact known_refl _

theorem traced_makeClosure (settled : w.Settled) (minds : w.Minds refs X) {count : Nat} (h : count ≤ maxOperand)
    (rest : ∀ j, count ≤ j → X.tops j = .plain) :
    Traced refs w.stage (w.emit ⟨.makeClosure, count, h⟩).stage [] [] L (some (X.push .ready)) (some X.bare) := by
  refine traced_emit settled (below_congr minds.small rfl) ⟨trivial, nofun⟩ (by nofun)
    (fun _ => ⟨rfl, rest⟩) fun _ => ?_
  rw [View.onward_some _ (by rfl)]
  exact known_refl _

/-- A label, where what is given for it is known if control comes there otherwise. -/
theorem traced_label (settled : w.Settled) (minds : w.Minds refs X) (bare : X.Bare) {label : Nat}
    (h : label ≤ maxOperand) (taken : label < w.body.labelCount) (place : (label, X) ∈ L)
    (before : Z = none ∨ Z = some X) :
    Traced refs w.stage (w.emit ⟨.label, label, h⟩).stage [label] [] L Z (some X) := by
  refine ⟨settled.stocked, _, stretch_anchor h taken, fun room => ?_⟩
  refine .anchor rfl place ?_ ⟨settled.within minds.small room, bare⟩ fun {pool} => ?_
  · rcases before with rfl | rfl
    · exact Option.none_le
    · exact known_refl _
  · rw [View.onward_some _ (by rfl)]
    exact Option.some_le_some.mpr (le_of_eq bare.bare)

theorem traced_jump (settled : w.Settled) (minds : w.Minds refs X) (bare : X.Bare) (op : i.op.jumps)
    (taken : i.operand < w.body.labelCount) (place : (i.operand, X) ∈ L) :
    Traced refs w.stage (w.emit i).stage [] [i.operand] L (some X)
      (if i.op.effect.exits then none else some X) := by
  have ordinary : i.op.conveys = false := by
    generalize i.op = op' at op
    cases op' <;> first | rfl | cases op
  refine ⟨settled.stocked, _, stretch_jump op taken, fun room => ?_⟩
  refine .jump op place ⟨settled.within minds.small room, (allows_of_ordinary ordinary).mpr bare⟩ (le_refl X)
    fun {pool} => ?_
  unfold View.onward
  split
  · exact known_refl _
  · exact Option.some_le_some.mpr (le_of_eq ((after_of_ordinary ordinary).trans bare.bare))

end Workshop

end StackLisp
