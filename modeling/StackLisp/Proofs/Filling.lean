import StackLisp.Proofs.Heights

/-!
Slots that are stored to where calls are inlined. A body in the place of a call has slots of its own above
those of the chunk, so slots that are stored to before the call still are after it, and each slot of the longer
code is stored to before it is loaded, if this is so in the code and in the bodies.
-/

namespace StackLisp

/-- Local slots that have been stored to. -/
structure Filled where
  slots : Nat → Prop

namespace Filled

variable {X Y around : Filled} {base slot : Nat} {i j : Instruction}

instance : Preorder Filled where
  le X Y := ∀ slot, Y.slots slot → X.slots slot
  le_refl _ _ := id
  le_trans _ _ _ h g slot stored := h slot (g slot stored)

def after (X : Filled) (i : Instruction) : Filled :=
  ⟨fun slot => X.slots slot ∨ i.op = .store ∧ i.operand = slot⟩

/-- A load asks for a slot that has been stored to. -/
def view : View Filled where
  allows _ X i := i.op = .load → X.slots i.operand
  after _ i X := X.after i
  taken _ X := X
  allows_congr _ _ h := h
  after_congr _ := rfl

/-- What is stored to in a body with its slots from `base` on, where some are stored to at the call. -/
def within (base : Nat) (X around : Filled) : Filled :=
  ⟨fun slot => around.slots slot ∨ ∃ k, slot = k + base ∧ X.slots k⟩

theorem within_le (h : X ≤ Y) : X.within base around ≤ Y.within base around := by
  rintro slot (outer | ⟨k, same, stored⟩)
  · exact .inl outer
  · exact .inr ⟨k, same, h k stored⟩

theorem after_le (h : i.op ≠ .store) : X ≤ X.after i := by
  rintro slot (stored | ⟨stores, -⟩)
  · exact stored
  · exact absurd stores h

end Filled

namespace Chunk

variable {c d e : Chunk} {callee : Closure} {s : Site} {code body longer : List Instruction} {pool : List Value}
  {count : Nat} {tail : Bool} {i j : Instruction} {goals places : Nat → Option Filled} {X around : Filled}

theorem Careful.formed (h : c.Careful) (mentions : ∀ i ∈ c.code, c.Mentions i) : c.Formed := by
  obtain ⟨checked, accepted⟩ := h.accepted
  refine ⟨fun i member => ?_, labels_nodup_of_verify accepted, fun i member jumps =>
    anchor?_isSome.mp ((anchored_of_verify accepted).isSome member jumps)⟩
  unfold Fits
  split
  next constants => exact (mentions i member).constant (Opcode.eq_const constants)
  next locals => exact h.bounded member locals
  next labels => exact (mentions i member).label labels
  · trivial

open Classical in
theorem Careful.filled (h : c.Careful) : ∃ D, Filled.view.Charted c.constants c.code D ∧ ∃ X, D 0 = some X ∧
    ∀ slot, ¬ X.slots slot := by
  obtain ⟨checked, accepted⟩ := h.accepted
  have anchored := anchored_of_verify accepted
  have assigns := assigns_of_covers (verify_covers accepted) anchored.nodup
  obtain ⟨stored, stores⟩ := h.stored
  let D pc : Option Filled := if Reached c.code pc then some ⟨stored pc⟩ else none
  have known {pc : Nat} {X : Filled} (at_pc : D pc = some X) : Reached c.code pc ∧ X = ⟨stored pc⟩ := by
    by_cases reached : Reached c.code pc
    · exact ⟨reached, (Option.some.inj ((if_pos reached).symm.trans at_pc)).symm⟩
    · cases (if_neg reached).symm.trans at_pc
  have goes {pc next : Nat} (reached : Reached c.code pc) (step : Goes c.code pc next) :
      D next = some ⟨stored next⟩ := if_pos (reached.goes step)
  refine ⟨D, ⟨fun {pc X} at_pc => ?_, fun {pc i} here => ?_, fun {pc X i} at_pc here jumps => ?_⟩,
    ⟨stored 0⟩, if_pos .start, fun slot => stores.start⟩
  · obtain ⟨reached, rfl⟩ := known at_pc
    have here := List.getElem?_eq_getElem (assigns.inside reached)
    exact ⟨_, here, stores.loads here⟩
  · cases leaves : i.op.effect.exits with
    | true =>
      rw [View.onward_exits _ leaves]
      exact Option.none_le
    | false =>
      cases at_pc : D pc with
      | none =>
        rw [View.onward_none]
        exact Option.none_le
      | some X =>
        obtain ⟨reached, rfl⟩ := known at_pc
        rw [View.onward_some _ leaves, goes reached (.falls here leaves)]
        exact Option.some_le_some.mpr fun slot => stores.next here leaves
  · obtain ⟨reached, rfl⟩ := known at_pc
    obtain ⟨target, goal⟩ := anchored.present (List.mem_of_getElem? here) jumps
    have found := (anchor?_eq_some_iff_anchoredAt anchored.nodup).mpr goal
    refine ⟨target, found, ?_⟩
    rw [goes reached (.jumps here jumps goal)]
    exact Option.some_le_some.mpr fun slot => stores.target here jumps found

/-- Code with a chart of the slots that are stored to stores to each before it loads it. -/
theorem stores_of_filled {D : Nat → Option Filled} (charted : Filled.view.Charted c.constants c.code D)
    (start : ∃ X, D 0 = some X ∧ ∀ slot, ¬ X.slots slot) :
    c.Stores fun pc slot => ∀ X, D pc = some X → X.slots slot where
  start {slot} stored := by
    obtain ⟨X, at_start, empty⟩ := start
    exact empty slot (stored X at_start)
  next {pc slot i} here stays stored := by
    by_cases stores : i.op = .store ∧ i.operand = slot
    · exact .inr stores
    refine .inl fun X at_pc => ?_
    obtain ⟨Y, there, le⟩ := charted.after at_pc here stays
    exact (le slot (stored Y there)).resolve_right stores
  target {pc target slot i} here jumps goal stored X at_pc := by
    obtain ⟨other, again, le⟩ := charted.target at_pc here jumps
    obtain rfl := Option.some.inj (again.symm.trans goal)
    obtain ⟨Y, there, le⟩ := some_of_known le
    exact le slot (stored Y there)
  loads {pc i} here load X at_pc := by
    obtain ⟨j, again, allows⟩ := charted.allows at_pc
    obtain rfl := Option.some.inj (again.symm.trans here)
    exact allows load

/-! ### A body in the place of a call -/

/-- What is stored to at the labels of a body in its place, and where it is left. -/
structure Surrounds (s : Site) (around : Filled) (goals places : Nat → Option Filled) : Prop where
  labels : ∀ label, label + s.labelBase < s.exit →
    places (label + s.labelBase) = (goals label).map (·.within s.localBase around)
  exit : s.tail = false → places s.exit = some around

theorem Surrounds.leaves (surrounds : Surrounds s around goals places) (plain : s.tail = false) (le : X ≤ around)
    (h : s.exit ≤ maxOperand) : Filled.view.Flows pool places (some X) [⟨.jump, s.exit, h⟩] none := by
  refine .cons ⟨nofun, fun _ => nofun, fun same _ => ?_⟩ (.refl none)
  obtain rfl := Option.some.inj same
  rw [surrounds.exit plain]
  exact Option.some_le_some.mpr le

theorem Filled.within_le_around : X.within s.localBase around ≤ around :=
  fun _ => .inl

theorem Surrounds.one {constants : List Value} (surrounds : Surrounds s around goals places)
    (passes : Filled.view.Passes constants goals i (some X))
    (loads : j.op = .load → i.op = .load ∧ j.operand = i.operand + s.localBase)
    (stores : i.op = .store → j.op = .store ∧ j.operand = i.operand + s.localBase)
    (exits : j.op.effect.exits = i.op.effect.exits)
    (labels : j.op.effect.operand = .labels → j.op = i.op ∧ j.operand = i.operand + s.labelBase ∧
      i.operand + s.labelBase < s.exit) :
    Filled.view.Flows pool places (some (X.within s.localBase around)) [j]
      ((Filled.view.onward constants i (some X)).map (·.within s.localBase around)) := by
  refine .cons ⟨fun label => ?_, fun same load => ?_, fun same jumps => ?_⟩ ?_
  · obtain ⟨op, shifted, inside⟩ := labels (by rw [label]; rfl)
    rw [shifted, surrounds.labels _ inside, ← passes.anchor (op ▸ label)]
    rfl
  · obtain rfl := Option.some.inj same
    obtain ⟨op, shifted⟩ := loads load
    exact .inr ⟨i.operand, shifted, passes.allows rfl op⟩
  · obtain rfl := Option.some.inj same
    obtain ⟨op, shifted, inside⟩ := labels (Opcode.operand_of_jumps jumps)
    obtain ⟨Y, goal, le⟩ := some_of_known (passes.goal rfl (op ▸ jumps))
    rw [shifted, surrounds.labels _ inside, goal]
    exact Option.some_le_some.mpr (Filled.within_le le)
  · cases leaves : i.op.effect.exits with
    | true =>
      rw [View.onward_exits _ leaves, View.onward_exits _ (exits.trans leaves)]
      exact Option.none_le
    | false =>
      rw [View.onward_some _ leaves, View.onward_some _ (exits.trans leaves)]
      refine Option.some_le_some.mpr ?_
      rintro slot (outer | ⟨k, rfl, stored | ⟨store, rfl⟩⟩)
      · exact .inl (.inl outer)
      · exact .inl (.inr ⟨k, rfl, stored⟩)
      · exact .inr (stores store)

/-- A body stores in its place to the slots that stand for its own. -/
theorem Relocated.fills (h : Relocated s callee c i code d) (surrounds : Surrounds s around goals places)
    {constants : List Value} (passes : Filled.view.Passes constants goals i (some X))
    (inside : i.op.effect.operand = .labels → i.operand + s.labelBase < s.exit) :
    Filled.view.Flows pool places (some (X.within s.localBase around)) code
      ((Filled.view.onward constants i (some X)).map (·.within s.localBase around)) := by
  obtain ⟨op, operand, small⟩ := i
  cases h with
  | ret plain is h =>
    obtain rfl : op = .ret := is
    exact surrounds.leaves plain Filled.within_le_around h
  | @literal plain opens fused h =>
    obtain ⟨effect, leaves⟩ := effect_fused fused
    rw [View.onward_exits _ (by rw [leaves])]
    have other : opens ≠ .load := by
      rintro rfl
      cases effect
    refine .cons (View.passes_of_allows (by rw [Opcode.bare, effect]; decide) fun load => absurd load other) ?_
    rw [View.onward_some _ (by rw [Opcode.bare, effect])]
    exact surrounds.leaves plain (fun slot stored => Or.inl (Filled.within_le_around slot stored)) h
  | call plain is h =>
    obtain rfl : op = .tailCall := is
    rw [View.onward_exits _ (by rfl)]
    refine .cons (View.passes_of_allows (i := ⟨.call, operand, small⟩)
      (show OperandKind.stack ≠ .labels by decide) fun load => by cases load) ?_
    rw [View.onward_some _ (by rfl)]
    exact surrounds.leaves plain (fun slot stored => Or.inl (Filled.within_le_around slot stored)) h
  | @constant v found h =>
    obtain rfl | rfl : op = .capture ∨ op = .const := constantFor?_fetches found <;>
      exact surrounds.one passes (fun load => by cases load) (fun store => by cases store) rfl fun labels => by
        cases labels
  | slot locals h =>
    refine surrounds.one passes (fun load => ⟨load, rfl⟩) (fun store => ⟨store, rfl⟩) rfl fun labels => ?_
    cases locals.symm.trans labels
  | label labels h =>
    refine surrounds.one passes ?_ ?_ rfl fun _ => ⟨rfl, rfl, inside labels⟩
    · rintro rfl
      cases labels
    · rintro rfl
      cases labels
  | kept closed other =>
    refine surrounds.one passes ?_ ?_ rfl fun labels => absurd labels other.2.2.2
    · rintro rfl
      exact absurd rfl other.2.2.1
    · rintro rfl
      exact absurd rfl other.2.2.1

theorem surrounds_landings {p : Procedure Value} {E : Nat → Option Filled}
    (counts : d.labelCount = (c.hosting p tail).labelCount)
    (agree : ∀ label, c.labelCount ≤ label → label < d.labelCount → places label =
      landings c p (View.goalsOf p.code E) around (·.within c.localCount around) label) :
    Surrounds (c.siteFor p tail) around (View.goalsOf p.code E) places where
  labels label inside := (landings_spec counts agree).1 label (by
    have below : label + c.labelCount < c.labelCount + p.labelCount := inside
    omega)
  exit := (landings_spec counts agree).2

/-- A body in the place of a call of a constant leaves stored to what was stored to before. -/
theorem Spliced.fills (h : Spliced c callee count tail code d) (careful : callee.procedure.chunk.Careful)
    (numbered : callee.procedure.chunk.Numbered) (const : i.op = .const)
    (shape : callShape? j = some (count, tail)) {Y Z : Option Filled}
    (next : Filled.view.onward c.constants i Y ≤ Z) :
    ∃ places : Nat → Option Filled, ∀ {goals : Nat → Option Filled} {pool : List Value},
      (∀ label, c.labelCount ≤ label → label < d.labelCount → goals label = places label) →
        Filled.view.Flows pool goals Y code (Filled.view.onward c.constants j Z) := by
  obtain ⟨-, exits, -, -⟩ := callShape?_effect shape
  obtain ⟨E, charted, X, start, empty⟩ := careful.filled
  cases Y with
  | none =>
    refine ⟨fun _ => none, fun {goals pool} agree => ?_⟩
    have dead : Filled.view.Flows pool goals none code none := .dead fun i member anchors => by
      obtain ⟨low, high⟩ := h.label_mem numbered (mem_labelsOf.mpr ⟨i, member, anchors, rfl⟩)
      exact agree i.operand low high
    exact dead.widen Option.none_le
  | some S =>
    rw [View.onward_some _ (by rw [const]; rfl)] at next
    obtain ⟨T, rfl, le⟩ := some_of_known next
    refine ⟨landings c callee.procedure (View.goalsOf callee.procedure.code E) S
      (·.within c.localCount S), fun {goals pool} agree => ?_⟩
    have below (i : Instruction) (member : i ∈ callee.procedure.code) (labels : i.op.effect.operand = .labels) :
        i.operand + c.labelCount < c.labelCount + callee.procedure.labelCount := by
      have inside : i.operand < callee.procedure.labelCount := numbered.below i member labels
      omega
    have inner {body : List Instruction} (h : count ≤ maxOperand)
        (surrounds : Surrounds (c.siteFor callee.procedure tail) S (View.goalsOf callee.procedure.code E) goals)
        (moved : RelocatedAll (c.siteFor callee.procedure tail) callee (c.hosting callee.procedure tail)
          callee.procedure.code body d) :
        Filled.view.Flows pool goals (some S) (⟨.pushArgs, count, h⟩ :: body) none := by
      refine .cons (View.passes_of_allows (i := ⟨.pushArgs, count, h⟩) (show OperandKind.stack ≠ .labels by decide)
        fun load => by cases load) ?_
      have enters : Filled.view.onward pool ⟨.pushArgs, count, h⟩ (some S) ≤
          (E 0).map (·.within c.localCount S) := by
        rw [start, View.onward_some _ (by rfl)]
        refine Option.some_le_some.mpr ?_
        rintro slot (outer | ⟨k, -, stored⟩)
        · exact .inl outer
        · exact absurd stored (empty k)
      refine View.Flows.weaken ?_ enters
      exact moved.flows charted numbered.distinct Filled.within_le
        (fun i member labels => surrounds.labels _ (below i member labels))
        (fun first _ here _ passes => first.fills surrounds passes (below _ (List.mem_of_getElem? here))) rfl
    cases h with
    | tail h moved =>
      rw [View.onward_exits _ exits]
      exact inner h (surrounds_landings (by rw [moved.counts]) agree) moved
    | plain h g moved =>
      have surrounds : Surrounds (c.siteFor callee.procedure false) S (View.goalsOf callee.procedure.code E) goals :=
        surrounds_landings (by rw [moved.counts]) agree
      have resumed : Filled.view.Flows pool goals none
          [⟨.label, c.labelCount + callee.procedure.labelCount, g⟩, Opcode.popArgs.bare] (some S) := by
        refine ⟨some S, Option.none_le, ⟨fun _ => (surrounds.exit rfl).symm, fun _ load => (by cases load), fun _ jumps => (by cases jumps)⟩, ?_⟩
        refine .cons (View.passes_of_allows (i := Opcode.popArgs.bare)
          (show OperandKind.nothing ≠ .labels by decide) fun load => by cases load) ?_
        exact Option.some_le_some.mpr fun slot stored => .inl (.inl stored)
      refine ((inner h surrounds moved).append resumed).widen ?_
      rw [View.onward_some _ exits]
      have call : j.op ≠ .store := by
        rintro store
        simp [callShape?, store] at shape
      have push : i.op ≠ .store := by rw [const]; decide
      exact Option.some_le_some.mpr (le_trans (le_trans (Filled.after_le push) le) (Filled.after_le call))

theorem Inlines.mono {good other : Bool → Closure → Prop} (h : Inlines good c code longer d)
    (suits : ∀ {tail : Bool} {callee : Closure}, good tail callee → other tail callee) :
    Inlines other c code longer d := by
  induction h with
  | nil => exact .nil
  | keep _ ih => exact .keep ih
  | splice const found shape callees home accepts inlinable spliced _ ih =>
    exact .splice const found shape (suits callees) home accepts inlinable spliced ih

/-- Code is careful still when calls in it are replaced, if the bodies are careful and suit the calls. -/
theorem Inlines.careful (h : Inlines (fun tail callee => callee.Suits (!tail) ∧ callee.procedure.chunk.Careful) c
      c.code longer d) (careful : c.Careful) (mentions : ∀ i ∈ c.code, c.Mentions i) :
    ({ d with code := longer } : Chunk).Careful := by
  have formed := careful.formed mentions
  have grown := (h.grows fun suits => suits.2.formed suits.1.body.mentions).formed formed
  obtain ⟨D, charted, X, start, empty⟩ := careful.filled
  obtain ⟨others, -, flows⟩ := h.flows (.refl _) (fun _ => True) (fun suits => suits.1.body.numbered)
    (fun _ _ _ => trivial) (fun _ suits _ _ spliced const shape _ next _ => by
      obtain ⟨places, follows⟩ := spliced.fills suits.2 suits.1.body.numbered const shape next
      exact ⟨places, fun agree _ => follows agree⟩) trivial
    (charted.flows formed.distinct) mentions
  obtain ⟨E, chart, starts⟩ := (flows (List.prefix_refl _)).charted grown.distinct grown.anchored
  rw [start] at starts
  obtain ⟨Y, at_start, le⟩ := some_of_known starts
  refine ⟨?_, fun member locals => ?_, _, stores_of_filled chart ⟨Y, at_start, fun slot stored => empty slot (le slot stored)⟩⟩
  · have sealed : c.Sealed := ⟨careful.accepted, mentions⟩
    have chart : ∃ D, (Height.view false).Charted c.constants c.code D ∧ D 0 = some ⟨0⟩ := sealed.charted nofun
    have inlines : Inlines (fun tail callee => callee.Suits (false || !tail)) c c.code longer d :=
      h.mono fun suits => suits.1
    exact (inlines.sealed sealed chart).1.accepted
  · have fits := grown.fits _ member
    unfold Fits at fits
    rwa [locals] at fits

end Chunk

end StackLisp
