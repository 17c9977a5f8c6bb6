import StackLisp.Proofs.Exactness
import StackLisp.Proofs.Inlining

/-!
Depths of the stack where calls are inlined. A body in the place of a call runs on top of what lies below
the arguments, and all its returns meet at one label. So the check accepts the longer code if a body that
is left other than by a tail call leaves nothing but its value, and if labels are those that are counted.
-/

namespace StackLisp

/-- Ends an activation with what is on the stack. -/
def Opcode.Returns (op : Opcode) : Prop :=
  op.effect.exits ∧ op ≠ .panic ∧ op ≠ .jump

instance (op : Opcode) : Decidable op.Returns :=
  inferInstanceAs (Decidable (_ ∧ _ ∧ _))

/-- How much there is on the stack. What is known of it is all there is to know. -/
structure Height where
  depth : Nat

namespace Height

instance : Preorder Height where
  le X Y := X = Y
  le_refl _ := rfl
  le_trans _ _ _ := Eq.trans

/-- What the check knows along the paths. Returns may have to leave nothing behind. -/
def view (alone : Bool) : View Height where
  allows _ X i := i.pops ≤ X.depth ∧ (alone → i.op.Returns → X.depth = i.pops)
  after _ i X := ⟨i.depthAfter X.depth⟩
  taken i X := ⟨i.depthAfter X.depth⟩
  allows_congr _ _ h := h
  after_congr _ := rfl

/-- The height in a body that runs on top of so much. -/
def atop (base : Nat) (X : Height) : Height :=
  ⟨X.depth + base⟩

@[simp] theorem depth_atop (base : Nat) (X : Height) : (X.atop base).depth = X.depth + base := rfl

theorem known_eq {X : Height} {Y : Option Height} (h : some X ≤ Y) : Y = some X := by
  obtain ⟨Z, rfl, same⟩ := some_of_known h
  exact congrArg some (show X = Z from same).symm

theorem atop_le {base : Nat} {X Y : Height} (h : X ≤ Y) : X.atop base ≤ Y.atop base :=
  congrArg (atop base) h

end Height

namespace Chunk

/-- Wherever control returns, there is nothing on the stack but what the return takes. -/
def ReturnsAlone (code : List Instruction) : Prop :=
  ∀ {depth : Nat → Nat} {pc : Nat} {i : Instruction}, Assigns code depth → Reached code pc →
    code[pc]? = some i → i.op.Returns → depth pc = i.pops

/-- A chunk that the check accepts, whose labels are counted and whose constants are there. -/
structure Sealed (c : Chunk) : Prop where
  accepted : ∃ checked, c.verify = .ok checked
  mentions : ∀ i ∈ c.code, c.Mentions i

end Chunk

/-- A closure can be put in the place of a call. In place of one that is no tail call it has to return
alone. -/
structure Closure.Suits (alone : Bool) (callee : Closure) : Prop where
  body : callee.procedure.chunk.Sealed
  captures : ∀ i ∈ callee.procedure.code, i.op = .capture → i.operand < callee.captured.length
  returns : alone → Chunk.ReturnsAlone callee.procedure.code

theorem Closure.Suits.fetches {callee : Closure} {alone : Bool} (h : callee.Suits alone) {i : Instruction}
    (member : i ∈ callee.procedure.code) (op : i.op = .capture ∨ i.op = .const) :
    ∃ v, Chunk.constantFor? callee i = some v := by
  unfold Chunk.constantFor?
  rcases op with capture | const
  · rw [capture]
    exact ⟨_, List.getElem?_eq_getElem (h.captures i member capture)⟩
  · rw [const]
    exact ⟨_, List.getElem?_eq_getElem ((h.body.mentions i member).constant const)⟩

namespace Chunk

variable {c d : Chunk} {alone tail : Bool} {code short body longer : List Instruction} {constants pool : List Value}
  {D : Nat → Option Height} {depth : Nat → Nat} {callee : Closure} {count : Nat}

/-! ### Depths as charts -/

theorem anchored_of_distinct (distinct : (labelsOf code).Nodup)
    (present : ∀ i ∈ code, i.op.jumps → i.operand ∈ labelsOf code) : Anchored code where
  once there again := by
    rw [← anchor?_eq_some_iff_anchoredAt distinct] at there again
    exact Option.some.inj (there.symm.trans again)
  present {i} member jumps := by
    obtain ⟨pc, found⟩ := Option.isSome_iff_exists.mp (anchor?_isSome.mpr (present i member jumps))
    exact ⟨pc, (anchor?_eq_some_iff_anchoredAt distinct).mp found⟩

theorem Sealed.numbered (h : c.Sealed) : c.Numbered := by
  obtain ⟨checked, accepted⟩ := h.accepted
  exact ⟨fun i member => (h.mentions i member).label, labels_nodup_of_verify accepted, fun i member jumps =>
    anchor?_isSome.mp ((anchored_of_verify accepted).isSome member jumps)⟩

open Classical in
theorem Assigns.charted (h : Assigns code depth) (anchored : Anchored code)
    (returns : alone → ReturnsAlone code) :
    ∃ D, (Height.view alone).Charted constants code D ∧ D 0 = some ⟨0⟩ := by
  let D pc : Option Height := if Reached code pc then some ⟨depth pc⟩ else none
  have known {pc : Nat} {X : Height} (at_pc : D pc = some X) : Reached code pc ∧ X = ⟨depth pc⟩ := by
    by_cases reached : Reached code pc
    · exact ⟨reached, (Option.some.inj ((if_pos reached).symm.trans at_pc)).symm⟩
    · cases (if_neg reached).symm.trans at_pc
  have goes {pc next : Nat} {i : Instruction} (reached : Reached code pc) (here : code[pc]? = some i)
      (step : Goes code pc next) : D next = some ⟨i.depthAfter (depth pc)⟩ := by
    rw [Instruction.depthAfter, ← h.successor reached here step]
    exact if_pos (reached.goes step)
  refine ⟨D, ⟨fun {pc X} at_pc => ?_, fun {pc i} here => ?_, fun {pc X i} at_pc here jumps => ?_⟩, ?_⟩
  · obtain ⟨reached, rfl⟩ := known at_pc
    have here := List.getElem?_eq_getElem (h.inside reached)
    exact ⟨_, here, h.pops reached here, fun whole leaves => returns whole h reached here leaves⟩
  · cases leaves : i.op.effect.exits with
    | true =>
      rw [View.onward_exits _ leaves]
      exact Option.none_le
    | false =>
      cases at_pc : D pc with
      | none =>
        rw [View.onward_none]
        exact Option.none_le
      | some X =>
        obtain ⟨reached, rfl⟩ := known at_pc
        rw [View.onward_some _ leaves, goes reached here (.falls here leaves)]
        exact known_refl _
  · obtain ⟨reached, rfl⟩ := known at_pc
    obtain ⟨target, goal⟩ := anchored.present (List.mem_of_getElem? here) jumps
    refine ⟨target, (anchor?_eq_some_iff_anchoredAt anchored.nodup).mpr goal, ?_⟩
    rw [goes reached here (.jumps here jumps goal)]
    exact known_refl _
  · exact (if_pos Reached.start).trans (by rw [h.start])

theorem Sealed.charted (h : c.Sealed) (returns : alone → ReturnsAlone c.code) :
    ∃ D, (Height.view alone).Charted c.constants c.code D ∧ D 0 = some ⟨0⟩ := by
  obtain ⟨checked, accepted⟩ := h.accepted
  have anchored := anchored_of_verify accepted
  exact (assigns_of_covers (verify_covers accepted) anchored.nodup).charted anchored returns

theorem charted_goes (charted : (Height.view alone).Charted constants code D) (distinct : (labelsOf code).Nodup)
    {pc next : Nat} {X : Height} {i : Instruction} (at_pc : D pc = some X) (here : code[pc]? = some i)
    (goes : Goes code pc next) : D next = some ⟨i.depthAfter X.depth⟩ := by
  cases goes with
  | falls also stays =>
    obtain rfl := Option.some.inj (here.symm.trans also)
    obtain ⟨Y, there, le⟩ := charted.after at_pc here stays
    rw [there, ← show _ = Y from le]
    rfl
  | jumps also jumps goal =>
    obtain rfl := Option.some.inj (here.symm.trans also)
    obtain ⟨target, found, le⟩ := charted.target at_pc here jumps
    obtain rfl := Option.some.inj (((anchor?_eq_some_iff_anchoredAt distinct).mpr goal).symm.trans found)
    exact Height.known_eq le

theorem charted_reached (charted : (Height.view alone).Charted constants code D) (distinct : (labelsOf code).Nodup)
    (start : D 0 = some ⟨0⟩) {pc : Nat} (reached : Reached code pc) : ∃ X, D pc = some X := by
  induction reached with
  | refl => exact ⟨_, start⟩
  | tail _ goes ih =>
    obtain ⟨X, at_pc⟩ := ih
    obtain ⟨i, here, -⟩ := charted.allows at_pc
    exact ⟨_, charted_goes charted distinct at_pc here goes⟩

/-- A chart of heights is an assignment, and tells how control returns. -/
theorem assigns_of_charted (charted : (Height.view alone).Charted constants code D)
    (distinct : (labelsOf code).Nodup) (start : D 0 = some ⟨0⟩) :
    (∃ depth, Assigns code depth) ∧ (alone → ReturnsAlone code) := by
  have assigns : Assigns code fun pc => ((D pc).map Height.depth).getD 0 := by
    refine ⟨by simp [start], fun reached => ?_, fun {pc i} reached here => ?_, fun {pc next i} reached here goes => ?_⟩
    · obtain ⟨X, at_pc⟩ := charted_reached charted distinct start reached
      obtain ⟨i, here, -⟩ := charted.allows at_pc
      exact (List.getElem?_eq_some_iff.mp here).1
    · obtain ⟨X, at_pc⟩ := charted_reached charted distinct start reached
      obtain ⟨j, again, enough, -⟩ := charted.allows at_pc
      obtain rfl := Option.some.inj (again.symm.trans here)
      simpa [at_pc] using enough
    · obtain ⟨X, at_pc⟩ := charted_reached charted distinct start reached
      simp [charted_goes charted distinct at_pc here goes, at_pc, Instruction.depthAfter]
  refine ⟨⟨_, assigns⟩, fun whole depth pc i other reached here returns => ?_⟩
  obtain ⟨X, at_pc⟩ := charted_reached charted distinct start reached
  obtain ⟨j, again, -, left⟩ := charted.allows at_pc
  obtain rfl := Option.some.inj (again.symm.trans here)
  rw [other.unique assigns reached, at_pc]
  exact left whole returns

/-! ### Shortening -/

theorem Exits.height (charted : (Height.view alone).Charted constants code D) {pc : Nat} (leads : Exits code pc)
    {X : Height} (at_pc : D pc = some X) : 1 ≤ X.depth ∧ (alone → X.depth = 1) := by
  induction leads generalizing X with
  | @ret pc i here ret =>
    obtain ⟨j, again, enough, left⟩ := charted.allows at_pc
    obtain rfl := Option.some.inj (here.symm.trans again)
    have one : i.pops = 1 := by rw [Instruction.pops, ret]; rfl
    exact ⟨one ▸ enough, fun whole => one ▸ left whole ⟨by rw [ret]; rfl, by rw [ret]; decide, by rw [ret]; decide⟩⟩
  | @label pc i here label _ ih =>
    obtain ⟨Y, there, le⟩ := charted.after at_pc here (by rw [label]; rfl)
    obtain rfl : _ = Y := le
    have onward := ih there
    rwa [show (Height.view alone).after constants i X = X by
      simp [Height.view, Instruction.depthAfter, Instruction.pops, Instruction.pushes, label, Opcode.effect]] at onward
  | @jump pc target i here jump goal _ ih =>
    obtain ⟨other, again, le⟩ := charted.target at_pc here (by rw [jump]; rfl)
    obtain rfl := Option.some.inj (again.symm.trans goal)
    have onward := ih (Height.known_eq le)
    rwa [show (Height.view alone).taken i X = X by
      simp [Height.view, Instruction.depthAfter, Instruction.pops, Instruction.pushes, jump, Opcode.effect]] at onward

theorem height_short (charted : (Height.view alone).Charted constants code D) {pc next : Nat} {k : Instruction}
    (stands : StandsFor code pc next k) {X : Height} (at_pc : D pc = some X) :
    (Height.view alone).allows constants X k := by
  cases stands with
  | same here onward =>
    obtain ⟨j, again, allows⟩ := charted.allows at_pc
    obtain rfl := Option.some.inj (again.symm.trans here)
    exact allows
  | ret exits returns =>
    subst returns
    obtain ⟨enough, left⟩ := exits.height charted at_pc
    exact ⟨enough, fun whole _ => left whole⟩
  | @closes i here closes exits =>
    obtain ⟨j, again, enough, -⟩ := charted.allows at_pc
    obtain rfl := Option.some.inj (here.symm.trans again)
    have spec := closes.spec
    obtain ⟨Y, there, le⟩ := charted.after at_pc here spec.exits.2
    obtain rfl : _ = Y := le
    obtain ⟨-, left⟩ := exits.height charted there
    refine ⟨spec.pops ▸ enough, fun whole _ => ?_⟩
    have one : X.depth - i.pops + i.pushes = 1 := left whole
    rw [spec.pushes.2] at one
    rw [spec.pops]
    omega

theorem Sealed.shorten (h : c.Sealed) : ({ c with code := Chunk.shorten c.code } : Chunk).Sealed := by
  obtain ⟨checked, accepted⟩ := h.accepted
  obtain ⟨source, shortens⟩ := shortens_shorten h.numbered.distinct
  obtain ⟨shortened, verified, -⟩ := shortens.verify (d := { c with code := Chunk.shorten c.code }) accepted
  refine ⟨⟨shortened, verified⟩, fun i member => ⟨h.numbered.shorten.below i member, fun const => ?_⟩⟩
  rcases shortens.mem_or member with old | plain | tail
  · exact (h.mentions i old).constant const
  · rw [const] at plain
    cases plain
  · cases const.symm.trans tail

/-- The shorter code has a chart of heights, if the code is accepted. -/
theorem Sealed.charted_shorten (h : c.Sealed) (returns : alone → ReturnsAlone c.code) :
    ∃ D, (Height.view alone).Charted c.constants (Chunk.shorten c.code) D ∧ D 0 = some ⟨0⟩ := by
  obtain ⟨source, shortens⟩ := shortens_shorten h.numbered.distinct
  obtain ⟨D, charted, start⟩ := h.charted returns
  refine ⟨D ∘ source, charted.shortens shortens h.numbered.distinct fun stands at_pc => height_short charted stands at_pc, ?_⟩
  rw [Function.comp, shortens.start, start]

/-! ### A body in the place of a call -/

/-- What is known at the labels of a body in its place, on top of so much, and where it is left. In place
of a tail call it may have to be on top of nothing. -/
structure Raises (alone : Bool) (s : Site) (base : Nat) (goals places : Nat → Option Height) : Prop where
  labels : ∀ label, label + s.labelBase < s.exit →
    places (label + s.labelBase) = (goals label).map (Height.atop base)
  exit : s.tail = false → places s.exit = some ⟨base + 1⟩
  bottom : s.tail = true → alone → base = 0

variable {s : Site} {base : Nat} {goals places : Nat → Option Height} {i j : Instruction} {S : Height}

theorem Raises.leaves (raises : Raises alone s base goals places) (plain : s.tail = false) {X : Height}
    (one : X.depth = base + 1) (h : s.exit ≤ maxOperand) :
    (Height.view alone).Flows pool places (some X) [⟨.jump, s.exit, h⟩] none := by
  refine .cons ⟨nofun, fun _ => ⟨Nat.zero_le _, fun _ returns => absurd rfl returns.2.2⟩, fun same _ => ?_⟩ (.refl none)
  obtain rfl := Option.some.inj same
  rw [raises.exit plain, ← one]
  exact known_refl _

theorem Raises.one (raises : Raises alone s base goals places)
    (passes : (Height.view (alone || !s.tail)).Passes constants goals i (some S))
    (effect : j.pops = i.pops ∧ j.pushes = i.pushes ∧ j.op.effect.exits = i.op.effect.exits)
    (stays : j.op.Returns → s.tail = true ∧ i.op.Returns)
    (labels : j.op.effect.operand = .labels → j.op = i.op ∧ j.operand = i.operand + s.labelBase ∧
      i.operand + s.labelBase < s.exit) :
    (Height.view alone).Flows pool places (some (S.atop base)) [j]
      (((Height.view (alone || !s.tail)).onward constants i (some S)).map (Height.atop base)) := by
  obtain ⟨pops, pushes, exits⟩ := effect
  obtain ⟨enough, left⟩ := passes.allows rfl
  have after : j.depthAfter (S.atop base).depth = i.depthAfter S.depth + base := by
    rw [Instruction.depthAfter, Instruction.depthAfter, Height.depth_atop]
    omega
  refine .cons ⟨fun label => ?_, fun same => ?_, fun same jumps => ?_⟩ ?_
  · obtain ⟨op, shifted, inside⟩ := labels (by rw [label]; rfl)
    rw [shifted, raises.labels _ inside, ← passes.anchor (op ▸ label)]
    rfl
  · obtain rfl := Option.some.inj same
    refine ⟨pops ▸ Nat.le_trans enough (Nat.le_add_right _ _), fun whole returns => ?_⟩
    obtain ⟨tail, own⟩ := stays returns
    have bottom := raises.bottom tail whole
    have exact := left (by simp [whole]) own
    rw [Height.depth_atop]
    omega
  · obtain rfl := Option.some.inj same
    obtain ⟨op, shifted, inside⟩ := labels (Opcode.operand_of_jumps jumps)
    have goal := Height.known_eq (passes.goal rfl (op ▸ jumps))
    rw [shifted, raises.labels _ inside, goal]
    exact Option.some_le_some.mpr (congrArg Height.mk after)
  · cases leaves : i.op.effect.exits with
    | true =>
      rw [View.onward_exits _ leaves, View.onward_exits _ (exits.trans leaves)]
      exact Option.none_le
    | false =>
      rw [View.onward_some _ leaves, View.onward_some _ (exits.trans leaves)]
      exact Option.some_le_some.mpr (congrArg Height.mk after)

theorem Relocated.raises (h : Relocated s callee c i code d) (raises : Raises alone s base goals places)
    (passes : (Height.view (alone || !s.tail)).Passes constants goals i (some S))
    (inside : i.op.effect.operand = .labels → i.operand + s.labelBase < s.exit) :
    (Height.view alone).Flows pool places (some (S.atop base)) code
      (((Height.view (alone || !s.tail)).onward constants i (some S)).map (Height.atop base)) := by
  obtain ⟨op, operand, small⟩ := i
  obtain ⟨enough, left⟩ := passes.allows rfl
  have closes (plain : s.tail = false) : op.Returns → S.depth = Instruction.pops ⟨op, operand, small⟩ :=
    left (by simp [plain])
  cases h with
  | ret plain is h =>
    obtain rfl : op = .ret := is
    have one : S.depth = 1 := closes plain (by decide)
    exact raises.leaves plain (by rw [Height.depth_atop]; omega) h
  | @literal plain opens fused h =>
    obtain ⟨effect, leaves⟩ := effect_fused fused
    have none : S.depth = 0 := by
      rw [closes plain ⟨by rw [leaves], ?_, ?_⟩]
      · simp [Instruction.pops, leaves]
      · rintro rfl
        cases leaves
      · rintro rfl
        cases leaves
    rw [View.onward_exits _ (by rw [leaves])]
    refine .cons (View.passes_of_allows ?_ ⟨?_, fun _ returns => ?_⟩) ?_
    · rw [Opcode.bare, effect]
      decide
    · simp [Instruction.pops, Opcode.bare, effect]
    · have goes := returns.1
      rw [Opcode.bare, effect] at goes
      cases goes
    · rw [View.onward_some _ (by rw [Opcode.bare, effect])]
      refine raises.leaves plain ?_ h
      simp [Height.view, Instruction.depthAfter, Instruction.pops, Instruction.pushes, Opcode.bare, effect,
        Height.atop, none]
  | call plain is h =>
    obtain rfl : op = .tailCall := is
    have whole : S.depth = 1 + operand := closes plain (by decide)
    rw [View.onward_exits _ (by rfl)]
    refine .cons (View.passes_of_allows (i := ⟨.call, operand, small⟩)
      (show OperandKind.stack ≠ .labels by decide) ⟨?_, fun _ returns => by cases returns.1⟩) ?_
    · show 1 + operand ≤ S.depth + base
      omega
    · rw [View.onward_some _ (by rfl)]
      refine raises.leaves plain ?_ h
      show S.depth + base - (1 + operand) + 1 = base + 1
      omega
  | @constant v found h =>
    refine raises.one passes ?_ (fun returns => by cases returns.1) fun labels => by cases labels
    obtain rfl | rfl : op = .capture ∨ op = .const := constantFor?_fetches found <;> exact ⟨rfl, rfl, rfl⟩
  | slot locals h =>
    have effect : op = .load ∨ op = .store := by
      cases op <;> first | exact .inl rfl | exact .inr rfl | cases locals
    refine raises.one passes ?_ ?_ ?_
    · rcases effect with rfl | rfl <;> exact ⟨rfl, rfl, rfl⟩
    · rcases effect with rfl | rfl <;> exact fun returns => by cases returns.1
    · rcases effect with rfl | rfl <;> (intro labels; cases labels)
  | label labels h =>
    refine raises.one passes ?_ (fun returns => ?_) fun _ => ⟨rfl, rfl, inside labels⟩
    · rcases Opcode.anchors_or_jumps labels with rfl | jumps
      · exact ⟨rfl, rfl, rfl⟩
      · cases op <;> first | exact ⟨rfl, rfl, rfl⟩ | cases jumps
    · obtain ⟨leaves, -, jumps⟩ := returns
      cases op <;> first | exact absurd rfl jumps | (cases labels; done) | cases leaves
  | kept closed other =>
    refine raises.one passes ⟨rfl, rfl, rfl⟩ (fun returns => ⟨?_, returns⟩) fun labels => absurd labels other.2.2.2
    by_contra plain
    exact returns.2.1 (closed (by simpa using plain) returns.1)

theorem raises_landings {p : Procedure Value} {E : Nat → Option Height}
    (counts : d.labelCount = (c.hosting p tail).labelCount) (bottom : tail = true → alone → base = 0)
    (agree : ∀ label, c.labelCount ≤ label → label < d.labelCount → places label =
      landings c p (View.goalsOf p.code E) ⟨base + 1⟩ (Height.atop base) label) :
    Raises alone (c.siteFor p tail) base (View.goalsOf p.code E) places where
  labels label inside := (landings_spec counts agree).1 label (by
    have below : label + c.labelCount < c.labelCount + p.labelCount := inside
    omega)
  exit := (landings_spec counts agree).2
  bottom := bottom

/-- A body that is left comes to the arguments that were put aside for it. -/
theorem Raises.resumed (raises : Raises alone s base goals places) (plain : s.tail = false)
    (h : s.exit ≤ maxOperand) : (Height.view alone).Flows pool places none
      [⟨.label, s.exit, h⟩, Opcode.popArgs.bare] (some ⟨base + 1⟩) := by
  refine ⟨some ⟨base + 1⟩, Option.none_le, ⟨fun _ => (raises.exit plain).symm, fun _ => ⟨Nat.zero_le _,
    fun _ returns => by cases returns.1⟩, fun _ => nofun⟩, ?_⟩
  rw [View.onward_some _ (by rfl)]
  refine .cons (View.passes_of_allows (i := Opcode.popArgs.bare) (show OperandKind.nothing ≠ .labels from nofun)
    ⟨Nat.zero_le _, fun _ returns => by cases returns.1⟩) ?_
  rw [View.onward_some _ (by rfl)]
  exact known_refl _

theorem callShape?_effect (shape : callShape? j = some (count, tail)) :
    j.pops = 1 + count ∧ j.op.effect.exits = tail ∧ (tail = false → j.pushes = 1) ∧
      (tail = true → j.op.Returns) := by
  obtain ⟨op, operand, small⟩ := j
  cases op <;> cases shape <;>
    exact ⟨rfl, rfl, by first | exact fun _ => rfl | nofun, by first | exact fun _ => ⟨rfl, nofun, nofun⟩ | nofun⟩

/-- A body in the place of a call of a constant leaves the depth that the call does. -/
theorem Spliced.raises (h : Spliced c callee count tail code d) (suits : callee.Suits (alone || !tail))
    (const : i.op = .const) (shape : callShape? j = some (count, tail)) {Y Z : Option Height}
    (next : (Height.view alone).onward c.constants i Y ≤ Z)
    (allows : ∀ {X : Height}, Z = some X → (Height.view alone).allows c.constants X j) :
    ∃ places : Nat → Option Height, ∀ {goals : Nat → Option Height} {pool : List Value},
      (∀ label, c.labelCount ≤ label → label < d.labelCount → goals label = places label) →
        (Height.view alone).Flows pool goals Y code ((Height.view alone).onward c.constants j Z) := by
  have numbered := suits.body.numbered
  obtain ⟨pops, exits, pushes, returns⟩ := callShape?_effect shape
  obtain ⟨E, charted, start⟩ := suits.body.charted suits.returns
  cases Y with
  | none =>
    refine ⟨fun _ => none, fun {goals pool} agree => ?_⟩
    have dead : (Height.view alone).Flows pool goals none code none := .dead fun i member anchors => by
      obtain ⟨low, high⟩ := h.label_mem numbered (mem_labelsOf.mpr ⟨i, member, anchors, rfl⟩)
      exact agree i.operand low high
    exact dead.widen Option.none_le
  | some S =>
    rw [View.onward_some _ (by rw [const]; rfl)] at next
    obtain rfl := Height.known_eq next
    obtain ⟨enough, left⟩ := allows rfl
    have pushed : ((Height.view alone).after c.constants i S).depth = S.depth + 1 := by
      simp [Height.view, Instruction.depthAfter, Instruction.pops, Instruction.pushes, const, Opcode.effect]
    rw [pushed] at enough left
    have bottom : tail = true → alone → S.depth - count = 0 := fun whole leaves => by
      have exact := left leaves (returns whole)
      omega
    refine ⟨landings c callee.procedure (View.goalsOf callee.procedure.code E) ⟨S.depth - count + 1⟩
      (Height.atop (S.depth - count)), fun {goals pool} agree => ?_⟩
    have below (i : Instruction) (member : i ∈ callee.procedure.code) (labels : i.op.effect.operand = .labels) :
        i.operand + c.labelCount < c.labelCount + callee.procedure.labelCount := by
      have inside : i.operand < callee.procedure.labelCount := numbered.below i member labels
      omega
    have inner {body : List Instruction} (h : count ≤ maxOperand)
        (raises : Raises alone (c.siteFor callee.procedure tail) (S.depth - count)
          (View.goalsOf callee.procedure.code E) goals)
        (moved : RelocatedAll (c.siteFor callee.procedure tail) callee (c.hosting callee.procedure tail)
          callee.procedure.code body d) :
        (Height.view alone).Flows pool goals (some S) (⟨.pushArgs, count, h⟩ :: body) none := by
      have staged : Instruction.pops ⟨.pushArgs, count, h⟩ = count := Nat.zero_add count
      refine .cons (View.passes_of_allows (i := ⟨.pushArgs, count, h⟩) (show OperandKind.stack ≠ .labels by decide)
        ⟨by rw [staged]; omega, fun _ returns => by cases returns.1⟩) ?_
      have enters : (E 0).map (Height.atop (S.depth - count)) = some ⟨S.depth - count⟩ := by
        rw [start]
        exact congrArg (some ∘ Height.mk) (Nat.zero_add _)
      have starts : (Height.view alone).onward pool ⟨.pushArgs, count, h⟩ (some S) = some ⟨S.depth - count⟩ := by
        rw [View.onward_some _ (by rfl)]
        simp [Height.view, Instruction.depthAfter, staged, Instruction.pushes, Opcode.effect]
      rw [starts, ← enters]
      exact moved.flows charted numbered.distinct Height.atop_le
        (fun i member labels => raises.labels _ (below i member labels))
        (fun first _ here _ passes => first.raises raises passes (below _ (List.mem_of_getElem? here))) rfl
    cases h with
    | tail h moved =>
      rw [View.onward_exits _ exits]
      exact inner h (raises_landings (by rw [moved.counts]) bottom agree) moved
    | plain h g moved =>
      have raises : Raises alone (c.siteFor callee.procedure false) (S.depth - count)
        (View.goalsOf callee.procedure.code E) goals := raises_landings (by rw [moved.counts]) bottom agree
      have after : (Height.view alone).onward c.constants j (some ((Height.view alone).after c.constants i S)) =
          some ⟨S.depth - count + 1⟩ := by
        rw [View.onward_some _ exits]
        refine congrArg (some ∘ Height.mk) ?_
        rw [Instruction.depthAfter, pushed, pops, pushes rfl]
        omega
      rw [after]
      exact (inner h raises moved).append (raises.resumed rfl g)

/-! ### Inlining -/

theorem Inlines.indices {good : Bool → Closure → Prop} (h : Inlines good c code longer d)
    (indices : ∀ i ∈ code, i.op = .const → i.operand < c.constants.length) :
    ∀ i ∈ longer, i.op = .const → i.operand < d.constants.length := by
  induction h with
  | nil => nofun
  | keep others ih =>
    obtain ⟨here, later⟩ := List.forall_mem_cons.mp indices
    exact List.forall_mem_cons.mpr ⟨fun op => Nat.lt_of_lt_of_le (here op) others.constants.length_le, ih later⟩
  | splice _ _ _ _ _ _ _ spliced others ih =>
    have later := (List.forall_mem_cons.mp (List.forall_mem_cons.mp indices).2).2
    refine List.forall_mem_append.mpr ⟨fun i member op => ?_, ih fun i member op =>
      Nat.lt_of_lt_of_le (later i member op) spliced.constants.length_le⟩
    refine Nat.lt_of_lt_of_le ?_ others.constants.length_le
    rcases spliced.mem.2 i member with pushes | pops | ⟨-, label, -⟩ | placed
    · cases op.symm.trans pushes
    · cases op.symm.trans pops
    · cases op.symm.trans label
    · cases placed with
      | exit _ jump _ => cases op.symm.trans jump
      | constant _ inside => exact inside
      | slot _ locals same _ =>
        rw [← same, op] at locals
        cases locals
      | label _ labels same _ =>
        rw [← same, op] at labels
        cases labels
      | free other => exact absurd op other.2.1

/-- The chunk with calls inlined is accepted again, and returns as it did. -/
theorem Inlines.sealed (h : Inlines (fun tail callee => callee.Suits (alone || !tail)) c c.code longer d)
    (sealed : c.Sealed) (chart : ∃ D, (Height.view alone).Charted c.constants c.code D ∧ D 0 = some ⟨0⟩) :
    ({ d with code := longer } : Chunk).Sealed ∧ (alone → ReturnsAlone longer) := by
  have numbered := (h.renumbers fun suits => suits.body.numbered).numbered sealed.numbered
  obtain ⟨D, charted, start⟩ := chart
  obtain ⟨others, -, flows⟩ := h.flows (.refl _) (fun _ => True) (fun suits => suits.body.numbered)
    (fun _ _ _ => trivial) (fun _ suits _ _ spliced const shape _ next allows => by
      obtain ⟨places, follows⟩ := spliced.raises suits const shape next allows
      exact ⟨places, fun agree _ => follows agree⟩) trivial
    (charted.flows sealed.numbered.distinct) sealed.mentions
  obtain ⟨E, chart, starts⟩ := (flows (List.prefix_refl _)).charted numbered.distinct numbered.anchored
  rw [start] at starts
  obtain ⟨⟨depth, assigns⟩, returns⟩ := assigns_of_charted chart numbered.distinct (Height.known_eq starts)
  obtain ⟨checked, accepted⟩ := verify_of_assigns (c := { d with code := longer })
    (anchored_of_distinct numbered.distinct numbered.anchored) assigns
  exact ⟨⟨⟨checked, accepted⟩, fun i member => ⟨numbered.below i member,
    h.indices (fun i member => (sealed.mentions i member).constant) i member⟩⟩, returns⟩

/-- Each closure that is put in the place of a call of the code suits this call. -/
def CallsSuit (alone : Bool) (c : Chunk) : Prop :=
  ∀ {i j : Instruction} {count : Nat} {tail : Bool} {callee : Closure}, [i, j] <:+: c.code → i.op = .const →
    c.constants[i.operand]? = some callee.value → callShape? j = some (count, tail) →
      refusal? c.globals callee.procedure count = none → callee.Suits (alone || !tail)

variable {o : CompileOptions}

/-- Optimizing keeps what inlining asks for, so that the result can be inlined in its turn. -/
theorem granted_optimize_sealed (sealed : c.Sealed) (returns : alone → ReturnsAlone c.code)
    (calls : o.inline → CallsSuit alone { c with code := shorten c.code }) (s : Store) :
    Grants (c.optimize o) s fun d _ => d.Sealed ∧ (alone → ReturnsAlone d.code) := by
  obtain ⟨D, charted, start⟩ := sealed.charted_shorten returns
  have short := sealed.shorten
  unfold optimize
  dsimp only
  split
  next inline =>
    have inlines : Grants (inlineCalls o.maxInlinedCalls { c with code := shorten c.code } (shorten c.code)) s
        fun result _ => Inlines (fun tail callee => callee.Suits (alone || !tail)) { c with code := shorten c.code }
          (shorten c.code) result.1 result.2 := by
      refine granted_inlineCalls (fun suits i => ?_) (fun i member => ?_) (fun inside op found shape welcome => ?_) s
      · exact suits.fetches
      · exact (short.mentions i member).constant
      · exact calls inline inside op found shape welcome
    exact inlines.bind fun result t _ inlines => .pure (inlines.sealed short ⟨D, charted, start⟩)
  · exact .pure ⟨short, (assigns_of_charted charted short.numbered.distinct start).2⟩

/-- Optimizing keeps a chunk accepted, but for operands that grow too large. Without inlining this is so
whatever the chunk; with inlining if its labels are counted, its constants are there, and each callee that
is put in the place of a call suits it. -/
theorem optimize_accepted (accepted : ∃ checked, c.verify = .ok checked)
    (fit : o.inline → (∀ i ∈ c.code, c.Mentions i) ∧ CallsSuit false { c with code := shorten c.code })
    (s : Store) : Grants (c.optimize o) s fun d _ => ∃ checked, d.verify = .ok checked := by
  cases inline : o.inline with
  | true =>
    obtain ⟨mentions, calls⟩ := fit inline
    have kept := @granted_optimize_sealed c false o ⟨accepted, mentions⟩ nofun (fun _ => calls) s
    exact kept.mono fun d _ _ sealed => sealed.1.accepted
  | false =>
    obtain ⟨checked, verified⟩ := accepted
    obtain ⟨source, shortens⟩ := shortens_shorten (labels_nodup_of_verify verified)
    obtain ⟨shortened, also, -⟩ := shortens.verify (d := { c with code := shorten c.code }) verified
    unfold optimize
    rw [inline]
    exact .pure ⟨shortened, also⟩

/-- Depths that the check finds tell whether returns leave something behind. -/
theorem returnsAlone_of_verify {checked : Checked} (accepted : c.verify = .ok checked)
    (left : ∀ x ∈ checked.depths.zip c.code, x.2.op.Returns → ∀ d ∈ x.1, d = x.2.pops) : ReturnsAlone c.code := by
  intro depth pc i assigns reached here returns
  have anchored := anchored_of_verify accepted
  have covers := verify_covers accepted
  obtain ⟨d, there⟩ := covers_reached covers anchored.nodup reached
  have same := assigns.unique (assigns_of_covers covers anchored.nodup) reached
  rw [same, there]
  have pair : (checked.depths.zip c.code)[pc]? = some (some d, i) := List.getElem?_zip_eq_some.mpr ⟨there, here⟩
  exact left _ (List.mem_of_getElem? pair) returns d rfl

/-- The body of a procedure that answers one thing or the other. -/
def answering : Procedure Value where
  serial := 0
  name := none
  arity := .fixed 1
  code := [⟨.arg, 0, Nat.zero_le _⟩, ⟨.condJump, 0, Nat.zero_le _⟩, Opcode.retNull.bare,
    ⟨.label, 0, Nat.zero_le _⟩, ⟨.posInt, 1, one_le_maxOperand⟩, Opcode.ret.bare]
  constants := []
  labels := [some 3]
  stackSize := 1
  localCount := 0
  labelCount := 1
  globals := 0
  inlinable := true

/-- Asks it twice, the second time in tail position. -/
def asking : Chunk where
  code := [Opcode.trueLit.bare, ⟨.const, 0, Nat.zero_le _⟩, Opcode.call1.bare, Opcode.pop.bare,
    Opcode.falseLit.bare, ⟨.const, 0, Nat.zero_le _⟩, Opcode.call1.bare, Opcode.ret.bare]
  constants := [.closure answering []]
  localCount := 0
  labelCount := 0
  globals := 0
  name := none

theorem suits_answering (alone : Bool) : (Closure.mk answering []).Suits alone := by
  have accepted : answering.chunk.verify =
      .ok ⟨1, [some 3], [some 0, some 1, some 0, some 0, some 0, some 1]⟩ := by with_unfolding_all rfl
  have mentions : ∀ i ∈ answering.code, (i.op.effect.operand = .labels → i.operand < 1) ∧
      (i.op = .const → i.operand < 0) := by decide
  exact ⟨⟨⟨_, accepted⟩, fun i member => ⟨(mentions i member).1, (mentions i member).2⟩⟩, by decide,
    fun _ => returnsAlone_of_verify accepted (by decide)⟩

theorem optimize_accepted_asking :
    Grants (asking.optimize {}) {} fun d _ => ∃ checked, d.verify = .ok checked := by
  have mentions : ∀ i ∈ asking.code, (i.op.effect.operand = .labels → i.operand < 0) ∧
      (i.op = .const → i.operand < 1) := by decide
  have unshortened : ∀ i ∈ shorten asking.code, i.op = .const → i ∈ asking.code := by decide
  have accepted : asking.verify = .ok ⟨2, [], [some 0, some 1, some 2, some 1, some 0, some 1, some 2, some 1]⟩ := by
    with_unfolding_all rfl
  refine optimize_accepted ⟨_, accepted⟩
    (fun _ => ⟨fun i member => ⟨(mentions i member).1, (mentions i member).2⟩,
      fun {i j count tail callee} inside const found _ _ => ?_⟩) {}
  have first : i.operand = 0 := Nat.lt_one_iff.mp
    ((mentions i (unshortened i (inside.subset List.mem_cons_self) const)).2 const)
  rw [first] at found
  obtain ⟨p, captured⟩ := callee
  obtain ⟨rfl, rfl⟩ : answering = p ∧ [] = captured := Value.closure.inj (Option.some.inj found)
  exact suits_answering _

end Chunk

end StackLisp
