import StackLisp.Proofs.Elaboration
import StackLisp.Proofs.Grafts
import StackLisp.Proofs.Neat

/-!
What names hold while code is emitted: the cell of a name says whether its place has a reference or a plain
value, in the slots of the body and among what it captures.
-/

namespace StackLisp

open Workshop Whereabouts

/-- Whether names of the kind hold references. -/
def CellKind.refers (k : CellKind) : Bool :=
  k = .reference

@[simp] theorem Cell.refers_capturedKind (cell : Cell) : cell.capturedKind.refers = cell.kind.refers := by
  obtain ⟨kind, scope, index⟩ := cell
  cases kind <;> rfl

theorem CellKind.refers_of_ne {k : CellKind} (h : k ≠ .reference) : k.refers = false :=
  decide_eq_false h

/-- The place of the cell holds what the kind says, as far as is known of it. -/
def Cell.Known (refs : Nat → Bool) (X : Whereabouts) (cell : Cell) : Prop :=
  match cell.scope with
  | .args | .current => cell.kind.refers = false
  | .locals => ((X.slots cell.index).loaded cell.index).Suits cell.kind.refers
  | .captured => refs cell.index = cell.kind.refers

namespace Cell

variable {refs : Nat → Bool} {X : Whereabouts} {cell : Cell} {i : Instruction} {pool : List Value}

theorem Loads.pushes (loads : cell.Loads i) (known : cell.Known refs X) : ∃ k : Content,
    k.Suits cell.kind.refers ∧ ∀ pool, X.Allows (.genuine refs) pool i ∧
      X.after (.genuine refs) pool i = X.push k := by
  obtain ⟨kind, scope, index⟩ := cell
  obtain ⟨op, operand, small⟩ := i
  obtain ⟨loader, place⟩ := loads
  obtain rfl : op = Cell.loader ⟨kind, scope, index⟩ := loader
  cases scope with
  | args =>
    have plain : kind.refers = false := known
    refine ⟨.plain, ?_, fun pool => ?_⟩
    · dsimp only
      rw [plain]
      rfl
    · cases kind <;> exact ⟨trivial, rfl⟩
  | current =>
    have plain : kind.refers = false := known
    refine ⟨.plain, ?_, fun pool => ⟨trivial, rfl⟩⟩
    dsimp only
    rw [plain]
    rfl
  | locals =>
    obtain rfl : operand = index := place nofun
    exact ⟨_, known, fun pool => ⟨trivial, rfl⟩⟩
  | captured =>
    obtain rfl : operand = index := place nofun
    refine ⟨if refs operand then .reference else .plain, ?_, fun pool => ⟨trivial, rfl⟩⟩
    have same : refs operand = kind.refers := known
    rw [same]
    cases kind.refers
    · rfl
    · exact .inl rfl

/-- Only the slot of a cell counts for what it holds. -/
theorem Known.congr (known : cell.Known refs X) {Y : Whereabouts}
    (same : cell.scope = .locals → Y.slots cell.index = X.slots cell.index) : cell.Known refs Y := by
  obtain ⟨kind, scope, index⟩ := cell
  cases scope with
  | locals =>
    show ((Y.slots index).loaded index).Suits kind.refers
    rw [show Y.slots index = X.slots index from same rfl]
    exact known
  | _ => exact known

end Cell

namespace Workshop

variable {w u x : Workshop} {refs : Nat → Bool} {X Y : Whereabouts} {name : String} {cell : Cell}
  {kind : CellKind} {k : Content}

/-- A workshop whose constants have roles, with a place for each name in scope. -/
structure Settled (w : Workshop) : Prop where
  sound : w.Sound
  stocked : ∀ v ∈ w.body.constants, v.HasRole
  housed : ∀ s ∈ w.body.scopes, ∀ entry ∈ s.cells, entry.2.Housed w.body.nextLocal
  room : w.body.nextLocal ≤ w.body.localCount

/-- Every name in scope holds what its kind says, and nothing is known of the free slots. -/
structure Minds (w : Workshop) (refs : Nat → Bool) (X : Whereabouts) : Prop where
  cells : ∀ s ∈ w.body.scopes, ∀ entry ∈ s.cells, entry.2.Known refs X
  small : X.below w.body.nextLocal = X

/-- The captured names are references where this says so. -/
def Fixes (w : Workshop) (refs : Nat → Bool) : Prop :=
  ∀ {k : Nat} {entry : String × CellKind}, w.body.captured[k]? = some entry → refs k = entry.2.refers

/-- In the innermost scope the references in the slots `ks` are still to be filled, for the names `xs`. -/
structure Awaits (w : Workshop) (X : Whereabouts) (xs : List String) (ks : List Nat) : Prop where
  distinct : ks.Nodup
  pending : ∀ slot ∈ ks, X.slots slot = .pending
  cells : ∃ s others, w.body.scopes = s :: others ∧
    (xs.map fun x => s.cells.lookup x) = ks.map fun slot => some ⟨.reference, .locals, slot⟩

/-- Which of the captured names are references. -/
def references (w : Workshop) (k : Nat) : Bool :=
  (w.body.captured[k]?.map (·.2.refers)).getD false

theorem fixes_references (w : Workshop) : w.Fixes w.references := by
  intro k entry found
  rw [references, found]
  rfl

theorem Fixes.extends (h : x.Fixes refs) (extends' : w.Extends x) : w.Fixes refs :=
  fun found => h (getElem?_of_longer extends'.captured found)

theorem Settled.stays (h : w.Settled) (stays : w.Stays x) (stocked : ∀ v ∈ x.body.constants, v.HasRole)
    (locals : w.body.localCount ≤ x.body.localCount) : x.Settled where
  sound := stays.sound h.sound
  stocked := stocked
  housed := by
    rw [stays.scopes, stays.nextLocal]
    exact h.housed
  room := stays.nextLocal ▸ Nat.le_trans h.room locals

theorem Settled.enter (h : w.Settled) {s : Scope} (cells : ∀ entry ∈ s.cells, entry.2.Housed w.body.nextLocal) :
    (w.enter s).Settled where
  sound := h.sound.congr rfl rfl rfl
  stocked := h.stocked
  housed _ member := (List.mem_cons.mp member).elim (fun own => own ▸ cells) (h.housed _)
  room := h.room

theorem Settled.child (w : Workshop) (name : Option String) : (w.child name).Settled :=
  ⟨sound_child w name, fun _ => nofun, fun _ => nofun, Nat.le_refl _⟩

theorem Settled.bindLocal (h : w.Settled) (name : String) (kind : CellKind) : (w.bindLocal name kind).Settled := by
  obtain ⟨-, locals, -, -, constants⟩ := body_bindLocal w name kind
  have next := nextLocal_bindLocal w name kind
  refine ⟨opens_bindLocal.sound h.sound, constants ▸ h.stocked, fun s member entry inside => ?_, ?_⟩
  · rw [next]
    rcases scopes_bindLocal w name kind member inside with new | ⟨t, old, there⟩
    · rw [new]
      exact Nat.lt_succ_self _
    · exact (h.housed t old entry there).mono (Nat.le_succ _)
  · rw [next, locals]
    exact Nat.le_max_right _ _

theorem Minds.stays (h : w.Minds refs X) (stays : w.Stays x) : x.Minds refs X where
  cells := stays.scopes ▸ h.cells
  small := stays.nextLocal ▸ h.small

/-- What is known of the operands does not count for the names. -/
theorem Minds.congr (h : w.Minds refs X) (slots : Y.slots = X.slots) : w.Minds refs Y where
  cells s member entry inside := (h.cells s member entry inside).congr fun _ => by rw [slots]
  small := below_congr h.small slots

theorem Minds.enter (h : w.Minds refs X) {s : Scope} (cells : ∀ entry ∈ s.cells, entry.2.Known refs X) :
    (w.enter s).Minds refs X :=
  ⟨fun _ member => (List.mem_cons.mp member).elim (fun own => own ▸ cells) (h.cells _), h.small⟩

theorem Minds.child (w : Workshop) (name : Option String) : (w.child name).Minds refs {} :=
  ⟨fun _ => nofun, congrArg (Whereabouts.mk _) (funext fun _ => by simp)⟩

theorem Minds.lt_of_slot (h : w.Minds refs X) {slot : Nat} (known : X.slots slot ≠ .any) :
    slot < w.body.nextLocal := by
  by_contra beyond
  have same := congrArg (·.slots slot) h.small
  simp only [below, if_neg beyond] at same
  exact known same.symm

theorem Minds.bindLocal (h : w.Minds refs X) (settled : w.Settled) (name : String)
    (suits : (k.loaded w.body.nextLocal).Suits kind.refers) :
    (w.bindLocal name kind).Minds refs (X.put w.body.nextLocal k) where
  cells s member entry inside := by
    rcases scopes_bindLocal w name kind member inside with new | ⟨t, old, there⟩
    · rw [new]
      show ((if w.body.nextLocal = w.body.nextLocal then k else _).loaded _).Suits _
      rw [if_pos rfl]
      exact suits
    · refine (h.cells t old entry there).congr fun locals => if_neg (Nat.ne_of_lt ?_)
      have housed := settled.housed t old entry there
      unfold Cell.Housed at housed
      rwa [locals] at housed
  small := by
    rw [nextLocal_bindLocal]
    refine congrArg (Whereabouts.mk _) (funext fun l => ?_)
    show (if l < _ then (if l = _ then _ else _) else _) = if l = _ then _ else _
    by_cases inside : l < w.body.nextLocal + 1
    · rw [if_pos inside]
    · have beyond : X.slots l = .any := by
        by_contra known
        exact inside (Nat.lt_succ_of_lt (h.lt_of_slot known))
      rw [if_neg inside, if_neg (by omega), beyond]

/-- A slot of a pending reference may hold the filled one as well. -/
theorem Minds.fill (h : w.Minds refs X) {slot : Nat} (pending : X.slots slot = .pending) :
    w.Minds refs (X.put slot .reference) where
  cells s member entry inside := by
    have known := h.cells s member entry inside
    obtain ⟨name, kind, scope, index⟩ := entry
    by_cases own : scope = .locals ∧ index = slot
    · obtain ⟨rfl, rfl⟩ := own
      have before : ((X.slots index).loaded index).Suits kind.refers := known
      rw [pending] at before
      unfold Cell.Known
      dsimp only [put]
      rw [if_pos rfl]
      cases refers : kind.refers with
      | false => rw [refers] at before; cases before
      | true => exact .inl rfl
    · exact known.congr fun locals => if_neg fun same => own ⟨locals, same⟩
  small := by
    have taken := h.lt_of_slot (by rw [pending]; nofun)
    refine congrArg (Whereabouts.mk _) (funext fun l => ?_)
    have rest := congrArg (·.slots l) h.small
    show (if l < _ then (if l = slot then _ else _) else _) = if l = slot then _ else _
    by_cases inside : l < w.body.nextLocal
    · rw [if_pos inside]
    · rw [if_neg inside, if_neg (by omega)]
      simpa only [below, if_neg inside] using rest

theorem Awaits.stays {xs : List String} {ks : List Nat} (h : w.Awaits X xs ks) (stays : w.Stays x) :
    x.Awaits X xs ks :=
  { h with cells := stays.scopes ▸ h.cells }

theorem Awaits.enter (w : Workshop) (X : Whereabouts) : (w.enter { kind := .locals }).Awaits X [] [] :=
  ⟨List.nodup_nil, fun _ => nofun, _, _, rfl, rfl⟩

theorem Awaits.bindLocal {xs : List String} {ks : List Nat} (h : w.Awaits X xs ks) (minds : w.Minds refs X)
    (admits : w.Admits name) : (w.bindLocal name .reference).Awaits (X.put w.body.nextLocal .pending)
      (xs ++ [name]) (ks ++ [w.body.nextLocal]) := by
  obtain ⟨distinct, pending, s, others, scopes, cells⟩ := h
  obtain ⟨s', others', again, free⟩ := admits
  obtain ⟨rfl, rfl⟩ := List.cons.inj (scopes.symm.trans again)
  have before : ∀ slot ∈ ks, slot < w.body.nextLocal := fun slot member =>
    minds.lt_of_slot (by rw [pending slot member]; nofun)
  refine ⟨?_, fun slot member => ?_, { s with cells := (name, w.nextCell .reference) :: s.cells }, others, ?_, ?_⟩
  · exact List.nodup_append.mpr ⟨distinct, List.nodup_singleton _, fun slot member other last =>
      List.mem_singleton.mp last ▸ Nat.ne_of_lt (before slot member)⟩
  · show (if slot = w.body.nextLocal then _ else _) = _
    rcases List.mem_append.mp member with old | new
    · rw [if_neg (Nat.ne_of_lt (before slot old))]
      exact pending slot old
    · rw [if_pos (List.mem_singleton.mp new)]
  · simp only [Workshop.bindLocal, slot, declare, body_alter, scopes]
  · rw [List.map_append, List.map_append, ← cells]
    refine congrArg₂ (· ++ ·) (List.map_congr_left fun other member => ?_) ?_
    · have looked : s.cells.lookup other ∈ ks.map fun slot => some (⟨.reference, .locals, slot⟩ : Cell) :=
        cells ▸ List.mem_map_of_mem member
      obtain ⟨slot, -, found⟩ := List.mem_map.mp looked
      have apart : (other == name) = false := by
        rw [beq_eq_false_iff_ne]
        rintro rfl
        cases found.trans free
      rw [List.lookup_cons, apart]
    · simp [nextCell]

theorem Awaits.fill {x : String} {xs : List String} {slot : Nat} {ks : List Nat}
    (h : w.Awaits X (x :: xs) (slot :: ks)) : w.Awaits (X.put slot .reference) xs ks where
  distinct := h.distinct.of_cons
  pending other member := by
    have apart : other ≠ slot := fun same => (List.nodup_cons.mp h.distinct).1 (same ▸ member)
    show (if other = slot then _ else _) = _
    rw [if_neg apart]
    exact h.pending other (List.mem_cons_of_mem _ member)
  cells := by
    obtain ⟨s, others, scopes, cells⟩ := h.cells
    exact ⟨s, others, scopes, (List.cons.inj cells).2⟩

theorem Awaits.lexical? {xs : List String} {ks : List Nat} (h : w.Awaits X (name :: xs) ks) :
    ∃ slot rest, ks = slot :: rest ∧ w.body.lexical? name = some ⟨.reference, .locals, slot⟩ := by
  obtain ⟨s, others, scopes, cells⟩ := h.cells
  cases ks with
  | nil => cases cells
  | cons slot rest =>
    have looked : s.cells.lookup name = some ⟨.reference, .locals, slot⟩ := (List.cons.inj cells).1
    refine ⟨slot, rest, rfl, ?_⟩
    unfold Body.lexical?
    rw [scopes, List.findSome?_cons, looked]

/-- The cell of a name is that of a scope, of an entry among the captured names, or of the body itself. -/
theorem lexical?_kept (settled : w.Settled) (h : w.body.lexical? name = some cell) :
    (∃ s ∈ w.body.scopes, ∃ entry ∈ s.cells, entry.2 = cell) ∨
      (cell.scope = .captured ∧ w.body.captured[cell.index]? = some (name, cell.kind)) ∨
        cell = ⟨.value, .current, 0⟩ := by
  unfold Body.lexical? at h
  split at h
  next own found =>
    obtain rfl := Option.some.inj h
    obtain ⟨s, member, looked⟩ := List.exists_of_findSome?_eq_some found
    obtain ⟨before, after, same, -⟩ := List.lookup_eq_some_iff.mp looked
    exact .inl ⟨s, member, (name, own), by rw [same]; simp, rfl⟩
  next =>
    split at h
    next k kind place looked =>
      obtain rfl := Option.some.inj h
      obtain ⟨inside, named, -⟩ := List.findIdx?_eq_some_iff_getElem.mp place
      obtain ⟨before, after, same, -⟩ := List.lookup_eq_some_iff.mp looked
      have entry : (name, kind) ∈ w.body.captured := by rw [same]; simp
      have one := List.inj_on_of_nodup_map settled.sound.distinct (List.getElem_mem inside) entry
        (by simpa using named)
      exact .inr (.inl ⟨rfl, (List.getElem?_eq_getElem inside).trans (congrArg some one)⟩)
    next =>
      split at h
      · exact .inr (.inr (Option.some.inj h).symm)
      · cases h

/-- What a name holds that has a cell, captured if need be. -/
theorem cell?_known (settled : w.Settled) (minds : w.Minds refs X) (found : w.cell? name = some cell)
    (fixes : (w.reach name).Fixes refs) : cell.Known refs X := by
  unfold cell? at found
  unfold reach at fixes
  cases lexical : w.body.lexical? name with
  | none =>
    rw [lexical] at found fixes
    obtain ⟨kind, seen, rfl⟩ := Option.map_eq_some_iff.mp found
    rw [seen] at fixes
    exact @fixes _ (name, kind) (by simp)
  | some own =>
    rw [lexical] at found fixes
    obtain rfl := Option.some.inj found
    rcases lexical?_kept settled lexical with ⟨s, member, entry, inside, rfl⟩ | ⟨captured, entry⟩ | rfl
    · exact minds.cells s member entry inside
    · unfold Cell.Known
      rw [captured]
      exact fixes entry
    · rfl

theorem cell?_visible (found : w.cell? name = some cell) : ∃ kind,
    Body.visible? (w.body :: w.around) name = some kind ∧ kind.refers = cell.kind.refers := by
  unfold cell? at found
  unfold Body.visible?
  cases lexical : w.body.lexical? name with
  | none =>
    rw [lexical] at found
    obtain ⟨kind, seen, rfl⟩ := Option.map_eq_some_iff.mp found
    exact ⟨kind, seen, rfl⟩
  | some own =>
    rw [lexical] at found
    obtain rfl := Option.some.inj found
    exact ⟨own.capturedKind, rfl, own.refers_capturedKind⟩

theorem Stays.visible (stays : w.Stays x) (settled : w.Settled) (name : String) :
    Body.visible? (x.body :: x.around) name = Body.visible? (w.body :: w.around) name := by
  rw [visible?_eq (stays.sound settled.sound) name [], visible?_eq settled.sound name [], stays.sight]

end Workshop

end StackLisp
