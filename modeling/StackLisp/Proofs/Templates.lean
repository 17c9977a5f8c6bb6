import StackLisp.Proofs.Tracing

/-!
What is built of neat expressions is a template. The code of each phrase leads from what is known of the
slots around it to the same; inner bodies are built before the code that makes closures of them, and what
is captured for them is a reference just where their code expects one.
-/

namespace StackLisp

open Workshop Whereabouts Stage

theorem Value.plain_symbol (name : String) : (Value.symbol name).Serves .plain :=
  .scalar rfl nofun

theorem Stage.Traced.idle {refs : Nat → Bool} {a : Stage} {L : List (Nat × Whereabouts)}
    {X : Option Whereabouts} (stocked : ∀ v ∈ a.constants, v.HasRole) : Traced refs a a [] [] L X X :=
  .quiet (.quiet rfl (List.prefix_refl _) (Nat.le_refl _) (Nat.le_refl _) (Nat.le_refl _)) stocked X

theorem Chunk.labels_of_shape {i : Instruction} {count : Nat} {tail : Bool}
    (shape : callShape? i = some (count, tail)) : i.op.effect.operand ≠ .labels := by
  obtain ⟨op, operand, small⟩ := i
  cases op <;> cases shape <;> nofun

namespace Workshop

variable {w u x : Workshop} {refs : Nat → Bool} {X Y : Whereabouts}
  {V Z : Option Whereabouts} {E F : List Nat} {L : List (Nat × Whereabouts)} {i : Instruction} {v : Value}

/-- A settled workshop where the names in scope hold what their kinds say, and no operand is a reference. -/
structure Poised (w : Workshop) (refs : Nat → Bool) (X : Whereabouts) : Prop where
  settled : w.Settled
  minds : w.Minds refs X
  bare : X.Bare

theorem Poised.after (h : w.Poised refs X) (stays : w.Stays u)
    (traced : Traced refs w.stage u.stage E F L V Z) : u.Poised refs X :=
  ⟨h.settled.traced stays traced, h.minds.stays stays, h.bare⟩

theorem Poised.ordinary (h : w.Poised refs X) (op : i.op.conveys = false) (labels : i.op.effect.operand ≠ .labels)
    (stays : i.op.effect.exits = false) :
    Traced refs w.stage (w.emit i).stage [] [] L (some X) (some X) :=
  traced_ordinary h.settled h.minds h.bare op labels stays

theorem Poised.const (h : w.Poised refs X) (plain : v.Serves .plain) (fits : w.place v ≤ maxOperand) :
    Traced refs w.stage (w.emitConst v fits).stage [] [] L (some X) (some X) :=
  traced_const h.settled h.minds h.bare plain fits

theorem Poised.named (h : w.Poised refs X) {name : String} (fits : w.place (.symbol name) ≤ maxOperand) {op : Opcode}
    (ordinary : op.conveys = false) (labels : op.effect.operand ≠ .labels) (stays : op.effect.exits = false) :
    Traced refs w.stage ((w.emitConst (.symbol name) fits).emit op.bare).stage [] [] L (some X) (some X) := by
  have symbol : Traced refs w.stage (w.emitConst (.symbol name) fits).stage [] [] L (some X) (some X) :=
    h.const (Value.plain_symbol name) fits
  exact symbol.then ((h.after (stays_emitConst _ _) symbol).ordinary (i := op.bare) ordinary labels stays)

theorem Poised.announced (h : w.Poised refs X) {name : String} (fits : w.place (.symbol name) ≤ maxOperand) {op : Opcode}
    (which : op ∈ [.bind, .hide, .declare])
    (again : ((w.emitConst (.symbol name) fits).emit op.bare).place (.symbol name) ≤ maxOperand) :
    Traced refs w.stage (((w.emitConst (.symbol name) fits).emit op.bare).emitConst (.symbol name) again).stage
      [] [] L (some X) (some X) := by
  have first : Traced refs w.stage ((w.emitConst (.symbol name) fits).emit op.bare).stage [] [] L
      (some X) (some X) := by
    have ordinary : op.conveys = false ∧ op.effect.operand ≠ .labels ∧ op.effect.exits = false := by
      clear again
      revert which op
      decide
    exact h.named fits ordinary.1 ordinary.2.1 ordinary.2.2
  have poised := h.after ((stays_emitConst _ fits).trans (stays_emit _)) first
  exact first.then (poised.const (Value.plain_symbol name) again)

theorem Poised.operations (h : w.Poised refs X) {op : Opcode} (operates : op.operates) (times : Nat) :
    Traced refs w.stage (w.emitAll (List.replicate times op.bare)).stage [] [] L (some X) (some X) := by
  obtain ⟨ordinary, stays, labels⟩ : op.conveys = false ∧ op.effect.exits = false ∧
      op.effect.operand = .nothing := by
    simpa [Opcode.operates, and_assoc] using operates
  induction times generalizing w with
  | zero =>
    rw [List.replicate_zero, emitAll_nil]
    exact .idle h.settled.stocked
  | succ times ih =>
    rw [List.replicate_succ, ← emitAll_emit]
    have first : Traced refs w.stage (w.emit op.bare).stage [] [] L (some X) (some X) :=
      h.ordinary (i := op.bare) ordinary (by rw [Opcode.bare, labels]; decide) stays
    exact first.then (ih (h.after (stays_emit _) first))

theorem Poised.literal (h : w.Poised refs X) (plain : v.Serves .plain) (pushes : Yields (Compile.literal v) w () x) :
    Traced refs w.stage x.stage [] [] L (some X) (some X) := by
  rcases literal_adds pushes with ⟨i, which, rfl⟩ | ⟨fits, rfl⟩
  · have ordinary : i.op.conveys = false ∧ i.op.effect.operand ≠ .labels ∧ i.op.effect.exits = false := by
      revert which
      generalize i.op = op
      revert op
      decide
    exact h.ordinary ordinary.1 ordinary.2.1 ordinary.2.2
  · exact h.const plain fits

theorem Poised.name (h : w.Poised refs X) {name : String} {cell : Cell} (found : w.cell? name = some cell)
    (value : cell.kind ≠ .reference) (loads : cell.Loads i) (fixes : (w.reach name).Fixes refs) :
    Traced refs w.stage ((w.reach name).emit i).stage [] [] L (some X) (some X) := by
  obtain ⟨k, suits, traced⟩ := traced_load (L := L) h.settled h.minds found loads fixes
  rw [CellKind.refers_of_ne value] at suits
  obtain rfl : k = .plain := suits
  rwa [h.bare.push] at traced

theorem Poised.through (h : w.Poised refs X) {name : String} {cell : Cell} (found : w.cell? name = some cell)
    (reference : cell.kind = .reference) (loads : cell.Loads i) (fixes : (w.reach name).Fixes refs) :
    Traced refs w.stage (((w.reach name).emit i).emit Opcode.deref.bare).stage [] [] L (some X) (some X) := by
  obtain ⟨k, suits, traced⟩ := traced_load (L := L) h.settled h.minds found loads fixes
  rw [show cell.kind.refers = true from decide_eq_true reference] at suits
  have poised := h.after ((stays_reach name).trans (stays_emit i)) traced
  exact traced.then (traced_deref poised.settled poised.minds h.bare suits)

theorem Poised.bind (h : w.Poised refs X) (name : String) (fits : w.body.nextLocal ≤ maxOperand) :
    ((w.bindLocal name .value).emit ⟨.store, w.body.nextLocal, fits⟩).Poised refs (X.put w.body.nextLocal .plain) ∧
      Traced refs w.stage ((w.bindLocal name .value).emit ⟨.store, w.body.nextLocal, fits⟩).stage [] [] L
        (some X) (some (X.put w.body.nextLocal .plain)) := by
  have settled := h.settled.bindLocal name .value
  have minds : (w.bindLocal name .value).Minds refs (X.put w.body.nextLocal .plain) :=
    h.minds.bindLocal h.settled name rfl
  have next := nextLocal_bindLocal w name .value
  have small : X.below (w.bindLocal name .value).body.nextLocal = X := by
    rw [next]
    exact below_of_le h.minds.small (Nat.le_succ _)
  have stored : Traced refs (w.bindLocal name .value).stage
      ((w.bindLocal name .value).emit ⟨.store, w.body.nextLocal, fits⟩).stage [] [] L
      (some (X.push .plain)) (some (X.put w.body.nextLocal .plain)) :=
    traced_store settled small h.bare (by rw [next]; exact Nat.lt_succ_self _) fits (.inl rfl)
  rw [h.bare.push] at stored
  exact ⟨⟨settled.traced (stays_emit _) stored, minds.stays (stays_emit _), bare_put _ _ _⟩,
    .then (.quiet (stretch_bindLocal w name .value) settled.stocked _) stored⟩

theorem Poised.fresh (h : w.Poised refs X) (name : String) (fits : w.body.nextLocal ≤ maxOperand) :
    (((w.bindLocal name .reference).emit Opcode.newRef.bare).emit ⟨.store, w.body.nextLocal, fits⟩).Poised refs
        (X.put w.body.nextLocal .pending) ∧
      Traced refs w.stage
        (((w.bindLocal name .reference).emit Opcode.newRef.bare).emit ⟨.store, w.body.nextLocal, fits⟩).stage
        [] [] L (some X) (some (X.put w.body.nextLocal .pending)) := by
  have settled := h.settled.bindLocal name .reference
  have minds : (w.bindLocal name .reference).Minds refs (X.put w.body.nextLocal .pending) :=
    h.minds.bindLocal h.settled name (.inr ⟨_, rfl⟩)
  have next := nextLocal_bindLocal w name .reference
  have small : X.below (w.bindLocal name .reference).body.nextLocal = X := by
    rw [next]
    exact below_of_le h.minds.small (Nat.le_succ _)
  have made : Traced refs (w.bindLocal name .reference).stage
      ((w.bindLocal name .reference).emit Opcode.newRef.bare).stage [] [] L (some X) (some (X.push .pending)) :=
    traced_newRef settled small
  have settled' := settled.traced (stays_emit _) made
  have stored : Traced refs ((w.bindLocal name .reference).emit Opcode.newRef.bare).stage
      (((w.bindLocal name .reference).emit Opcode.newRef.bare).emit ⟨.store, w.body.nextLocal, fits⟩).stage
      [] [] L (some (X.push .pending)) (some (X.put w.body.nextLocal .pending)) :=
    traced_store settled' small h.bare (Nat.lt_of_lt_of_eq (Nat.lt_succ_self _) next.symm) fits (.inr rfl)
  refine ⟨⟨settled'.traced (stays_emit _) stored, minds.stays ((stays_emit _).trans (stays_emit _)),
    bare_put _ _ _⟩, .then (.quiet (stretch_bindLocal w name .reference) settled.stocked _) (made.then stored)⟩

theorem Poised.fill (h : w.Poised refs X) {name : String} {xs : List String} {ks : List Nat}
    (awaits : w.Awaits X (name :: xs) ks) {cell : Cell} (found : w.body.lexical? name = some cell)
    (loads : cell.Loads i) : ∃ slot rest, ks = slot :: rest ∧
      ((w.emit i).emit Opcode.bindRef.bare).Poised refs (X.put slot .reference) ∧
      ((w.emit i).emit Opcode.bindRef.bare).Awaits (X.put slot .reference) xs rest ∧
      Traced refs w.stage ((w.emit i).emit Opcode.bindRef.bare).stage [] [] L (some X)
        (some (X.put slot .reference)) := by
  obtain ⟨slot, rest, rfl, own⟩ := awaits.lexical?
  obtain rfl := Option.some.inj (own.symm.trans found)
  have pending := awaits.pending slot List.mem_cons_self
  have loaded : Traced refs w.stage (w.emit i).stage [] [] L (some X) (some (X.push (.own slot))) := by
    obtain ⟨op, operand, small⟩ := i
    obtain ⟨rfl, place⟩ := loads
    obtain rfl : operand = slot := place nofun
    have taken : operand < w.body.localCount :=
      Nat.lt_of_lt_of_le (h.minds.lt_of_slot (by rw [pending]; nofun)) h.settled.room
    refine traced_emit h.settled h.minds.small ⟨taken, nofun⟩ (by nofun) (fun _ => trivial) fun _ => ?_
    rw [View.onward_some _ (by rfl)]
    refine Option.some_le_some.mpr (le_of_eq ?_)
    show X.push ((X.slots operand).loaded operand) = X.push (.own operand)
    rw [pending]
    rfl
  have poised := h.after (stays_emit i) loaded
  have filled : Traced refs (w.emit i).stage ((w.emit i).emit Opcode.bindRef.bare).stage [] [] L
      (some (X.push (.own slot))) (some (X.put slot .reference)) :=
    traced_bindRef poised.settled poised.minds h.bare pending
  have stays : w.Stays ((w.emit i).emit Opcode.bindRef.bare) := (stays_emit i).trans (stays_emit _)
  exact ⟨slot, rest, rfl, ⟨poised.settled.traced (stays_emit _) filled, (h.minds.fill pending).stays stays,
    bare_put _ _ _⟩, awaits.fill.stays stays, loaded.then filled⟩

theorem Poised.enter (h : w.Poised refs X) {s : Scope} (cells : ∀ entry ∈ s.cells,
      entry.2.Housed w.body.nextLocal ∧ entry.2.Known refs X) : (w.enter s).Poised refs X :=
  ⟨h.settled.enter fun entry inside => (cells entry inside).1,
    h.minds.enter fun entry inside => (cells entry inside).2, h.bare⟩

theorem Poised.child (w : Workshop) (name : Option String) : (w.child name).Poised refs {} :=
  ⟨.child w name, .child w name, fun _ => rfl⟩

theorem nextLocal_le_bindLocal (w : Workshop) (name : String) (kind : CellKind) :
    w.body.nextLocal ≤ (w.bindLocal name kind).body.nextLocal :=
  Nat.le_trans (Nat.le_succ _) (nextLocal_bindLocal w name kind).ge

theorem Settled.store (h : w.Settled) {store : Store} (namespaces : store.namespaces = w.store.namespaces) :
    Settled { w with store } :=
  h.stays (stays_store namespaces) h.stocked (Nat.le_refl _)

theorem Settled.labels (h : w.Settled) (count : Nat) : (w.labels count).Settled := by
  induction count generalizing w with
  | zero => exact h
  | succ count ih => exact ih (h.stays stays_label h.stocked (Nat.le_refl _))

theorem Awaits.none {s : Scope} {others : List Scope} (opened : w.body.scopes = s :: others) :
    w.Awaits X [] [] :=
  ⟨List.nodup_nil, fun _ => nofun, s, others, opened, rfl⟩

theorem Awaits.of_none {ks : List Nat} (h : w.Awaits X [] ks) : ks = [] := by
  obtain ⟨-, -, s, others, -, cells⟩ := h
  exact List.map_eq_nil_iff.mp cells.symm

end Workshop

theorem Clause.cells_known (c : Clause) {entry : String × Cell} (member : entry ∈ c.cells) (refs : Nat → Bool)
    (X : Whereabouts) (room : Nat) : entry.2.Housed room ∧ entry.2.Known refs X := by
  rcases List.mem_append.mp member with param | rest
  · obtain ⟨p, -, rfl⟩ := List.mem_map.mp param
    exact ⟨trivial, rfl⟩
  · obtain ⟨name, -, rfl⟩ := List.mem_map.mp rest
    exact ⟨trivial, rfl⟩

variable {w u x : Workshop} {refs : Nat → Bool} {X Y : Whereabouts} {L : List (Nat × Whereabouts)}

theorem Tests.traced {cs : List (Clause × Nat)} {is : List Instruction} (h : Tests cs is) (poised : w.Poised refs X)
    (places : ∀ p ∈ cs, (p.2, X) ∈ L ∧ p.2 < w.body.labelCount) :
    Traced refs w.stage (w.emitAll is).stage [] (cs.map Prod.snd) L (some X) (some X) := by
  induction h generalizing w with
  | nil =>
    rw [emitAll_nil]
    exact .idle poised.settled.stocked
  | @cons c label cs is count named rest ih =>
    obtain ⟨⟨place, taken⟩, others⟩ := List.forall_mem_cons.mp places
    rw [← emitAll_emit, ← emitAll_emit, ← emitAll_emit, ← emitAll_emit]
    have first : Traced refs w.stage (w.emit ⟨.posInt, c.fixedCount, count⟩).stage [] [] L (some X) (some X) :=
      poised.ordinary rfl (by nofun) rfl
    have poised := poised.after (stays_emit _) first
    have second := poised.ordinary (i := Opcode.argLen.bare) (L := L) rfl (by nofun) rfl
    have poised := poised.after (stays_emit _) second
    have third := poised.ordinary (L := L)
      (i := (if c.isVariadic then Opcode.numGte else Opcode.numEq).bare) (by split <;> rfl)
      (by split <;> nofun) (by split <;> rfl)
    have poised := poised.after (stays_emit _) third
    have fourth := traced_jump (i := ⟨.condJump, label, named⟩) poised.settled poised.minds poised.bare rfl taken place
    have poised := poised.after (stays_emit _) fourth
    have tested := ((first.then second).then third).append fourth (fun _ => nofun) fun _ => nofun
    exact tested.append (ih poised others) (fun _ => nofun) fun _ => nofun

/-- What the code of a phrase does with references. -/
def Phrase.Tracks (w x : Workshop) : Phrase → Prop
  | .one e => e.Neat → ∀ {refs : Nat → Bool} {X : Whereabouts}, w.Poised refs X → x.Fixes refs →
    Traced refs w.stage x.stage [] [] [] (some X) (some X)
  | .opened e => ∀ {xs : List String}, e.Knits xs → ∀ {refs : Nat → Bool} {X : Whereabouts} {ks : List Nat} {n : Nat},
    w.Poised refs X → x.Fixes refs → w.Awaits X xs ks → n ≤ w.body.nextLocal → (∀ slot ∈ ks, n ≤ slot) →
      ∃ Y : Whereabouts, Y.below n = X.below n ∧ Traced refs w.stage x.stage [] [] [] (some X) (some Y)
  | .many es => (∀ e ∈ es, e.Neat) → ∀ {refs : Nat → Bool} {X : Whereabouts}, w.Poised refs X → x.Fixes refs →
    Traced refs w.stage x.stage [] [] [] (some X) (some X)
  | .captured xs => ∀ {refs : Nat → Bool} {X : Whereabouts}, w.Settled → w.Minds refs X → x.Fixes refs →
    ∃ Y : Whereabouts, Traced refs w.stage x.stage [] [] [] (some X) (some Y) ∧ Y.slots = X.slots ∧
      (∀ j, Y.tops (xs.length + j) = X.tops j) ∧
        ∀ {j : Nat} {name : String}, xs.reverse[j]? = some name →
          ∃ kind, Body.visible? (w.body :: w.around) name = some kind ∧ (Y.tops j).Suits kind.refers
  | .clause _ e => e.Neat → ∀ {refs : Nat → Bool} {X : Whereabouts}, w.Poised refs X → x.Fixes refs →
    Traced refs w.stage x.stage [] [] [] (some X) none
  | .cases cs bodies => (∀ e ∈ bodies, e.Neat) → ∀ {refs : Nat → Bool} {X : Whereabouts}
    {L : List (Nat × Whereabouts)}, w.Poised refs X → x.Fixes refs →
      (∀ p ∈ cs, (p.2, X) ∈ L ∧ p.2 < w.body.labelCount) → (cs.map Prod.snd).Nodup →
        Traced refs w.stage x.stage (cs.map Prod.snd) [] L none none
  | .body _ bodies => (∀ e ∈ bodies, e.Neat) → ∀ {refs : Nat → Bool} {X : Whereabouts}, w.Poised refs X →
    x.Fixes refs → Traced refs w.stage x.stage [] [] [] (some X) none

section

variable {y z : Workshop} {e first rest test yes no value head body : Expr} {es : List Expr} {name : String}

theorem tracks_seq (before : (Phrase.one first).Tracks w u) (stays : w.Stays u)
    (after : (Phrase.one rest).Tracks (u.emit Opcode.pop.bare) x) (later : (u.emit Opcode.pop.bare).Stays x) :
    (Phrase.one (.seq first rest)).Tracks w x := by
  intro neat refs X poised fixes
  cases neat with
  | seq neat more =>
    have own : Traced refs w.stage u.stage [] [] [] (some X) (some X) :=
      before neat poised (fixes.extends ((stays_emit _).trans later).toExtends)
    have poised := poised.after stays own
    have popped := poised.ordinary (i := Opcode.pop.bare) (L := []) rfl (by nofun) rfl
    exact (own.then popped).then (after more (poised.after (stays_emit _) popped) fixes)

theorem tracks_branch (consequent : w.body.labelCount ≤ maxOperand) (done : w.body.labelCount + 1 ≤ maxOperand)
    (tests : (Phrase.one test).Tracks w.label.label u) (stays : w.label.label.Stays u)
    (fails : (Phrase.one no).Tracks (u.emit ⟨.condJump, w.body.labelCount, consequent⟩) y)
    (later : (u.emit ⟨.condJump, w.body.labelCount, consequent⟩).Stays y)
    (holds : (Phrase.one yes).Tracks ((y.emit ⟨.jump, w.body.labelCount + 1, done⟩).emit
      ⟨.label, w.body.labelCount, consequent⟩) z)
    (last : ((y.emit ⟨.jump, w.body.labelCount + 1, done⟩).emit ⟨.label, w.body.labelCount, consequent⟩).Stays z) :
    (Phrase.one (.branch test yes no)).Tracks w (z.emit ⟨.label, w.body.labelCount + 1, done⟩) := by
  intro neat refs X poised fixes
  have fixed : z.Fixes refs := fixes.extends (stays_emit _).toExtends
  cases neat with
  | branch neatTest neatYes neatNo =>
    let L := [(w.body.labelCount, X), (w.body.labelCount + 1, X)]
    have taken : Stretch w.stage w.label.label.stage [] [] [] :=
      .quiet rfl (List.prefix_refl _) (Nat.le_refl _) (Nat.le_add_right _ 2) (Nat.le_refl _)
    have quiet : Traced refs w.stage w.label.label.stage [] [] [] (some X) (some X) :=
      .quiet taken poised.settled.stocked _
    have poised := poised.after (stays_label.trans stays_label) quiet
    have tested : Traced refs w.label.label.stage u.stage [] [] L (some X) (some X) :=
      (tests neatTest poised (fixed.extends ((((stays_emit _).trans later).trans
        ((stays_emit _).trans (stays_emit _))).trans last).toExtends)).amid _
    have poised := poised.after stays tested
    have low : w.body.labelCount + 1 < u.body.labelCount := tested.labels
    have jumped := traced_jump (i := ⟨.condJump, w.body.labelCount, consequent⟩) (L := L) poised.settled
      poised.minds poised.bare rfl (Nat.lt_of_succ_lt low) List.mem_cons_self
    have poised := poised.after (stays_emit _) jumped
    have failed : Traced refs (u.emit ⟨.condJump, w.body.labelCount, consequent⟩).stage y.stage [] [] L
        (some X) (some X) :=
      (fails neatNo poised (fixed.extends (((stays_emit _).trans (stays_emit _)).trans last).toExtends)).amid _
    have poised := poised.after later failed
    have low : w.body.labelCount + 1 < y.body.labelCount := Nat.lt_of_lt_of_le low failed.labels
    have left := traced_jump (i := ⟨.jump, w.body.labelCount + 1, done⟩) (L := L) poised.settled
      poised.minds poised.bare rfl low (List.mem_cons_of_mem _ List.mem_cons_self)
    have poised := poised.after (stays_emit _) left
    have anchored := traced_label (L := L) poised.settled poised.minds poised.bare consequent (Nat.lt_of_succ_lt low)
      List.mem_cons_self (.inl rfl)
    have poised := poised.after (stays_emit _) anchored
    have held : Traced refs _ z.stage [] [] L (some X) (some X) := (holds neatYes poised fixed).amid _
    have poised := poised.after last held
    have joined := traced_label (L := L) poised.settled poised.minds poised.bare done
      (Nat.lt_of_lt_of_le low held.labels) (List.mem_cons_of_mem _ List.mem_cons_self) (.inr rfl)
    have first : w.body.labelCount < w.label.label.body.labelCount := Nat.lt_add_of_pos_right Nat.two_pos
    have second : w.body.labelCount + 1 < w.label.label.body.labelCount := Nat.lt_succ_self _
    have whole : Traced refs w.label.label.stage (z.emit ⟨.label, w.body.labelCount + 1, done⟩).stage
        [w.body.labelCount, w.body.labelCount + 1] [w.body.labelCount, w.body.labelCount + 1] L
        (some X) (some X) := by
      have tests := (tested.append jumped (fun _ => nofun) fun _ => nofun).append failed (fun _ => nofun) fun _ => nofun
      have arms := (tests.append left (fun _ => nofun) fun _ => nofun).append anchored
        (List.forall_mem_singleton.mpr first) fun _ => nofun
      refine (arms.append held (List.forall_mem_singleton.mpr first) fun _ _ => nofun).append joined ?_ ?_
      · exact List.forall_mem_cons.mpr ⟨first, List.forall_mem_singleton.mpr second⟩
      · exact List.forall_mem_singleton.mpr fun same => Nat.succ_ne_self _ (List.mem_singleton.mp same).symm
    refine whole.seal taken ?_ (fun _ => id) rfl (by simp)
    exact List.forall_mem_cons.mpr ⟨⟨Nat.le_refl _, first⟩, List.forall_mem_singleton.mpr ⟨Nat.le_succ _, second⟩⟩

theorem tracks_load {xs : List String} {cell : Cell} {i : Instruction} (found : w.cell? name = some cell)
    (loads : cell.Loads i) (later : ((w.reach name).emit i).Stays x)
    (others : (Phrase.captured xs).Tracks ((w.reach name).emit i) x) : (Phrase.captured (name :: xs)).Tracks w x := by
  intro refs X settled minds fixes
  have stays := (stays_reach (w := w) name).trans (stays_emit i)
  obtain ⟨k, suits, loaded⟩ := traced_load (L := []) settled minds found loads
    (fixes.extends ((stays_emit i).trans later).toExtends)
  obtain ⟨Y, traced, slots, tops, seen⟩ := others (settled.traced stays loaded)
    ((minds.stays stays).congr (Y := X.push k) rfl) fixes
  refine ⟨Y, loaded.then traced, slots, fun j => ?_, fun {j other} there => ?_⟩
  · rw [List.length_cons, Nat.succ_add_eq_add_succ]
    exact tops (j + 1)
  · rw [List.reverse_cons] at there
    rcases Nat.lt_trichotomy j xs.length with before | rfl | beyond
    · rw [List.getElem?_append_left (by rwa [List.length_reverse])] at there
      obtain ⟨kind, visible, holds⟩ := seen there
      exact ⟨kind, (stays.visible settled other).symm.trans visible, holds⟩
    · rw [List.getElem?_append_right (by rw [List.length_reverse]), List.length_reverse, Nat.sub_self] at there
      obtain rfl := Option.some.inj there
      obtain ⟨kind, visible, same⟩ := cell?_visible found
      refine ⟨kind, visible, ?_⟩
      rw [same, show Y.tops xs.length = k from tops 0]
      exact suits
    · rw [List.getElem?_eq_none (by simp; omega)] at there
      cases there

/-- What a body captures is loaded, and a closure is made of it and of the template that was built. -/
theorem tracks_closure {p : Procedure Value} {store : Store} {own : Option String} (inner : (w.child own).Stays u)
    (namespaces : store.namespaces = w.store.namespaces)
    (template : (Value.procedure p).Serves (.template u.references))
    (loads : (Phrase.captured (u.body.captured.map Prod.fst).reverse).Tracks { w with store } x)
    (later : Stays { w with store } x) (fits : x.place (.procedure p) ≤ maxOperand)
    (count : u.body.captured.length ≤ maxOperand) (poised : w.Poised refs X)
    (fixes : ((x.emitConst (.procedure p) fits).emit ⟨.makeClosure, u.body.captured.length, count⟩).Fixes refs) :
    Traced refs w.stage ((x.emitConst (.procedure p) fits).emit ⟨.makeClosure, u.body.captured.length, count⟩).stage
      [] [] [] (some X) (some X) := by
  have settled := poised.settled.store namespaces
  have minds := poised.minds.stays (stays_store namespaces)
  obtain ⟨Y, loaded, slots, tops, seen⟩ := loads settled minds
    (fixes.extends ((stays_emitConst _ fits).trans (stays_emit _)).toExtends)
  have rest : ∀ j, u.body.captured.length ≤ j → Y.tops j = .plain := fun j beyond => by
    obtain ⟨k, rfl⟩ := Nat.exists_eq_add_of_le beyond
    have below := tops k
    rw [List.length_reverse, List.length_map] at below
    exact below.trans (poised.bare k)
  have suits : ∀ j, (Y.tops j).Suits (u.references j) := fun j => by
    cases entry : u.body.captured[j]? with
    | none =>
      rw [references, entry]
      exact rest j (List.getElem?_eq_none_iff.mp entry)
    | some captured =>
      obtain ⟨kind, visible, holds⟩ := @seen j captured.1 (by rw [List.reverse_reverse, List.getElem?_map, entry]; rfl)
      have known := (inner.sound (sound_child w own)).visible captured (List.mem_of_getElem? entry)
      rw [inner.around] at known
      obtain rfl := Option.some.inj (visible.symm.trans known)
      rw [references, entry]
      exact holds
  have settled := settled.traced later loaded
  have minds : x.Minds refs Y := (minds.stays later).congr slots
  have pooled := traced_template (L := []) settled minds template suits fits
  have made := traced_makeClosure (L := []) (settled.traced (stays_emitConst _ fits) pooled)
    (minds.stays (stays_emitConst _ fits)) count rest
  have bare : Y.bare = X := by
    rw [← poised.bare.bare, bare, bare, slots]
  rw [bare] at made
  exact (loaded.then pooled).then made

theorem tracks_arm {c : Clause} {cs : List (Clause × Nat)} {label : Nat} {bodies : List Expr} (fits : label ≤ maxOperand)
    (first : (Phrase.clause c body).Tracks (w.emit ⟨.label, label, fits⟩) u)
    (stays : (w.emit ⟨.label, label, fits⟩).Stays u) (others : (Phrase.cases cs bodies).Tracks u x)
    (later : u.Stays x) : (Phrase.cases ((c, label) :: cs) (body :: bodies)).Tracks w x := by
  intro neat refs X L poised fixes places distinct
  obtain ⟨neatFirst, neatOthers⟩ := List.forall_mem_cons.mp neat
  obtain ⟨⟨place, taken⟩, rest⟩ := List.forall_mem_cons.mp places
  obtain ⟨apart, distinct⟩ := List.nodup_cons.mp distinct
  have anchored := traced_label poised.settled poised.minds poised.bare fits taken place (.inl rfl)
  have poised := poised.after (stays_emit _) anchored
  have own : Traced refs _ u.stage [] [] L (some X) none :=
    (first neatFirst poised (fixes.extends later.toExtends)).amid _
  have poised := poised.after stays own
  have low {k : Nat} (below : k < w.body.labelCount) : k < u.body.labelCount := Nat.lt_of_lt_of_le below own.labels
  have more := others neatOthers poised fixes (fun p member => ⟨(rest p member).1, low (rest p member).2⟩) distinct
  refine (anchored.append own (List.forall_mem_singleton.mpr taken) fun _ _ => nofun).append more ?_ ?_
  · refine List.forall_mem_cons.mpr ⟨taken, fun k member => ?_⟩
    obtain ⟨p, inside, rfl⟩ : ∃ p ∈ cs, p.2 = k := List.mem_map.mp member
    exact (rest p inside).2
  · exact List.forall_mem_singleton.mpr apart

/-- Tests lead to the clauses, and past them to a panic. -/
theorem tracks_several {cs : Clauses} {bodies : List Expr} {is : List Instruction} {message : String}
    (tests : Tests (cs.zip (List.range' w.body.labelCount cs.length)) is)
    (fits : ((w.labels cs.length).emitAll is).place (.string message) ≤ maxOperand)
    (arms : (Phrase.cases (cs.zip (List.range' w.body.labelCount cs.length)) bodies).Tracks
      ((((w.labels cs.length).emitAll is).emitConst (.string message) fits).emit Opcode.panic.bare) x) :
    (Phrase.body cs bodies).Tracks w x := by
  intro neat refs X poised fixes
  obtain ⟨counted, taken⟩ := Compile.labels_quiet w cs.length
  have names : (cs.zip (List.range' w.body.labelCount cs.length)).map Prod.snd =
      List.range' w.body.labelCount cs.length := List.map_snd_zip (by simp)
  have own : ∀ label ∈ List.range' w.body.labelCount cs.length,
      w.body.labelCount ≤ label ∧ label < (w.labels cs.length).body.labelCount := fun label member => by
    rw [counted]
    exact List.mem_range'_1.mp member
  generalize cs.zip (List.range' w.body.labelCount cs.length) = placed at names tests arms
  rw [← names] at own
  let L := placed.map fun p => (p.2, X)
  have places : ∀ p ∈ placed, (p.2, X) ∈ L ∧ p.2 < (w.labels cs.length).body.labelCount := fun p member =>
    ⟨List.mem_map_of_mem member, (own p.2 (List.mem_map_of_mem member)).2⟩
  have poised : (w.labels cs.length).Poised refs X :=
    ⟨poised.settled.labels _, poised.minds.stays (stays_labels _), poised.bare⟩
  have tested := tests.traced poised places
  have poised := poised.after (stays_emitAll _) tested
  have told : Traced refs _ (Workshop.emitConst _ (.string message) fits).stage [] [] L (some X) (some X) :=
    poised.const (.scalar rfl (by nofun)) fits
  have poised := poised.after (stays_emitConst _ fits) told
  have ended := traced_exit (i := Opcode.panic.bare) (L := L) poised.settled poised.minds poised.bare rfl
    (by nofun) rfl
  have poised := poised.after (stays_emit _) ended
  have distinct : (placed.map Prod.snd).Nodup := names ▸ List.nodup_range'
  have more := arms neat poised fixes (fun p member => ⟨(places p member).1,
    Nat.lt_of_lt_of_le (places p member).2 (Nat.le_trans tested.labels (Nat.le_trans told.labels ended.labels))⟩) distinct
  have whole := ((tested.append told (fun _ => nofun) fun _ => nofun).append ended (fun _ => nofun) fun _ => nofun).append
    more (fun label member => (own label member).2) fun _ => nofun
  simp only [List.nil_append, List.append_nil] at whole
  exact whole.seal taken own (fun _ => id) (by rw [List.map_map]; rfl) distinct

end

theorem Emits.tracks {ph : Phrase} (h : Emits w ph x) : ph.Tracks w x := by
  induction h with
  | literal pushes =>
    intro neat refs X poised fixes
    cases neat with
    | literal plain => exact poised.literal plain pushes
  | const fits =>
    intro neat refs X poised fixes
    cases neat with
    | literal plain => exact poised.const plain fits
  | name found value loads =>
    intro neat refs X poised fixes
    exact poised.name found value loads (fixes.extends (stays_emit _).toExtends)
  | through found reference loads =>
    intro neat refs X poised fixes
    exact poised.through found reference loads (fixes.extends ((stays_emit _).trans (stays_emit _)).toExtends)
  | later fits =>
    intro neat refs X poised fixes
    exact poised.named fits rfl (by nofun) rfl
  | seq before after ihBefore ihAfter => exact tracks_seq ihBefore before.leaves ihAfter after.leaves
  | branch consequent done tests fails holds ihTest ihNo ihYes =>
    exact tracks_branch consequent done ihTest tests.leaves ihNo fails.leaves ihYes holds.leaves
  | scope inside ih =>
    intro neat refs X poised fixes
    cases neat with
    | scope knits =>
      have fixed : Fixes _ refs := fun found => fixes (by rw [captured_leave]; exact found)
      obtain ⟨Y, kept, traced⟩ := ih knits (poised.enter (s := { kind := .locals }) fun _ => nofun) fixed (.enter _ X)
        (Nat.le_refl _) fun _ => nofun
      rw [stage_leave]
      refine traced.widen (Option.some_le_some.mpr (le_trans (le_below Y _) (le_of_eq (kept.trans ?_))))
      exact poised.minds.small
  | define bound fits again ih =>
    intro neat refs X poised fixes
    cases neat with
    | define _ neat =>
      have own := ih neat poised (fixes.extends (((stays_emitConst _ fits).trans (stays_emit _)).trans
        (stays_emitConst _ again)).toExtends)
      exact own.then ((poised.after bound.leaves own).announced fits (by decide) again)
  | mention which fits again =>
    intro neat refs X poised fixes
    exact poised.announced fits (by rw [which]; split <;> decide) again
  | call operands operator calls ihArgs ihHead =>
    intro neat refs X poised fixes
    cases neat with
    | call neatArgs neatHead =>
      have args := ihArgs neatArgs poised (fixes.extends (Stays.trans operator.leaves (stays_emit _)).toExtends)
      have poised := poised.after operands.leaves args
      have head := ihHead neatHead poised (fixes.extends (stays_emit _).toExtends)
      have poised := poised.after operator.leaves head
      have ordinary := Chunk.ordinary_of_shape calls
      exact (args.then head).then (poised.ordinary ordinary (Chunk.labels_of_shape calls) (Chunk.callShape?_spec calls).2.1)
  | intrinsic operands ih =>
    intro neat refs X poised fixes
    cases neat with
    | intrinsic operates neat =>
      have args := ih neat poised (fixes.extends (stays_emitAll _).toExtends)
      exact args.then ((poised.after operands.leaves args).operations operates _)
  | @constant w u p name cs bodies store inner alone built fits ih =>
    intro neat refs X poised fixes
    cases neat with
    | lambda neat =>
      have template := (ih neat (.child w name) u.fixes_references).template built
      have plain : (Value.closure p []).Serves .plain := .closure template fun found => by simp at found
      have namespaces := (Chunk.build_namespaces built).trans inner.leaves.namespaces
      have poised : Poised { w with store } refs X :=
        ⟨poised.settled.store namespaces, poised.minds.stays (stays_store namespaces), poised.bare⟩
      exact poised.const plain fits
  | @closure w u x p name cs bodies store inner some built loads fits count ihInner ihLoads =>
    intro neat refs X poised fixes
    cases neat with
    | lambda neat =>
      have template := (ihInner neat (.child w name) u.fixes_references).template built
      exact tracks_closure inner.leaves ((Chunk.build_namespaces built).trans inner.leaves.namespaces) template
        ihLoads loads.leaves fits count poised fixes
  | @bind w u z name value rest bound admits fits after ihValue ihRest =>
    intro xs knits refs X ks n poised fixes awaits low apart
    cases knits with
    | bind neat knits =>
      obtain rfl := awaits.of_none
      have opens : u.Opens ((u.bindLocal name .value).emit ⟨.store, u.body.nextLocal, fits⟩) :=
        opens_bindLocal.trans (stays_emit _).opens
      have own := ihValue neat poised (fixes.extends (opens.trans after.leaves).toExtends)
      have stays : w.Stays u := bound.leaves
      obtain ⟨next, stored⟩ := (poised.after stays own).bind (L := []) name fits
      obtain ⟨s, others, scopes, -⟩ := admits
      obtain ⟨more, opened, -⟩ := opens.scopes scopes
      have beyond : n ≤ u.body.nextLocal := Nat.le_trans low stays.nextLocal.ge
      obtain ⟨Y, kept, traced⟩ := ihRest knits next fixes (.none opened)
        (Nat.le_trans beyond (nextLocal_le_bindLocal u name .value)) fun _ => nofun
      exact ⟨Y, kept.trans (poised.bare.below_put beyond _), (own.then stored).then traced⟩
    | last neat => cases neat
  | fresh admits fits after ih =>
    intro xs knits refs X ks n poised fixes awaits low apart
    cases knits with
    | fresh knits =>
      obtain ⟨next, stored⟩ := poised.fresh _ fits
      have awaits := (awaits.bindLocal poised.minds admits).stays ((stays_emit Opcode.newRef.bare).trans
        (stays_emit ⟨.store, _, fits⟩))
      obtain ⟨Y, kept, traced⟩ := ih knits next fixes awaits
        (Nat.le_trans low (nextLocal_le_bindLocal _ _ _)) fun slot member => (List.mem_append.mp member).elim (apart slot) fun last =>
          Nat.le_trans low (List.mem_singleton.mp last).ge
      exact ⟨Y, kept.trans (poised.bare.below_put low _), stored.then traced⟩
    | last neat => cases neat
  | @fill w u z name cell i value rest filled found reference loads after ihValue ihRest =>
    intro xs knits refs X ks n poised fixes awaits low apart
    cases knits with
    | fill neat knits =>
      have fill : u.Stays ((u.emit i).emit Opcode.bindRef.bare) := (stays_emit i).trans (stays_emit _)
      have own := ihValue neat poised (fixes.extends (fill.opens.trans after.leaves).toExtends)
      have stays : w.Stays u := filled.leaves
      obtain ⟨slot, rest, rfl, next, awaits, bound⟩ := (poised.after stays own).fill (awaits.stays stays) found loads
      obtain ⟨first, others⟩ := List.forall_mem_cons.mp apart
      obtain ⟨Y, kept, traced⟩ := ihRest knits next fixes awaits (Nat.le_trans low stays.nextLocal.ge) others
      exact ⟨Y, kept.trans (poised.bare.below_put first _), (own.then bound).then traced⟩
    | last neat => cases neat
  | last inside ih =>
    intro xs knits refs X ks n poised fixes awaits low apart
    cases knits with
    | last neat => exact ⟨X, rfl, ih neat poised fixes⟩
    | bind | fresh | fill => cases inside
  | none =>
    intro neat refs X poised fixes
    exact .idle poised.settled.stocked
  | more others first ihOthers ihFirst =>
    intro neat refs X poised fixes
    obtain ⟨neatFirst, neatOthers⟩ := List.forall_mem_cons.mp neat
    have own := ihOthers neatOthers poised (fixes.extends (Stays.toExtends first.leaves))
    exact own.then (ihFirst neatFirst (poised.after others.leaves own) fixes)
  | loaded =>
    intro refs X settled minds fixes
    exact ⟨X, .idle settled.stocked, rfl, fun j => by simp, fun found => by simp at found⟩
  | load found loads others ih =>
    exact tracks_load found loads others.leaves ih
  | @clause w x c e distinct inside ih =>
    intro neat refs X poised fixes
    have fixed : (x.emit Opcode.ret.bare).Fixes refs := fun found => fixes (by rw [captured_leave]; exact found)
    have entered : (w.enter ⟨.args, c.cells.reverse⟩).Poised refs X :=
      poised.enter fun entry inside => c.cells_known (List.mem_reverse.mp inside) refs X _
    have own := ih neat entered (fixed.extends (stays_emit _).toExtends)
    have poised := entered.after inside.leaves own
    rw [stage_leave]
    exact own.then (traced_exit (i := Opcode.ret.bare) poised.settled poised.minds poised.bare rfl (by nofun) rfl)
  | caseNone =>
    intro neat refs X L poised fixes places distinct
    exact .idle poised.settled.stocked
  | caseMore fits first others ihFirst ihOthers =>
    exact tracks_arm fits ihFirst first.leaves ihOthers others.leaves
  | single only ih =>
    intro neat refs X poised fixes
    exact ih (List.forall_mem_singleton.mp neat) poised fixes
  | several many tests message fits arms ih =>
    subst message
    exact tracks_several tests fits ih

/-- What a form without references is compiled into, among globals without references, is a closure without
references whose code handles them as it should. -/
theorem compile_serves {globals : NamespaceId} {options : CompileOptions} {form : Value} {σ τ : Store}
    {p : Procedure Value} (compiled : Yields (compile globals options form) σ p τ) (plain : form.Serves .plain)
    (bears : σ.Bears (Value.Serves .plain)) : (Value.closure p []).Serves .plain := by
  obtain ⟨e, u, emits, reads, built⟩ := compile_elaborates compiled
  have neat : e.Neat := reads.neat (fun found => Namespaces.bears_lookup? bears.namespaces found) plain
  have poised : (Workshop.top globals options σ).Poised u.references {} :=
    ⟨⟨.none rfl, fun _ => nofun, fun _ => nofun, Nat.le_refl _⟩,
      ⟨fun _ => nofun, congrArg (Whereabouts.mk _) (funext fun _ => by simp)⟩, fun _ => rfl⟩
  have pushed := emits.tracks neat poised u.fixes_references
  have poised := poised.after emits.leaves pushed
  have ended := traced_exit (i := Opcode.ret.bare) (L := []) poised.settled poised.minds poised.bare rfl (by nofun) rfl
  exact .closure ((pushed.then ended).template built) fun found => by simp at found

end StackLisp
