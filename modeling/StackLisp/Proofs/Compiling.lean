import StackLisp.Proofs.Laying

/-!
The compiler lays code. Each form that it accepts gets code that pushes one value whatever is known before
it; one that it rejects is rejected for what it is.
-/

namespace StackLisp

open Workshop

variable {w u x : Workshop} {known more : Procedure Value → Prop} {m n k : Nat}

/-- Parts of a form are read with the property, unless the form has a flaw. -/
def Parses {α : Type} (r : Except CompileError α) (P : α → Prop) : Prop :=
  match r with
  | .ok a => P a
  | .error e => e.isOfCheck = false

theorem Parses.bind {α β : Type} {r : Except CompileError α} {P : α → Prop}
    {f : α → Except CompileError β} {Q : β → Prop} (h : Parses r P) (next : ∀ a, P a → Parses (f a) Q) :
    Parses (r >>= f) Q := by
  cases r with
  | error e => exact h
  | ok a => exact next a h

theorem parses_formItems {S : Value → Prop} (hereditary : Hereditary S) (form : String) {v : Value} (whole : S v) :
    Parses (formItems form v) fun items => ∀ v ∈ items, S v := by
  have items := hereditary.items whole
  unfold formItems
  cases listed : v.items? with
  | error f => exact rfl
  | ok items' =>
    rw [listed] at items
    exact items

section

variable {α β : Type} {act : Encode α} {f : α → Encode β}

theorem Grants.pushes (h : Grants act w fun _ u => w.Pushes known u m k)
    (next : ∀ a u more, Yields act w a u → w.Stays u → (∀ {p}, known p → more p) → u.Ready more →
      Grants (f a) u fun _ x => u.Pushes more x k n) :
    Grants (act >>= f) w fun _ x => w.Pushes known x m n := by
  refine h.bind fun a u yields pushes => ?_
  obtain ⟨stays, more, seg, wider, ready, stretch, leads⟩ := pushes
  exact (next a u more yields stays wider ready).mono fun _ _ _ later =>
    later.following stays wider stretch leads

/-- Code that may jump to labels that are given, piece by piece. -/
theorem Grants.lays {E F G H : List Nat} {met : Outlook → Prop} {given : Outlook → List (Nat × Outlook)}
    {X Y Z : Outlook → Option Outlook}
    (h : Grants act w fun _ u => w.Stays u ∧ Lays known w u E F met given X Y)
    (next : ∀ a u more, w.Stays u → w.body.labelCount ≤ u.body.labelCount → (∀ {p}, known p → more p) →
      u.Ready more → Grants (f a) u fun _ x => u.Stays x ∧ Lays more u x G H met given Y Z)
    (old : ∀ label ∈ E ++ G, label < w.body.labelCount) (apart : ∀ label ∈ E, label ∉ G) :
    Grants (act >>= f) w fun _ x => w.Stays x ∧ Lays known w x (E ++ G) (F ++ H) met given X Z := by
  refine h.bind fun a u yields laid => ?_
  obtain ⟨stays, more, seg, wider, ready, stretch, leads⟩ := laid
  exact (next a u more stays stretch.labels wider ready).mono fun _ _ _ later =>
    ⟨stays.trans later.1, later.2.following wider stretch leads old apart⟩

theorem Grants.opened (h : Grants act w fun _ u => w.Opened known u)
    (next : ∀ a u more, Yields act w a u → w.Opens u → (∀ {p}, known p → more p) → u.Ready more →
      Grants (f a) u fun _ x => u.Opened more x) :
    Grants (act >>= f) w fun _ x => w.Opened known x := by
  refine h.bind fun a u yields opened => ?_
  obtain ⟨opens, f, met, more, seg, wider, ready, stretch, leads⟩ := opened
  exact (next a u more yields opens wider ready).mono fun _ _ _ later =>
    later.following opens met wider stretch leads

end

namespace Encode

theorem grants_reject {α : Type} {e : CompileError} (ordinary : e.isOfCheck = false)
    {P : α → Workshop → Prop} : Grants (reject e) w P := by
  intro r t ended
  obtain ⟨rfl, rfl⟩ : Except.error (.error e) = r ∧ w = t := Prod.mk.inj ended
  exact ⟨⟨rfl, rfl, Nat.le_refl _⟩, ordinary⟩

theorem grants_lift {α : Type} {r : Except Rejection α} {P : α → Prop} (h : Granted r P) :
    Grants (lift r) w fun a x => P a ∧ x = w := by
  intro q t ended
  obtain ⟨rfl, rfl⟩ : r = q ∧ w = t := Prod.mk.inj ended
  exact ⟨⟨rfl, rfl, Nat.le_refl _⟩, h.mono fun a _ holds => ⟨holds, rfl⟩⟩

theorem grants_emitWith (op : Opcode) (operand : Nat) :
    Grants (emitWith op operand) w fun _ x => ∃ h : operand ≤ maxOperand, x = w.emit ⟨op, operand, h⟩ := by
  refine (grants_lift (granted_withOperand op operand)).bind fun i u _ made => ?_
  obtain ⟨⟨h, rfl⟩, rfl⟩ := made
  exact .of_yields (a := ()) (modifyBody_iff.mpr rfl) ⟨h, rfl⟩ (.refl _)

theorem grants_resolve (name : String) :
    Grants (resolve name) w fun cell x => cell = w.cell? name ∧ x = w.reach name := by
  refine .of_yields (resolve_iff.mpr ⟨rfl, rfl⟩) ⟨rfl, rfl⟩ ?_
  unfold Workshop.reach
  split <;> exact ⟨rfl, rfl, Nat.le_refl _⟩

theorem emitConst_grants (v : Value) :
    Grants (emitConst v) w fun _ x => ∃ h : w.place v ≤ maxOperand, x = w.emitConst v h := by
  refine Grants.bind (P := fun i u => i = w.place v ∧ u = w.pool v)
    (.of_yields (addConstant_iff.mpr ⟨rfl, rfl⟩) ⟨rfl, rfl⟩ (.refl _)) fun i u _ pooled => ?_
  obtain ⟨rfl, rfl⟩ := pooled
  exact grants_emitWith _ _

theorem grants_emitConst (ready : w.Ready known) {v : Value} (safe : v.Safe known) :
    Grants (emitConst v) w fun _ x => w.Pushes known x 0 1 :=
  (emitConst_grants v).mono fun _ _ _ ⟨h, emitted⟩ => emitted ▸ pushes_const ready safe h

theorem grants_emit (ready : w.Ready known) (op : Opcode) (simple : op.isSimple) :
    Grants (emit op) w fun _ x => w.Pushes known x op.bare.pops op.bare.pushes :=
  .of_yields (a := ()) (emit_iff.mpr rfl) (pushes_simple (i := op.bare) ready simple) (.refl _)

theorem grants_loadRaw (cell : Cell) :
    Grants (loadRaw cell) w fun _ x => ∃ i, cell.Loads i ∧ x = w.emit i := by
  obtain ⟨kind, scope, index⟩ := cell
  have placed (op : Opcode) (same : op = Cell.loader ⟨kind, scope, index⟩) :
      Grants (emitWith op index) w fun _ x => ∃ i, Cell.Loads ⟨kind, scope, index⟩ i ∧ x = w.emit i :=
    (grants_emitWith op index).mono fun _ x _ ⟨h, emitted⟩ => ⟨_, ⟨same, fun _ => rfl⟩, emitted⟩
  cases scope with
  | args => cases kind <;> exact placed _ rfl
  | locals => exact placed .load rfl
  | captured => exact placed .capture rfl
  | current =>
    exact .of_yields (a := ()) (emit_iff.mpr rfl) ⟨_, ⟨rfl, fun other => absurd rfl other⟩, rfl⟩ (.refl _)

theorem grants_liftError {α : Type} {r : Except CompileError α} {P : α → Prop} (h : Parses r P) :
    Grants (liftError r) w fun a x => P a ∧ x = w := by
  refine grants_lift ?_
  cases r with
  | error e => exact h
  | ok a => exact h

theorem grants_body : Grants body w fun b u => b = w.body ∧ u = w :=
  .of_yields (body_iff.mpr ⟨rfl, rfl⟩) ⟨rfl, rfl⟩ (.refl _)

theorem grants_modifyBody (f : Body → Body) : Grants (modifyBody f) w fun _ x => x = w.alter f :=
  .of_yields (a := ()) (modifyBody_iff.mpr rfl) rfl (.refl _)

section

variable {s : Scope} {others : List Scope} (opened : w.body.scopes = s :: others)
include opened

theorem grants_declare (name : String) (cell : Cell) :
    Grants (declare name cell) w fun _ x => x = w.declare name cell := by
  refine Grants.mono (P := fun _ _ => True) ?_ fun _ x yields _ => (declare_iff.mp yields).2
  refine grants_body.bind fun b u _ read => ?_
  obtain ⟨rfl, rfl⟩ := read
  rw [opened]
  dsimp only
  split
  · exact grants_reject rfl
  · exact (grants_modifyBody _).mono fun _ _ _ _ => trivial

theorem grants_bindArg (name : String) (kind : CellKind) (index : Nat) :
    Grants (bindArg name kind index) w fun _ x => x = w.declare name ⟨kind, .args, index⟩ :=
  (grants_declare opened name _).bind fun _ _ _ declared => .pure declared

theorem grants_bindLocal (name : String) (kind : CellKind) :
    Grants (bindLocal name kind) w fun cell x => cell = w.nextCell kind ∧ x = w.bindLocal name kind := by
  refine Grants.mono (P := fun _ _ => True) ?_ fun _ x yields _ => (bindLocal_iff.mp yields).2
  refine grants_body.bind fun b u _ read => ?_
  obtain ⟨rfl, rfl⟩ := read
  refine (grants_declare opened name _).bind fun _ _ _ _ => ?_
  exact (grants_modifyBody _).bind fun _ _ _ _ => .pure trivial

theorem grants_popScope (room : s.kind = .locals → s.cells.length ≤ w.body.nextLocal) :
    Grants popScope w fun _ x => x = w.leave := by
  refine Grants.mono (P := fun _ _ => True) ?_ fun _ x yields _ => popScope_yields yields
  refine grants_body.bind fun b u _ read => ?_
  obtain ⟨rfl, rfl⟩ := read
  rw [opened]
  refine (grants_modifyBody _).bind fun _ u _ left => ?_
  obtain rfl := left
  split
  next locals =>
    refine grants_body.bind fun b u _ read => ?_
    obtain ⟨rfl, rfl⟩ := read
    dsimp only
    split
    next short => exact absurd (room locals) (Nat.not_le.mpr short)
    · exact (grants_modifyBody _).mono fun _ _ _ _ => trivial
  · exact .pure trivial

end

end Encode

/-- A compiler of forms that lays code. -/
def FormsLay (f : Compile.FormCompiler) : Prop :=
  ∀ {known : Procedure Value → Prop} {w : Workshop} {v : Value}, w.Ready known → v.Safe known →
    Grants (f v) w fun _ x => w.Pushes known x 0 1

namespace Compile

open Encode

variable {v : Value} {vs args : List Value}

theorem literal_lays (ready : w.Ready known) (safe : v.Safe known) :
    Grants (literal v) w fun _ x => w.Pushes known x 0 1 := by
  unfold literal
  split
  · exact grants_emit ready _ rfl
  · exact grants_emit ready _ rfl
  · exact grants_emit ready _ rfl
  next n =>
    dsimp only
    split
    · refine (grants_emitWith _ _).mono fun _ x _ emitted => ?_
      obtain ⟨h, rfl⟩ := emitted
      split
      · exact pushes_simple (i := ⟨.negInt, _, h⟩) ready rfl
      · exact pushes_simple (i := ⟨.posInt, _, h⟩) ready rfl
    · exact grants_emitConst ready safe
  · exact grants_emitConst ready safe

theorem resolveLater_lays (ready : w.Ready known) (name : String) :
    Grants (resolveLater name) w fun _ x => w.Pushes known x 0 1 :=
  (grants_emitConst ready (.scalar rfl)).pushes fun _ _ _ _ _ _ ready => grants_emit ready _ rfl

theorem load_lays (ready : w.Ready known) {name : String} {cell : Cell} (found : w.cell? name = some cell) :
    Grants (load cell) (w.reach name) fun _ x => w.Pushes known x 0 1 := by
  refine (grants_loadRaw cell).bind fun _ u _ loaded => ?_
  obtain ⟨i, loads, rfl⟩ := loaded
  have pushes := pushes_load ready found loads
  split
  · obtain ⟨stays, more, seg, wider, ready, stretch, leads⟩ := pushes
    exact (grants_emit ready .deref rfl).mono fun _ _ _ later =>
      Pushes.following (k := 1) later stays wider stretch leads
  · exact .pure pushes

theorem symbol_lays (ready : w.Ready known) (name : String) :
    Grants (symbol name) w fun _ x => w.Pushes known x 0 1 := by
  refine (grants_resolve name).bind fun cell u _ resolved => ?_
  obtain ⟨same, rfl⟩ := resolved
  cases cell with
  | some cell => exact load_lays ready same.symm
  | none =>
    rw [reach_of_none same.symm]
    refine Grants.bind (P := fun v u => v = w.store.namespaces.resolve? w.encoder.globals name ∧ u = w)
      (.of_yields (global?_iff.mpr ⟨rfl, rfl⟩) ⟨rfl, rfl⟩ (.refl _)) fun v u _ looked => ?_
    obtain ⟨found, rfl⟩ := looked
    cases v with
    | some v => exact grants_emitConst ready (Namespaces.bears_lookup? ready.store.bears.namespaces found.symm)
    | none => exact resolveLater_lays ready name

section

variable {f : FormCompiler} (forms : FormsLay f)
include forms

theorem block_lays (ready : w.Ready known) (safe : ∀ v ∈ vs, v.Safe known) :
    Grants (block f vs) w fun _ x => w.Pushes known x 0 1 := by
  induction vs generalizing known w with
  | nil => exact grants_emit ready _ rfl
  | cons v vs ih =>
    obtain ⟨first, rest⟩ := List.forall_mem_cons.mp safe
    cases vs with
    | nil => exact forms ready first
    | cons v' vs =>
      refine (forms ready first).pushes fun _ u more _ _ wider ready => ?_
      refine (grants_emit ready .pop rfl).pushes fun _ u most _ _ wider' ready => ?_
      exact ih ready fun v member => ((rest v member).mono wider).mono wider'

theorem each_lays (ready : w.Ready known) (safe : ∀ v ∈ vs, v.Safe known) :
    Grants (vs.forM f) w fun _ x => w.Pushes known x 0 vs.length := by
  induction vs generalizing known w with
  | nil => exact .pure (.refl ready 0)
  | cons v vs ih =>
    obtain ⟨first, rest⟩ := List.forall_mem_cons.mp safe
    refine (forms ready first).pushes fun _ u more _ _ wider ready => ?_
    refine (ih ready fun v member => (rest v member).mono wider).mono fun _ x _ pushes => ?_
    have framed := pushes.frame 1
    rwa [Nat.zero_add] at framed

theorem arguments_lays (ready : w.Ready known) (safe : ∀ v ∈ args, v.Safe known) :
    Grants (arguments f args) w fun _ x => w.Pushes known x 0 args.length := by
  have each : ∀ v ∈ args.reverse, v.Safe known := fun v member => safe v (List.mem_reverse.mp member)
  have laid := each_lays forms ready each
  rwa [List.length_reverse] at laid

end

theorem emitCall_lays (ready : w.Ready known) (count : Nat) :
    Grants (emitCall count) w fun _ x => w.Pushes known x (count + 1) 1 := by
  unfold emitCall
  split
  · exact grants_emit ready .call0 rfl
  · exact grants_emit ready .call1 rfl
  · refine (grants_emitWith _ _).mono fun _ x _ emitted => ?_
    obtain ⟨h, rfl⟩ := emitted
    have pushes := pushes_simple (i := ⟨.call, count, h⟩) ready rfl
    rwa [Instruction.pops, Nat.add_comm] at pushes

theorem parses_pairUp {S : Value → Prop} (form : String) (each : ∀ v ∈ vs, S v) :
    Parses (pairUp form vs) fun pairs => ∀ pair ∈ pairs, S pair.2 := by
  induction vs using pairUp.induct with
  | case1 name v rest ih =>
    obtain ⟨-, later⟩ := List.forall_mem_cons.mp each
    obtain ⟨value, others⟩ := List.forall_mem_cons.mp later
    exact (ih others).bind fun pairs each => List.forall_mem_cons.mpr ⟨value, each⟩
  | case2 v other rest plain =>
    unfold pairUp
    split
    next same =>
      cases same
      exact (plain _ rfl).elim
    · exact rfl
    · exact fun _ => nofun
  | case3 vs short long =>
    unfold pairUp
    split
    · exact absurd rfl (short _ _ _)
    · exact absurd rfl (long _ _ _)
    · exact fun _ => nofun

theorem parses_bindingPairs {S : Value → Prop} (hereditary : Hereditary S) (form : String)
    (each : ∀ v ∈ args, S v) : Parses (bindingPairs form args) fun pairs => ∀ pair ∈ pairs, S pair.2 := by
  cases args with
  | nil => exact rfl
  | cons bindings args =>
    refine (parses_formItems hereditary form (List.forall_mem_cons.mp each).1).bind fun items each => ?_
    split
    · exact parses_pairUp form each
    · exact rfl

/-- Operations of one kind, each taking the result of the one before it. -/
theorem operations_lay (ready : w.Ready known) {op : Opcode} (simple : op.isSimple) {extra : Nat}
    (pops : op.bare.pops = extra + 1) (pushes : op.bare.pushes = 1) (times : Nat) :
    Grants ((List.replicate times op).forM emit) w fun _ x => w.Pushes known x (extra * times + 1) 1 := by
  induction times generalizing known w with
  | zero => exact .pure (.refl ready 1)
  | succ times ih =>
    refine Grants.pushes (k := extra * times + 1) ?_ fun _ _ _ _ _ _ ready => ih ready
    refine (grants_emit ready op simple).mono fun _ x _ emitted => ?_
    have framed := emitted.frame (extra * times)
    rw [pops, pushes] at framed
    have deeper : extra * (times + 1) + 1 = extra + 1 + extra * times := by
      rw [Nat.mul_succ]
      omega
    rwa [deeper, Nat.add_comm (extra * times) 1]

theorem simple_of_unary {op : Opcode} (h : (Intrinsic.unary op).computes) :
    op.isSimple ∧ op.bare.pops = 1 ∧ op.bare.pushes = 1 := by
  cases op <;> cases h <;> exact ⟨rfl, rfl, rfl⟩

theorem simple_of_binary {op : Opcode} (h : (Intrinsic.binary op).computes) :
    op.isSimple ∧ op.bare.pops = 2 ∧ op.bare.pushes = 1 := by
  cases op <;> cases h <;> exact ⟨rfl, rfl, rfl⟩

theorem quote_lays (ready : w.Ready known) (safe : ∀ v ∈ args, v.Safe known) :
    Grants (quote args) w fun _ x => w.Pushes known x 0 1 := by
  unfold quote
  split
  next v => exact literal_lays ready (safe v (List.mem_singleton.mpr rfl))
  · exact grants_reject rfl

theorem globalName_grants (form : String) (args : List Value) :
    Grants (globalName form args) w fun _ x => x = w := by
  unfold globalName
  split
  · exact .pure rfl
  · exact grants_reject rfl
  · exact grants_reject rfl

theorem mention_lays (ready : w.Ready known) (form : String) {op : Opcode} (simple : op.isSimple)
    (pops : op.bare.pops = 1) (pushes : op.bare.pushes = 0) :
    Grants (mention form op args) w fun _ x => w.Pushes known x 0 1 := by
  refine (globalName_grants form args).bind fun name u _ same => ?_
  obtain rfl := same
  split
  · refine (grants_emitConst ready (.scalar rfl)).pushes fun _ u more _ _ wider ready => ?_
    have op := grants_emit ready op simple
    rw [pops, pushes] at op
    exact op.pushes fun _ u more _ _ wider ready => grants_emitConst ready (.scalar rfl)
  · exact grants_reject rfl

/-- What is known at the two labels of a conditional. -/
def armLabels (yes done : Nat) (X : Outlook) : List (Nat × Outlook) :=
  [(yes, X), (done, X.deep 1)]

section

variable {met : Outlook → Prop} {yes done : Nat}

theorem choose_lays (ready : w.Ready known) (taken : yes < w.body.labelCount) :
    Grants (emitWith .condJump yes) w fun _ x => w.Stays x ∧
      Lays known w x [] [yes] met (armLabels yes done) (fun X => some (X.deep 1)) some := by
  refine (grants_emitWith _ _).mono fun _ x _ emitted => ?_
  obtain ⟨h, rfl⟩ := emitted
  refine ⟨stays_emit _, Lays.jumps ready rfl taken (fun X _ => ?_) (fun _ => rfl)
    (fun X _ => ⟨List.mem_cons_self, le_refl X⟩) fun X pool _ => ?_⟩
  · rw [Outlook.length_deep]
    exact Nat.le_add_right _ _
  · rw [Outlook.onward_some rfl]
    exact known_refl _

theorem skip_lays (ready : w.Ready known) (taken : done < w.body.labelCount) :
    Grants (emitWith .jump done) w fun _ x => w.Stays x ∧
      Lays known w x [] [done] met (armLabels yes done) (fun X => some (X.deep 1)) fun _ => none := by
  refine (grants_emitWith _ _).mono fun _ x _ emitted => ?_
  obtain ⟨h, rfl⟩ := emitted
  refine ⟨stays_emit _, Lays.jumps ready rfl taken (fun _ _ => Nat.zero_le _) (fun other => absurd rfl other)
    (fun X _ => ⟨List.mem_cons_of_mem _ List.mem_cons_self, le_refl (X.deep 1)⟩) fun X pool _ => ?_⟩
  rw [View.onward_exits _ rfl]
  exact known_refl _

theorem anchor_lays (ready : w.Ready known) {label : Nat} (taken : label < w.body.labelCount)
    {given : Outlook → List (Nat × Outlook)} {X : Outlook → Option Outlook} {Y : Outlook → Outlook}
    (known_at : ∀ Z, met Z → (label, Y Z) ∈ given Z ∧ X Z ≤ some (Y Z)) :
    Grants (anchor label) w fun _ x => w.Stays x ∧ Lays known w x [label] [] met given X fun Z => some (Y Z) :=
  (grants_emitWith .label label).mono fun _ _ _ ⟨h, emitted⟩ =>
    emitted ▸ ⟨stays_emit _, .anchor ready h taken known_at⟩

end

section

variable {f : FormCompiler} (forms : FormsLay f)
include forms

/-- A call, however its head is pushed. -/
theorem anyCall_lays (ready : w.Ready known) (safe : ∀ v ∈ args, v.Safe known) (push : Encode Unit)
    (head : ∀ {u more}, w.Stays u → (∀ {p}, known p → more p) → u.Ready more →
      Grants push u fun _ x => u.Pushes more x 0 1) :
    Grants (do
      arguments f args
      push
      emitCall args.length) w fun _ x => w.Pushes known x 0 1 := by
  refine (arguments_lays forms ready safe).pushes fun _ u more _ stays wider ready => ?_
  refine Grants.pushes (k := args.length + 1) ?_ fun _ _ _ _ _ _ ready => emitCall_lays ready _
  refine (head stays wider ready).mono fun _ x _ pushes => ?_
  have framed := pushes.frame args.length
  rwa [Nat.zero_add, Nat.add_comm] at framed

theorem knownCall_lays (ready : w.Ready known) (name : String) {target : Value} (callee : target.Safe known)
    (safe : ∀ v ∈ args, v.Safe known) :
    Grants (knownCall f name target args) w fun _ x => w.Pushes known x 0 1 := by
  have call := anyCall_lays forms ready safe (emitConst target) fun _ wider ready =>
    grants_emitConst ready (callee.mono wider)
  unfold knownCall
  dsimp only
  split
  · split
    · exact (grants_reject (P := fun _ _ => False) rfl).bind fun _ _ _ => False.elim
    · exact call
  · exact call

theorem vector_lays (ready : w.Ready known) (safe : ∀ v ∈ vs, v.Safe known) :
    Grants (vector f vs) w fun _ x => w.Pushes known x 0 1 :=
  anyCall_lays forms ready safe _ fun _ _ ready => grants_emitConst ready (.builtin nofun)

theorem expanded_lays (ready : w.Ready known) {b : Builtin} (proper : b.Proper)
    (safe : ∀ v ∈ args, v.Safe known) {op : Opcode} {times : Nat}
    (expands : expansion? b args.length = some (op, times)) :
    Grants (do
      arguments f args
      (List.replicate times op).forM emit) w fun _ x => w.Pushes known x 0 1 := by
  obtain ⟨intrinsic, own, expansion⟩ := Option.bind_eq_some_iff.mp expands
  have computes := proper intrinsic own
  obtain ⟨extra, simple, pops, pushes, count⟩ : ∃ extra, op.isSimple ∧ op.bare.pops = extra + 1 ∧
      op.bare.pushes = 1 ∧ args.length = extra * times + 1 := by
    unfold Intrinsic.expand? at expansion
    split at expansion
    next own count =>
      obtain ⟨rfl, rfl⟩ := Prod.mk.inj (Option.some.inj expansion)
      obtain ⟨simple, pops, pushes⟩ := simple_of_unary computes
      exact ⟨0, simple, pops, pushes, count⟩
    next own count =>
      obtain ⟨rfl, rfl⟩ := Prod.mk.inj (Option.some.inj expansion)
      obtain ⟨simple, pops, pushes⟩ := simple_of_binary computes
      exact ⟨1, simple, pops, pushes, count⟩
    next own count rest =>
      obtain ⟨rfl, rfl⟩ := Prod.mk.inj (Option.some.inj expansion)
      obtain ⟨simple, pops, pushes⟩ := simple_of_binary computes
      exact ⟨1, simple, pops, pushes, by omega⟩
    · cases expansion
  refine (arguments_lays forms ready safe).pushes fun _ u more _ _ _ ready => ?_
  rw [count]
  exact operations_lay ready simple pops pushes times

theorem define_lays (ready : w.Ready known) (safe : ∀ v ∈ args, v.Safe known) :
    Grants (define f args) w fun _ x => w.Pushes known x 0 1 := by
  refine (globalName_grants "def" args).bind fun name u named same => ?_
  obtain rfl := same
  clear named
  split
  next head v =>
    refine (forms ready (safe v (by simp))).pushes fun _ u more _ _ wider ready => ?_
    refine Grants.pushes (k := 2) ?_ fun _ u more _ _ wider ready => ?_
    · exact (grants_emitConst (v := .symbol name) ready (.scalar rfl)).mono fun _ _ _ pushes => pushes.frame 1
    · refine (grants_emit ready .bind rfl).pushes fun _ u more _ _ wider ready => ?_
      exact grants_emitConst ready (.scalar rfl)
  · exact grants_reject rfl

theorem arms_lay (ready : w.Ready known) {test yes : Value} (predicate : test.Safe known)
    (consequent : yes.Safe known) {alternative : Encode Unit}
    (otherwise : ∀ {u more}, (∀ {p}, known p → more p) → u.Ready more →
      Grants alternative u fun _ x => u.Pushes more x 0 1) :
    Grants (do
      let consequent ← newLabel
      let done ← newLabel
      f test
      emitWith .condJump consequent
      alternative
      emitWith .jump done
      anchor consequent
      f yes
      anchor done) w fun _ x => w.Pushes known x 0 1 := by
  refine Grants.bind (P := fun label u => label = w.body.labelCount ∧ u = w.label)
    (.of_yields (newLabel_iff.mpr ⟨rfl, rfl⟩) ⟨rfl, rfl⟩ (.refl _)) fun first u _ taken => ?_
  obtain ⟨rfl, rfl⟩ := taken
  refine Grants.bind (P := fun label u => label = w.body.labelCount + 1 ∧ u = w.label.label)
    (.of_yields (newLabel_iff.mpr ⟨rfl, rfl⟩) ⟨rfl, rfl⟩ (.refl _)) fun second u _ taken => ?_
  obtain ⟨rfl, rfl⟩ := taken
  have labelled : w.Stays w.label.label := stays_label.trans stays_label
  have quiet : Stretch w.stage w.label.label.stage [] [] [] :=
    .quiet rfl (List.prefix_refl _) (Nat.le_refl _) (Nat.le_add_right _ 2) (Nat.le_refl _)
  have arm {u : Workshop} {more : Procedure Value → Prop} {act : Encode Unit} (stays : w.label.label.Stays u)
      (pushes : Grants act u fun _ x => u.Pushes more x 0 1) : Grants act u fun _ x => u.Stays x ∧
        Lays more u x [] [] w.Meets (armLabels w.body.labelCount (w.body.labelCount + 1)) (fun X => some X)
          fun X => some (X.deep 1) :=
    pushes.mono fun _ x _ pushes => ⟨pushes.1, pushes.2.conseq id (fun X met => (labelled.trans stays).meets met)
      (fun _ _ => known_refl _) fun _ _ => known_refl _⟩
  refine Grants.mono (P := fun _ x => w.label.label.Stays x ∧ Lays known w.label.label x
    [w.body.labelCount, w.body.labelCount + 1] [w.body.labelCount, w.body.labelCount + 1] w.Meets
    (armLabels w.body.labelCount (w.body.labelCount + 1)) (fun X => some X) fun X => some (X.deep 1)) ?_ ?_
  · have old {u : Workshop} (later : w.body.labelCount + 2 ≤ u.body.labelCount) :
        ∀ label ∈ [w.body.labelCount, w.body.labelCount + 1], label < u.body.labelCount := by
      intro label member
      rcases List.mem_pair.mp member with rfl | rfl <;> omega
    refine Grants.lays (E := []) (F := []) (arm (.refl _) (forms ready.label.label predicate))
      (fun _ t more₁ toTest low₁ wider₁ ready => ?_) (old (Nat.le_refl _)) fun _ => nofun
    refine Grants.lays (choose_lays ready (old low₁ _ (by simp)))
      (fun _ u more₂ past₂ low₂ wider₂ ready => ?_) (old low₁) fun _ => nofun
    have toNo := toTest.trans past₂
    have below := Nat.le_trans low₁ low₂
    refine Grants.lays (E := []) (F := []) (arm toNo (otherwise (wider₂ ∘ wider₁) ready))
      (fun _ v more₃ past₃ low₃ wider₃ ready => ?_) (old below) fun _ => nofun
    have below := Nat.le_trans below low₃
    refine Grants.lays (skip_lays ready (old below _ (by simp))) (fun _ y more₄ past₄ low₄ wider₄ ready => ?_)
      (old below) fun _ => nofun
    have below := Nat.le_trans below low₄
    refine Grants.lays (E := [w.body.labelCount]) (F := []) (G := [w.body.labelCount + 1])
      (anchor_lays ready (old below _ (by simp)) fun X _ => ⟨List.mem_cons_self, trivial⟩)
      (fun _ z more₅ past₅ low₅ wider₅ ready => ?_) (old below) (by simp)
    have below := Nat.le_trans below low₅
    have toYes := ((toNo.trans past₃).trans past₄).trans past₅
    have held := ((((consequent.mono wider₁).mono wider₂).mono wider₃).mono wider₄).mono wider₅
    refine Grants.lays (E := []) (F := []) (arm toYes (forms ready held))
      (fun _ x more₆ past₆ low₆ wider₆ ready => ?_) (fun label member => old below label (List.mem_cons_of_mem _ member)) fun _ => nofun
    exact anchor_lays ready (old (Nat.le_trans below low₆) _ (by simp)) fun X _ =>
      ⟨List.mem_cons_of_mem _ List.mem_cons_self, known_refl _⟩
  · rintro _ x _ ⟨stays, lays⟩
    refine ⟨labelled.trans stays, lays.close quiet ?_ ?_ (fun _ _ => rfl) ?_⟩
    · intro label member
      show w.body.labelCount ≤ label ∧ label < w.body.labelCount + 2
      rcases List.mem_pair.mp member with rfl | rfl <;> omega
    · exact fun _ => id
    · simp

theorem branch_lays (ready : w.Ready known) (safe : ∀ v ∈ args, v.Safe known) :
    Grants (branch f args) w fun _ x => w.Pushes known x 0 1 := by
  have predicate {test : Value} (member : test ∈ args) : test.Safe known := safe test member
  unfold branch
  dsimp only
  split
  next test yes =>
    refine Grants.bind (P := fun parts u => parts = (test, yes, none) ∧ u = w) (.pure ⟨rfl, rfl⟩)
      fun parts u _ same => ?_
    obtain ⟨rfl, rfl⟩ := same
    exact arms_lay forms ready (predicate (by simp)) (predicate (by simp)) fun _ ready =>
      grants_emit ready _ rfl
  next test yes no =>
    refine Grants.bind (P := fun parts u => parts = (test, yes, some no) ∧ u = w) (.pure ⟨rfl, rfl⟩)
      fun parts u _ same => ?_
    obtain ⟨rfl, rfl⟩ := same
    exact arms_lay forms ready (predicate (by simp)) (predicate (by simp)) fun wider ready =>
      forms ready ((predicate (by simp)).mono wider)
  · exact (grants_reject (P := fun _ _ => False) rfl).bind fun _ _ _ => False.elim

theorem pairs_lay {pairs : List (String × Value)} (ready : w.Ready known) {s : Scope} {others : List Scope}
    (opened : w.body.scopes = s :: others) (safe : ∀ pair ∈ pairs, pair.2.Safe known) :
    Grants (pairs.forM fun (name, v) => do
      f v
      let cell ← bindLocal name .value
      emitWith .store cell.index) w fun _ x => w.Opened known x := by
  induction pairs generalizing known w s others with
  | nil => exact .pure (.refl ready)
  | cons pair pairs ih =>
    obtain ⟨name, v⟩ := pair
    obtain ⟨value, rest⟩ := List.forall_mem_cons.mp safe
    refine Grants.opened ?_ fun _ u more _ opens wider ready => ?_
    · refine (forms ready value).bind fun _ u _ pushes => ?_
      refine (grants_bindLocal (pushes.1.scopes.trans opened) name .value).bind fun cell y _ bound => ?_
      obtain ⟨rfl, rfl⟩ := bound
      refine (grants_emitWith _ _).mono fun _ x _ emitted => ?_
      obtain ⟨h, rfl⟩ := emitted
      exact pushes.store name .value h
    · obtain ⟨names, scopes, -⟩ := opens.scopes opened
      exact ih ready scopes fun pair member => (rest pair member).mono wider

theorem scoped_lays {body : List Value} (opened : (w.enter { kind := .locals }).Opened known u)
    (safe : ∀ v ∈ body, v.Safe known) :
    Grants (do
      block f body
      popScope) u fun _ x => w.Pushes known x 0 1 := by
  obtain ⟨opens, g, met, more, seg, wider, ready, stretch, leads⟩ := opened
  refine (block_lays forms ready fun v member => (safe v member).mono wider).bind fun _ x _ pushes => ?_
  have inside := pushes.inside opens met wider stretch leads
  obtain ⟨cells, scopes, next⟩ := inside.1.scopes rfl
  refine (grants_popScope scopes fun _ => ?_).mono fun _ y _ left => left ▸ inside.leave
  rw [next, List.append_nil]
  exact Nat.le_add_left _ _

omit forms in
theorem enter_grants : Grants (pushScope .locals) w fun _ u => u = w.enter { kind := .locals } :=
  .of_yields (a := ()) (pushScope_iff.mpr rfl) rfl (.refl _)

theorem bindings_lays (ready : w.Ready known) (safe : ∀ v ∈ args, v.Safe known) :
    Grants (bindings f args) w fun _ x => w.Pushes known x 0 1 := by
  refine (grants_liftError (parses_bindingPairs Value.hereditary_safe "let" safe)).bind fun pairs u _ paired => ?_
  obtain ⟨each, rfl⟩ := paired
  refine enter_grants.bind fun _ _ _ entered => ?_
  obtain rfl := entered
  refine (pairs_lay forms (ready.enter (s := { kind := .locals }) fun _ => nofun) rfl each).bind fun _ y _ opened => ?_
  exact scoped_lays forms opened fun v member => safe v (List.mem_of_mem_drop member)

omit forms in
theorem fresh_lay {pairs : List (String × Value)} (ready : w.Ready known) {s : Scope} {others : List Scope}
    (scopes : w.body.scopes = s :: others) :
    Grants (pairs.mapM fun (name, _) => do
      let cell ← bindLocal name .reference
      emit .newRef
      emitWith .store cell.index
      pure cell) w fun cells x => w.Opened known x ∧ ∀ cell ∈ cells, x.Binds cell := by
  induction pairs generalizing known w s with
  | nil => exact .pure ⟨.refl ready, fun _ => nofun⟩
  | cons pair pairs ih =>
    obtain ⟨name, v⟩ := pair
    rw [List.mapM_cons]
    refine Grants.bind (P := fun cell u => w.Opened known u ∧ u.Binds cell) ?_ fun cell u _ made => ?_
    · refine (grants_bindLocal scopes name .reference).bind fun cell y _ bound => ?_
      obtain ⟨rfl, rfl⟩ := bound
      refine Grants.bind (P := fun _ z => z = (w.bindLocal name .reference).emit Opcode.newRef.bare)
        (.of_yields (a := ()) (emit_iff.mpr rfl) rfl (.refl _)) fun _ z _ emitted => ?_
      obtain rfl := emitted
      refine (grants_emitWith _ _).bind fun _ z _ stored => .pure ?_
      obtain ⟨h, rfl⟩ := stored
      have pushes : w.Pushes known (w.emit Opcode.newRef.bare) 0 1 :=
        pushes_simple (i := Opcode.newRef.bare) ready rfl
      constructor
      · rw [bindLocal_emit]
        exact pushes.store name .reference h
      · refine ⟨⟨s.kind, (name, w.nextCell .reference) :: s.cells⟩, ?_, _, List.mem_cons_self, rfl⟩
        show _ ∈ (w.bindLocal name .reference).body.scopes
        simp [Workshop.bindLocal, Workshop.slot, Workshop.declare, scopes]
    · obtain ⟨⟨opens, f, met, more, seg, wider, ready, stretch, leads⟩, binds⟩ := made
      obtain ⟨names, opened, -⟩ := opens.scopes scopes
      refine (ih ready opened).bind fun cells x _ made => .pure ⟨?_, ?_⟩
      · exact made.1.following opens met wider stretch leads
      · exact List.forall_mem_cons.mpr ⟨binds.opens made.1.1, made.2⟩

theorem fills_lay {pairs : List (String × Value)} {cells : List Cell} (ready : w.Ready known)
    (safe : ∀ pair ∈ pairs, pair.2.Safe known) (binds : ∀ cell ∈ cells, w.Binds cell) :
    Grants ((pairs.zip cells).forM fun ((_, v), cell) => do
      f v
      loadRaw cell
      emit .bindRef) w fun _ x => w.Pushes known x 0 0 := by
  induction pairs generalizing cells known w with
  | nil => exact .pure (.refl ready 0)
  | cons pair pairs ih =>
    obtain ⟨value, rest⟩ := List.forall_mem_cons.mp safe
    cases cells with
    | nil => exact .pure (.refl ready 0)
    | cons cell cells =>
      obtain ⟨own, others⟩ := List.forall_mem_cons.mp binds
      refine Grants.pushes (k := 0) ?_ fun _ u more _ stays wider ready => ?_
      · refine (forms ready value).pushes fun _ u more _ stays wider ready => ?_
        refine Grants.pushes (k := 2) ?_ fun _ _ _ _ _ _ ready => grants_emit ready _ rfl
        refine (grants_loadRaw cell).mono fun _ x _ loaded => ?_
        obtain ⟨i, loads, rfl⟩ := loaded
        exact (pushes_own ready (own.congr stays.scopes) loads).frame 1
      · exact ih ready (fun pair member => (rest pair member).mono wider) fun cell member =>
          (others cell member).congr stays.scopes

theorem knot_lays (ready : w.Ready known) (safe : ∀ v ∈ args, v.Safe known) :
    Grants (knot f args) w fun _ x => w.Pushes known x 0 1 := by
  refine (grants_liftError (parses_bindingPairs Value.hereditary_safe "letrec" safe)).bind fun pairs u _ paired => ?_
  obtain ⟨each, rfl⟩ := paired
  refine enter_grants.bind fun _ _ _ entered => ?_
  obtain rfl := entered
  refine (fresh_lay (ready.enter (s := { kind := .locals }) fun _ => nofun) rfl).bind fun cells y _ made => ?_
  obtain ⟨⟨opens, g, met, more, seg, wider, ready, stretch, leads⟩, binds⟩ := made
  refine (fills_lay forms ready (fun pair member => (each pair member).mono wider) binds).bind
    fun _ x _ pushes => ?_
  refine scoped_lays forms ?_ fun v member => safe v (List.mem_of_mem_drop member)
  exact (Opened.of_pushes pushes).following opens met wider stretch leads

end

end Compile

end StackLisp
