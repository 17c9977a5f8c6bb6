import StackLisp.Proofs.Compiling

/-!
Lambdas lay code. A clause of so many parameters is reached with so many arguments at least, so that its
body is on its chart, is built, and joins the library.
-/

namespace StackLisp

open Workshop Outlook

variable {w u x : Workshop} {known more : Procedure Value → Prop} {f : Compile.FormCompiler}
  {least : Nat} {c : Clause} {cs : Clauses} {label : Nat}

/-- The cell of a parameter, or of the rest of the arguments. -/
def Cell.OfArg (bound : Nat) (cell : Cell) : Prop :=
  cell.scope = .args ∧ (cell.kind = .rest ∨ cell.index < bound)

theorem Cell.OfArg.held {bound : Nat} {cell : Cell} (h : cell.OfArg bound) {X : Outlook}
    (enough : bound ≤ X.least) : cell.Held X := by
  unfold Cell.Held
  rw [h.1]
  exact h.2.imp id fun below => Nat.lt_of_lt_of_le below enough

theorem Cell.OfArg.housed {bound : Nat} {cell : Cell} (h : cell.OfArg bound) (localCount : Nat) :
    cell.Housed localCount := by
  unfold Cell.Housed
  rw [h.1]
  trivial

/-- What is known where a clause of so many parameters starts. -/
def StartsAt (w : Workshop) (least : Nat) (X : Outlook) : Prop :=
  w.Meets X ∧ X.stack = [] ∧ least ≤ X.least

namespace Compile

open Encode

theorem params_grants {ps : List (String × Nat)} {bound : Nat} (below : ∀ p ∈ ps, p.2 < bound)
    {cells : List (String × Cell)} (args : ∀ entry ∈ cells, entry.2.OfArg bound) :
    Grants (ps.forM fun (name, i) => do
      let _ ← bindArg name .value i) (w.enter ⟨.args, cells⟩) fun _ x =>
        ∃ cells, x = w.enter ⟨.args, cells⟩ ∧ ∀ entry ∈ cells, entry.2.OfArg bound := by
  induction ps generalizing cells with
  | nil => exact .pure ⟨cells, rfl, args⟩
  | cons p ps ih =>
    obtain ⟨first, rest⟩ := List.forall_mem_cons.mp below
    refine Grants.bind (P := fun _ u => u = w.enter ⟨.args, (p.1, ⟨.value, .args, p.2⟩) :: cells⟩) ?_
      fun _ u _ bound => ?_
    · exact (grants_bindArg rfl p.1 .value p.2).bind fun _ _ _ declared => .pure declared
    · obtain rfl := bound
      exact ih rest (List.forall_mem_cons.mpr ⟨⟨rfl, .inr first⟩, args⟩)

theorem ret_lays (ready : w.Ready known) {met : Outlook → Prop} {given : Outlook → List (Nat × Outlook)}
    (empty : ∀ X, met X → X.stack = []) : Lays known w (w.emit Opcode.ret.bare) [] [] met given
      (fun X => some (X.deep 1)) fun _ => none := by
  refine .emit (i := Opcode.ret.bare) ready ⟨trivial, nofun⟩ nofun (fun X holds => ?_) fun X pool _ => ?_
  · have whole : (X.deep 1).stack.length = 1 := by
      rw [length_deep, empty X holds]
      rfl
    exact ⟨whole.ge, fun _ _ _ => whole, nofun, nofun, nofun, nofun⟩
  · rw [View.onward_exits _ rfl]
    exact known_refl _

theorem clause_lays (forms : FormsLay f) (ready : w.Ready known) (safe : ∀ v ∈ c.body, v.Safe known) :
    Grants (clause f c) w fun _ x => w.Stays x ∧ Lays known w x [] [] (StartsAt w c.fixedCount)
      (fun _ => []) some fun _ => none := by
  have body {cells : List (String × Cell)} (args : ∀ entry ∈ cells, entry.2.OfArg c.fixedCount) :
      Grants (do
        block f c.body
        emit .ret
        popScope) (w.enter ⟨.args, cells⟩) fun _ x => w.Stays x ∧
          Lays known w x [] [] (StartsAt w c.fixedCount) (fun _ => []) some fun _ => none := by
    have housed := ready.enter (s := ⟨.args, cells⟩) fun entry inside => (args entry inside).housed _
    refine (block_lays forms housed safe).bind fun _ y _ pushes => ?_
    obtain ⟨stays, more, seg, wider, ready, stretch, leads⟩ := pushes
    refine Grants.bind (P := fun _ z => z = y.emit Opcode.ret.bare)
      (.of_yields (a := ()) (emit_iff.mpr rfl) rfl (.refl _))
      fun _ z _ emitted => ?_
    obtain rfl := emitted
    refine (grants_popScope (w := y.emit Opcode.ret.bare) stays.scopes nofun).mono fun _ x _ left => ?_
    obtain rfl := left
    obtain ⟨most, code, wider, ready, stretch, leads⟩ := Lays.following (E := []) (F := [])
      (ret_lays ready fun X (starts : StartsAt w c.fixedCount X) => starts.2.1) wider stretch
      (fun X starts => leads X (starts.1.enter fun entry inside => (args entry inside).held starts.2.2))
      (fun _ => nofun) fun _ => nofun
    refine ⟨(stays.trans (stays_emit _)).leave nofun, most, code, wider, ready.leave, ?_, ?_⟩
    · rwa [stage_leave]
    · rwa [stage_leave]
  refine Grants.bind (P := fun _ u => u = w.enter ⟨.args, []⟩)
    (.of_yields (a := ()) (pushScope_iff.mpr rfl) rfl (.refl _)) fun _ u _ entered => ?_
  obtain rfl := entered
  have below : ∀ p ∈ c.params.zipIdx, p.2 < c.fixedCount := fun p member => by
    have place := List.mem_zipIdx member
    unfold Clause.fixedCount
    omega
  refine (params_grants below (List.forall_mem_nil _)).bind fun _ u _ made => ?_
  obtain ⟨cells, rfl, args⟩ := made
  dsimp only
  cases c.rest with
  | none => exact body args
  | some name =>
    refine (grants_bindArg rfl name .rest c.fixedCount).bind fun _ u _ declared => ?_
    obtain rfl := declared
    exact body (List.forall_mem_cons.mpr ⟨⟨rfl, .inl rfl⟩, args⟩)

theorem step_lays (ready : w.Ready known) {i : Instruction} (simple : i.op.isSimple) {met : Outlook → Prop}
    {given : Outlook → List (Nat × Outlook)} {X Y : Outlook → Outlook}
    (pops : ∀ Z, met Z → i.pops ≤ (X Z).stack.length)
    (next : ∀ Z pool, met Z → (X Z).after pool i ≤ Y Z) :
    w.Stays (w.emit i) ∧ Lays known w (w.emit i) [] [] met given (fun Z => some (X Z)) fun Z => some (Y Z) := by
  obtain ⟨-, stays, labels, -⟩ := Opcode.isSimple_iff.mp simple
  refine ⟨stays_emit i, .emit ready (holds_simple simple _) labels (fun Z holds =>
    allows_simple simple (pops Z holds)) fun Z pool holds => ?_⟩
  rw [Outlook.onward_some stays]
  exact Option.some_le_some.mpr (next Z pool holds)

/-- The test of a clause. Its label is come to with as many arguments as the clause has parameters. -/
theorem dispatch_lays (ready : w.Ready known) {given : List (Nat × Outlook)}
    (place : (label, Chunk.Start c.fixedCount) ∈ given) (taken : label < w.body.labelCount) :
    Grants (dispatch c label) w fun _ x => w.Stays x ∧
      Lays known w x [] [label] (· = Chunk.Start least) (fun _ => given) some some := by
  refine Grants.lays (E := []) (F := []) (G := []) (Y := fun X => some (X.push [.number c.fixedCount])) ?_
    (fun _ u more stays low _ ready => ?_) (fun _ => nofun) fun _ => nofun
  · refine (grants_emitWith _ _).mono fun _ x _ emitted => ?_
    obtain ⟨h, rfl⟩ := emitted
    exact step_lays (i := ⟨.posInt, _, h⟩) ready rfl (fun _ _ => Nat.zero_le _) fun _ _ _ => le_refl _
  refine Grants.lays (E := []) (F := []) (G := []) (Y := fun X => some (X.push [.count, .number c.fixedCount])) ?_
    (fun _ y more stays' low' _ ready => ?_) (fun _ => nofun) fun _ => nofun
  · refine .of_yields (a := ()) (emit_iff.mpr rfl) ?_ (.refl _)
    exact step_lays (i := Opcode.argLen.bare) ready rfl (fun _ _ => Nat.zero_le _) fun _ _ _ => le_refl _
  refine Grants.lays (E := []) (F := []) (G := []) (Y := fun X => some (X.push [.test c.fixedCount])) ?_
    (fun _ z more stays'' low'' _ ready => ?_) (fun _ => nofun) fun _ => nofun
  · refine .of_yields (a := ()) (emit_iff.mpr rfl) ?_ (.refl _)
    split
    · exact step_lays (i := Opcode.numGte.bare) ready rfl (fun _ _ => Nat.le_add_left _ _) fun _ _ _ => le_refl _
    · exact step_lays (i := Opcode.numEq.bare) ready rfl (fun _ _ => Nat.le_add_left _ _) fun _ _ _ => le_refl _
  refine (grants_emitWith _ _).mono fun _ x _ emitted => ?_
  obtain ⟨h, rfl⟩ := emitted
  refine ⟨stays_emit _, Lays.jumps ready rfl (Nat.lt_of_lt_of_le taken ?_) (fun _ _ => Nat.le_add_left _ _)
    (fun _ => rfl) (fun X start => ⟨place, ?_⟩) fun X pool _ => ?_⟩
  · exact Nat.le_trans low (Nat.le_trans low' low'')
  · subst start
    exact ⟨Operand.each_refl _, Nat.le_max_right _ _, List.forall₂_refl _, fun _ => id⟩
  · rw [Outlook.onward_some rfl]
    exact known_refl _

theorem newLabels_grants (cs : Clauses) : Grants (cs.mapM fun _ => newLabel) w fun labels x =>
    labels = List.range' w.body.labelCount cs.length ∧ x = w.labels cs.length := by
  induction cs generalizing w with
  | nil => exact .pure ⟨rfl, rfl⟩
  | cons c cs ih =>
    rw [List.mapM_cons]
    refine Grants.bind (P := fun label u => label = w.body.labelCount ∧ u = w.label)
      (.of_yields (newLabel_iff.mpr ⟨rfl, rfl⟩) ⟨rfl, rfl⟩ (.refl _)) fun label u _ taken => ?_
    obtain ⟨rfl, rfl⟩ := taken
    refine ih.bind fun labels x _ more => .pure ?_
    obtain ⟨rfl, rfl⟩ := more
    exact ⟨by simp [List.range'_succ, Workshop.label], rfl⟩

theorem labels_quiet (w : Workshop) (count : Nat) :
    (w.labels count).body.labelCount = w.body.labelCount + count ∧
      Stretch w.stage (w.labels count).stage [] [] [] := by
  induction count generalizing w with
  | zero => exact ⟨rfl, .quiet rfl (List.prefix_refl _) (Nat.le_refl _) (Nat.le_refl _) (Nat.le_refl _)⟩
  | succ count ih =>
    obtain ⟨counted, quiet⟩ := ih w.label
    refine ⟨?_, ?_⟩
    · show (w.label.labels count).body.labelCount = _
      rw [counted]
      show w.body.labelCount + 1 + count = _
      omega
    · have taken : Stretch w.stage w.label.stage [] [] [] :=
        .quiet rfl (List.prefix_refl _) (Nat.le_refl _) (Nat.le_succ _) (Nat.le_refl _)
      exact taken.then quiet

theorem labels_ready (ready : w.Ready known) (count : Nat) : (w.labels count).Ready known := by
  induction count generalizing w with
  | zero => exact ready
  | succ count ih => exact ih ready.label

section

variable {placed : List (Clause × Nat)} {given : List (Nat × Outlook)}

theorem tests_lay (ready : w.Ready known) (places : ∀ p ∈ placed,
      (p.2, Chunk.Start p.1.fixedCount) ∈ given ∧ p.2 < w.body.labelCount) :
    Grants (placed.forM fun (c, label) => dispatch c label) w fun _ x => w.Stays x ∧
      Lays known w x [] (placed.map Prod.snd) (· = Chunk.Start least) (fun _ => given) some some := by
  induction placed generalizing known w with
  | nil => exact .pure ⟨.refl w, .refl ready some⟩
  | cons p placed ih =>
    obtain ⟨⟨place, taken⟩, rest⟩ := List.forall_mem_cons.mp places
    refine Grants.lays (E := []) (G := []) (F := [p.2]) (dispatch_lays ready place taken)
      (fun _ u more stays low _ ready => ?_) (fun _ => nofun) fun _ => nofun
    exact ih ready fun p member => ⟨(rest p member).1, Nat.lt_of_lt_of_le (rest p member).2 low⟩

theorem bodies_lay (forms : FormsLay f) (ready : w.Ready known) (alone : w.body.scopes = [])
    (safe : ∀ p ∈ placed, ∀ v ∈ p.1.body, v.Safe known) (places : ∀ p ∈ placed,
      (p.2, Chunk.Start p.1.fixedCount) ∈ given ∧ p.2 < w.body.labelCount)
    (distinct : (placed.map Prod.snd).Nodup) :
    Grants (placed.forM fun (c, label) => do
      anchor label
      clause f c) w fun _ x => w.Stays x ∧ Lays known w x (placed.map Prod.snd) []
        (· = Chunk.Start least) (fun _ => given) (fun _ => none) fun _ => none := by
  induction placed generalizing known w with
  | nil => exact .pure ⟨.refl w, .refl ready _⟩
  | cons p placed ih =>
    obtain ⟨⟨place, taken⟩, rest⟩ := List.forall_mem_cons.mp places
    obtain ⟨body, others⟩ := List.forall_mem_cons.mp safe
    obtain ⟨apart, distinct⟩ := List.nodup_cons.mp distinct
    have old : ∀ label ∈ p.2 :: placed.map Prod.snd, label < w.body.labelCount := by
      rintro label (_ | ⟨_, later⟩)
      · exact taken
      · obtain ⟨q, member, rfl⟩ := List.mem_map.mp later
        exact (rest q member).2
    refine Grants.lays (E := [p.2]) (F := []) (G := placed.map Prod.snd) (H := []) (Y := fun _ => none) ?_
      (fun _ u more stays low wider ready => ?_) old (by simpa using apart)
    · refine Grants.lays (E := [p.2]) (F := []) (G := []) (H := [])
        (anchor_lays (Y := fun _ => Chunk.Start p.1.fixedCount) ready taken fun _ _ => ⟨place, trivial⟩)
        (fun _ u more stays low wider ready => ?_) (fun label member => ?_) fun _ _ => nofun
      · have started : StartsAt u p.1.fixedCount (Chunk.Start p.1.fixedCount) := by
          refine ⟨⟨fun s member => ?_, rfl⟩, rfl, Nat.le_refl _⟩
          rw [stays.scopes, alone] at member
          cases member
        refine (clause_lays forms ready fun v member => (body v member).mono wider).mono fun _ x _ laid => ?_
        exact ⟨laid.1, laid.2.conseq (fun _ => Chunk.Start p.1.fixedCount) (fun _ _ => started)
          (fun _ _ => known_refl _) fun _ _ => known_refl _⟩
      · exact old label (List.mem_cons.mpr (.inl (List.mem_singleton.mp member)))
    · exact ih ready (stays.scopes.trans alone) (fun q member v inside => (others q member v inside).mono wider)
        (fun q member => ⟨(rest q member).1, Nat.lt_of_lt_of_le (rest q member).2 low⟩) distinct

end

/-- The clauses of a body. With one clause there are as many arguments as it has parameters; of several the
first that fits is run. -/
theorem clauses_lay (least : Nat) (forms : FormsLay f) (ready : w.Ready known) (alone : w.body.scopes = [])
    (safe : ∀ c ∈ cs, ∀ v ∈ c.body, v.Safe known) (enough : ∀ c, cs = [c] → c.fixedCount ≤ least) :
    Grants (clauses f cs) w fun _ x => w.Stays x ∧
      Lays known w x [] [] (· = Chunk.Start least) (fun _ => []) some fun _ => none := by
  unfold clauses
  split
  next c =>
    refine (clause_lays forms ready (safe c List.mem_cons_self)).mono fun _ x _ laid => ⟨laid.1, ?_⟩
    refine laid.2.conseq id ?_ (fun _ _ => known_refl _) fun _ _ => known_refl _
    rintro _ rfl
    refine ⟨⟨fun s member => ?_, rfl⟩, rfl, enough c rfl⟩
    rw [alone] at member
    cases member
  · refine (newLabels_grants cs).bind fun labels u _ taken => ?_
    obtain ⟨rfl, rfl⟩ := taken
    have labelled := labels_ready ready cs.length
    obtain ⟨counted, quiet⟩ := labels_quiet w cs.length
    have stays : w.Stays (w.labels cs.length) := stays_labels _
    have names : (cs.zip (List.range' w.body.labelCount cs.length)).map Prod.snd =
        List.range' w.body.labelCount cs.length := List.map_snd_zip (by simp)
    have bodies : ∀ p ∈ cs.zip (List.range' w.body.labelCount cs.length), ∀ v ∈ p.1.body, v.Safe known :=
      fun p member => safe p.1 (List.of_mem_zip member).1
    have own : ∀ label ∈ List.range' w.body.labelCount cs.length,
        w.body.labelCount ≤ label ∧ label < (w.labels cs.length).body.labelCount := by
      intro label member
      rw [counted]
      exact List.mem_range'_1.mp member
    generalize cs.zip (List.range' w.body.labelCount cs.length) = placed at names bodies ⊢
    have distinct : (placed.map Prod.snd).Nodup := names ▸ List.nodup_range'
    have places : ∀ p ∈ placed, (p.2, Chunk.Start p.1.fixedCount) ∈
        placed.map (fun p => (p.2, Chunk.Start p.1.fixedCount)) ∧ p.2 < (w.labels cs.length).body.labelCount :=
      fun p member => ⟨List.mem_map_of_mem member, (own p.2 (names ▸ List.mem_map_of_mem member)).2⟩
    have old {u : Workshop} (later : (w.labels cs.length).body.labelCount ≤ u.body.labelCount) :
        ∀ label ∈ placed.map Prod.snd, label < u.body.labelCount := fun label member =>
      Nat.lt_of_lt_of_le (own label (names ▸ member)).2 later
    refine Grants.mono (P := fun _ x => (w.labels cs.length).Stays x ∧ Lays known (w.labels cs.length) x
      (placed.map Prod.snd) (placed.map Prod.snd ++ []) (· = Chunk.Start least)
      (fun _ => placed.map fun p => (p.2, Chunk.Start p.1.fixedCount)) some fun _ => none) ?_ ?_
    · refine Grants.lays (E := []) (G := placed.map Prod.snd) (H := []) (tests_lay labelled places)
        (fun _ u more₁ stays₁ low₁ wider₁ ready => ?_) (old (Nat.le_refl _)) fun _ => nofun
      have empty {y : Workshop} (same : u.Stays y) : y.body.scopes = [] :=
        same.scopes.trans ((stays.trans stays₁).scopes.trans alone)
      refine Grants.lays (E := []) (F := []) (H := []) (Y := fun X => some (X.deep 1)) ?_
        (fun _ v more₂ stays₂ low₂ wider₂ ready => ?_) (old low₁) fun _ => nofun
      · refine (grants_emitConst ready (.scalar rfl)).mono fun _ x _ pushes => ⟨pushes.1, ?_⟩
        refine pushes.2.conseq id ?_ (fun _ _ => known_refl _) fun _ _ => known_refl _
        rintro _ rfl
        refine ⟨fun s member => ?_, rfl⟩
        rw [empty (.refl u)] at member
        cases member
      have below := Nat.le_trans low₁ low₂
      refine Grants.lays (E := []) (F := []) (H := []) (Y := fun _ => none) ?_
        (fun _ y more₃ stays₃ low₃ wider₃ ready => ?_) (old below) fun _ => nofun
      · refine .of_yields (a := ()) (emit_iff.mpr rfl) ⟨stays_emit _, ?_⟩ (.refl _)
        refine .emit (i := Opcode.panic.bare) ready ⟨trivial, nofun⟩ nofun (fun X _ => ?_) fun X pool _ => ?_
        · refine ⟨?_, fun _ other => absurd rfl other, nofun, nofun, nofun, nofun⟩
          rw [length_deep]
          exact Nat.le_add_right _ _
        · rw [View.onward_exits _ rfl]
          exact known_refl _
      have later := Nat.le_trans below low₃
      exact bodies_lay forms ready (empty (stays₂.trans stays₃))
        (fun p member v inside => (((bodies p member v inside).mono wider₁).mono wider₂).mono wider₃)
        (fun p member => ⟨(places p member).1, old later p.2 (List.mem_map_of_mem member)⟩) distinct
    · rintro _ x _ ⟨stays', lays⟩
      rw [List.append_nil] at lays
      refine ⟨stays.trans stays', lays.close quiet (fun label member => own label (names ▸ member))
        (fun _ => id) (fun _ _ => ?_) distinct⟩
      rw [List.map_map]
      rfl

/-- How many arguments the clauses are given at least. -/
def leastOf : Clauses → Nat
  | [c] => c.fixedCount
  | _ => 0

theorem leastOf_le {n : Nat} (accepts : cs.arity.accepts n) : leastOf cs ≤ n := by
  unfold leastOf
  split
  next c =>
    unfold Clauses.arity Clauses.leastRest? at accepts
    rw [Arity.accepts_ofParts] at accepts
    cases variadic : c.isVariadic with
    | true => simpa [variadic] using accepts
    | false =>
      have same : n = c.fixedCount := by simpa [variadic] using accepts
      exact same.ge
  · exact Nat.zero_le n

theorem parses_params (v : Value) : Parses (Clause.parseParams v) fun _ => True := by
  induction v using Clause.parseParams.induct with
  | case1 => trivial
  | case2 => trivial
  | case3 cdr =>
    rw [Clause.parseParams, if_pos rfl]
    refine Parses.bind (P := fun _ => True) ?_ fun _ _ => trivial
    unfold Clause.restAfterMarker
    split <;> trivial
  | case4 name cdr other ih =>
    rw [Clause.parseParams, if_neg other]
    exact ih.bind fun _ _ => trivial
  | case5 car cdr unnamed =>
    rw [Clause.parseParams]
    · rfl
    · exact unnamed
  | case6 v notNull notName notPair other =>
    rw [Clause.parseParams]
    · rfl
    all_goals assumption

theorem parses_clause {S : Value → Prop} (params : Value) {body : List Value} (each : ∀ v ∈ body, S v) :
    Parses (Clause.parse params body) fun c => ∀ v ∈ c.body, S v :=
  (parses_params params).bind fun _ _ => each

theorem parses_push {S : Value → Prop} (each : ∀ c ∈ cs, ∀ v ∈ c.body, S v) (last : ∀ v ∈ c.body, S v) :
    Parses (cs.push c) fun cs => ∀ c ∈ cs, ∀ v ∈ c.body, S v := by
  unfold Clauses.push Clauses.push?
  split
  next pushed =>
    split at pushed
    · cases pushed
    · obtain rfl := Option.some.inj pushed
      exact fun other member => (List.mem_append.mp member).elim (each other) fun new =>
        List.mem_singleton.mp new ▸ last
  · rfl

theorem parses_clauses {S : Value → Prop} (hereditary : Hereditary S) {forms : List Value}
    (each : ∀ v ∈ forms, S v) : Parses (Clauses.parse forms) fun cs => ∀ c ∈ cs, ∀ v ∈ c.body, S v := by
  have folded (forms : List Value) : ∀ {cs : Clauses}, (∀ v ∈ forms, S v) →
      (∀ c ∈ cs, ∀ v ∈ c.body, S v) →
        Parses (forms.foldlM Clauses.pushForm cs) fun cs => ∀ c ∈ cs, ∀ v ∈ c.body, S v := by
    induction forms with
    | nil => exact fun _ each => each
    | cons form forms ih =>
      intro cs whole each
      obtain ⟨first, rest⟩ := List.forall_mem_cons.mp whole
      refine Parses.bind ?_ fun cs each => ih rest each
      refine (parses_formItems hereditary "lambda" first).bind fun items parts => ?_
      split
      · rfl
      · obtain ⟨-, body⟩ := List.forall_mem_cons.mp parts
        exact (parses_clause _ body).bind fun c held => parses_push each held
  unfold Clauses.parse
  split
  · rfl
  next first rest =>
    split
    · exact folded _ each fun _ member => absurd member List.not_mem_nil
    · exact (parses_clause first (List.forall_mem_cons.mp each).2).bind fun c held =>
        parses_push (fun _ member => absurd member List.not_mem_nil) held

/-- A procedure that is built while a store keeps a library. -/
def Enlarges (known : Procedure Value → Prop) (count : Nat) (arity : Arity) (s : Store) (p : Procedure Value)
    (t : Store) : Prop :=
  ∃ more : Procedure Value → Prop, (∀ {q}, known q → more q) ∧ t.Keeps more ∧ more p ∧ p.Captures count ∧
    p.arity = arity ∧ t.namespaces = s.namespaces

/-- A body that is laid from nothing is built, unless an operand is too large. -/
theorem body_grants (lays : Lays known w u [] [] (· = Chunk.Start least) (fun _ => []) some fun _ => none)
    (blank : w.stage = ⟨[], [], 0, 0, 0⟩) {arity : Arity} (accepts : ∀ n, arity.accepts n → least ≤ n)
    (o : CompileOptions) : Grants (u.chunk.build arity o) u.store fun p t =>
      Enlarges known u.body.captured.length arity u.store p t := by
  obtain ⟨more, seg, wider, ready, stretch, leads⟩ := lays
  rw [blank] at stretch leads
  have whole : u.chunk.code = seg := stretch.code
  have mapped : u.chunk.Mapped least := by
    obtain ⟨own, flows⟩ := leads _ rfl
    refine ⟨stretch.formed _ _, ?_⟩
    rw [whole]
    exact (@flows own _ (fun _ _ _ => rfl) (fun _ => nofun) (List.prefix_refl _)).charted
      stretch.distinct fun i member op => (stretch.jumps i member op).resolve_left nofun
  refine (Chunk.granted_build ready.store.library mapped ready.constants
    (fun i member op => (stretch.holds i (whole ▸ member)).captured op) u.store).mono fun p t _ built => ?_
  exact ⟨With more p, fun old => .inl (wider old), built.keeps ready.store accepts, .inr rfl, built.captures,
    built.arity, built.namespaces⟩

theorem child_ready (ready : w.Ready known) (name : Option String) : (w.child name).Ready known :=
  ⟨ready.store, fun _ => nofun, fun _ => nofun⟩

end Compile

namespace Encode

theorem grants_build {α : Type} {act : Build α} {P : α → Store → Prop} (h : Grants act w.store P) :
    Grants (build act) w fun a x => P a x.store ∧ x = { w with store := x.store } := by
  intro r x ended
  obtain ⟨rfl, rfl⟩ := Prod.mk.inj ended
  obtain ⟨grown, granted⟩ := h _ _ rfl
  exact ⟨grown, granted.mono fun a _ holds => ⟨holds, rfl⟩⟩

theorem grants_inner {α : Type} {name : Option String} {act : Encode α} {P : α → Workshop → Prop}
    (h : Grants act (w.child name) P) :
    Grants (inner name act) w fun a x => ∃ y, P a y ∧ x = { w with store := y.store } := by
  intro r x ended
  obtain ⟨rfl, rfl⟩ := Prod.mk.inj ended
  obtain ⟨grown, granted⟩ := h _ _ rfl
  exact ⟨grown, granted.mono fun a _ holds => ⟨_, holds, rfl⟩⟩

end Encode

namespace Compile

open Encode

section

variable (forms : FormsLay f)
include forms

theorem procedure_grants (ready : w.Ready known) (safe : ∀ c ∈ cs, ∀ v ∈ c.body, v.Safe known)
    (name : Option String) : Grants (procedure f name cs) w fun result x =>
      Enlarges known result.2.length cs.arity w.store result.1 x.store ∧ x = { w with store := x.store } ∧
        ∀ captured ∈ result.2, (Body.visible? (w.body :: w.around) captured).isSome := by
  refine Grants.bind (P := fun v u => u = w) (.of_yields (Yields.get_iff.mpr ⟨rfl, rfl⟩) rfl (.refl _))
    fun v u _ same => ?_
  obtain rfl := same
  refine (grants_inner (P := fun result y => Enlarges known result.2.length cs.arity u.store result.1 y.store ∧
    ∀ captured ∈ result.2, (Body.visible? (u.body :: u.around) captured).isSome) ?_).mono ?_
  · refine (clauses_lay (leastOf cs) forms (child_ready ready name) rfl safe ?_).bind fun _ y _ laid => ?_
    · rintro c rfl
      exact Nat.le_refl _
    obtain ⟨stays, lays⟩ := laid
    refine grants_body.bind fun b y' _ read => ?_
    obtain ⟨rfl, rfl⟩ := read
    refine Grants.bind (P := fun chunk z => chunk = y'.chunk ∧ z = y')
      (.of_yields (finish_iff.mpr ⟨rfl, rfl⟩) ⟨rfl, rfl⟩ (.refl _)) fun chunk z _ finished => ?_
    obtain ⟨rfl, rfl⟩ := finished
    refine (grants_build (body_grants lays rfl (fun n => leastOf_le) _)).bind fun p x _ built => .pure ?_
    obtain ⟨⟨more, wider, keeps, body, captures, arity, namespaces⟩, -⟩ := built
    refine ⟨⟨more, wider, keeps, body, ?_, arity, namespaces.trans stays.namespaces⟩, fun captured member => ?_⟩
    · rwa [List.length_map]
    · obtain ⟨entry, inside, rfl⟩ := List.mem_map.mp member
      have seen := (stays.sound (sound_child u name)).visible entry inside
      rw [stays.around] at seen
      exact Option.isSome_iff_exists.mpr ⟨_, seen⟩
  · rintro result x _ ⟨y, ⟨enlarges, visible⟩, rfl⟩
    exact ⟨enlarges, rfl, visible⟩

end

theorem cell?_of_visible {name : String} (h : (Body.visible? (w.body :: w.around) name).isSome) :
    ∃ cell, w.cell? name = some cell := by
  unfold Body.visible? at h
  unfold cell?
  split
  · exact ⟨_, rfl⟩
  next missing =>
    rw [missing] at h
    obtain ⟨kind, seen⟩ := Option.isSome_iff_exists.mp h
    exact ⟨_, congrArg (Option.map _) seen⟩

theorem lexical?_of_free {b : Body} {name : String}
    (unscoped : b.scopes.findSome? (fun s => s.cells.lookup name) = none)
    (absent : name ∉ b.captured.map Prod.fst) (unnamed : b.name ≠ some name) : b.lexical? name = none := by
  have missing : b.captured.findIdx? (·.1 = name) = none := by
    rw [List.findIdx?_eq_none_iff]
    rintro entry member
    refine decide_eq_false fun same => absent ?_
    exact List.mem_map.mpr ⟨entry, member, same⟩
  unfold Body.lexical?
  rw [unscoped, missing]
  exact if_neg unnamed

theorem visible_of_stays (h : w.Stays x) {name : String}
    (seen : (Body.visible? (w.body :: w.around) name).isSome) :
    (Body.visible? (x.body :: x.around) name).isSome := by
  unfold Body.visible? at seen ⊢
  cases found : x.body.lexical? name with
  | some cell => rfl
  | none =>
    obtain ⟨unscoped, absent, unnamed⟩ := lexical?_eq_none found
    have free : w.body.lexical? name = none := by
      refine lexical?_of_free (h.scopes ▸ unscoped) (fun member => absent ?_) (h.name ▸ unnamed)
      exact (List.IsPrefix.map Prod.fst h.captured).subset member
    rw [free] at seen
    rw [h.around]
    exact seen

theorem captured_lay {names : List String} (ready : w.Ready known)
    (visible : ∀ name ∈ names, (Body.visible? (w.body :: w.around) name).isSome) :
    Grants (names.forM loadCaptured) w fun _ x => w.Pushes known x 0 names.length := by
  induction names generalizing known w with
  | nil => exact .pure (.refl ready 0)
  | cons name names ih =>
    obtain ⟨first, rest⟩ := List.forall_mem_cons.mp visible
    obtain ⟨cell, found⟩ := cell?_of_visible first
    refine Grants.pushes (k := 1) ?_ fun _ u more _ stays wider ready => ?_
    · refine (grants_resolve name).bind fun own u _ resolved => ?_
      obtain ⟨rfl, rfl⟩ := resolved
      rw [found]
      refine (grants_loadRaw cell).mono fun _ x _ loaded => ?_
      obtain ⟨i, loads, rfl⟩ := loaded
      exact pushes_load ready found loads
    · refine (ih ready fun name member => visible_of_stays stays (rest name member)).mono fun _ x _ pushes => ?_
      have framed := pushes.frame 1
      rwa [Nat.zero_add] at framed

section

variable (forms : FormsLay f)
include forms

theorem lambdaOf_lays {forms' : List Value} (ready : w.Ready known) (name : Option String)
    (safe : ∀ v ∈ forms', v.Safe known) : Grants (do
      let cs ← liftError (Clauses.parse forms')
      let (p, captured) ← procedure f name cs
      if captured = [] then emitConst (.closure p [])
      else
        captured.reverse.forM loadCaptured
        emitConst (.procedure p)
        emitWith .makeClosure captured.length) w fun _ x => w.Pushes known x 0 1 := by
  refine (grants_liftError (parses_clauses Value.hereditary_safe safe)).bind fun cs u _ parsed => ?_
  obtain ⟨bodies, rfl⟩ := parsed
  refine (procedure_grants forms ready bodies name).bind fun result x _ made => ?_
  obtain ⟨p, captured⟩ := result
  obtain ⟨⟨more, wider, keeps, body, captures, -, namespaces⟩, same, visible⟩ := made
  generalize x.store = store at keeps namespaces same
  obtain rfl := same
  have stays : u.Stays { u with store } := stays_store namespaces
  have ready : Ready more { u with store } :=
    ⟨keeps, fun v member => (ready.constants v member).mono wider, ready.housed⟩
  have quiet : Stretch u.stage (Workshop.stage { u with store }) [] [] [] :=
    .quiet rfl (List.prefix_refl _) (Nat.le_refl _) (Nat.le_refl _) (Nat.le_refl _)
  refine Grants.mono (P := fun _ x => Pushes more { u with store } x 0 1) ?_ fun _ x _ pushes =>
    pushes.following stays wider quiet fun X _ => .quiet _ _ _
  dsimp only
  split
  next alone =>
    subst alone
    exact grants_emitConst ready (.closure body captures fun _ => nofun)
  · refine Grants.pushes (k := captured.length) ?_ fun _ y most _ _ wider ready => ?_
    · have inside : ∀ name ∈ captured.reverse, (Body.visible? (u.body :: u.around) name).isSome :=
        fun name member => visible name (List.mem_reverse.mp member)
      have loaded := captured_lay ready inside
      rwa [List.length_reverse] at loaded
    · refine (emitConst_grants _).bind fun _ z _ pooled => ?_
      obtain ⟨h, rfl⟩ := pooled
      refine (grants_emitWith _ _).mono fun _ x _ emitted => ?_
      obtain ⟨fits, rfl⟩ := emitted
      exact pushes_closure ready (wider body) captures h fits

theorem lambda_lays {args : List Value} (ready : w.Ready known) (safe : ∀ v ∈ args, v.Safe known) :
    Grants (lambda f args) w fun _ x => w.Pushes known x 0 1 := by
  have whole := lambdaOf_lays forms ready none safe
  cases args with
  | nil => exact whole
  | cons v rest =>
    cases v with
    | symbol name => exact lambdaOf_lays forms ready (some name) (List.forall_mem_cons.mp safe).2
    | _ => exact whole

theorem special_lays (form : SpecialForm) {args : List Value} (ready : w.Ready known)
    (safe : ∀ v ∈ args, v.Safe known) : Grants (special f form args) w fun _ x => w.Pushes known x 0 1 := by
  cases form with
  | branch => exact branch_lays forms ready safe
  | block => exact block_lays forms ready safe
  | quote => exact quote_lays ready safe
  | lambda => exact lambda_lays forms ready safe
  | bindings => exact bindings_lays forms ready safe
  | knot => exact knot_lays forms ready safe
  | define => exact define_lays forms ready safe
  | declare => exact mention_lays ready _ rfl rfl rfl
  | hide => exact mention_lays ready _ rfl rfl rfl

theorem staticCall_lays (name : String) {target : Value} {args : List Value} (ready : w.Ready known)
    (callee : target.Safe known) (safe : ∀ v ∈ args, v.Safe known) :
    Grants (staticCall f (special f) name target args) w fun _ x => w.Pushes known x 0 1 := by
  unfold staticCall
  split
  · exact special_lays forms _ ready safe
  next b =>
    cases expands : expansion? b args.length with
    | some expansion => exact expanded_lays forms ready callee.of_builtin safe expands
    | none => exact knownCall_lays forms ready name callee safe
  · exact knownCall_lays forms ready name callee safe

theorem call_lays {v : Value} (ready : w.Ready known) (safe : v.Safe known) :
    Grants (call f (special f) v) w fun _ x => w.Pushes known x 0 1 := by
  refine (grants_liftError (parses_formItems Value.hereditary_safe "call" safe)).bind fun items u _ listed => ?_
  obtain ⟨each, rfl⟩ := listed
  cases items with
  | nil => exact grants_reject rfl
  | cons head args =>
    obtain ⟨operator, operands⟩ := List.forall_mem_cons.mp each
    have pushed := anyCall_lays forms ready operands (f head) fun _ wider ready =>
      forms ready (operator.mono wider)
    cases head with
    | symbol name =>
      refine Grants.bind (P := fun _ y => y = u) (.of_yields (isLexical_iff.mpr ⟨rfl, rfl⟩) rfl (.refl _))
        fun lexical y _ same => ?_
      obtain rfl := same
      cases lexical with
      | true => exact pushed
      | false =>
        refine Grants.bind (P := fun v z => v = y.store.namespaces.resolve? y.encoder.globals name ∧ z = y)
          (.of_yields (global?_iff.mpr ⟨rfl, rfl⟩) ⟨rfl, rfl⟩ (.refl _)) fun v z _ looked => ?_
        obtain ⟨found, rfl⟩ := looked
        cases v with
        | some target =>
          exact staticCall_lays forms name ready
            (Namespaces.bears_lookup? ready.store.bears.namespaces found.symm) operands
        | none => exact anyCall_lays forms ready operands _ fun _ _ ready => resolveLater_lays ready name
    | _ => exact pushed

end

theorem formUpTo_lays (n : Nat) : FormsLay (formUpTo n) := by
  induction n with
  | zero =>
    intro known w v ready safe
    cases v with
    | symbol name => exact symbol_lays ready name
    | _ => exact literal_lays ready safe
  | succ n ih =>
    intro known w v ready safe
    cases v with
    | symbol name => exact symbol_lays ready name
    | pair car cdr => exact call_lays ih ready safe
    | vector items =>
      unfold formUpTo
      split
      · exact literal_lays ready safe
      · exact vector_lays ih ready (Value.hereditary_safe.vector.mp safe)
    | _ => exact literal_lays ready safe

end Compile

/-- A form is compiled into a procedure that joins the library, unless it has a flaw or needs an operand that
is too large. -/
theorem compile_grants {globals : NamespaceId} {options : CompileOptions} {form : Value} {s : Store}
    (keeps : s.Keeps known) (safe : form.Safe known) : Grants (compile globals options form) s fun p t =>
      Compile.Enlarges known 0 (.fixed 0) s p t := by
  have blank : (Workshop.top globals options s).Ready known :=
    ⟨keeps, fun _ => nofun, fun _ => nofun⟩
  refine Grants.bind (P := fun chunk t => ∃ u : Workshop, chunk = u.chunk ∧ t = u.store ∧
    (Workshop.top globals options s).Stays u ∧
      Lays known (.top globals options s) u [] [] (· = Chunk.Start 0) (fun _ => [])
        some fun _ => none) ?_ ?_
  · have encode : Grants (do
        Compile.form form
        Encode.emit .ret
        Encode.finish) (.top globals options s) fun chunk u => chunk = u.chunk ∧
          (Workshop.top globals options s).Stays u ∧
            Lays known (.top globals options s) u [] [] (· = Chunk.Start 0)
              (fun _ => []) some fun _ => none := by
      refine (Compile.formUpTo_lays _ blank safe).bind fun _ u _ pushes => ?_
      obtain ⟨stays, more, seg, wider, ready, stretch, leads⟩ := pushes
      refine Grants.bind (P := fun _ x => x = u.emit Opcode.ret.bare)
        (.of_yields (a := ()) (Encode.emit_iff.mpr rfl) rfl (.refl _)) fun _ x _ emitted => ?_
      obtain rfl := emitted
      refine .of_yields (Encode.finish_iff.mpr ⟨rfl, rfl⟩) ⟨rfl, stays.trans (stays_emit _), ?_⟩ (.refl _)
      refine Lays.following (E := []) (F := []) (Compile.ret_lays ready ?_) wider stretch (fun X start => ?_)
        (fun _ => nofun) fun _ => nofun
      · rintro _ rfl
        rfl
      · exact leads X ⟨fun _ => nofun, start ▸ rfl⟩
    intro r t ended
    obtain ⟨rfl, rfl⟩ := Prod.mk.inj ended
    obtain ⟨grown, granted⟩ := encode _ _ rfl
    exact ⟨grown, granted.mono fun chunk _ ⟨same, stays, lays⟩ => ⟨_, same, rfl, stays, lays⟩⟩
  · rintro chunk t - ⟨u, rfl, rfl, stays, lays⟩
    have none : u.body.captured = [] := (stays.sound (.none rfl)).alone stays.around
    refine (Compile.body_grants lays rfl (fun n _ => Nat.zero_le n) options).mono fun p t _ enlarges => ?_
    obtain ⟨more, wider, keeps, body, captures, arity, namespaces⟩ := enlarges
    rw [none] at captures
    exact ⟨more, wider, keeps, body, captures, arity, namespaces.trans stays.namespaces⟩

end StackLisp
