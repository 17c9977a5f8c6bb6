import Mathlib.Data.List.Forall2
import StackLisp.Chunk.Build
import StackLisp.Proofs.Depths

/-!
What the shortening passes do to calls. A call becomes a tail call when only labels stand between it and
a return in the code that the first pass leaves. That pass turns a jump forward into a return when, in
the code as it was, only labels stand between the anchor and a return: one jump on the way is
seen through, two are not.
-/

namespace StackLisp.Chunk

theorem anchors_iff {op : Opcode} : op.effect.anchors = true ↔ op = .label := by
  cases op <;> simp [Opcode.effect]

/-- The labels anchored in code, in order. -/
def labelsOf (code : List Instruction) : List Nat :=
  code.filterMap fun i => if i.op = .label then some i.operand else none

theorem mem_labelsOf {code : List Instruction} {label : Nat} :
    label ∈ labelsOf code ↔ ∃ i ∈ code, i.op = .label ∧ i.operand = label := by
  simp [labelsOf, List.mem_filterMap]

theorem labelsOf_eq_nil {code : List Instruction} (h : ∀ i ∈ code, i.op ≠ .label) : labelsOf code = [] :=
  List.eq_nil_iff_forall_not_mem.mpr fun _ member => by
    obtain ⟨i, inside, label, -⟩ := mem_labelsOf.mp member
    exact h i inside label

theorem labelsOf_append (code rest : List Instruction) :
    labelsOf (code ++ rest) = labelsOf code ++ labelsOf rest :=
  List.filterMap_append ..

theorem labelsOf_cons_label {i : Instruction} (h : i.op = .label) (code : List Instruction) :
    labelsOf (i :: code) = i.operand :: labelsOf code := by
  simp [labelsOf, h]

theorem labelsOf_cons_plain {i : Instruction} (h : i.op ≠ .label) (code : List Instruction) :
    labelsOf (i :: code) = labelsOf code := by
  simp [labelsOf, h]

theorem labelsOf_cons_congr {code other : List Instruction} (i : Instruction)
    (h : labelsOf code = labelsOf other) : labelsOf (i :: code) = labelsOf (i :: other) := by
  unfold labelsOf at h ⊢
  rw [List.filterMap_cons, List.filterMap_cons, h]

theorem nodup_of_anchorsFrom {pc : Nat} {found result : List (Nat × Nat)} {code : List Instruction}
    (h : anchorsFrom pc found code = .ok result) :
    (labelsOf code).Nodup ∧ ∀ label ∈ labelsOf code, found.lookup label = none := by
  fun_induction anchorsFrom pc found code with
  | case1 pc found => simp [labelsOf]
  | case2 => cases h
  | case3 pc found i code anchors fresh ih =>
    obtain ⟨distinct, others⟩ := ih h
    rw [labelsOf_cons_label (anchors_iff.mp anchors)]
    refine ⟨List.nodup_cons.mpr ⟨fun again => ?_, distinct⟩, fun label member => ?_⟩
    · have other := others _ again
      simp at other
    · rcases List.mem_cons.mp member with rfl | later
      · exact fresh
      · have other := others label later
        rw [List.lookup_cons] at other
        split at other
        · cases other
        · exact other
  | case4 pc found i code plain ih =>
    rw [labelsOf_cons_plain (fun label => plain (anchors_iff.mpr label))]
    exact ih h

theorem labels_nodup_of_verify {c : Chunk} {checked : Checked} (accepted : c.verify = .ok checked) :
    (labelsOf c.code).Nodup := by
  unfold verify at accepted
  obtain ⟨found, listed, -⟩ := bind_eq_ok.mp accepted
  exact (nodup_of_anchorsFrom (anchors_eq_ok.mp listed).1).1

theorem leadsToReturn_label {code : List Instruction} {pc : Nat} {i : Instruction}
    (here : code[pc]? = some i) (label : i.op = .label) :
    leadsToReturn code pc = leadsToReturn code (pc + 1) := by
  obtain ⟨inside, rfl⟩ := List.getElem?_eq_some_iff.mp here
  unfold leadsToReturn skipLabels
  rw [List.drop_eq_getElem_cons inside, List.find?_cons]
  simp [label]

theorem leadsToReturn_plain {code : List Instruction} {pc : Nat} {i : Instruction}
    (here : code[pc]? = some i) (plain : i.op ≠ .label) :
    leadsToReturn code pc = decide (i.op = .ret) := by
  obtain ⟨inside, rfl⟩ := List.getElem?_eq_some_iff.mp here
  unfold leadsToReturn skipLabels
  rw [List.drop_eq_getElem_cons inside, List.find?_cons]
  simp [plain]

theorem leadsToReturn_drop (code : List Instruction) (pc : Nat) :
    leadsToReturn (code.drop pc) 0 = leadsToReturn code pc := by
  unfold leadsToReturn
  rw [List.drop_zero]

theorem leadsToReturn_cons_label {i : Instruction} (label : i.op = .label) (code : List Instruction) :
    leadsToReturn (i :: code) 0 = leadsToReturn code 0 := by
  rw [leadsToReturn_label (List.getElem?_cons_zero) label, ← leadsToReturn_drop, List.drop_one,
    List.tail_cons]

theorem leadsToReturn_cons_plain {i : Instruction} (plain : i.op ≠ .label) (code : List Instruction) :
    leadsToReturn (i :: code) 0 = decide (i.op = .ret) :=
  leadsToReturn_plain List.getElem?_cons_zero plain

/-- Each call with its argument count and whether it is, or is to become, a tail call. -/
def settle : List Instruction → List (Nat × Bool)
  | [] => []
  | i :: code =>
    match callShape? i with
    | some (count, tail) => (count, tail || leadsToReturn code 0) :: settle code
    | none => settle code

theorem settle_call {i : Instruction} {count : Nat} {tail : Bool}
    (h : callShape? i = some (count, tail)) (code : List Instruction) :
    settle (i :: code) = (count, tail || leadsToReturn code 0) :: settle code := by
  rw [settle, h]

theorem settle_plain {i : Instruction} (h : callShape? i = none) (code : List Instruction) :
    settle (i :: code) = settle code := by
  rw [settle, h]

theorem callShape?_of_tailForm? {i tail : Instruction} (h : tailForm? i = some tail) :
    ∃ count, callShape? i = some (count, false) ∧ callShape? tail = some (count, true) := by
  unfold tailForm? at h
  unfold callShape?
  split at h
  next call => exact ⟨0, by simp [call], by cases h; rfl⟩
  next call => exact ⟨1, by simp [call], by cases h; rfl⟩
  next call => exact ⟨i.operand, by simp [call], by cases h; rfl⟩
  · cases h

theorem callShape?_of_tailForm?_eq_none {i : Instruction} (h : tailForm? i = none) :
    callShape? i = none ∨ ∃ count, callShape? i = some (count, true) := by
  unfold tailForm? at h
  unfold callShape?
  split at h <;> cases h
  split <;> simp_all

/-- What conversion makes of the calls can be read off the code before it. -/
theorem settle_convertTailCalls (code : List Instruction) :
    (convertTailCalls code).filterMap callShape? = settle code := by
  fun_induction convertTailCalls code with
  | case1 => rfl
  | case2 i code none ih =>
    rw [List.filterMap_cons, ih]
    rcases callShape?_of_tailForm?_eq_none none with other | ⟨count, tail⟩
    · rw [other, settle_plain other]
    · rw [tail, settle_call tail, Bool.true_or]
  | case3 i tail form =>
    obtain ⟨count, shape, -⟩ := callShape?_of_tailForm? form
    rw [settle_call shape, List.filterMap_cons, shape]
    rfl
  | case4 i tail form j rest ret ih =>
    obtain ⟨count, shape, tailShape⟩ := callShape?_of_tailForm? form
    have leads : leadsToReturn (j :: rest) 0 = true := by
      rw [leadsToReturn_cons_plain (by simp [ret])]
      simpa using ret
    have plain : callShape? j = none := by simp [callShape?, ret]
    rw [List.filterMap_cons, tailShape, ih, settle_call shape, settle_plain plain, leads]
    rfl
  | case5 i tail form j rest other leads ih =>
    obtain ⟨count, shape, tailShape⟩ := callShape?_of_tailForm? form
    rw [List.filterMap_cons, tailShape, ih, settle_call shape, leads]
    rfl
  | case6 i tail form j rest other stays ih =>
    obtain ⟨count, shape, -⟩ := callShape?_of_tailForm? form
    rw [List.filterMap_cons, shape, ih, settle_call shape, Bool.eq_false_iff.mpr stays]
    rfl

theorem fused?_cases {op fused : Opcode} (h : fused? op = some fused) :
    op ∈ [.trueLit, .falseLit, .nullLit] ∧ fused ∈ [.retTrue, .retFalse, .retNull] := by
  unfold fused? at h
  split at h <;> simp_all

theorem settle_cons_congr {code other : List Instruction} (i : Instruction)
    (h : settle code = settle other ∧ leadsToReturn code 0 = leadsToReturn other 0) :
    settle (i :: code) = settle (i :: other) ∧
      leadsToReturn (i :: code) 0 = leadsToReturn (i :: other) 0 := by
  refine ⟨?_, ?_⟩
  · unfold settle
    rw [h.1, h.2]
  · by_cases label : i.op = .label
    · rw [leadsToReturn_cons_label label, leadsToReturn_cons_label label, h.2]
    · rw [leadsToReturn_cons_plain label, leadsToReturn_cons_plain label]

/-- Fusing a literal with its return leaves the calls, and what they lead to, as they were. -/
theorem settle_fuseReturns (code : List Instruction) :
    settle (fuseReturns code) = settle code ∧
      leadsToReturn (fuseReturns code) 0 = leadsToReturn code 0 := by
  fun_induction fuseReturns code with
  | case1 => exact ⟨rfl, rfl⟩
  | case2 i => exact ⟨rfl, rfl⟩
  | case3 i j code op fuses ret ih =>
    obtain ⟨literal, fused⟩ := fused?_cases fuses
    have plainI : callShape? i = none := by unfold callShape?; split <;> simp_all
    have plainJ : callShape? j = none := by simp [callShape?, ret]
    have plainOp : callShape? op.bare = none := by
      unfold callShape?; split <;> simp_all [Opcode.bare]
    have notLabel : i.op ≠ .label ∧ i.op ≠ .ret := by constructor <;> intro h <;> simp_all
    have notReturn : op ≠ .label ∧ op ≠ .ret := by constructor <;> intro h <;> simp_all
    refine ⟨?_, ?_⟩
    · rw [settle_plain plainOp, settle_plain plainI, settle_plain plainJ, ih.1]
    · rw [leadsToReturn_cons_plain notReturn.1, leadsToReturn_cons_plain notLabel.1]
      simp [notLabel.2, notReturn.2, Opcode.bare]
  | case4 i j code op fuses other ih => exact settle_cons_congr i ih
  | case5 i j code none ih => exact settle_cons_congr i ih

theorem foldl_anchors_absent {label : Nat} (code : List Instruction) (pc : Nat) (found : Option Nat)
    (absent : label ∉ labelsOf code) :
    (code.zipIdx pc).foldl (fun found (i, pc) =>
      if i.op.effect.anchors && i.operand = label then some pc else found) found = found := by
  induction code generalizing pc found with
  | nil => rfl
  | cons i code ih =>
    rw [List.zipIdx_cons, List.foldl_cons]
    by_cases anchors : i.op = .label
    · rw [labelsOf_cons_label anchors, List.mem_cons, not_or] at absent
      rw [ih _ _ absent.2]
      simp [Ne.symm absent.1]
    · rw [labelsOf_cons_plain anchors] at absent
      have plain : i.op.effect.anchors = false :=
        Bool.eq_false_iff.mpr fun anchored => anchors (anchors_iff.mp anchored)
      rw [ih _ _ absent]
      simp [plain]

/-- A label that is not anchored any more keeps the anchor found last. -/
theorem lastAnchor?_append {before after : List Instruction} {i : Instruction} (label : i.op = .label)
    (last : i.operand ∉ labelsOf after) :
    lastAnchor? (before ++ i :: after) i.operand = some before.length := by
  unfold lastAnchor?
  rw [List.zipIdx_append, List.foldl_append, List.zipIdx_cons, List.foldl_cons,
    foldl_anchors_absent _ _ _ last]
  simp [anchors_iff.mpr label]

/-- The last anchor is the only one. -/
theorem lastAnchor?_eq {code : List Instruction} (distinct : (labelsOf code).Nodup) {target : Nat}
    {i : Instruction} (here : code[target]? = some i) (label : i.op = .label) :
    lastAnchor? code i.operand = some target := by
  obtain ⟨inside, rfl⟩ := List.getElem?_eq_some_iff.mp here
  have split : code = code.take target ++ code[target] :: code.drop (target + 1) := by
    rw [← List.drop_eq_getElem_cons inside, List.take_append_drop]
  have after : code[target].operand ∉ labelsOf (code.drop (target + 1)) := by
    rw [split, labelsOf_append, labelsOf_cons_label label] at distinct
    exact (List.nodup_cons.mp (List.nodup_append.mp distinct).2.1).1
  have found := @lastAnchor?_append (code.take target) _ _ label after
  rwa [← split, List.length_take_of_le (Nat.le_of_lt inside)] at found

/-- Code in which jumps before an address are perhaps returns; of those forward, just the ones to an
anchor that led to a return. -/
structure Early (code early : List Instruction) (pc : Nat) : Prop where
  length : early.length = code.length
  ahead : ∀ {k : Nat}, pc ≤ k → early[k]? = code[k]?
  kept : ∀ {k : Nat} {i : Instruction}, code[k]? = some i → i.op ≠ .jump → early[k]? = some i
  jumps : ∀ {k : Nat} {i : Instruction}, code[k]? = some i → i.op = .jump →
    early[k]? = some i ∨ early[k]? = some Opcode.ret.bare
  forward : ∀ {k target : Nat} {i : Instruction}, k < pc → code[k]? = some i → i.op = .jump →
    lastAnchor? code i.operand = some target → k < target →
    early[k]? = some (if leadsToReturn code target then Opcode.ret.bare else i)

theorem Early.start (code : List Instruction) : Early code code 0 :=
  ⟨rfl, fun _ => rfl, fun here _ => here, fun here _ => .inl here, fun before => absurd before (Nat.not_lt_zero _)⟩

theorem Early.leadsToReturn_eq {code early : List Instruction} {pc : Nat} (h : Early code early pc)
    {target : Nat} (ahead : pc ≤ target) : leadsToReturn early target = leadsToReturn code target := by
  have same : early.drop target = code.drop target := by
    refine List.ext_getElem? fun k => ?_
    rw [List.getElem?_drop, List.getElem?_drop]
    exact h.ahead (Nat.le_trans ahead (Nat.le_add_right ..))
  unfold leadsToReturn
  rw [same]

theorem Early.step {code early : List Instruction} {pc : Nat} (h : Early code early pc) :
    Early code (returnEarlyAt (lastAnchor? code) early pc) (pc + 1) := by
  have same : ∀ {k : Nat}, pc ≤ k → early[k]? = code[k]? := h.ahead
  unfold returnEarlyAt
  split
  next i here =>
    have now : code[pc]? = some i := (same (Nat.le_refl _)).symm.trans here
    split
    next returns =>
      simp only [Bool.and_eq_true, decide_eq_true_eq] at returns
      obtain ⟨jump, leads⟩ := returns
      have inside : pc < early.length := (List.getElem?_eq_some_iff.mp here).1
      have other : ∀ {k : Nat}, k ≠ pc → (early.set pc Opcode.ret.bare)[k]? = early[k]? := fun apart =>
        List.getElem?_set_ne (Ne.symm apart)
      have changed : (early.set pc Opcode.ret.bare)[pc]? = some Opcode.ret.bare :=
        List.getElem?_set_self inside
      refine ⟨?_, fun {k} later => ?_, fun {k j} this plain => ?_, fun {k j} this jumps => ?_,
        fun {k target j} before this jumps anchored ahead => ?_⟩
      · rw [List.length_set, h.length]
      · rw [other (by omega), same (by omega)]
      · rw [other]
        · exact h.kept this plain
        · rintro rfl
          cases now.symm.trans this
          exact plain jump
      · by_cases equal : k = pc
        · exact .inr (equal ▸ changed)
        · rw [other equal]
          exact h.jumps this jumps
      · by_cases equal : k = pc
        · subst equal
          cases now.symm.trans this
          rw [anchored, Option.any_some, h.leadsToReturn_eq (Nat.le_of_lt ahead)] at leads
          rw [changed, if_pos leads]
        · rw [other equal]
          exact h.forward (by omega) this jumps anchored ahead
    next stays =>
      refine ⟨h.length, fun later => same (by omega), h.kept, h.jumps,
        fun {k target j} before this jumps anchored ahead => ?_⟩
      by_cases equal : k = pc
      · subst equal
        cases now.symm.trans this
        have leads : leadsToReturn code target = false := by
          rw [← h.leadsToReturn_eq (Nat.le_of_lt ahead)]
          simpa [jumps, anchored] using stays
        rw [here, leads]
        rfl
      · exact h.forward (by omega) this jumps anchored ahead
  next missing =>
    refine ⟨h.length, fun later => same (by omega), h.kept, h.jumps,
      fun {k target j} before this jumps anchored ahead => ?_⟩
    by_cases equal : k = pc
    · subst equal
      cases ((same (Nat.le_refl _)).symm.trans missing).symm.trans this
    · exact h.forward (by omega) this jumps anchored ahead

theorem early_sweep (code : List Instruction) (n : Nat) :
    Early code ((List.range n).foldl (returnEarlyAt (lastAnchor? code)) code) n := by
  induction n with
  | zero => exact .start code
  | succ n ih =>
    rw [List.range_succ, List.foldl_append]
    exact ih.step

theorem early_returnEarly (code : List Instruction) : Early code (returnEarly code) code.length :=
  early_sweep code code.length

/-- Where control goes on is a return after so many jumps ahead. -/
inductive Leads (code : List Instruction) : Nat → Nat → Prop
  | ret {pc : Nat} {i : Instruction} (here : code[pc]? = some i) (ret : i.op = .ret) : Leads code pc 0
  | label {pc jumps : Nat} {i : Instruction} (here : code[pc]? = some i) (label : i.op = .label)
      (next : Leads code (pc + 1) jumps) : Leads code pc jumps
  | jump {pc target jumps : Nat} {i j : Instruction} (here : code[pc]? = some i) (jump : i.op = .jump)
      (there : code[target]? = some j) (label : j.op = .label) (same : j.operand = i.operand)
      (ahead : pc < target) (next : Leads code target jumps) : Leads code pc (jumps + 1)

theorem Leads.leadsToReturn_eq {code : List Instruction} {pc jumps : Nat} (h : Leads code pc jumps) :
    leadsToReturn code pc = decide (jumps = 0) := by
  induction h with
  | ret here ret =>
    rw [leadsToReturn_plain here (by simp [ret])]
    simpa using ret
  | label here label next ih => rw [leadsToReturn_label here label, ih]
  | jump here jump there label same ahead next ih =>
    rw [leadsToReturn_plain here (by simp [jump])]
    simp [jump]

/-- The first pass makes one jump into a return, and no more. -/
theorem Leads.early {code : List Instruction} (distinct : (labelsOf code).Nodup) {pc jumps : Nat}
    (h : Leads code pc jumps) : leadsToReturn (returnEarly code) pc = decide (jumps ≤ 1) := by
  have early := early_returnEarly code
  induction h with
  | ret here ret =>
    rw [leadsToReturn_plain (early.kept here (by simp [ret])) (by simp [ret])]
    simpa using ret
  | label here label next ih =>
    rw [leadsToReturn_label (early.kept here (by simp [label])) label, ih]
  | @jump pc target jumps i j here jump there label same ahead next ih =>
    have inside : pc < code.length := (List.getElem?_eq_some_iff.mp here).1
    have anchored : lastAnchor? code i.operand = some target := same ▸ lastAnchor?_eq distinct there label
    have becomes := early.forward inside here jump anchored ahead
    rw [next.leadsToReturn_eq] at becomes
    cases jumps with
    | zero =>
      rw [leadsToReturn_plain becomes (by simp [Opcode.bare])]
      rfl
    | succ jumps =>
      rw [leadsToReturn_plain becomes (by simp [jump])]
      simp [jump]

theorem labelsOf_congr {code other : List Instruction}
    (h : List.Forall₂ (fun i j : Instruction => i = j ∨ i.op ≠ .label ∧ j.op ≠ .label) code other) :
    labelsOf code = labelsOf other := by
  induction h with
  | nil => rfl
  | @cons i j code other same _ ih =>
    rcases same with rfl | ⟨plain, plain'⟩
    · exact labelsOf_cons_congr i ih
    · rw [labelsOf_cons_plain plain, labelsOf_cons_plain plain', ih]

theorem labelsOf_returnEarly (code : List Instruction) : labelsOf (returnEarly code) = labelsOf code := by
  have early := early_returnEarly code
  refine labelsOf_congr (List.forall₂_iff_get.mpr ⟨early.length, fun k inside insideCode => ?_⟩)
  simp only [List.get_eq_getElem]
  have here : code[k]? = some code[k] := List.getElem?_eq_getElem insideCode
  have now : (returnEarly code)[k]? = some (returnEarly code)[k] := List.getElem?_eq_getElem inside
  by_cases jump : code[k].op = .jump
  · rcases early.jumps here jump with same | ret
    · exact .inl (Option.some.inj (now.symm.trans same))
    · rw [Option.some.inj (now.symm.trans ret)]
      exact .inr ⟨by simp [Opcode.bare], by simp [jump]⟩
  · exact .inl (Option.some.inj (now.symm.trans (early.kept here jump)))

theorem labelsOf_fuseReturns (code : List Instruction) : labelsOf (fuseReturns code) = labelsOf code := by
  fun_induction fuseReturns code with
  | case1 => rfl
  | case2 i => rfl
  | case3 i j code op fuses ret ih =>
    obtain ⟨literal, fused⟩ := fused?_cases fuses
    have plainI : i.op ≠ .label := by intro h; simp_all
    have plainOp : op.bare.op ≠ .label := by
      change op ≠ .label
      intro h
      simp_all
    rw [labelsOf_cons_plain plainI, labelsOf_cons_plain (i := j) (by simp [ret]),
      labelsOf_cons_plain plainOp, ih]
  | case4 i j code op fuses other ih => exact labelsOf_cons_congr i ih
  | case5 i j code none ih => exact labelsOf_cons_congr i ih

theorem op_ne_label_of_callShape? {i : Instruction} {shape : Nat × Bool}
    (h : callShape? i = some shape) : i.op ≠ .label := by
  intro label
  simp [callShape?, label] at h

theorem labelsOf_convertTailCalls (code : List Instruction) :
    labelsOf (convertTailCalls code) = labelsOf code := by
  fun_induction convertTailCalls code with
  | case1 => rfl
  | case2 i code none ih => exact labelsOf_cons_congr i ih
  | case3 i tail form => rfl
  | case4 i tail form j rest ret ih =>
    obtain ⟨count, shape, tailShape⟩ := callShape?_of_tailForm? form
    rw [labelsOf_cons_plain (op_ne_label_of_callShape? tailShape),
      labelsOf_cons_plain (op_ne_label_of_callShape? shape),
      labelsOf_cons_plain (i := j) (by simp [ret]), ih]
  | case5 i tail form j rest other leads ih =>
    obtain ⟨count, shape, tailShape⟩ := callShape?_of_tailForm? form
    rw [labelsOf_cons_plain (op_ne_label_of_callShape? tailShape),
      labelsOf_cons_plain (op_ne_label_of_callShape? shape), ih]
  | case6 i tail form j rest other stays ih => exact labelsOf_cons_congr i ih

theorem labelsOf_shorten (code : List Instruction) : labelsOf (shorten code) = labelsOf code := by
  unfold shorten
  rw [labelsOf_convertTailCalls, labelsOf_fuseReturns, labelsOf_returnEarly]

end StackLisp.Chunk
