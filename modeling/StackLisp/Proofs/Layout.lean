import StackLisp.Proofs.Building
import StackLisp.Proofs.Emission

/-!
Stretches of emitted code. A stretch fits the body that it is emitted for, anchors each of its labels once,
and leads from what is known before it to what is known after it.
-/

namespace StackLisp

open Chunk Outlook

/-- Whether an operation moves operands and nothing else that is known. -/
def Opcode.movesOperands (op : Opcode) : Bool :=
  op ≠ .store && op ≠ .pushArgs && op ≠ .popArgs

namespace Outlook

/-- Nothing is known of the operands but how many there are. -/
def Plain (X : Outlook) : Prop :=
  Operand.forget X.stack = X.stack

/-- With so many more operands. -/
def deep (X : Outlook) (n : Nat) : Outlook :=
  X.push (List.replicate n .any)

variable {X : Outlook} {n : Nat} {i : Instruction} {constants : List Value}

theorem Plain.deep (h : X.Plain) (n : Nat) : (X.deep n).Plain := by
  show Operand.forget (List.replicate n .any ++ X.stack) = List.replicate n .any ++ X.stack
  rw [Operand.forget_append, h, Operand.forget, List.length_replicate]

theorem deep_deep (X : Outlook) (m n : Nat) : (X.deep m).deep n = X.deep (n + m) := by
  simp only [Outlook.deep, push, ← List.append_assoc, List.replicate_append_replicate]

theorem length_deep (X : Outlook) (n : Nat) : (X.deep n).stack.length = n + X.stack.length := by
  simp [Outlook.deep, push]

theorem drop_deep (X : Outlook) (m n : Nat) : (X.deep (m + n)).stack.drop m = (X.deep n).stack := by
  simp [Outlook.deep, push, ← List.replicate_append_replicate, List.append_assoc]

/-- The stack has as many operands more as the table of effects says. -/
theorem after_deep (plain : X.Plain) (op : i.op.movesOperands) :
    (X.deep (i.pops + n)).after constants i ≤ X.deep (i.pushes + n) := by
  have below := drop_deep X i.pops n
  have forgotten : Operand.forget (X.deep n).stack = (X.deep n).stack := plain.deep n
  have one (a : Operand) : Operand.Each (a :: (X.deep n).stack) (X.deep (1 + n)).stack := by
    rw [← deep_deep]
    exact .cons (Operand.le_any a) (Operand.each_refl _)
  have pushes {m : Nat} (h : i.op.effect.pushes = m) : X.deep (i.pushes + n) = X.deep (m + n) := by
    rw [Instruction.pushes, h]
  unfold after
  dsimp only
  rw [below]
  split
  case h_6 stores => rw [stores] at op; cases op
  case h_10 stages => rw [stages] at op; cases op
  case h_11 resumes => rw [resumes] at op; cases op
  case h_12 =>
    rw [show X.deep (i.pushes + n) = (X.deep n).deep i.pushes from (deep_deep X n _).symm]
    exact ⟨Operand.each_refl _, Nat.le_refl _, List.forall₂_refl _, fun _ => id⟩
  case h_7 called | h_8 called | h_9 called =>
    rw [forgotten, pushes (by rw [called])]
    exact ⟨one _, Nat.le_refl _, List.forall₂_refl _, fun _ => id⟩
  all_goals
    rename_i which
    rw [pushes (by rw [which])]
    exact ⟨one _, Nat.le_refl _, List.forall₂_refl _, fun _ => id⟩

end Outlook

/-- What of a body counts for its code. -/
structure Stage where
  code : List Instruction
  constants : List Value
  localCount : Nat
  labelCount : Nat
  captured : Nat

/-- Operands point into the body. -/
structure Stage.Holds (a : Stage) (i : Instruction) : Prop where
  fits : Chunk.Fits ⟨a.code, a.constants, a.localCount, a.labelCount, 0, none⟩ i
  captured : i.op = .capture → i.operand < a.captured

/-- A stretch of code emitted from one stage to another. It anchors `anchors` besides its own labels, and
may jump to `goals` besides those. -/
structure Stretch (a b : Stage) (anchors goals : List Nat) (seg : List Instruction) : Prop where
  code : b.code = a.code ++ seg
  constants : a.constants <+: b.constants
  locals : a.localCount ≤ b.localCount
  labels : a.labelCount ≤ b.labelCount
  captured : a.captured ≤ b.captured
  holds : ∀ i ∈ seg, b.Holds i
  distinct : (labelsOf seg).Nodup
  range : ∀ label ∈ labelsOf seg, label ∈ anchors ∨ a.labelCount ≤ label ∧ label < b.labelCount
  given : ∀ label ∈ anchors, label ∈ labelsOf seg
  jumps : ∀ i ∈ seg, i.op.jumps → i.operand ∈ goals ∨ i.operand ∈ labelsOf seg

theorem lookup_of_mem {α : Type} {entries : List (Nat × α)} (distinct : (entries.map Prod.fst).Nodup)
    {entry : Nat × α} (member : entry ∈ entries) : entries.lookup entry.1 = some entry.2 := by
  obtain ⟨before, after, rfl⟩ := List.append_of_mem member
  refine List.lookup_eq_some_iff.mpr ⟨before, after, rfl, fun other early => ?_⟩
  rw [List.map_append, List.map_cons] at distinct
  have apart := (List.nodup_append.mp distinct).2.2 other.1 (List.mem_map_of_mem early) entry.1
    List.mem_cons_self
  exact bne_iff_ne.mpr (Ne.symm apart)

/-- What is known leads on along a stretch, whatever else has labels and constants, if this much is known at
the labels that are given. -/
def View.Leads {W : Type} [Preorder W] (v : View W) (a b : Stage) (given : List (Nat × W)) (X : Option W)
    (seg : List Instruction) (Y : Option W) : Prop :=
  ∃ own : Nat → Option W, ∀ {goals : Nat → Option W} {pool : List Value},
    (∀ label, a.labelCount ≤ label → label < b.labelCount → goals label = own label) →
      (∀ place ∈ given, goals place.1 = some place.2) → b.constants <+: pool → v.Flows pool goals X seg Y

section

variable {a b c : Stage} {E F G H : List Nat} {seg rest : List Instruction} {i : Instruction}

theorem Stage.Holds.mono (h : a.Holds i) (constants : a.constants.length ≤ b.constants.length)
    (locals : a.localCount ≤ b.localCount) (labels : a.labelCount ≤ b.labelCount)
    (captured : a.captured ≤ b.captured) : b.Holds i where
  fits := h.fits.mono constants locals labels
  captured op := Nat.lt_of_lt_of_le (h.captured op) captured

theorem Stretch.quiet (code : b.code = a.code) (constants : a.constants <+: b.constants)
    (locals : a.localCount ≤ b.localCount) (labels : a.labelCount ≤ b.labelCount)
    (captured : a.captured ≤ b.captured) : Stretch a b [] [] [] where
  code := by rw [code, List.append_nil]
  constants := constants
  locals := locals
  labels := labels
  captured := captured
  holds _ := nofun
  distinct := List.nodup_nil
  range _ := nofun
  given _ := nofun
  jumps _ := nofun

theorem Stretch.append (h : Stretch a b E F seg) (g : Stretch b c G H rest)
    (old : ∀ label ∈ E ++ G, label < a.labelCount) (apart : ∀ label ∈ E, label ∉ G) :
    Stretch a c (E ++ G) (F ++ H) (seg ++ rest) where
  code := by rw [g.code, h.code, List.append_assoc]
  constants := h.constants.trans g.constants
  locals := Nat.le_trans h.locals g.locals
  labels := Nat.le_trans h.labels g.labels
  captured := Nat.le_trans h.captured g.captured
  holds i member := by
    rcases List.mem_append.mp member with first | second
    · exact (h.holds i first).mono g.constants.length_le g.locals g.labels g.captured
    · exact g.holds i second
  distinct := by
    obtain ⟨before, after⟩ := List.forall_mem_append.mp old
    rw [labelsOf_append]
    refine List.nodup_append.mpr ⟨h.distinct, g.distinct, ?_⟩
    rintro label first _ second rfl
    rcases h.range label first with given | ⟨-, high⟩
    · rcases g.range label second with again | ⟨low, -⟩
      · exact apart label given again
      · have under := before label given
        have grows := h.labels
        omega
    · rcases g.range label second with given | ⟨low, -⟩
      · have under := after label given
        have least := h.range label first
        rcases least with again | ⟨low, -⟩
        · exact apart label again given
        · omega
      · omega
  range label member := by
    rw [labelsOf_append] at member
    rcases List.mem_append.mp member with first | second
    · rcases h.range label first with given | ⟨low, high⟩
      · exact .inl (List.mem_append_left _ given)
      · exact .inr ⟨low, Nat.lt_of_lt_of_le high g.labels⟩
    · rcases g.range label second with given | ⟨low, high⟩
      · exact .inl (List.mem_append_right _ given)
      · exact .inr ⟨Nat.le_trans h.labels low, high⟩
  given label member := by
    rw [labelsOf_append]
    exact (List.mem_append.mp member).elim (fun first => List.mem_append_left _ (h.given label first))
      fun second => List.mem_append_right _ (g.given label second)
  jumps i member op := by
    rw [labelsOf_append]
    rcases List.mem_append.mp member with first | second
    · exact (h.jumps i first op).imp (List.mem_append_left _) (List.mem_append_left _)
    · exact (g.jumps i second op).imp (List.mem_append_right _) (List.mem_append_right _)

/-- The code of a body, emitted from nothing on, is well formed. -/
theorem Stretch.formed (h : Stretch ⟨[], [], 0, 0, 0⟩ b [] [] seg) (globals : NamespaceId) (name : Option String) :
    Chunk.Formed ⟨b.code, b.constants, b.localCount, b.labelCount, globals, name⟩ := by
  have whole : b.code = seg := h.code
  refine ⟨fun i member => (h.holds i (whole ▸ member)).fits, whole ▸ h.distinct, fun i member op => ?_⟩
  subst whole
  exact (h.jumps i member op).resolve_left nofun

theorem Stretch.then (h : Stretch a b [] [] seg) (g : Stretch b c [] [] rest) :
    Stretch a c [] [] (seg ++ rest) :=
  h.append g (fun _ => nofun) fun _ => nofun

/-- Labels taken before a stretch are its own, and the goals that it anchors are no longer open. -/
theorem Stretch.seal (h : Stretch b c E F seg) (before : Stretch a b [] [] [])
    (own : ∀ label ∈ E, a.labelCount ≤ label ∧ label < b.labelCount) (goals : ∀ label ∈ F, label ∈ E) :
    Stretch a c [] [] seg where
  code := by rw [h.code, before.code, List.append_nil]
  constants := before.constants.trans h.constants
  locals := Nat.le_trans before.locals h.locals
  labels := Nat.le_trans before.labels h.labels
  captured := Nat.le_trans before.captured h.captured
  holds := h.holds
  distinct := h.distinct
  range label member := by
    rcases h.range label member with given | ⟨low, high⟩
    · exact .inr ⟨(own label given).1, Nat.lt_of_lt_of_le (own label given).2 h.labels⟩
    · exact .inr ⟨Nat.le_trans before.labels low, high⟩
  given _ := nofun
  jumps i member op := by
    rcases h.jumps i member op with goal | closed
    · exact .inr (h.given _ (goals _ goal))
    · exact .inr closed

theorem Stretch.one (code : b.code = a.code ++ [i]) (constants : a.constants <+: b.constants)
    (locals : b.localCount = a.localCount) (labels : b.labelCount = a.labelCount)
    (captured : b.captured = a.captured) (holds : b.Holds i) (plain : i.op.effect.operand ≠ .labels) :
    Stretch a b [] [] [i] where
  code := code
  constants := constants
  locals := locals.ge
  labels := labels.ge
  captured := captured.ge
  holds := List.forall_mem_singleton.mpr holds
  distinct := by
    rw [labelsOf_cons_plain (by rintro label; rw [label] at plain; exact plain rfl)]
    exact List.nodup_nil
  range label member := by
    rw [labelsOf_cons_plain (by rintro label; rw [label] at plain; exact plain rfl)] at member
    cases member
  given _ := nofun
  jumps j member op := by
    obtain rfl := List.mem_singleton.mp member
    exact absurd (Opcode.operand_of_jumps op) plain

variable {W : Type} [Preorder W] {v : View W} {X Y Z : Option W} {given : List (Nat × W)}

theorem Stretch.label (code : b.code = a.code ++ [i]) (constants : a.constants <+: b.constants)
    (locals : b.localCount = a.localCount) (labels : b.labelCount = a.labelCount)
    (captured : b.captured = a.captured) (op : i.op = .label) (taken : i.operand < b.labelCount) :
    Stretch a b [i.operand] [] [i] := by
  have own : labelsOf [i] = [i.operand] := labelsOf_cons_label op []
  refine ⟨code, constants, locals.ge, labels.ge, captured.ge, ?_, ?_, ?_, ?_, ?_⟩
  · refine List.forall_mem_singleton.mpr ⟨?_, fun capture => ?_⟩
    · unfold Fits
      rw [op]
      exact taken
    · cases op.symm.trans capture
  · rw [own]
    exact List.nodup_singleton _
  · rw [own]
    exact fun _ => .inl
  · rw [own]
    exact fun _ => id
  · refine List.forall_mem_singleton.mpr fun jumps => ?_
    rw [op] at jumps
    cases jumps

theorem Stretch.jump (code : b.code = a.code ++ [i]) (constants : a.constants <+: b.constants)
    (locals : b.localCount = a.localCount) (labels : b.labelCount = a.labelCount)
    (captured : b.captured = a.captured) (op : i.op.jumps) (taken : i.operand < b.labelCount) :
    Stretch a b [] [i.operand] [i] := by
  have which : i.op.effect.operand = .labels := Opcode.operand_of_jumps op
  have none : labelsOf [i] = [] := labelsOf_cons_plain (by intro label; rw [label] at op; cases op) []
  refine ⟨code, constants, locals.ge, labels.ge, captured.ge, ?_, ?_, ?_, nofun, ?_⟩
  · refine List.forall_mem_singleton.mpr ⟨?_, fun capture => ?_⟩
    · unfold Fits
      rw [which]
      exact taken
    · rw [capture] at which
      cases which
  · rw [none]
    exact List.nodup_nil
  · rw [none]
    exact fun _ => nofun
  · exact List.forall_mem_singleton.mpr fun _ => .inl (List.mem_singleton.mpr rfl)

theorem View.Leads.append (h : v.Leads a b given X seg Y) (g : v.Leads b c given Y rest Z)
    (first : a.labelCount ≤ b.labelCount) (second : b.labelCount ≤ c.labelCount)
    (constants : b.constants <+: c.constants) : v.Leads a c given X (seg ++ rest) Z := by
  obtain ⟨own, flows⟩ := h
  obtain ⟨others, follows⟩ := g
  refine ⟨fun label => if label < b.labelCount then own label else others label,
    fun agree known pool => ?_⟩
  refine (flows (fun label low high => ?_) known (constants.trans pool)).append
    (follows (fun label low high => ?_) known pool)
  · exact (agree label low (Nat.lt_of_lt_of_le high second)).trans (if_pos high)
  · exact (agree label (Nat.le_trans first low) high).trans (if_neg (Nat.not_lt.mpr low))

theorem View.Leads.weaken (h : v.Leads a b given X seg Y) (before : Z ≤ X) : v.Leads a b given Z seg Y := by
  obtain ⟨own, flows⟩ := h
  exact ⟨own, fun agree known pool => (flows agree known pool).weaken before⟩

theorem View.Leads.widen (h : v.Leads a b given X seg Y) (after : Y ≤ Z) : v.Leads a b given X seg Z := by
  obtain ⟨own, flows⟩ := h
  exact ⟨own, fun agree known pool => (flows agree known pool).widen after⟩

/-- Labels that a stretch does not mention may be given as well. -/
theorem View.Leads.amid (h : v.Leads a b [] X seg Y) (given : List (Nat × W)) : v.Leads a b given X seg Y := by
  obtain ⟨own, flows⟩ := h
  exact ⟨own, fun agree _ pool => flows agree (fun _ => nofun) pool⟩

theorem View.Leads.quiet (a b : Stage) (X : Option W) : v.Leads a b given X [] X :=
  ⟨fun _ => none, fun _ _ _ => .refl X⟩

theorem View.Leads.step {X : W} (labels : i.op.effect.operand ≠ .labels)
    (allows : ∀ {pool : List Value}, b.constants <+: pool → v.allows pool X i)
    (next : ∀ {pool : List Value}, b.constants <+: pool → v.onward pool i (some X) ≤ Y) :
    v.Leads a b given (some X) [i] Y :=
  ⟨fun _ => none, fun _ _ found => .cons (View.passes_of_allows labels (allows found)) (next found)⟩

theorem View.Leads.anchor {X : W} (op : i.op = .label) (place : (i.operand, X) ∈ given) (before : Z ≤ some X)
    (allows : ∀ {pool : List Value}, v.allows pool X i)
    (next : ∀ {pool : List Value}, v.onward pool i (some X) ≤ Y) : v.Leads a b given Z [i] Y := by
  refine ⟨fun _ => none, fun _ known _ => ⟨some X, before, ⟨fun _ => (known _ place).symm, fun same => ?_,
    fun _ jumps => ?_⟩, next⟩⟩
  · exact Option.some.inj same ▸ allows
  · rw [op] at jumps
    cases jumps

theorem View.Leads.jump {X T : W} (op : i.op.jumps) (place : (i.operand, T) ∈ given)
    (allows : ∀ {pool : List Value}, v.allows pool X i) (goal : v.taken i X ≤ T)
    (next : ∀ {pool : List Value}, v.onward pool i (some X) ≤ Y) : v.Leads a b given (some X) [i] Y := by
  refine ⟨fun _ => none, fun _ known _ => .cons ⟨fun label => ?_, fun same => ?_, fun same _ => ?_⟩ next⟩
  · rw [label] at op
    cases op
  · exact Option.some.inj same ▸ allows
  · rw [known _ place, ← Option.some.inj same]
    exact Option.some_le_some.mpr goal

theorem View.Leads.seal (h : v.Leads b c given X seg Y) (labels : a.labelCount ≤ b.labelCount)
    (apart : (given.map Prod.fst).Nodup)
    (own : ∀ place ∈ given, a.labelCount ≤ place.1 ∧ place.1 < b.labelCount) (later : b.labelCount ≤ c.labelCount) :
    v.Leads a c [] X seg Y := by
  obtain ⟨others, flows⟩ := h
  refine ⟨fun label => if label < b.labelCount then given.lookup label else others label,
    fun {goals pool} agree _ found => ?_⟩
  refine flows (fun label low high => ?_) (fun place member => ?_) found
  · exact (agree label (Nat.le_trans labels low) high).trans (if_neg (Nat.not_lt.mpr low))
  · obtain ⟨low, high⟩ := own place member
    rw [agree place.1 low (Nat.lt_of_lt_of_le high later)]
    dsimp only
    rw [if_pos high]
    exact lookup_of_mem apart member

end

end StackLisp
