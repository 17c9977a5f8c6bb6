import StackLisp.Proofs.Renumbering
import StackLisp.Proofs.Safety
import StackLisp.Proofs.Splicing

/-!
Inlining keeps code on its chart. Each call that is replaced by a body leaves what the call would, and the
labels, slots and constants of the body are new to the chunk or fit it.
-/

namespace StackLisp

open Outlook

theorem View.Charted.trim {constants : List Value} {code : List Instruction} {D : Nat → Option Outlook}
    (h : view.Charted constants code D) (plain : ∀ i ∈ code, i.op ≠ .pushArgs) :
    ∃ E, view.Charted constants code E ∧ (∀ {pc : Nat} {X : Outlook}, E pc = some X → X.saved = []) ∧
      ∀ least, some (Chunk.Start least) ≤ D 0 → some (Chunk.Start least) ≤ E 0 := by
  have bare {pc : Nat} {X : Outlook} (at_pc : (D pc).filter (·.saved.isEmpty) = some X) :
      D pc = some X ∧ X.saved = [] := by
    obtain ⟨found, empty⟩ := Option.filter_eq_some_iff.mp at_pc
    exact ⟨found, List.isEmpty_iff.mp empty⟩
  have keeps {X : Outlook} {Y : Option Outlook} (le : some X ≤ Y) (none : X.saved = []) :
      some X ≤ Y.filter (·.saved.isEmpty) := by
    obtain ⟨Z, rfl, le⟩ := some_of_known le
    have empty : Z.saved = [] := List.length_eq_zero_iff.mp (by rw [le.saved.length_eq, none]; rfl)
    rw [Option.filter_some_pos (by rw [empty]; rfl)]
    exact Option.some_le_some.mpr le
  refine ⟨fun pc => (D pc).filter (·.saved.isEmpty), ⟨fun at_pc => h.allows (bare at_pc).1,
    fun {pc i} here => ?_, fun {pc X i} at_pc here jumps => ?_⟩, fun at_pc => (bare at_pc).2,
    fun least start => keeps start rfl⟩
  · cases at_pc : (D pc).filter (·.saved.isEmpty) with
    | none =>
      rw [View.onward_none]
      exact Option.none_le
    | some X =>
      obtain ⟨found, empty⟩ := bare at_pc
      cases leaves : i.op.effect.exits with
      | true =>
        rw [View.onward_exits _ leaves]
        exact Option.none_le
      | false =>
        have next := h.next here
        rw [found, Outlook.onward_some leaves] at next
        rw [Outlook.onward_some leaves]
        refine keeps next ?_
        obtain ⟨j, again, allows⟩ := h.allows found
        obtain rfl := Option.some.inj (again.symm.trans here)
        exact saved_after empty (plain j (List.mem_of_getElem? here)) fun pops => allows.saved pops empty
  · obtain ⟨found, empty⟩ := bare at_pc
    obtain ⟨target, anchored, le⟩ := h.target found here jumps
    exact ⟨target, anchored, keeps le empty⟩

namespace Chunk

/-- Where the body of a procedure goes. -/
def siteFor (c : Chunk) (p : Procedure Value) (tail : Bool) : Site :=
  ⟨c.localCount, c.labelCount, c.labelCount + p.labelCount, tail⟩

/-- The chunk with room for the body of a procedure. -/
def hosting (c : Chunk) (p : Procedure Value) (tail : Bool) : Chunk :=
  { c with
    localCount := c.localCount + p.localCount
    labelCount := if tail then c.labelCount + p.labelCount else c.labelCount + p.labelCount + 1 }

/-- The code in place of a call, and the chunk then. -/
inductive Spliced (c : Chunk) (callee : Closure) (count : Nat) : Bool → List Instruction → Chunk → Prop
  | tail {body : List Instruction} {d : Chunk} (h : count ≤ maxOperand)
    (moved : RelocatedAll (c.siteFor callee.procedure true) callee (c.hosting callee.procedure true)
      callee.procedure.code body d) :
    Spliced c callee count true (⟨.pushArgs, count, h⟩ :: body) d
  | plain {body : List Instruction} {d : Chunk} (h : count ≤ maxOperand)
    (g : c.labelCount + callee.procedure.labelCount ≤ maxOperand)
    (moved : RelocatedAll (c.siteFor callee.procedure false) callee (c.hosting callee.procedure false)
      callee.procedure.code body d) :
    Spliced c callee count false (⟨.pushArgs, count, h⟩ :: body ++
      [⟨.label, c.labelCount + callee.procedure.labelCount, g⟩, Opcode.popArgs.bare]) d

variable {c d e : Chunk} {callee : Closure} {code body : List Instruction} {count : Nat} {tail : Bool}
  {known : Procedure Value → Prop}

theorem constantFor?_isSome (library : Library known) (safe : callee.value.Safe known) {i : Instruction}
    (member : i ∈ callee.procedure.code) (fetches : i.op = .capture ∨ i.op = .const) :
    ∃ v, constantFor? callee i = some v := by
  obtain ⟨body, captures, -⟩ := safe.of_closure
  obtain ⟨least, mapped, -⟩ := (library.safe body).mapped
  unfold constantFor?
  rcases fetches with capture | const
  · rw [capture]
    exact ⟨_, List.getElem?_eq_getElem (captures i member capture)⟩
  · have fits := mapped.fits i member
    unfold Fits at fits
    rw [const] at fits ⊢
    exact ⟨_, List.getElem?_eq_getElem fits⟩

/-- A body has its place, if it has the constants that it fetches. -/
theorem granted_splice (fetches : ∀ i ∈ callee.procedure.code, i.op = .capture ∨ i.op = .const →
      ∃ v, constantFor? callee i = some v) : Granted (splice c callee count tail) fun result =>
      Spliced c callee count tail result.1 result.2 := by
  unfold splice
  refine (granted_withOperand _ _).bind ?_
  rintro _ ⟨h, rfl⟩
  cases tail with
  | true => exact (granted_relocateAll _ fetches _).bind fun result moved => .tail h moved
  | false =>
    refine (granted_relocateAll _ fetches _).bind fun result moved => ?_
    refine (granted_withOperand _ _).bind ?_
    rintro _ ⟨g, rfl⟩
    exact .plain h g moved

theorem RelocatedAll.counts {s : Site} (h : RelocatedAll s callee c body code d) :
    d = { c with constants := d.constants } := by
  induction h with
  | nil => rfl
  | cons first _ ih =>
    cases first with
    | constant => exact ih
    | _ => exact ih

/-- What is known after a call that is given so many of the operands. -/
def called (count : Nat) (X : Outlook) : Outlook :=
  { X with stack := .any :: Operand.forget (X.stack.drop count) }

/-- What is known once so many of the operands are staged. -/
def staged (count : Nat) (X : Outlook) : Outlook :=
  { X with stack := Operand.forget (X.stack.drop count), least := count, saved := X.least :: X.saved }

/-- What is known at the labels of a body in the place of a call: at the exit, and at each label of its own
what is known there, as it is placed. -/
def landings {W : Type} (c : Chunk) (p : Procedure Value) (goals : Nat → Option W) (exit : W) (place : W → W) :
    Nat → Option W := fun label =>
  if label = c.labelCount + p.labelCount then some exit else (goals (label - c.labelCount)).map place

/-- Labels of the chunk with a body in it agree with this where they are the body's. -/
theorem landings_spec {W : Type} {p : Procedure Value} {goals places : Nat → Option W} {exit : W} {place : W → W}
    (counts : d.labelCount = (c.hosting p tail).labelCount) (agree : ∀ label, c.labelCount ≤ label →
      label < d.labelCount → places label = landings c p goals exit place label) :
    (∀ label < p.labelCount, places (label + c.labelCount) = (goals label).map place) ∧
      (tail = false → places (c.labelCount + p.labelCount) = some exit) := by
  constructor
  · intro label below
    have range : label + c.labelCount < d.labelCount := by
      rw [counts]
      unfold hosting
      dsimp only
      split <;> omega
    rw [agree _ (Nat.le_add_left _ _) range, landings, if_neg (by omega), Nat.add_sub_cancel]
  · intro plain
    have range : c.labelCount + p.labelCount < d.labelCount := by
      rw [counts, hosting, if_neg (by rw [plain]; nofun)]
      exact Nat.lt_succ_self _
    rw [agree _ (Nat.le_add_right _ _) range, landings, if_pos rfl]

theorem Spliced.labels (h : Spliced c callee count tail code d) :
    labelsOf code = (labelsOf callee.procedure.code).map (· + c.labelCount) ++
      if tail then [] else [c.labelCount + callee.procedure.labelCount] := by
  cases h with
  | tail h moved =>
    rw [labelsOf_cons_plain (i := ⟨.pushArgs, count, h⟩) nofun, moved.labels, if_pos rfl, List.append_nil]
    rfl
  | plain h g moved =>
    rw [List.cons_append, labelsOf_cons_plain (i := ⟨.pushArgs, count, h⟩) nofun, labelsOf_append, moved.labels, if_neg nofun]
    rfl

theorem Spliced.label_mem (h : Spliced c callee count tail code d)
    (numbered : callee.procedure.chunk.Numbered) {label : Nat} (member : label ∈ labelsOf code) :
    c.labelCount ≤ label ∧ label < d.labelCount := by
  have counts : d.labelCount = (c.hosting callee.procedure tail).labelCount := by
    cases h with
    | tail h moved => rw [moved.counts]
    | plain h g moved => rw [moved.counts]
  rw [h.labels] at member
  rcases List.mem_append.mp member with moved | exit
  · obtain ⟨l, inside, rfl⟩ := List.mem_map.mp moved
    have below : l < callee.procedure.labelCount := numbered.label_lt inside
    rw [counts]
    unfold hosting
    dsimp only
    split <;> omega
  · cases tail with
    | true => cases exit
    | false =>
      obtain rfl := List.mem_singleton.mp exit
      rw [counts]
      unfold hosting
      exact ⟨Nat.le_add_right _ _, Nat.lt_succ_self _⟩

/-- What is known at the call is known in the place of the body. -/
theorem hosts_landings {c d : Chunk} {p : Procedure Value} {count : Nat} {tail : Bool}
    {E : Nat → Option Outlook} {X : Outlook} {goals : Nat → Option Outlook}
    (counts : d.labelCount = (c.hosting p tail).labelCount) (alone : tail = true → X.stack.length = count)
    (agree : ∀ label, c.labelCount ≤ label → label < d.labelCount → goals label = landings c p
      (View.goalsOf p.code E) (staged count X).exit (·.under c.localCount (staged count X)) label) :
    Hosts (c.siteFor p tail) (staged count X) (View.goalsOf p.code E) goals where
  labels label inside := (landings_spec counts agree).1 label (by
    have below : label + c.labelCount < c.labelCount + p.labelCount := inside
    omega)
  exit := (landings_spec counts agree).2
  alone whole := by
    have none : X.stack.drop count = [] := List.drop_eq_nil_iff.mpr (alone whole).le
    rw [staged, none]
    rfl
  forgot := Operand.forget_forget _

theorem flows_staged {goals : Nat → Option Outlook} {pool : List Value} {X : Outlook} {Y : Option Outlook}
    (h : count ≤ maxOperand) (enough : count ≤ X.stack.length)
    (rest : view.Flows pool goals (some (staged count X)) code Y) :
    view.Flows pool goals (some X) (⟨.pushArgs, count, h⟩ :: code) Y := by
  have pops : Instruction.pops ⟨.pushArgs, count, h⟩ = count := Nat.zero_add count
  refine .cons (Outlook.passes (i := ⟨.pushArgs, count, h⟩) (show OperandKind.stack ≠ .labels from nofun)
    ⟨by rw [pops]; exact enough, nofun, nofun, nofun, nofun, nofun⟩) ?_
  rw [Outlook.onward_some rfl, Outlook.after, pops]
  exact rest

/-- A body that is left comes back to the arguments that were put aside for it. -/
theorem Hosts.resumed {s : Site} {X : Outlook} {goals places : Nat → Option Outlook} {pool : List Value}
    (host : Hosts s (Chunk.staged count X) goals places) (plain : s.tail = false) (h : s.exit ≤ maxOperand) :
    view.Flows pool places none [⟨.label, s.exit, h⟩, Opcode.popArgs.bare] (some (called count X)) := by
  have exit := host.exit plain
  refine ⟨some (Chunk.staged count X).exit, Option.none_le, ⟨fun _ => exit.symm, ?_, ?_⟩, ?_⟩
  · rintro Y same
    exact ⟨Nat.zero_le _, nofun, nofun, nofun, nofun, nofun⟩
  · exact fun _ => nofun
  · rw [Outlook.onward_some rfl]
    refine .cons (Outlook.passes (i := Opcode.popArgs.bare) (show OperandKind.nothing ≠ .labels from nofun)
      ⟨Nat.zero_le _, nofun, nofun, nofun, fun _ => nofun, nofun⟩) ?_
    rw [Outlook.onward_some rfl]
    refine Option.some_le_some.mpr ⟨?_, Nat.le_refl _, List.forall₂_refl _, fun _ => id⟩
    exact .cons (Operand.le_any _) (Operand.each_forget (by simp [Chunk.staged]))

/-- The code in place of a call leaves what the call would. -/
theorem Spliced.flows (h : Spliced c callee count tail code d) (library : Library known)
    (safe : callee.value.Safe known) (accepts : callee.procedure.arity.accepts count)
    (inlinable : callee.procedure.inlinable) {X : Option Outlook}
    (enough : ∀ Y, X = some Y → count ≤ Y.stack.length ∧ (tail = true → Y.stack.length = count)) :
    ∃ places : Nat → Option Outlook, ∀ {goals : Nat → Option Outlook} {pool : List Value},
      (∀ label, c.labelCount ≤ label → label < d.labelCount → goals label = places label) →
        d.constants <+: pool →
          view.Flows pool goals X code (if tail then none else X.map (called count)) := by
  obtain ⟨least, mapped, fewest⟩ := (library.safe safe.of_closure.1).mapped
  have plain := (library.safe safe.of_closure.1).inlinable inlinable
  obtain ⟨D, charted, start⟩ := mapped.chart
  obtain ⟨E, trimmed, bare, starts⟩ := charted.trim plain
  cases X with
  | none =>
    refine ⟨fun _ => none, fun {goals pool} agree found => ?_⟩
    have dead : view.Flows pool goals none code none := .dead fun i member anchors => by
      obtain ⟨low, high⟩ := h.label_mem mapped.toFormed.numbered (mem_labelsOf.mpr ⟨i, member, anchors, rfl⟩)
      exact agree i.operand low high
    exact dead.widen Option.none_le
  | some X =>
    refine ⟨landings c callee.procedure (View.goalsOf callee.procedure.code E) (staged count X).exit
      (·.under c.localCount (staged count X)), fun {goals pool} agree found => ?_⟩
    obtain ⟨operands, alone⟩ := enough X rfl
    have below (i : Instruction) (member : i ∈ callee.procedure.code)
        (labels : i.op.effect.operand = .labels) :
        i.operand + c.labelCount < c.labelCount + callee.procedure.labelCount := by
      have inside : i.operand < callee.procedure.labelCount := mapped.toFormed.numbered.below i member labels
      omega
    have enters : some (staged count X) ≤ (E 0).map (·.under c.localCount (staged count X)) := by
      refine known_trans (Option.some_le_some.mpr ?_) (map_known_le Outlook.under_le (starts least start))
      exact ⟨Operand.each_refl _, fewest count accepts, List.forall₂_refl _, fun slot => by
        rintro (around | ⟨k, -, stored⟩)
        · exact around
        · exact stored.elim⟩
    cases h with
    | tail h moved =>
      have host := hosts_landings (by rw [moved.counts]) alone agree
      refine flows_staged h operands (View.Flows.weaken ?_ enters)
      exact host.flows moved trimmed mapped.distinct bare plain below found
    | plain h g moved =>
      have host := hosts_landings (by rw [moved.counts]) alone agree
      refine flows_staged h operands (View.Flows.weaken ?_ enters)
      refine View.Flows.append (host.flows moved trimmed mapped.distinct bare plain below found) ?_
      exact host.resumed rfl g

/-- The code with some calls of constants replaced, and the chunk then. Bodies may suit tail calls alone. -/
inductive Inlines (good : Bool → Closure → Prop) : Chunk → List Instruction → List Instruction → Chunk → Prop
  | nil {c : Chunk} : Inlines good c [] [] c
  | keep {c d : Chunk} {i : Instruction} {code rest : List Instruction}
    (others : Inlines good c code rest d) : Inlines good c (i :: code) (i :: rest) d
  | splice {c d e : Chunk} {i j : Instruction} {callee : Closure} {count : Nat} {tail : Bool}
    {code body rest : List Instruction} (const : i.op = .const)
    (found : c.constants[i.operand]? = some callee.value) (shape : callShape? j = some (count, tail))
    (callees : good tail callee) (home : callee.procedure.globals = c.globals)
    (accepts : callee.procedure.arity.accepts count) (inlinable : callee.procedure.inlinable)
    (spliced : Spliced c callee count tail body d)
    (others : Inlines good d code rest e) : Inlines good c (i :: j :: code) (body ++ rest) e

theorem refusal?_eq_none {globals : NamespaceId} {p : Procedure Value}
    (h : refusal? globals p count = none) :
    p.globals = globals ∧ p.inlinable = true ∧ p.arity.accepts count = true := by
  unfold refusal? at h
  split at h
  · cases h
  next home =>
    split at h
    · cases h
    next inlinable =>
      split at h
      · cases h
      next accepts => exact ⟨not_not.mp home, by simpa using inlinable, by simpa using accepts⟩

theorem Spliced.constants (h : Spliced c callee count tail code d) : c.constants <+: d.constants := by
  cases h with
  | tail h moved => exact moved.constants
  | plain h g moved => exact moved.constants

theorem Relocated.keeps {S : Value → Prop} {s : Site} {i : Instruction} (h : Relocated s callee c i code d)
    (fetched : ∀ {v : Value}, constantFor? callee i = some v → S v) (constants : ∀ v ∈ c.constants, S v) :
    ∀ v ∈ d.constants, S v := by
  cases h with
  | @constant w found h =>
    intro v member
    rcases mem_poolConstant member with old | new
    · exact constants v old
    · exact new ▸ fetched found
  | _ => exact constants

theorem RelocatedAll.keeps {S : Value → Prop} {s : Site} (h : RelocatedAll s callee c body code d)
    (fetched : ∀ {i : Instruction} {v : Value}, constantFor? callee i = some v → S v)
    (constants : ∀ v ∈ c.constants, S v) : ∀ v ∈ d.constants, S v := by
  induction h with
  | nil => exact constants
  | cons first _ ih => exact ih (first.keeps fetched constants)

theorem Spliced.keeps {S : Value → Prop} (h : Spliced c callee count tail code d)
    (fetched : ∀ {i : Instruction} {v : Value}, constantFor? callee i = some v → S v)
    (constants : ∀ v ∈ c.constants, S v) : ∀ v ∈ d.constants, S v := by
  cases h with
  | tail h moved => exact moved.keeps fetched constants
  | plain h g moved => exact moved.keeps fetched constants

theorem constantFor?_safe (library : Library known) (safe : callee.value.Safe known) {i : Instruction}
    {v : Value} (found : constantFor? callee i = some v) : v.Safe known := by
  obtain ⟨body, -, captured⟩ := safe.of_closure
  unfold constantFor? at found
  split at found
  · exact captured v (List.mem_of_getElem? found)
  · exact library.constants body v (List.mem_of_getElem? found)
  · cases found

theorem Spliced.globals (h : Spliced c callee count tail code d) : d.globals = c.globals := by
  cases h with
  | tail h moved => exact (congrArg Chunk.globals moved.counts :)
  | plain h g moved => exact (congrArg Chunk.globals moved.counts :)

/-- Calls of constants are inlined, if each callee that is not refused suits its calls. -/
theorem granted_inlineCalls {good : Bool → Closure → Prop}
    (fetches : ∀ {tail : Bool} {callee : Closure}, good tail callee → ∀ i ∈ callee.procedure.code,
      i.op = .capture ∨ i.op = .const → ∃ v, constantFor? callee i = some v)
    {budget : Nat} (indices : ∀ i ∈ code, i.op = .const → i.operand < c.constants.length)
    (callees : ∀ {i j : Instruction} {count : Nat} {tail : Bool} {callee : Closure}, [i, j] <:+: code →
      i.op = .const → c.constants[i.operand]? = some callee.value → callShape? j = some (count, tail) →
        refusal? c.globals callee.procedure count = none → good tail callee) (s : Store) :
    Grants (inlineCalls budget c code) s fun result _ => Inlines good c code result.1 result.2 := by
  fun_induction inlineCalls budget c code generalizing s with
  | case1 budget c => exact .pure .nil
  | case2 budget c i => exact .pure (.keep .nil)
  | case3 budget c i j code keep _ ih =>
    have rest := List.forall_mem_cons.mp indices
    exact (ih rest.2 (fun inside => callees (inside.trans (List.suffix_cons i _).isInfix)) s).bind
      fun result t _ inlines => .pure (.keep inlines)
  | case4 budget c i j code keep _ _ ih =>
    have rest := List.forall_mem_cons.mp indices
    exact (ih rest.2 (fun inside => callees (inside.trans (List.suffix_cons i _).isInfix)) s).bind
      fun result t _ inlines => .pure (.keep inlines)
  | case5 budget c i j code keep hold count tail shape ihKeep ihRest =>
    have const : i.op = .const := by
      by_contra other
      exact hold (.inr other)
    have rest := List.forall_mem_cons.mp indices
    have kept : ∀ t, Grants keep t fun result _ => Inlines good c (i :: j :: code) result.1 result.2 := fun t =>
      (ihKeep rest.2 (fun inside => callees (inside.trans (List.suffix_cons i _).isInfix)) t).bind
        fun result t _ inlines => .pure (.keep inlines)
    refine (Build.grants_lift (granted_fetch (rest.1 const)) s).bind fun v t _ fetched => ?_
    obtain ⟨found, rfl⟩ := fetched
    cases v with
    | closure p captured =>
      dsimp only
      split
      next event _ => exact (Build.grants_report event t).bind fun _ u _ _ => kept u
      next accepted =>
        obtain ⟨home, inlinable, accepts⟩ := refusal?_eq_none accepted
        have made : c.constants[i.operand]? = some (Closure.value ⟨p, captured⟩) := found
        have suits : good tail ⟨p, captured⟩ :=
          callees (List.prefix_append [i, j] code).isInfix const found shape accepted
        have splices : Granted (splice c ⟨p, captured⟩ count tail) fun result =>
          Spliced c ⟨p, captured⟩ count tail result.1 result.2 := granted_splice (fetches suits)
        refine (Build.grants_lift splices t).bind fun result u _ placed => ?_
        obtain ⟨spliced, rfl⟩ := placed
        refine (Build.grants_report _ u).bind fun _ w _ _ => ?_
        have later : ∀ k ∈ code, k.op = .const → k.operand < c.constants.length := fun k member =>
          rest.2 k (List.mem_cons_of_mem _ member)
        -- What a constant was before the body came, it is still.
        refine (ihRest result.2 (fun k member op => Nat.lt_of_lt_of_le (later k member op) spliced.constants.length_le)
          (fun inside op found shape welcome => ?_) w).bind fun others v _ inlines => .pure ?_
        · obtain ⟨v, old⟩ : ∃ v, c.constants[_]? = some v :=
            ⟨_, List.getElem?_eq_getElem (later _ (inside.subset List.mem_cons_self) op)⟩
          obtain rfl := Option.some.inj ((getElem?_of_longer spliced.constants old).symm.trans found)
          exact callees (inside.trans (List.suffix_append [i, j] code).isInfix) op old shape
            (spliced.globals ▸ welcome)
        · exact .splice const made shape suits home accepts inlinable spliced inlines
    | _ => exact kept _

/-- What inlining leaves as it is, and what it adds to a chunk and its code. -/
structure Grows (c d : Chunk) (code longer : List Instruction) : Prop where
  constants : c.constants <+: d.constants
  locals : c.localCount ≤ d.localCount
  labels : c.labelCount ≤ d.labelCount
  fits : (∀ i ∈ code, c.Fits i) → ∀ i ∈ longer, d.Fits i
  captures : ∀ i ∈ longer, i.op = .capture → i ∈ code
  kept : ∀ label ∈ labelsOf code, label ∈ labelsOf longer
  new : ∀ label ∈ labelsOf longer, label ∈ labelsOf code ∨ c.labelCount ≤ label ∧ label < d.labelCount
  distinct : (labelsOf code).Nodup → (∀ label ∈ labelsOf code, label < c.labelCount) →
    (labelsOf longer).Nodup
  jumps : ∀ i ∈ longer, i.op.jumps → i ∈ code ∨ i.operand ∈ labelsOf longer

theorem Fits.mono {i : Instruction} (h : c.Fits i) (constants : c.constants.length ≤ d.constants.length)
    (locals : c.localCount ≤ d.localCount) (labels : c.labelCount ≤ d.labelCount) : d.Fits i := by
  unfold Fits at h ⊢
  split
  next op =>
    rw [op] at h
    exact Nat.lt_of_lt_of_le h constants
  next op =>
    rw [op] at h
    exact Nat.lt_of_lt_of_le h locals
  next op =>
    rw [op] at h
    exact Nat.lt_of_lt_of_le h labels
  · trivial

theorem Grows.renumbers {longer : List Instruction} (h : Grows c d code longer) :
    Renumbers c.labelCount d.labelCount code longer :=
  ⟨h.labels, h.kept, h.new, h.distinct, h.jumps⟩

theorem Grows.formed {longer : List Instruction} (h : Grows c d c.code longer) (formed : c.Formed) :
    ({ d with code := longer } : Chunk).Formed where
  fits := h.fits formed.fits
  distinct := (h.renumbers.numbered formed.numbered).distinct
  anchored := (h.renumbers.numbered formed.numbered).anchored

theorem Grows.of_renumbers {longer : List Instruction} (renumbers : Renumbers c.labelCount d.labelCount code longer)
    (constants : c.constants <+: d.constants) (locals : c.localCount ≤ d.localCount)
    (fits : (∀ i ∈ code, c.Fits i) → ∀ i ∈ longer, d.Fits i)
    (captures : ∀ i ∈ longer, i.op = .capture → i ∈ code) : Grows c d code longer :=
  ⟨constants, locals, renumbers.le, fits, captures, renumbers.kept, renumbers.new, renumbers.distinct, renumbers.jumps⟩

theorem Grows.same (c : Chunk) (code : List Instruction) : Grows c c code code :=
  .of_renumbers (.same code _) (List.prefix_refl _) (Nat.le_refl _) id fun _ member _ => member

theorem Grows.append {code rest longer others : List Instruction} (h : Grows c d code longer)
    (g : Grows d e rest others) : Grows c e (code ++ rest) (longer ++ others) := by
  refine .of_renumbers (h.renumbers.append g.renumbers) (h.constants.trans g.constants)
    (Nat.le_trans h.locals g.locals) (fun each i member => ?_) fun i member op => ?_
  · obtain ⟨first, second⟩ := List.forall_mem_append.mp each
    rcases List.mem_append.mp member with here | there
    · exact (h.fits first i here).mono g.constants.length_le g.locals g.labels
    · refine g.fits (fun j inside => ?_) i there
      exact (second j inside).mono h.constants.length_le h.locals h.labels
  · rcases List.mem_append.mp member with here | there
    · exact List.mem_append_left _ (h.captures i here op)
    · exact List.mem_append_right _ (g.captures i there op)

theorem fits_of_free {i : Instruction} (constants : i.op.effect.operand ≠ .constants)
    (locals : i.op.effect.operand ≠ .locals) (labels : i.op.effect.operand ≠ .labels) : c.Fits i := by
  unfold Fits
  split
  next op => exact absurd op constants
  next op => exact absurd op locals
  next op => exact absurd op labels
  · trivial

theorem Opcode.eq_const {op : Opcode} (h : op.effect.operand = .constants) : op = .const := by
  cases op <;> first | rfl | cases h

/-- What stands in the place of a call fits the chunk, and looks for nothing that is captured. -/
theorem Placed.fits {s : Site} {constants : List Value} {j : Instruction}
    {p : Procedure Value} (h : Placed s p.code constants j) (formed : p.chunk.Formed)
    (site : s = c.siteFor p tail) (counts : d = { c.hosting p tail with constants }) :
    d.Fits j ∧ j.op ≠ .capture := by
  subst site counts
  have room : c.labelCount + p.labelCount ≤ (c.hosting p tail).labelCount := by
    unfold hosting
    dsimp only
    split <;> omega
  cases h with
  | exit plain op goal =>
    have last : (c.hosting p tail).labelCount = c.labelCount + p.labelCount + 1 := by
      rw [hosting, if_neg (by rw [show tail = false from plain]; nofun)]
    refine ⟨?_, by rw [op]; nofun⟩
    unfold Fits
    rw [op, goal]
    show c.labelCount + p.labelCount < (c.hosting p tail).labelCount
    omega
  | constant op inside =>
    refine ⟨?_, by rw [op]; nofun⟩
    unfold Fits
    rw [op]
    exact inside
  | @slot i member locals op shifted =>
    have below := formed.fits i member
    unfold Fits at below ⊢
    rw [op, shifted]
    rw [locals] at below ⊢
    refine ⟨?_, by rintro capture; rw [capture] at locals; cases locals⟩
    show i.operand + c.localCount < c.localCount + p.localCount
    have inside : i.operand < p.localCount := below
    omega
  | @label i member labels op shifted =>
    have inside : i.operand < p.labelCount := formed.numbered.below i member labels
    unfold Fits
    rw [op, shifted, labels]
    refine ⟨?_, by rintro capture; rw [capture] at labels; cases labels⟩
    show i.operand + c.labelCount < (c.hosting p tail).labelCount
    omega
  | free op =>
    exact ⟨fits_of_free (fun constants => op.2.1 (Opcode.eq_const constants)) op.2.2.1 op.2.2.2, op.1⟩

theorem Placed.jumps {s : Site} {constants : List Value} {j : Instruction}
    {p : Procedure Value} (h : Placed s p.code constants j) (numbered : p.chunk.Numbered)
    (jumps : j.op.jumps) : (s.tail = false ∧ j.operand = s.exit) ∨
      j.operand ∈ (labelsOf p.code).map (· + s.labelBase) := by
  have labels := Opcode.operand_of_jumps jumps
  cases h with
  | exit plain op goal => exact .inl ⟨plain, goal⟩
  | constant op inside =>
    rw [op] at labels
    cases labels
  | slot member locals op shifted =>
    rw [op] at labels
    cases labels.symm.trans locals
  | @label i member _ op shifted =>
    rw [op] at jumps
    rw [shifted]
    exact .inr (List.mem_map.mpr ⟨i.operand, numbered.anchored i member jumps, rfl⟩)
  | free op => exact absurd labels op.2.2.2

theorem Spliced.mem (h : Spliced c callee count tail code d) :
    d = { c.hosting callee.procedure tail with constants := d.constants } ∧
    ∀ i ∈ code, i.op = .pushArgs ∨ i.op = .popArgs ∨
      (tail = false ∧ i.op = .label ∧ i.operand = c.labelCount + callee.procedure.labelCount) ∨
      Placed (c.siteFor callee.procedure tail) callee.procedure.code d.constants i := by
  cases h with
  | tail h moved =>
    refine ⟨moved.counts, List.forall_mem_cons.mpr ⟨.inl rfl, fun i member => ?_⟩⟩
    exact .inr (.inr (.inr (moved.placed member)))
  | plain h g moved =>
    refine ⟨moved.counts, List.forall_mem_cons.mpr ⟨.inl rfl, List.forall_mem_append.mpr ⟨?_, ?_⟩⟩⟩
    · exact fun i member => .inr (.inr (.inr (moved.placed member)))
    · rintro i member
      rcases List.mem_cons.mp member with rfl | last
      · exact .inr (.inr (.inl ⟨rfl, rfl, rfl⟩))
      · obtain rfl := List.mem_singleton.mp last
        exact .inr (.inl rfl)

/-- Labels of a body in the place of a call are numbered from the count of the chunk on. -/
theorem Spliced.renumbers (h : Spliced c callee count tail code d) (numbered : callee.procedure.chunk.Numbered)
    {i j : Instruction} (plain : labelsOf [i, j] = []) : Renumbers c.labelCount d.labelCount [i, j] code where
  le := by
    rw [h.mem.1]
    show c.labelCount ≤ if tail then _ else _
    split <;> omega
  kept label member := by
    rw [plain] at member
    cases member
  new label member := .inr (h.label_mem numbered member)
  distinct _ _ := by
    rw [h.labels]
    have moved : ((labelsOf callee.procedure.code).map (· + c.labelCount)).Nodup :=
      numbered.distinct.map fun _ _ same => Nat.add_right_cancel same
    cases tail with
    | true => simpa using moved
    | false =>
      refine List.nodup_append.mpr ⟨moved, List.nodup_singleton _, ?_⟩
      rintro _ inside label exit rfl
      obtain ⟨l, member, same⟩ := List.mem_map.mp inside
      have below : l < callee.procedure.labelCount := numbered.label_lt member
      have last := List.mem_singleton.mp exit
      omega
  jumps k member op := by
    obtain ⟨counts, each⟩ := h.mem
    rw [h.labels]
    rcases each k member with pushes | pops | ⟨kind, label, goal⟩ | placed
    · rw [pushes] at op
      cases op
    · rw [pops] at op
      cases op
    · rw [label] at op
      cases op
    · rcases placed.jumps numbered op with ⟨kind, goal⟩ | inside
      · have exit : tail = false := kind
        rw [if_neg (by rw [exit]; nofun)]
        exact .inr (List.mem_append_right _ (List.mem_singleton.mpr goal))
      · exact .inr (List.mem_append_left _ inside)

theorem Spliced.grows (h : Spliced c callee count tail code d)
    (formed : callee.procedure.chunk.Formed) {i j : Instruction} (plain : labelsOf [i, j] = []) :
    Grows c d [i, j] code := by
  obtain ⟨counts, each⟩ := h.mem
  refine .of_renumbers (h.renumbers formed.numbered plain) h.constants ?_ (fun _ k member => ?_) fun k member op => ?_
  · rw [counts]
    exact Nat.le_add_right _ _
  · rcases each k member with pushes | pops | ⟨kind, op, goal⟩ | placed
    · exact fits_of_free (by rw [pushes]; nofun) (by rw [pushes]; nofun) (by rw [pushes]; nofun)
    · exact fits_of_free (by rw [pops]; nofun) (by rw [pops]; nofun) (by rw [pops]; nofun)
    · unfold Fits
      rw [op, goal, counts]
      show _ < if tail then _ else _
      rw [if_neg (by rw [kind]; nofun)]
      exact Nat.lt_succ_self _
    · exact (placed.fits formed rfl counts).1
  · rcases each k member with pushes | pops | ⟨kind, label, goal⟩ | placed
    · cases op.symm.trans pushes
    · cases op.symm.trans pops
    · cases op.symm.trans label
    · exact absurd op (placed.fits formed rfl counts).2

theorem labelsOf_call {i j : Instruction} (const : i.op = .const) (shape : callShape? j = some (count, tail)) :
    labelsOf [i, j] = [] := by
  rw [labelsOf_cons_plain (by rw [const]; nofun)]
  refine labelsOf_cons_plain ?_ []
  rintro label
  simp [callShape?, label] at shape

section

variable {good : Bool → Closure → Prop} {longer : List Instruction}

theorem Inlines.constants (h : Inlines good c code longer d) : c.constants <+: d.constants := by
  induction h with
  | nil => exact List.prefix_refl _
  | keep _ ih => exact ih
  | splice _ _ _ _ _ _ _ spliced _ ih => exact spliced.constants.trans ih

theorem Inlines.renumbers
    (numbered : ∀ {tail : Bool} {callee : Closure}, good tail callee → callee.procedure.chunk.Numbered)
    (h : Inlines good c code longer d) : Renumbers c.labelCount d.labelCount code longer := by
  induction h with
  | nil => exact .same [] _
  | @keep c d i code rest others ih => exact (Renumbers.same [i] _).append ih
  | splice const _ shape callees _ _ _ spliced others ih =>
    exact (spliced.renumbers (numbered callees) (labelsOf_call const shape)).append ih

theorem Inlines.grows (formed : ∀ {tail : Bool} {callee : Closure}, good tail callee → callee.procedure.chunk.Formed)
    (h : Inlines good c code longer d) : Grows c d code longer := by
  induction h with
  | nil => exact .same _ []
  | @keep c d i code rest others ih => exact (Grows.same c [i]).append ih
  | splice const _ shape callees _ _ _ spliced others ih =>
    exact (spliced.grows (formed callees) (labelsOf_call const shape)).append ih

theorem Inlines.keeps {S : Value → Prop}
    (fetched : ∀ {tail : Bool} {callee : Closure} {i : Instruction} {v : Value}, good tail callee →
      constantFor? callee i = some v → S v)
    (h : Inlines good c code longer d) (constants : ∀ v ∈ c.constants, S v) : ∀ v ∈ d.constants, S v := by
  induction h with
  | nil => exact constants
  | keep _ ih => exact ih constants
  | splice _ _ _ callees _ _ _ spliced _ ih => exact ih (spliced.keeps (fetched callees) constants)

/-- Code flows on as it did when calls in it are replaced, if the bodies lead where the calls do. -/
theorem Inlines.flows {W : Type} [Preorder W] {u v : View W} (refines : u.Refines v) (fit : Chunk → Prop)
    (numbered : ∀ {tail : Bool} {callee : Closure}, good tail callee → callee.procedure.chunk.Numbered)
    (stays : ∀ {c d : Chunk} {callee : Closure} {count : Nat} {tail : Bool} {body : List Instruction},
      fit c → good tail callee → Spliced c callee count tail body d → fit d)
    (leads : ∀ {c d : Chunk} {callee : Closure} {count : Nat} {tail : Bool} {body : List Instruction}
      {i j : Instruction} {Y Z : Option W}, fit c → good tail callee → callee.procedure.arity.accepts count →
        callee.procedure.inlinable → Spliced c callee count tail body d → i.op = .const →
        callShape? j = some (count, tail) → (∀ {X : W}, Y = some X → u.allows c.constants X i) →
        u.onward c.constants i Y ≤ Z → (∀ {X : W}, Z = some X → u.allows c.constants X j) →
        ∃ places : Nat → Option W, ∀ {goals : Nat → Option W} {pool : List Value},
          (∀ label, c.labelCount ≤ label → label < d.labelCount → goals label = places label) →
            d.constants <+: pool → v.Flows pool goals Y body (u.onward c.constants j Z))
    (h : Inlines good c code longer e) (fits : fit c) {goals : Nat → Option W} {X Y : Option W}
    (flows : u.Flows c.constants goals X code Y) (placed : ∀ i ∈ code, c.Mentions i) :
    ∃ others : Nat → Option W, (∀ label < c.labelCount, others label = goals label) ∧
      ∀ {pool : List Value}, e.constants <+: pool → v.Flows pool others X longer Y := by
  induction h generalizing goals X with
  | nil => exact ⟨goals, fun _ _ => rfl, fun _ => flows⟩
  | @keep c d i code rest inlines ih =>
    obtain ⟨here, later⟩ := List.forall_mem_cons.mp placed
    obtain ⟨Z, le, passes, onwards⟩ := flows
    obtain ⟨others, agree, follows⟩ := ih fits onwards later
    refine ⟨others, agree, fun {pool} more => ?_⟩
    have single : u.Flows c.constants _ X [i] _ := .single le passes
    have first := single.fresh (List.forall_mem_singleton.mpr here) agree
      (inlines.constants.trans more)
    exact (first.refine refines).append (follows more)
  | @splice c d e i j callee count tail code body rest const _ shape callees _ accepts inlinable spliced
      inlines ih =>
    obtain ⟨here, next⟩ := List.forall_mem_cons.mp placed
    obtain ⟨there, later⟩ := List.forall_mem_cons.mp next
    obtain ⟨Z, le, passes, U, le', passes', onwards⟩ := flows
    obtain ⟨places, follows⟩ := leads fits callees accepts inlinable spliced const shape
      passes.allows le' passes'.allows
    have renumbers := spliced.renumbers (numbered callees) (labelsOf_call const shape)
    let mid : Nat → Option W := fun label =>
      if c.labelCount ≤ label ∧ label < d.labelCount then places label else goals label
    have old : ∀ label < c.labelCount, mid label = goals label := fun label below => if_neg (by omega)
    obtain ⟨others, agree, continues⟩ := ih (stays fits callees spliced) (onwards.fresh later old spliced.constants)
      fun k member => (later k member).mono spliced.constants.length_le renumbers.le
    refine ⟨others, fun label below => ?_, fun {pool} more => ?_⟩
    · rw [agree label (Nat.lt_of_lt_of_le below renumbers.le), old label below]
    · have body := @follows others pool (fun label low high => by
        rw [agree label high]
        exact if_pos ⟨low, high⟩) (inlines.constants.trans more)
      exact (body.weaken le).append (continues more)

end

theorem callShape?_spec {j : Instruction} (h : callShape? j = some (count, tail)) :
    j.pops = 1 + count ∧ j.op.effect.exits = tail ∧ (tail = true → j.op = .tailCall) ∧
      (tail = false → ∀ constants X, Outlook.after constants X j =
        { X with stack := .any :: Operand.forget (X.stack.drop (1 + count)) }) := by
  obtain ⟨op, operand, small⟩ := j
  cases op <;> cases h <;> exact ⟨rfl, rfl, by first | exact fun _ => rfl | nofun, by first | exact fun _ _ _ => rfl | nofun⟩

/-- What is known after a constant is called is known once the call is replaced. -/
theorem called_le {constants : List Value} {i : Instruction} (const : i.op = .const) {S T : Outlook}
    (knows : S.after constants i ≤ T) (length : T.stack.length = S.stack.length + 1) :
    called count S ≤ { T with stack := .any :: Operand.forget (T.stack.drop (1 + count)) } := by
  obtain ⟨-, least, saved, stored⟩ := knows
  unfold Outlook.after at least saved stored
  rw [const] at least saved stored
  refine ⟨.cons (.inr rfl) (Operand.each_forget ?_), least, saved, stored⟩
  simp only [Operand.length_forget, List.length_drop]
  omega

/-- The body in place of a call of a constant leaves what the call does. -/
theorem Spliced.leads (h : Spliced c callee count tail code d) (library : Library known)
    (safe : callee.value.Safe known) (accepts : callee.procedure.arity.accepts count)
    (inlinable : callee.procedure.inlinable) {i j : Instruction} (const : i.op = .const)
    (shape : callShape? j = some (count, tail)) {Y Z : Option Outlook}
    (next : view.onward c.constants i Y ≤ Z) (allows : ∀ {X : Outlook}, Z = some X → X.Allows j) :
    ∃ places : Nat → Option Outlook, ∀ {goals : Nat → Option Outlook} {pool : List Value},
      (∀ label, c.labelCount ≤ label → label < d.labelCount → goals label = places label) →
        d.constants <+: pool → view.Flows pool goals Y code (view.onward c.constants j Z) := by
  obtain ⟨pops, exits, leaves, calls⟩ := callShape?_spec shape
  have pushed {S : Outlook} (same : Y = some S) : ∃ T, Z = some T ∧ S.after c.constants i ≤ T ∧
      T.stack.length = S.stack.length + 1 := by
    rw [same, Outlook.onward_some (by rw [const]; rfl)] at next
    obtain ⟨T, rfl, knows⟩ := some_of_known next
    refine ⟨T, rfl, knows, ?_⟩
    rw [← knows.stack.length_eq, Outlook.length_after]
    simp [Instruction.pops, Instruction.pushes, const, Opcode.effect]
  have enough : ∀ S, Y = some S → count ≤ S.stack.length ∧ (tail = true → S.stack.length = count) := by
    intro S same
    obtain ⟨T, rfl, -, length⟩ := pushed same
    have operands := (allows rfl).pops
    refine ⟨by omega, fun whole => ?_⟩
    have exact := (allows rfl).exits (by rw [exits, whole]) (by rw [leaves whole]; decide)
      (by rw [leaves whole]; decide)
    omega
  obtain ⟨places, follows⟩ := h.flows library safe accepts inlinable enough
  refine ⟨places, fun agree found => (follows agree found).widen ?_⟩
  cases tail with
  | true => exact Option.none_le
  | false =>
    cases same : Y with
    | none => exact Option.none_le
    | some S =>
      obtain ⟨T, rfl, knows, length⟩ := pushed same
      rw [Outlook.onward_some exits, calls rfl]
      exact Option.some_le_some.mpr (called_le const knows length)

theorem formed_of_safe (library : Library known) {callee : Closure} (safe : callee.value.Safe known) :
    callee.procedure.chunk.Formed := by
  obtain ⟨least, mapped, -⟩ := (library.safe safe.of_closure.1).mapped
  exact mapped.toFormed

/-- Inlining keeps a chunk on its chart. -/
theorem Inlines.mapped (library : Library known) {longer : List Instruction} {least : Nat}
    (h : Inlines (fun _ callee => callee.value.Safe known) c c.code longer d) (mapped : c.Mapped least) :
    ({ d with code := longer } : Chunk).Mapped least := by
  have formed := (h.grows (formed_of_safe library)).formed mapped.toFormed
  obtain ⟨D, charted, start⟩ := mapped.chart
  obtain ⟨others, -, flows⟩ := h.flows (.refl _) (fun _ => True)
    (fun safe => (formed_of_safe library safe).numbered) (fun _ _ _ => trivial)
    (fun _ safe accepts inlinable spliced const shape _ next allows =>
      spliced.leads library safe accepts inlinable const shape next allows) trivial
    (charted.flows mapped.distinct) fun i member => (mapped.fits i member).mentions
  obtain ⟨E, chart, starts⟩ := (flows (List.prefix_refl _)).charted formed.distinct formed.anchored
  exact ⟨formed, E, chart, known_trans start starts⟩

end Chunk

end StackLisp
