import StackLisp.Proofs.Building
import StackLisp.Proofs.Roles

/-!
References in what is built. The body in place of a call handles references as it does where it is from, in
slots of its own, and finds among the constants those that it had captured.
-/

namespace StackLisp

open Chunk Whereabouts

variable {c d : Chunk} {callee : Closure} {code body : List Instruction} {s : Site} {i j : Instruction}
  {count n base : Nat} {tail : Bool}

namespace Chunk

theorem fetch_eq_ok {α : Type} {xs : List α} {k : Nat} {a : α} : fetch xs k = .ok a ↔ xs[k]? = some a := by
  unfold fetch
  cases xs[k]? <;> simp

theorem relocate_fetches {result : List Instruction × Chunk} (h : relocate s callee c i = .ok result)
    (op : i.op = .capture ∨ i.op = .const) : ∃ v, constantFor? callee i = some v := by
  unfold relocate at h
  unfold constantFor?
  rcases op with op | op <;> rw [op] at h ⊢
  · obtain ⟨v, fetched, -⟩ := bind_eq_ok.mp h
    exact ⟨v, fetch_eq_ok.mp fetched⟩
  · obtain ⟨v, fetched, -⟩ := bind_eq_ok.mp h
    exact ⟨v, fetch_eq_ok.mp fetched⟩

theorem relocateAll_fetches {result : List Instruction × Chunk}
    (h : relocateAll s callee c body = .ok result) :
    ∀ i ∈ body, i.op = .capture ∨ i.op = .const → ∃ v, constantFor? callee i = some v := by
  induction body generalizing c result with
  | nil => exact fun _ => nofun
  | cons i body ih =>
    obtain ⟨first, relocated, others⟩ := bind_eq_ok.mp h
    obtain ⟨rest, more, -⟩ := bind_eq_ok.mp others
    exact List.forall_mem_cons.mpr ⟨relocate_fetches relocated, ih more⟩

theorem splice_fetches {result : List Instruction × Chunk} (h : splice c callee count tail = .ok result) :
    ∀ i ∈ callee.procedure.code, i.op = .capture ∨ i.op = .const → ∃ v, constantFor? callee i = some v := by
  obtain ⟨stage, -, moving⟩ := bind_eq_ok.mp h
  obtain ⟨moved, relocated, -⟩ := bind_eq_ok.mp moving
  exact relocateAll_fetches relocated

theorem inlines_of_yields {S : Value → Prop}
    (fetched : ∀ {callee : Closure} {i : Instruction} {v : Value}, S callee.value →
      constantFor? callee i = some v → S v) {budget : Nat} {s t : Store} {result : List Instruction × Chunk}
    (h : Yields (inlineCalls budget c code) s result t) (constants : ∀ v ∈ c.constants, S v) :
    Inlines (fun _ callee => S callee.value) c code result.1 result.2 := by
  fun_induction inlineCalls budget c code generalizing s t result with
  | case1 =>
    obtain ⟨rfl, -⟩ := Yields.pure_iff.mp h
    exact .nil
  | case2 =>
    obtain ⟨rfl, -⟩ := Yields.pure_iff.mp h
    exact .keep .nil
  | case3 =>
    rename_i ih
    obtain ⟨rest, u, inlined, kept⟩ := Yields.bind_iff.mp h
    obtain ⟨rfl, -⟩ := Yields.pure_iff.mp kept
    exact .keep (ih inlined constants)
  | case4 =>
    rename_i ih
    obtain ⟨rest, u, inlined, kept⟩ := Yields.bind_iff.mp h
    obtain ⟨rfl, -⟩ := Yields.pure_iff.mp kept
    exact .keep (ih inlined constants)
  | case5 =>
    rename_i c i j code keep hold count tail shape ihKeep ihRest
    have keeps {s : Store} (h : Yields keep s result t) :
        Inlines (fun _ callee => S callee.value) c (i :: j :: code) result.1 result.2 := by
      obtain ⟨rest, u, inlined, kept⟩ := Yields.bind_iff.mp h
      obtain ⟨rfl, -⟩ := Yields.pure_iff.mp kept
      exact .keep (ihKeep inlined constants)
    obtain ⟨v, _, fetching, choosing⟩ := Yields.bind_iff.mp h
    obtain ⟨looked, rfl⟩ := Build.lift_iff.mp fetching
    have found := fetch_eq_ok.mp looked
    cases v with
    | closure p captured =>
      dsimp only at choosing
      split at choosing
      · obtain ⟨_, u, reported, kept⟩ := Yields.bind_iff.mp choosing
        exact keeps kept
      next accepted =>
        obtain ⟨home, inlinable, accepts⟩ := refusal?_eq_none accepted
        obtain ⟨moved, u, splicing, inlined⟩ := Yields.bind_iff.mp choosing
        obtain ⟨spliced, rfl⟩ := Build.lift_iff.mp splicing
        obtain ⟨_, v, reported, following⟩ := Yields.bind_iff.mp inlined
        obtain ⟨rest, x, others, joined⟩ := Yields.bind_iff.mp following
        obtain ⟨rfl, -⟩ := Yields.pure_iff.mp joined
        have made : c.constants[i.operand]? = some (Closure.value ⟨p, captured⟩) := found
        have good : S (Closure.value ⟨p, captured⟩) := constants _ (List.mem_of_getElem? made)
        have places : Spliced c ⟨p, captured⟩ count tail moved.1 moved.2 := by
          have granted : Granted (splice c ⟨p, captured⟩ count tail) fun result =>
            Spliced c ⟨p, captured⟩ count tail result.1 result.2 := granted_splice (splice_fetches spliced)
          rw [spliced] at granted
          exact granted
        have const : i.op = .const := not_not.mp (not_or.mp hold).2
        exact .splice const made shape good home accepts inlinable places
          (ihRest _ others (places.keeps (fetched good) constants))
    | _ => exact keeps choosing

end Chunk

namespace Content

variable {k : Content} {slot : Nat}

theorem shift_eq_plain : k.shift base = .plain ↔ k = .plain := by
  cases k <;> simp [shift]

theorem shift_eq_pending : k.shift base = .pending ↔ k = .pending := by
  cases k <;> simp [shift]

theorem suits_shift {k : Content} {reference : Bool} : (k.shift base).Suits reference ↔ k.Suits reference := by
  cases reference <;> cases k <;> simp [shift, Suits]

theorem loaded_shift (k : Content) (slot base : Nat) :
    (k.shift base).loaded (slot + base) = (k.loaded slot).shift base := by
  cases k <;> rfl

theorem shift_le {k l : Content} (h : k ≤ l) : k.shift base ≤ l.shift base := by
  rcases h with rfl | rfl
  · exact le_any _
  · exact le_refl _

end Content

/-- What is known in a body that runs in the place of a call, where `U` is known of the slots around it. Its
own slots are numbered from `base` on. -/
def Whereabouts.under (S : Whereabouts) (base : Nat) (U : Whereabouts) : Whereabouts where
  tops j := (S.tops j).shift base
  slots k := if k < base then U.slots k else (S.slots (k - base)).shift base

namespace Whereabouts

variable {S T U : Whereabouts} {g others : Setting} {pool constants : List Value}

theorem under_le (h : S ≤ T) : S.under base U ≤ T.under base U := by
  refine ⟨fun j => Content.shift_le (h.1 j), fun k => ?_⟩
  unfold under
  dsimp only
  split
  · exact le_refl _
  · exact Content.shift_le (h.2 _)

theorem Bare.under (h : S.Bare) : (S.under base U).Bare :=
  fun j => Content.shift_eq_plain.mpr (h j)

theorem slots_under (S U : Whereabouts) (base slot : Nat) :
    (S.under base U).slots (slot + base) = (S.slots slot).shift base := by
  simp [Whereabouts.under]

theorem push_under (S U : Whereabouts) (base : Nat) (k : Content) :
    (S.push k).under base U = (S.under base U).push (k.shift base) := by
  refine congrArg (Whereabouts.mk · _) (funext fun j => ?_)
  cases j <;> rfl

theorem put_under (S U : Whereabouts) (base slot : Nat) (k : Content) :
    (S.put slot k).under base U = (S.under base U).put (slot + base) (k.shift base) := by
  refine congrArg (Whereabouts.mk _) (funext fun l => ?_)
  simp only [put, Whereabouts.under]
  by_cases below : l < base
  · rw [if_pos below, if_pos below, if_neg (by omega)]
  · by_cases same : l = slot + base
    · rw [if_neg below, if_pos same, if_pos (by omega)]
    · rw [if_neg below, if_neg below, if_neg same, if_neg (by omega)]

/-- Where an instruction is allowed in a body it is allowed in the place of a call. -/
theorem allows_under (h : S.Allows g constants i) (op : i.op ≠ .const) (same : j.op = i.op)
    (number : i.op = .makeClosure → j.operand = i.operand) : (S.under base U).Allows others pool j := by
  obtain ⟨op', operand, small⟩ := i
  obtain ⟨other, operand', small'⟩ := j
  obtain rfl : other = op' := same
  cases other
  case const => exact absurd rfl op
  case capture | load | arg | restArg | current | newRef => exact trivial
  case store =>
    exact ⟨h.1.imp Content.shift_eq_plain.mpr Content.shift_eq_pending.mpr, fun j => Content.shift_eq_plain.mpr (h.2 j)⟩
  case bindRef =>
    obtain ⟨⟨slot, top, pending⟩, rest⟩ := h
    refine ⟨⟨slot + base, ?_, ?_⟩, fun j => Content.shift_eq_plain.mpr (rest j)⟩
    · show (S.tops 0).shift base = _
      rw [top]
      rfl
    · rw [slots_under, pending]
      rfl
  case deref => exact ⟨Content.suits_shift.mpr h.1, fun j => Content.shift_eq_plain.mpr (h.2 j)⟩
  case makeClosure =>
    obtain rfl : operand' = operand := number rfl
    refine ⟨?_, fun j beyond => Content.shift_eq_plain.mpr (h.2 j beyond)⟩
    show (S.tops 0).shift base = _
    rw [h.1]
    rfl
  all_goals exact Bare.under h

theorem after_under (h : S.Allows g constants i) (same : j.op = i.op)
    (op : i.op ≠ .const ∧ i.op ≠ .capture ∧ i.op ≠ .load ∧ i.op ≠ .store) :
    (S.under base U).after others pool j = (S.after g constants i).under base U := by
  obtain ⟨op', operand, small⟩ := i
  obtain ⟨other, operand', small'⟩ := j
  obtain rfl : other = op' := same
  cases other
  case const => exact absurd rfl op.1
  case capture => exact absurd rfl op.2.1
  case load => exact absurd rfl op.2.2.1
  case store => exact absurd rfl op.2.2.2
  case arg | restArg | current => exact (push_under S U base .plain).symm
  case newRef => exact (push_under S U base .pending).symm
  case bindRef =>
    obtain ⟨⟨slot, top, -⟩, -⟩ := h
    have shifted : (S.under base U).tops 0 = .own (slot + base) := by
      show (S.tops 0).shift base = _
      rw [top]
      rfl
    simp only [after, top, shifted]
    exact (put_under S U base slot .reference).symm
  all_goals rfl

/-- The view of references for code that has no more than so many slots. -/
def within (g : Setting) (n : Nat) : View Whereabouts where
  allows pool X i := X.below n = X ∧ X.Allows g pool i
  after := after g
  taken _ X := X
  allows_congr same _ h := ⟨h.1, (view g).allows_congr same h.2⟩
  after_congr same := (view g).after_congr same

theorem within_refines (g : Setting) (n : Nat) : (within g n).Refines (view g) :=
  ⟨rfl, rfl, fun h => h.2⟩

theorem allows_of_closes (closes : Closes i j) (h : S.Allows g constants i) : S.Allows g constants j := by
  obtain ⟨op, operand, small⟩ := i
  rcases closes with ⟨fused, fuses, rfl⟩ | form
  · cases op <;> cases fuses <;> exact h
  · cases op <;> cases form <;> exact h

/-- Where labels and jumps lead to a return, a return is allowed. -/
theorem allows_of_exits {pc : Nat} (exits : Exits code pc) (here : code[pc]? = some i)
    (h : S.Allows g constants i) : S.Allows g constants Opcode.ret.bare := by
  have ordinary : i.op.conveys = false := by
    cases exits with
    | ret there op | label there op | jump there op =>
      obtain rfl := Option.some.inj (there.symm.trans here)
      rw [op]
      rfl
  exact (allows_of_ordinary rfl).mpr ((allows_of_ordinary ordinary).mp h)

theorem allows_short {D : Nat → Option Whereabouts} (h : (within g n).Charted constants code D)
    {pc next : Nat} (stands : StandsFor code pc next j) (known : D pc = some S) :
    (within g n).allows constants S j := by
  obtain ⟨i, here, below, allows⟩ := h.allows known
  refine ⟨below, ?_⟩
  cases stands with
  | same there =>
    obtain rfl := Option.some.inj (here.symm.trans there)
    exact allows
  | ret exits returns =>
    subst returns
    exact allows_of_exits exits here allows
  | closes there closes =>
    obtain rfl := Option.some.inj (here.symm.trans there)
    exact allows_of_closes closes allows

end Whereabouts

theorem Value.Serves.of_captured {v : Value} {reference : Bool} (h : v.Serves (.ofCaptured reference)) :
    Content.ofConstant (some v) = (if reference then .reference else .plain) ∧ ∀ p, v ≠ .procedure p := by
  cases reference with
  | true =>
    obtain ⟨id, rfl⟩ := of_reference h
    exact ⟨rfl, nofun⟩
  | false =>
    refine ⟨?_, h.ne_procedure⟩
    cases v with
    | ref id => exact absurd rfl (h.ne_ref id)
    | procedure p => exact absurd rfl (h.ne_procedure p)
    | _ => rfl

namespace Chunk

/-- What is known of references at the labels of a body in the place of a call, and where it is left. -/
structure Shelters (s : Site) (U : Whereabouts) (goals places : Nat → Option Whereabouts) : Prop where
  labels : ∀ label, label + s.labelBase < s.exit →
    places (label + s.labelBase) = (goals label).map (·.under s.localBase U)
  exit : s.tail = false → places s.exit = some (U.bare.below s.localBase)

variable {S U : Whereabouts} {g : Setting} {refs around : Nat → Bool} {goals places : Nat → Option Whereabouts}
  {pool : List Value} {b e : Chunk}

theorem Shelters.leaves (shelter : Shelters s U goals places) (plain : s.tail = false) (bare : S.Bare)
    (h : s.exit ≤ maxOperand) :
    (view g).Flows pool places (some (S.under s.localBase U)) [⟨.jump, s.exit, h⟩] none := by
  refine .cons ⟨nofun, fun same => ?_, fun same _ => ?_⟩ (.refl none)
  · obtain rfl := Option.some.inj same
    exact bare.under
  · obtain rfl := Option.some.inj same
    rw [shelter.exit plain]
    refine Option.some_le_some.mpr ⟨fun j => le_of_eq (bare.under j), fun k => ?_⟩
    show (if k < s.localBase then _ else _) ≤ (if k < s.localBase then _ else _)
    split
    · exact le_refl _
    · exact Content.le_any _

theorem ordinary_flows (op : i.op.conveys = false) (labels : i.op.effect.operand ≠ .labels)
    (stays : i.op.effect.exits = false) (bare : S.Bare) :
    (view g).Flows pool places (some S) [i] (some S) := by
  refine .cons (View.passes_of_allows labels ((allows_of_ordinary op).mpr bare)) ?_
  rw [View.onward_some _ stays]
  exact Option.some_le_some.mpr (le_of_eq ((after_of_ordinary op).trans bare.bare))

/-- A fetched constant is as good as the instruction that fetches it. -/
theorem constant_carries {v : Value} (fetched : constantFor? callee i = some v)
    (captured : ∀ {k : Nat} {v : Value}, callee.captured[k]? = some v → v.Serves (.ofCaptured (refs k)))
    (stocked : ∀ u ∈ (b.addConstant v).2.constants, u.HasRole) (found : (b.addConstant v).2.constants <+: pool)
    (allows : S.Allows (.genuine refs) callee.procedure.constants i) (h : (b.addConstant v).1 ≤ maxOperand) :
    (view (.genuine around)).Flows pool places (some (S.under base U)) [⟨.const, (b.addConstant v).1, h⟩]
      (((view (.genuine refs)).onward callee.procedure.constants i (some S)).map (·.under base U)) := by
  obtain ⟨u, there, same⟩ := poolConstant_place b.constants v
  have listed : (b.addConstant v).2.constants[(b.addConstant v).1]? = some u := there
  obtain ⟨r, serves⟩ := stocked u (List.mem_of_getElem? listed)
  have pooled : pool[(b.addConstant v).1]? = some u := getElem?_of_longer found there
  obtain ⟨op, operand, small⟩ := i
  cases op with
  | const =>
    have own : callee.procedure.constants[operand]? = some v := fetched
    refine .cons (View.passes_of_allows (by nofun) fun q there => ?_) ?_
    · obtain rfl := Option.some.inj (pooled.symm.trans there)
      obtain ⟨p, rfl⟩ : ∃ p, v = .procedure p := by
        cases v <;> first | exact ⟨_, rfl⟩ | cases same
      obtain ⟨needs, template, suits⟩ := allows p own
      exact ⟨needs, template.congr serves same, fun j => Content.suits_shift.mpr (suits j)⟩
    · rw [View.onward_some _ rfl, View.onward_some _ rfl, Option.map_some]
      refine Option.some_le_some.mpr (le_of_eq ?_)
      show (S.under base U).push (.ofConstant pool[(b.addConstant v).1]?) =
        (S.push (.ofConstant callee.procedure.constants[operand]?)).under base U
      rw [pooled, own, push_under, Content.ofConstant_congr same]
      cases v <;> rfl
  | capture =>
    have role := (captured fetched).congr serves same
    obtain ⟨pushed, other⟩ := role.of_captured
    refine .cons (View.passes_of_allows (by nofun) fun q there => ?_) ?_
    · exact absurd (Option.some.inj (pooled.symm.trans there)) (other q)
    · rw [View.onward_some _ rfl, View.onward_some _ rfl, Option.map_some]
      refine Option.some_le_some.mpr (le_of_eq ?_)
      show (S.under base U).push (.ofConstant pool[(b.addConstant v).1]?) =
        (S.push (if refs operand then .reference else .plain)).under base U
      rw [pooled, push_under, pushed]
      cases refs operand <;> rfl
  | _ => cases fetched

/-- An instruction of a body handles references in its place as it does in the body. -/
theorem Relocated.carries (r : Relocated s callee b i code e) (shelter : Shelters s U goals places)
    (captured : ∀ {k : Nat} {v : Value}, callee.captured[k]? = some v → v.Serves (.ofCaptured (refs k)))
    (stocked : ∀ v ∈ e.constants, v.HasRole) (found : e.constants <+: pool)
    (passes : (view (.genuine refs)).Passes callee.procedure.constants goals i (some S))
    (inside : i.op.effect.operand = .labels → i.operand + s.labelBase < s.exit) :
    (view (.genuine around)).Flows pool places (some (S.under s.localBase U)) code
      (((view (.genuine refs)).onward callee.procedure.constants i (some S)).map (·.under s.localBase U)) := by
  have allows : S.Allows (.genuine refs) callee.procedure.constants i := passes.allows rfl
  have bare (op : i.op.conveys = false) : S.Bare := (allows_of_ordinary op).mp allows
  cases r with
  | ret plain op h =>
    rw [View.onward_exits _ (by rw [op]; rfl)]
    exact shelter.leaves plain (bare (by rw [op]; rfl)) h
  | @literal plain op fused h =>
    obtain ⟨effect, exits⟩ := effect_fused fused
    have ordinary : op.conveys = false ∧ i.op.conveys = false := by
      generalize i.op = short at fused
      cases op <;> cases fused <;> exact ⟨rfl, rfl⟩
    rw [View.onward_exits _ (by rw [exits])]
    refine View.Flows.append (ordinary_flows (i := op.bare) ordinary.1 ?_ ?_ (bare ordinary.2).under)
      (shelter.leaves plain (bare ordinary.2) h)
    · rw [Opcode.bare, effect]
      decide
    · rw [Opcode.bare, effect]
  | call plain op h =>
    have free := bare (by rw [op]; rfl)
    rw [View.onward_exits _ (by rw [op]; rfl)]
    exact View.Flows.append (ordinary_flows (i := ⟨.call, i.operand, i.operand_le⟩) rfl (fun labels => by cases labels) rfl
      free.under)
      (shelter.leaves plain free h)
  | constant fetched h => exact constant_carries fetched captured stocked found allows h
  | slot locals h =>
    obtain ⟨op, operand, small⟩ := i
    have which : op = .load ∨ op = .store := by
      cases op <;> first | exact .inl rfl | exact .inr rfl | cases locals
    rcases which with rfl | rfl
    · refine .cons (View.passes_of_allows (fun labels => by cases labels) trivial) ?_
      rw [View.onward_some _ rfl, View.onward_some _ rfl, Option.map_some]
      refine Option.some_le_some.mpr (le_of_eq ?_)
      show (S.under s.localBase U).push (((S.under s.localBase U).slots (operand + s.localBase)).loaded _) =
        (S.push ((S.slots operand).loaded operand)).under s.localBase U
      rw [slots_under, Content.loaded_shift, push_under]
    · have free : (S.under s.localBase U).Allows (.genuine around) pool ⟨.store, operand + s.localBase, h⟩ :=
        allows_under allows (fun const => by cases const) rfl fun made => by cases made
      refine .cons (View.passes_of_allows (fun labels => by cases labels) free) ?_
      rw [View.onward_some _ rfl, View.onward_some _ rfl, Option.map_some]
      exact Option.some_le_some.mpr (le_of_eq (put_under S U s.localBase operand (S.tops 0)).symm)
  | label labels h =>
    obtain ⟨op, operand, small⟩ := i
    have place := shelter.labels operand (inside labels)
    have ordinary : op.conveys = false := by
      cases op <;> first | rfl | cases labels
    have free : (S.under s.localBase U).Allows (.genuine around) pool ⟨op, operand + s.labelBase, h⟩ :=
      (allows_of_ordinary ordinary).mpr (bare ordinary).under
    refine .cons ⟨fun label => ?_, fun same => Option.some.inj same ▸ free, fun same jumps => ?_⟩ ?_
    · rw [place, ← passes.anchor label, Option.map_some]
    · obtain rfl := Option.some.inj same
      rw [place]
      exact map_known_le under_le (passes.goal rfl jumps)
    · cases leaves : op.effect.exits with
      | true =>
        rw [View.onward_exits _ leaves, View.onward_exits _ leaves]
        exact .refl none
      | false =>
        rw [View.onward_some _ leaves, View.onward_some _ leaves, Option.map_some]
        refine Option.some_le_some.mpr (le_of_eq (after_under allows rfl ⟨?_, ?_, ?_, ?_⟩)) <;>
        · rintro rfl
          cases labels
  | kept closed op =>
    refine .cons (View.passes_of_allows op.2.2.2 (allows_under allows op.2.1 rfl fun _ => rfl)) ?_
    cases leaves : i.op.effect.exits with
    | true =>
      rw [View.onward_exits _ leaves, View.onward_exits _ leaves]
      exact .refl none
    | false =>
      rw [View.onward_some _ leaves, View.onward_some _ leaves, Option.map_some]
      refine Option.some_le_some.mpr (le_of_eq (after_under allows rfl ⟨op.2.1, op.1, ?_, ?_⟩)) <;>
      · intro same
        exact op.2.2.1 (by rw [same]; rfl)

/-- What is known of references at the call is known in the place of the body. -/
theorem shelters_landings {p : Procedure Value} {D : Nat → Option Whereabouts}
    (counts : d.labelCount = (c.hosting p tail).labelCount)
    (agree : ∀ label, c.labelCount ≤ label → label < d.labelCount → places label = landings c p
      (View.goalsOf p.code D) (U.bare.below c.localCount) (·.under c.localCount U) label) :
    Shelters (c.siteFor p tail) U (View.goalsOf p.code D) places where
  labels label inside := (landings_spec counts agree).1 label (by
    have below : label + c.labelCount < c.labelCount + p.labelCount := inside
    omega)
  exit := (landings_spec counts agree).2

theorem Shelters.resumed (shelter : Shelters s U goals places) (plain : s.tail = false)
    (room : U.bare.below s.localBase = U) (bare : U.Bare) (h : s.exit ≤ maxOperand) :
    (view g).Flows pool places none [⟨.label, s.exit, h⟩, Opcode.popArgs.bare] (some U) := by
  have exit := shelter.exit plain
  rw [room] at exit
  refine ⟨some U, Option.none_le, ⟨fun _ => exit.symm, fun same => Option.some.inj same ▸ bare, fun _ => nofun⟩, ?_⟩
  rw [View.onward_some _ (by rfl)]
  have resumed : (view g).after pool ⟨.label, s.exit, h⟩ U = U := bare.bare
  rw [resumed]
  exact ordinary_flows (i := Opcode.popArgs.bare) rfl (by nofun) rfl bare

theorem ordinary_of_shape (shape : callShape? j = some (count, tail)) : j.op.conveys = false := by
  obtain ⟨op, operand, small⟩ := j
  cases op <;> first | rfl | cases shape

/-- The body in place of a call of a constant leaves the references around it where they are. -/
theorem Spliced.carries (h : Spliced c callee count tail code d) (plain : callee.value.Serves .plain)
    (stocked : ∀ v ∈ d.constants, v.HasRole) (room : n ≤ c.localCount) (const : i.op = .const)
    (shape : callShape? j = some (count, tail)) {Y Z : Option Whereabouts}
    (before : ∀ {X : Whereabouts}, Y = some X → (within (.genuine around) n).allows c.constants X i)
    (next : (within (.genuine around) n).onward c.constants i Y ≤ Z)
    (allows : ∀ {X : Whereabouts}, Z = some X → (within (.genuine around) n).allows c.constants X j) :
    ∃ places : Nat → Option Whereabouts, ∀ {goals : Nat → Option Whereabouts} {pool : List Value},
      (∀ label, c.labelCount ≤ label → label < d.labelCount → goals label = places label) →
        d.constants <+: pool → (view (.genuine around)).Flows pool goals Y code
          ((within (.genuine around) n).onward c.constants j Z) := by
  obtain ⟨refs, template, captured⟩ := plain.of_closure
  obtain ⟨p, same, formed, ⟨D, charted, start⟩, -⟩ := template.of_template
  obtain rfl := Value.procedure.inj same
  obtain ⟨-, exits, -⟩ := callShape?_spec shape
  cases Y with
  | none =>
    refine ⟨fun _ => none, fun {goals pool} agree _ => ?_⟩
    have dead : (view (.genuine around)).Flows pool goals none code none := .dead fun i member anchors => by
      obtain ⟨low, high⟩ := h.label_mem formed.numbered (mem_labelsOf.mpr ⟨i, member, anchors, rfl⟩)
      exact agree i.operand low high
    exact dead.widen Option.none_le
  | some S =>
    rw [View.onward_some _ (by rw [const]; rfl)] at next
    obtain ⟨T, rfl, pushed⟩ := some_of_known next
    obtain ⟨-, called⟩ := allows rfl
    have free : T.Bare := (allows_of_ordinary (ordinary_of_shape shape)).mp called
    have slots : S.slots ≤ T.slots := by
      have le := pushed.2
      unfold within Whereabouts.after at le
      dsimp only at le
      rwa [const] at le
    have bare : S.Bare := fun j => by
      have le := pushed.1 (j + 1)
      unfold within Whereabouts.after at le
      dsimp only at le
      rw [const, free (j + 1)] at le
      exact Content.eq_of_le le fun any => by cases any
    have small : S.bare.below c.localCount = S := by
      rw [bare.bare]
      exact below_of_le (before rfl).1 room
    have stays : (within (.genuine around) n).onward c.constants j (some T) = if tail then none else some T := by
      rw [View.onward, exits]
      cases tail with
      | true => rfl
      | false => exact congrArg some ((after_of_ordinary (ordinary_of_shape shape)).trans free.bare)
    have below (i : Instruction) (member : i ∈ callee.procedure.code) (labels : i.op.effect.operand = .labels) :
        i.operand + c.labelCount < c.labelCount + callee.procedure.labelCount := by
      have inside : i.operand < callee.procedure.labelCount := formed.numbered.below i member labels
      omega
    have enters : some S ≤ (D 0).map (·.under c.localCount S) := by
      refine known_trans (Option.some_le_some.mpr ⟨fun j => le_of_eq (bare j), fun k => ?_⟩)
        (map_known_le under_le start)
      show _ ≤ if k < c.localCount then _ else _
      split
      · exact le_refl _
      · exact Content.le_any _
    refine ⟨landings c callee.procedure (View.goalsOf callee.procedure.code D) (S.bare.below c.localCount)
      (·.under c.localCount S), fun {goals pool} agree found => ?_⟩
    have inner {body : List Instruction} (counts : d.labelCount = (c.hosting callee.procedure tail).labelCount)
        (moved : RelocatedAll (c.siteFor callee.procedure tail) callee (c.hosting callee.procedure tail)
          callee.procedure.code body d) (h : count ≤ maxOperand) :
        (view (.genuine around)).Flows pool goals (some S) (⟨.pushArgs, count, h⟩ :: body) none := by
      have shelter : Shelters (c.siteFor callee.procedure tail) S (View.goalsOf callee.procedure.code D) goals :=
        shelters_landings counts agree
      refine View.Flows.append (ordinary_flows rfl (fun labels => by cases labels) rfl bare) (View.Flows.weaken ?_ enters)
      exact moved.flows charted formed.distinct under_le
        (fun i member labels => shelter.labels _ (below i member labels))
        (fun first grows here known passes => first.carries shelter captured
          (fun v member => stocked v (grows.subset member)) (grows.trans found) passes
          (below _ (List.mem_of_getElem? here))) rfl
    rw [stays]
    cases h with
    | tail h moved => exact inner (by rw [moved.counts]) moved h
    | plain h exit moved =>
      have counts : d.labelCount = (c.hosting callee.procedure false).labelCount := by rw [moved.counts]
      have shelter : Shelters (c.siteFor callee.procedure false) S (View.goalsOf callee.procedure.code D) goals :=
        shelters_landings counts agree
      refine (View.Flows.append (inner counts moved h) (shelter.resumed rfl small bare exit)).widen ?_
      exact Option.some_le_some.mpr ⟨fun j => by rw [bare j, free j], slots⟩

theorem plain_of_hasRole (h : callee.value.HasRole) : callee.value.Serves .plain := by
  obtain ⟨r, serves⟩ := h
  cases serves with
  | scalar scalar => cases scalar
  | closure body each => exact .closure body each

theorem constantFor?_hasRole (h : callee.value.HasRole) {v : Value} (found : constantFor? callee i = some v) :
    v.HasRole := by
  obtain ⟨refs, template, captured⟩ := (plain_of_hasRole h).of_closure
  obtain ⟨p, same, -, -, constants⟩ := template.of_template
  obtain rfl := Value.procedure.inj same
  unfold constantFor? at found
  split at found
  · exact ⟨_, captured found⟩
  · exact constants v (List.mem_of_getElem? found)
  · cases found

theorem formed_of_hasRole (h : callee.value.HasRole) : callee.procedure.chunk.Formed := by
  obtain ⟨refs, template, -⟩ := (plain_of_hasRole h).of_closure
  obtain ⟨p, same, formed, -⟩ := template.of_template
  exact Value.procedure.inj same ▸ formed

variable {o : CompileOptions} {arity : Arity} {t σ τ : Store} {p : Procedure Value}

/-- Code handles references as it did when calls in it are replaced. -/
theorem Inlines.carries {longer : List Instruction} (h : Inlines (fun _ callee => callee.value.HasRole) c code longer d)
    (stocked : ∀ v ∈ c.constants, v.HasRole) (room : n ≤ c.localCount) {X Y : Option Whereabouts}
    (flows : (within (.genuine around) n).Flows c.constants goals X code Y) (placed : ∀ i ∈ code, c.Mentions i) :
    ∃ others : Nat → Option Whereabouts, (∀ label < c.labelCount, others label = goals label) ∧
      ∀ {pool : List Value}, d.constants <+: pool → (view (.genuine around)).Flows pool others X longer Y := by
  have keeps {c d : Chunk} {callee : Closure} {count : Nat} {tail : Bool} {body : List Instruction}
      (stocked : ∀ v ∈ c.constants, v.HasRole) (good : callee.value.HasRole)
      (spliced : Spliced c callee count tail body d) : ∀ v ∈ d.constants, v.HasRole :=
    spliced.keeps (fun found => constantFor?_hasRole good found) stocked
  refine h.flows (within_refines _ n) (fun c => n ≤ c.localCount ∧ ∀ v ∈ c.constants, v.HasRole)
    (fun good => (formed_of_hasRole good).numbered) ?_ ?_ ⟨room, stocked⟩ flows placed
  · rintro c d callee count tail body ⟨room, stocked⟩ good spliced
    refine ⟨Nat.le_trans room ?_, keeps stocked good spliced⟩
    rw [spliced.mem.1]
    exact Nat.le_add_right _ _
  · rintro c d callee count tail body i j Y Z ⟨room, stocked⟩ good - - spliced const shape before next allows
    exact spliced.carries (plain_of_hasRole good) (keeps stocked good spliced) room const shape before next allows

/-- What is built of code that handles references as it should is a template. -/
theorem build_serves (h : Yields (c.build arity o) σ p τ) (formed : c.Formed)
    (stocked : ∀ v ∈ c.constants, v.HasRole)
    (chart : ∃ D, (within (.genuine refs) c.localCount).Charted c.constants c.code D ∧ some {} ≤ D 0) :
    (Value.procedure p).Serves (.template refs) := by
  obtain ⟨d, u, checked, optimized, -, chunk, -⟩ := build_yields h
  obtain ⟨source, shortens⟩ := shortens_shorten formed.distinct
  obtain ⟨D, charted, start⟩ := chart
  have short := charted.shortens shortens formed.distinct (allows_short charted)
  have begins : some {} ≤ (D ∘ source) 0 := by
    rw [Function.comp, shortens.start]
    exact start
  have flows := short.flows formed.shorten.distinct
  suffices d.Formed ∧ (∃ goals, (view (.genuine refs)).Flows d.constants goals ((D ∘ source) 0) d.code none) ∧
      ∀ v ∈ d.constants, v.HasRole by
    subst chunk
    obtain ⟨whole, ⟨goals, follows⟩, stocked⟩ := this
    obtain ⟨E, chart, starts⟩ := follows.charted whole.distinct whole.anchored
    exact .of_chart whole ⟨E, chart, known_trans begins starts⟩ stocked
  unfold optimize at optimized
  dsimp only at optimized
  split at optimized
  · obtain ⟨result, w, inlined, same⟩ := Yields.bind_iff.mp optimized
    obtain ⟨rfl, -⟩ := Yields.pure_iff.mp same
    have inlines : Inlines (fun _ callee => callee.value.HasRole) { c with code := shorten c.code } (shorten c.code) result.1 result.2 :=
      inlines_of_yields (fun good found => constantFor?_hasRole good found) inlined stocked
    have kept := inlines.keeps (S := Value.HasRole) (fun good found => constantFor?_hasRole good found) stocked
    obtain ⟨others, -, follows⟩ := inlines.carries stocked (Nat.le_refl _) flows
      fun i member => (formed.shorten.fits i member).mentions
    exact ⟨(inlines.grows formed_of_hasRole).formed formed.shorten, ⟨others, follows (List.prefix_refl _)⟩, kept⟩
  · obtain ⟨rfl, -⟩ := Yields.pure_iff.mp optimized
    exact ⟨formed.shorten, ⟨_, flows.refine (within_refines _ _)⟩, stocked⟩

end Chunk

end StackLisp
