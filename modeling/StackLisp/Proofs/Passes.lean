import StackLisp.Proofs.Arms
import StackLisp.Proofs.Grafts

/-!
What the passes make of the code of clauses. They leave the tests as they are and do to each arm what they do to
its code alone, since neither a call nor a return stands across a label and no arm jumps into another to return.
-/

namespace StackLisp

/-- Whether a call was inlined. -/
def Event.isInlined : Event → Bool
  | .inlined _ _ _ => true
  | _ => false

/-- The number of calls inlined so far. -/
def Store.inlined (s : Store) : Nat :=
  s.events.countP Event.isInlined

namespace Chunk

/-- Code that starts with a label, or none at all. -/
def Begins (code : List Instruction) : Prop :=
  ∀ i ∈ code.head?, i.op = .label

/-- The passes leave the instruction as it is. -/
structure Abides (i : Instruction) : Prop where
  jump : i.op ≠ .jump
  literal : fused? i.op = none
  call : callShape? i = none

variable {front back code : List Instruction} {i : Instruction} {label : Nat}

theorem abides_label (h : i.op = .label) : Abides i :=
  ⟨by simp [h], by simp [h, fused?], by simp [callShape?, h]⟩

theorem tailForm?_eq_none (h : callShape? i = none) : tailForm? i = none := by
  cases form : tailForm? i with
  | none => rfl
  | some tail =>
    obtain ⟨count, shape, -⟩ := callShape?_of_tailForm? form
    cases shape.symm.trans h

theorem tailForm?_of_exits (exits : i.op.effect.exits) : tailForm? i = none := by
  unfold tailForm?
  split
  next op => rw [op] at exits; cases exits
  next op => rw [op] at exits; cases exits
  next op => rw [op] at exits; cases exits
  · rfl

/-! ### One pass after another -/

theorem fuseReturns_abides (abides : Abides i) (code : List Instruction) :
    fuseReturns (i :: code) = i :: fuseReturns code := by
  cases code with
  | nil => rfl
  | cons j code => rw [fuseReturns, abides.literal]

theorem convertTailCalls_abides (abides : Abides i) (code : List Instruction) :
    convertTailCalls (i :: code) = i :: convertTailCalls code := by
  rw [convertTailCalls, tailForm?_eq_none abides.call]

theorem exits_of_fused? {op fused : Opcode} (h : fused? op = some fused) : fused.effect.exits := by
  cases op <;> cases h <;> rfl

/-- A literal is fused with no return behind a label. -/
theorem fuseReturns_append (begins : Begins back) :
    fuseReturns (front ++ back) = fuseReturns front ++ fuseReturns back := by
  fun_induction fuseReturns front with
  | case1 => rfl
  | case2 i =>
    cases back with
    | nil => rfl
    | cons j back =>
      have label : j.op = .label := begins j rfl
      show fuseReturns (i :: j :: back) = i :: fuseReturns (j :: back)
      unfold fuseReturns
      split
      · rw [if_neg (by simp [label]), fuseReturns.eq_def]
      · rw [fuseReturns.eq_def]
  | case3 i j code op fused ret ih =>
    show fuseReturns (i :: j :: (code ++ back)) = _
    rw [fuseReturns, fused]
    simp [ret, ih]
  | case4 i j code op fused other ih =>
    show fuseReturns (i :: j :: (code ++ back)) = _
    rw [fuseReturns, fused]
    simp only [if_neg other]
    rw [← List.cons_append, ih, List.cons_append]
  | case5 i j code plain ih =>
    show fuseReturns (i :: j :: (code ++ back)) = _
    rw [fuseReturns, plain]
    dsimp only
    rw [← List.cons_append, ih, List.cons_append]

theorem Closed.of_cons (closed : Closed (i :: code)) : Closed code := by
  cases code with
  | nil => exact fun _ member => absurd member (Option.not_mem_none _)
  | cons j code => exact closed

theorem Closed.cons (closed : Closed code) (alone : code = [] → i.op.effect.exits) : Closed (i :: code) := by
  cases code with
  | nil =>
    intro j last
    obtain rfl := Option.some.inj last
    exact alone rfl
  | cons j code => exact closed

theorem eq_nil_of_fuseReturns (h : fuseReturns code = []) : code = [] := by
  fun_cases fuseReturns code <;> simp_all [fuseReturns]

theorem Closed.fuseReturns (closed : Closed code) : Closed (fuseReturns code) := by
  fun_induction Chunk.fuseReturns code with
  | case1 => exact closed
  | case2 => exact closed
  | case3 i j code op fused ret ih => exact (ih closed.of_cons.of_cons).cons fun _ => exits_of_fused? fused
  | case4 i j code op fused other ih =>
    exact (ih closed.of_cons).cons fun none => absurd (eq_nil_of_fuseReturns none) (List.cons_ne_nil _ _)
  | case5 i j code plain ih =>
    exact (ih closed.of_cons).cons fun none => absurd (eq_nil_of_fuseReturns none) (List.cons_ne_nil _ _)

/-- No call becomes a tail call for a return behind a label that closed code does not reach. -/
theorem convertTailCalls_append (closed : Closed front) :
    convertTailCalls (front ++ back) = convertTailCalls front ++ convertTailCalls back := by
  fun_induction convertTailCalls front with
  | case1 => rfl
  | case2 i code plain ih =>
    rw [List.cons_append, convertTailCalls, plain]
    dsimp only
    rw [ih closed.of_cons, List.cons_append]
  | case3 i tail form =>
    have exits := closed i rfl
    rw [tailForm?_of_exits exits] at form
    cases form
  | case4 i tail form j code ret ih =>
    rw [List.cons_append, List.cons_append, convertTailCalls, form]
    dsimp only
    rw [if_pos ret, ih closed.of_cons.of_cons, List.cons_append]
  | case5 i tail form j code other leads ih =>
    have same : leadsToReturn (j :: code ++ back) 0 = leadsToReturn (j :: code) 0 :=
      leadsToReturn_closed closed.of_cons (Nat.zero_lt_succ code.length)
    rw [List.cons_append, List.cons_append, convertTailCalls, form]
    dsimp only
    rw [if_neg other, ← List.cons_append, same, if_pos leads, ih closed.of_cons, List.cons_append]
  | case6 i tail form j code other unled ih =>
    have same : leadsToReturn (j :: code ++ back) 0 = leadsToReturn (j :: code) 0 :=
      leadsToReturn_closed closed.of_cons (Nat.zero_lt_succ code.length)
    rw [List.cons_append, List.cons_append, convertTailCalls, form]
    dsimp only
    rw [if_neg other, ← List.cons_append, same, if_neg unled, ih closed.of_cons, List.cons_append]

theorem Begins.returnEarly (begins : Begins code) : Begins (returnEarly code) := by
  intro i first
  have early := early_returnEarly code
  rw [List.head?_eq_getElem?] at first
  cases here : code[0]? with
  | none =>
    rw [List.getElem?_eq_none_iff, ← early.length, ← List.getElem?_eq_none_iff, first] at here
    cases here
  | some j =>
    have label := begins j (List.head?_eq_getElem? ▸ here)
    obtain rfl := Option.some.inj (first.symm.trans (early.kept here (by simp [label])))
    exact label

/-! ### All three of them -/

/-- Closed code whose jumps stay in it is shortened apart from what follows behind a label. -/
theorem shorten_append (distinct : (labelsOf (front ++ back)).Nodup) (begins : Begins back) (closed : Closed front)
    (ahead : ∀ i ∈ front, i.op = .jump → i.operand ∈ labelsOf front ∨ Bars (front ++ back) i.operand)
    (behind : ∀ i ∈ back, i.op = .jump → i.operand ∈ labelsOf back ∨ Bars (front ++ back) i.operand) :
    shorten (front ++ back) = shorten front ++ shorten back := by
  have early := returnEarly_append distinct (fun i member jump => (ahead i member jump).imp_left fun own =>
    ⟨own, closed⟩) behind
  have fused : fuseReturns (returnEarly front ++ returnEarly back) = _ := fuseReturns_append begins.returnEarly
  have shut := ((early_returnEarly front).closed closed).fuseReturns
  unfold shorten
  rw [early, fused, convertTailCalls_append shut]

theorem returnEarly_of_none (none : ∀ i ∈ code, i.op ≠ .jump) : returnEarly code = code := by
  have early := early_returnEarly code
  refine List.ext_getElem? fun k => ?_
  cases here : code[k]? with
  | none =>
    rw [List.getElem?_eq_none_iff] at here ⊢
    rwa [early.length]
  | some i => exact early.kept here (none i (List.mem_of_getElem? here))

theorem shorten_abides (distinct : (labelsOf (front ++ back)).Nodup) (abides : ∀ i ∈ front, Abides i)
    (behind : ∀ i ∈ back, i.op = .jump → i.operand ∈ labelsOf back ∨ Bars (front ++ back) i.operand) :
    shorten (front ++ back) = front ++ shorten back := by
  have plain : ∀ i ∈ front, i.op ≠ .jump := fun i member => (abides i member).jump
  have early := returnEarly_append distinct (fun i member jump => absurd jump (plain i member)) behind
  rw [returnEarly_of_none plain] at early
  unfold shorten
  rw [early]
  clear early plain behind distinct
  induction front with
  | nil => rfl
  | cons i front ih =>
    obtain ⟨first, others⟩ := List.forall_mem_cons.mp abides
    rw [List.cons_append, fuseReturns_abides first, convertTailCalls_abides first, ih others, List.cons_append]

theorem Blocked.shift {pc : Nat} (h : Blocked back pc) (front : List Instruction) :
    Blocked (front ++ back) (front.length + pc) := by
  have place {k : Nat} {i : Instruction} (here : back[k]? = some i) :
      (front ++ back)[front.length + k]? = some i := by
    rw [List.getElem?_append_right (Nat.le_add_right ..), Nat.add_sub_cancel_left, here]
  induction h with
  | acts here acts => exact .acts (place here) acts
  | label here label _ ih => exact .label (place here) label ih

theorem Bars.append (h : ∀ (pc : Nat) (i : Instruction), front[pc]? = some i → i.op = .label → i.operand = label →
    Blocked (front ++ back) pc) (g : Bars back label) : Bars (front ++ back) label := by
  intro pc i here is named
  by_cases inside : pc < front.length
  · rw [List.getElem?_append_left inside] at here
    exact h pc i here is named
  · rw [List.getElem?_append_right (Nat.le_of_not_lt inside)] at here
    have blocked := (g _ i here is named).shift front
    rwa [Nat.add_sub_of_le (Nat.le_of_not_lt inside)] at blocked

namespace Contained

theorem closed (h : Contained code) : Closed code := by
  obtain ⟨body, rfl, -, -⟩ := h
  intro i last
  rw [List.getLast?_concat] at last
  obtain rfl := Option.some.inj last
  rfl

/-- The one label outside to which the code may jump is the first of all. -/
theorem jumps (h : Contained code) {whole : List Instruction} (bars : Bars whole 0) :
    ∀ i ∈ code, i.op = .jump → i.operand ∈ labelsOf code ∨ Bars whole i.operand := by
  obtain ⟨body, rfl, secluded, -⟩ := h
  intro i member jump
  rw [labelsOf_append]
  rcases List.mem_append.mp member with inside | last
  · exact (secluded.jumps i inside jump).imp (List.mem_append_left _) fun (zero : i.operand = 0) => zero ▸ bars
  · obtain rfl := List.mem_singleton.mp last
    cases jump

theorem acts (h : Contained code) (rest : List Instruction) : ∃ i, (code ++ rest)[0]? = some i ∧ i.op.acts := by
  obtain ⟨body, rfl, secluded, some⟩ := h
  obtain ⟨i, body, rfl⟩ := List.exists_cons_of_ne_nil some
  exact ⟨i, rfl, secluded.first i rfl⟩

end Contained

/-! ### Inlining -/

/-- An instruction that is no constant before a call stays. -/
theorem inlineCalls_keep {b : Nat} {c : Chunk} {s t : Store} {result : List Instruction × Chunk}
    (uncalled : i.op = .const → ∀ j ∈ code.head?, callShape? j = none)
    (h : Yields (inlineCalls b c (i :: code)) s result t) :
    ∃ rest d, result = (i :: rest, d) ∧ Yields (inlineCalls b c code) s (rest, d) t := by
  cases code with
  | nil =>
    obtain ⟨rfl, rfl⟩ := Yields.pure_iff.mp h
    exact ⟨[], c, rfl, rfl⟩
  | cons j code =>
    have kept : Yields (inlineCalls b c (j :: code) >>= fun made => pure (i :: made.1, made.2)) s result t := by
      rw [inlineCalls] at h
      split at h
      · exact h
      next calls =>
        obtain ⟨-, const⟩ := not_or.mp calls
        rw [uncalled (not_not.mp const) j rfl] at h
        exact h
    obtain ⟨⟨rest, d⟩, u, inlined, same⟩ := Yields.bind_iff.mp kept
    obtain ⟨rfl, rfl⟩ := Yields.pure_iff.mp same
    exact ⟨rest, d, rfl, inlined⟩

theorem isInlined_of_refusal? {globals : NamespaceId} {p : Procedure Value} {count : Nat} {e : Event}
    (h : refusal? globals p count = some e) : e.isInlined = false := by
  unfold refusal? at h
  split at h
  · cases h
    rfl
  split at h
  · cases h
    rfl
  split at h
  · cases h
    rfl
  · cases h

theorem inlined_report_of_refusal? {globals : NamespaceId} {p : Procedure Value} {count : Nat} {e : Event}
    (h : refusal? globals p count = some e) (s : Store) : (s.report e).inlined = s.inlined := by
  unfold Store.inlined Store.report
  rw [List.countP_cons, isInlined_of_refusal? h]
  rfl

/-- What comes first makes the front of the code, and what follows is inlined from what is left of the budget. -/
def Apart (b : Nat) (first : Build (List Instruction × Chunk)) (back : List Instruction) (s : Store)
    (result : List Instruction × Chunk) (t : Store) : Prop :=
  ∃ made others left e u, result.1 = made ++ others ∧ Yields first s (made, e) u ∧
    left + u.inlined = b + s.inlined ∧ Yields (inlineCalls left e back) u (others, result.2) t

theorem Apart.keep {b : Nat} {whole first : Build (List Instruction × Chunk)} {s t : Store}
    {result : List Instruction × Chunk} (h : Yields (whole >>= fun made => pure (i :: made.1, made.2)) s result t)
    (apart : ∀ {made}, Yields whole s made t → Apart b first back s made t) :
    Apart b (first >>= fun made => pure (i :: made.1, made.2)) back s result t := by
  obtain ⟨whole, u, kept, same⟩ := Yields.bind_iff.mp h
  obtain ⟨rfl, rfl⟩ := Yields.pure_iff.mp same
  obtain ⟨made, others, left, e, u, same, front, budget, behind⟩ := apart kept
  have keeps : Yields (first >>= fun made => pure (i :: made.1, made.2)) s (i :: made, e) u :=
    Yields.bind_iff.mpr ⟨_, _, front, rfl⟩
  exact ⟨i :: made, others, left, e, u, congrArg (i :: ·) same, keeps, budget, behind⟩

theorem Apart.behind {α : Type} {b : Nat} {before : Build α} {first : α → Build (List Instruction × Chunk)}
    {v : α} {s t u : Store} {result : List Instruction × Chunk} (made : Yields before s v u)
    (quiet : u.inlined = s.inlined) (h : Apart b (first v) back u result t) :
    Apart b (before >>= first) back s result t := by
  obtain ⟨code, others, left, e, w, same, front, budget, behind⟩ := h
  exact ⟨code, others, left, e, w, same, Yields.bind_iff.mpr ⟨_, _, made, front⟩, quiet ▸ budget, behind⟩

/-- Before a label and behind it calls are inlined apart. -/
theorem inlineCalls_append {b : Nat} {c : Chunk} {s t : Store} {result : List Instruction × Chunk}
    (begins : Begins back) (h : Yields (inlineCalls b c (front ++ back)) s result t) :
    Apart b (inlineCalls b c front) back s result t := by
  have stops (i : Instruction) : i.op = .const → ∀ j ∈ back.head?, callShape? j = none :=
    fun _ j first => (abides_label (begins j first)).call
  fun_induction inlineCalls b c front generalizing s result with
  | case1 b c => exact ⟨[], result.1, b, c, s, rfl, rfl, rfl, h⟩
  | case2 b c i =>
    obtain ⟨rest, e, rfl, inlined⟩ := inlineCalls_keep (stops i) h
    exact ⟨[i], rest, b, c, s, rfl, rfl, rfl, inlined⟩
  | case3 =>
    rename_i b c i j code keep hold ih
    rw [List.cons_append, List.cons_append, inlineCalls, if_pos hold] at h
    exact .keep h ih
  | case4 =>
    rename_i b c i j code keep calls shape ih
    rw [List.cons_append, List.cons_append, inlineCalls, if_neg calls, shape] at h
    exact .keep h ih
  | case5 =>
    rename_i b c i j code keep calls count tail shape ihKeep ihRest
    rw [List.cons_append, List.cons_append, inlineCalls, if_neg calls, shape] at h
    have keeps {s : Store} (h : Yields (inlineCalls b c (j :: (code ++ back)) >>= fun made =>
        pure (i :: made.1, made.2)) s result t) : Apart b keep back s result t :=
      .keep h ihKeep
    obtain ⟨v, s, fetching, choosing⟩ := Yields.bind_iff.mp h
    obtain ⟨looked, rfl⟩ := Build.lift_iff.mp fetching
    have found : Yields (Build.lift (fetch c.constants i.operand)) s v s := Build.lift_iff.mpr ⟨looked, rfl⟩
    cases v with
    | closure p captured =>
      dsimp only at choosing
      split at choosing
      next e refused =>
        obtain ⟨_, u, reported, kept⟩ := Yields.bind_iff.mp choosing
        have event : u = s.report e := Yields.modify_iff.mp reported
        refine .behind found rfl ?_
        dsimp only
        rw [refused]
        exact .behind reported (event ▸ inlined_report_of_refusal? refused s) (keeps kept)
      next accepted =>
        obtain ⟨moved, s, splicing, inlined⟩ := Yields.bind_iff.mp choosing
        obtain ⟨spliced, rfl⟩ := Build.lift_iff.mp splicing
        obtain ⟨_, v, reported, following⟩ := Yields.bind_iff.mp inlined
        obtain ⟨rest, x, others, joined⟩ := Yields.bind_iff.mp following
        obtain ⟨rfl, rfl⟩ := Yields.pure_iff.mp joined
        have event : v = s.report (.inlined p.name count tail) := Yields.modify_iff.mp reported
        have counted : v.inlined = s.inlined + 1 := by
          rw [event]
          exact List.countP_cons_of_pos (p := Event.isInlined) rfl
        obtain ⟨made, others, left, d, x, same, front, budget, behind⟩ := ihRest _ others
        refine ⟨moved.1 ++ made, others, left, d, x, ?_, Yields.bind_iff.mpr ⟨_, _, found, ?_⟩, ?_, behind⟩
        · show moved.1 ++ rest.1 = _
          rw [same, List.append_assoc]
        · dsimp only
          rw [accepted]
          exact Yields.bind_iff.mpr ⟨_, _, splicing, Yields.bind_iff.mpr ⟨_, _, reported,
            Yields.bind_iff.mpr ⟨_, _, front, rfl⟩⟩⟩
        · have some : b ≠ 0 := (not_or.mp calls).1
          omega
    | _ => exact .behind found rfl (keeps choosing)

theorem inlineCalls_abides {b : Nat} {c : Chunk} {s t : Store} {result : List Instruction × Chunk}
    (abides : ∀ i ∈ front, Abides i) (last : ∀ i ∈ front.getLast?, i.op ≠ .const)
    (h : Yields (inlineCalls b c (front ++ back)) s result t) :
    ∃ rest, result.1 = front ++ rest ∧ Yields (inlineCalls b c back) s (rest, result.2) t := by
  induction front generalizing result with
  | nil => exact ⟨result.1, rfl, h⟩
  | cons i front ih =>
    obtain ⟨first, others⟩ := List.forall_mem_cons.mp abides
    have uncalled : i.op = .const → ∀ j ∈ (front ++ back).head?, callShape? j = none := by
      intro const j next
      cases front with
      | nil => exact absurd const (last i rfl)
      | cons k front =>
        obtain rfl := Option.some.inj next
        exact (others k List.mem_cons_self).call
    obtain ⟨made, d, rfl, following⟩ := inlineCalls_keep uncalled h
    obtain ⟨rest, same, inlined⟩ := ih others (fun j member => last j (by
      cases front with
      | nil => cases member
      | cons => exact member)) following
    exact ⟨rest, congrArg (i :: ·) same, inlined⟩

theorem Inlines.labels {good : Bool → Closure → Prop} {c d : Chunk} {longer : List Instruction}
    (h : Inlines good c code longer d) : (labelsOf code).Sublist (labelsOf longer) := by
  induction h with
  | nil => exact List.Sublist.refl _
  | @keep c d i code rest others ih =>
    rw [← List.singleton_append, ← List.singleton_append (l := rest), labelsOf_append, labelsOf_append]
    exact ih.append_left _
  | @splice c d e i j callee count tail code body rest const found shape callees home accepts inlinable spliced others
      ih =>
    rw [show i :: j :: code = [i, j] ++ code from rfl, labelsOf_append, labelsOf_append, labelsOf_call const shape]
    exact ih.trans (List.sublist_append_right ..)

/-- What the passes come to: code that is shorter, with calls inlined in it where that is asked for. -/
theorem optimize_yields {o : CompileOptions} {c d : Chunk} {s t : Store} (h : Yields (c.optimize o) s d t) :
    if o.inline then ∃ result, d = { result.2 with code := result.1 } ∧
      Yields (inlineCalls o.maxInlinedCalls { c with code := shorten c.code } (shorten c.code)) s result t
    else d = { c with code := shorten c.code } := by
  unfold optimize at h
  dsimp only at h
  split at h
  next inline =>
    rw [if_pos inline]
    obtain ⟨result, u, inlined, same⟩ := Yields.bind_iff.mp h
    obtain ⟨rfl, rfl⟩ := Yields.pure_iff.mp same
    exact ⟨result, rfl, inlined⟩
  next plain =>
    rw [if_neg plain]
    exact (Yields.pure_iff.mp h).1

theorem labels_nodup_of_build {c : Chunk} {arity : Arity} {o : CompileOptions} {s t : Store} {p : Procedure Value}
    (built : Yields (c.build arity o) s p t) : (labelsOf c.code).Nodup := by
  obtain ⟨d, u, checked, optimized, accepted, -⟩ := build_yields built
  have distinct := labels_nodup_of_verify accepted
  have made := optimize_yields optimized
  rw [← labelsOf_shorten]
  split at made
  · obtain ⟨result, rfl, inlined⟩ := made
    have inlines := inlines_of_yields (S := fun _ => True) (fun _ _ => trivial) inlined fun _ _ => trivial
    exact distinct.sublist inlines.labels
  · rw [made] at distinct
    exact distinct

end Chunk

/-- The operations of tests, and of what stands behind them. -/
def Opcode.tests : Opcode → Bool
  | posInt | argLen | numGte | numEq | condJump | const | panic => true
  | _ => false

theorem Chunk.abides_of_tests {i : Instruction} (h : i.op.tests) : Chunk.Abides i := by
  obtain ⟨op, operand, small⟩ := i
  cases op <;> first | (cases h; done) | exact ⟨nofun, rfl, rfl⟩

theorem Tests.tests {cs : List (Clause × Nat)} {is : List Instruction} (h : Tests cs is) :
    ∀ i ∈ is, i.op.tests := by
  induction h with
  | nil => exact fun _ => nofun
  | @cons c _ _ _ _ _ _ ih =>
    have compares : (if c.isVariadic then Opcode.numGte else Opcode.numEq).bare.op.tests := by
      split <;> rfl
    exact List.forall_mem_cons.mpr ⟨rfl, List.forall_mem_cons.mpr ⟨rfl,
      List.forall_mem_cons.mpr ⟨compares, List.forall_mem_cons.mpr ⟨rfl, ih⟩⟩⟩⟩

namespace Arm

open Chunk

variable {arms : List Arm} {code gate : List Instruction}

theorem Lie.begins (h : Lie arms code) : Begins code := by
  cases h with
  | nil => exact fun _ member => absurd member (Option.not_mem_none _)
  | cons small others =>
    intro i first
    obtain rfl := Option.some.inj first
    rfl

theorem Lie.jumps (h : Lie arms code) (contained : ∀ arm ∈ arms, Contained arm.code) {whole : List Instruction}
    (bars : Bars whole 0) : ∀ i ∈ code, i.op = .jump → i.operand ∈ labelsOf code ∨ Bars whole i.operand := by
  induction h with
  | nil => exact fun i member => absurd member List.not_mem_nil
  | @cons arm arms rest small others ih =>
    obtain ⟨own, later⟩ := List.forall_mem_cons.mp contained
    intro i member jump
    rw [labelsOf_cons_label rfl, labelsOf_append]
    rcases List.mem_cons.mp member with rfl | inside
    · cases jump
    · rcases List.mem_append.mp inside with here | there
      · exact (own.jumps bars i here jump).imp_left fun found => List.mem_cons_of_mem _ (List.mem_append_left _ found)
      · exact (ih later i there jump).imp_left fun found => List.mem_cons_of_mem _ (List.mem_append_right _ found)

/-- The first label of all, if it is that of an arm, leads to what the arm does first. -/
theorem Lie.bars (h : Lie arms code) (contained : ∀ arm ∈ arms, Contained arm.code)
    (outside : ∀ arm ∈ arms, 0 ∉ labelsOf arm.code) : Bars code 0 := by
  induction h with
  | nil => exact fun pc i here => absurd here (by simp)
  | @cons arm arms rest small others ih =>
    obtain ⟨own, later⟩ := List.forall_mem_cons.mp contained
    obtain ⟨absent, elsewhere⟩ := List.forall_mem_cons.mp outside
    rw [← List.cons_append]
    refine Bars.append (fun pc i here is named => ?_) (ih later elsewhere)
    cases pc with
    | zero =>
      obtain rfl := Option.some.inj here
      obtain ⟨j, next, acts⟩ := own.acts rest
      exact .label rfl rfl (.acts next acts)
    | succ pc =>
      rw [List.getElem?_cons_succ] at here
      exact absurd (mem_labelsOf.mpr ⟨i, List.mem_of_getElem? here, is, named⟩) absent

/-- The same clause with its code shortened. -/
def shortened (arm : Arm) : Arm :=
  { arm with code := shorten arm.code }

/-- The passes shorten each arm by itself. -/
theorem Lie.shortened (h : Lie arms code) (contained : ∀ arm ∈ arms, Contained arm.code)
    (distinct : (labelsOf code).Nodup) (outside : ∀ arm ∈ arms, 0 ∉ labelsOf arm.code) :
    Lie (arms.map shortened) (shorten code) := by
  have bars := h.bars contained outside
  induction h with
  | nil => exact .nil
  | @cons arm arms rest small others ih =>
    obtain ⟨own, later⟩ := List.forall_mem_cons.mp contained
    obtain ⟨absent, elsewhere⟩ := List.forall_mem_cons.mp outside
    let anchor : Instruction := ⟨.label, arm.label, small⟩
    have parts : (labelsOf (anchor :: arm.code) ++ labelsOf rest).Nodup := by
      rwa [← labelsOf_append]
    obtain ⟨first, second, -⟩ := List.nodup_append.mp parts
    have whole : shorten (anchor :: (arm.code ++ rest)) = shorten (anchor :: arm.code) ++ shorten rest := by
      rw [← List.cons_append]
      refine shorten_append distinct others.begins (own.closed.cons ?_) ?_ (others.jumps later bars)
      · rintro none
        obtain ⟨i, here, -⟩ := own.acts []
        rw [none] at here
        cases here
      · intro i member jump
        rcases List.mem_cons.mp member with rfl | inside
        · cases jump
        · exact (own.jumps bars i inside jump).imp_left (List.mem_cons_of_mem _)
    have labelled : shorten (anchor :: arm.code) = anchor :: shorten arm.code := by
      have alone : Lie [arm] (anchor :: (arm.code ++ [])) := .cons small .nil
      rw [List.append_nil] at alone
      have barred := alone.bars (List.forall_mem_singleton.mpr own) (List.forall_mem_singleton.mpr absent)
      show shorten ([anchor] ++ arm.code) = [anchor] ++ shorten arm.code
      exact shorten_abides first (List.forall_mem_singleton.mpr (abides_label rfl)) (own.jumps barred)
    rw [whole, labelled]
    exact @Lie.cons arm.shortened _ _ small (ih later second elsewhere (others.bars later elsewhere))

/-! ### From the clauses to the code of a body -/

theorem Gate.tests (h : Gate arms gate) : ∀ i ∈ gate, i.op.tests := by
  cases h with
  | intro tests small =>
    exact List.forall_mem_append.mpr ⟨tests.tests,
      List.forall_mem_cons.mpr ⟨rfl, List.forall_mem_singleton.mpr rfl⟩⟩

theorem Gate.last (h : Gate arms gate) : ∀ i ∈ gate.getLast?, i.op ≠ .const := by
  cases h with
  | intro tests small => simp [Opcode.bare]

/-- The same clauses at the same labels are told apart by the same tests. -/
theorem Gate.congr {made : List Arm} (h : Gate arms gate) (same : made.map pair = arms.map pair) : Gate made gate := by
  cases h with
  | intro tests small => exact .intro (same ▸ tests) small

theorem Gate.abides (h : Gate arms gate) : ∀ i ∈ gate, Abides i :=
  fun i member => abides_of_tests (h.tests i member)

theorem pairs_shortened (arms : List Arm) : (arms.map shortened).map pair = arms.map pair := by
  rw [List.map_map]
  rfl

theorem Lie.outside {first : Arm} (h : Lie (first :: arms) code) (distinct : (labelsOf code).Nodup) :
    ∀ arm ∈ first :: arms, first.label ∉ labelsOf arm.code := by
  cases h with
  | @cons _ _ rest small others =>
    rw [labelsOf_cons_label rfl, labelsOf_append] at distinct
    obtain ⟨own, later⟩ := not_or.mp (mt List.mem_append.mpr (List.nodup_cons.mp distinct).1)
    refine List.forall_mem_cons.mpr ⟨own, fun arm member inside => later ?_⟩
    obtain ⟨before, i, after, -, -, rfl⟩ := others.place member
    obtain ⟨j, here, label, named⟩ := mem_labelsOf.mp inside
    exact mem_labelsOf.mpr ⟨j, by simp [here], label, named⟩

/-- Where several arms lie behind their tests, no label of an arm is the first of all. -/
theorem Lie.unlabelled (h : Lie arms code) (labels : arms.map label = List.range arms.length)
    (distinct : (labelsOf code).Nodup) : ∀ arm ∈ arms, 0 ∉ labelsOf arm.code := by
  cases arms with
  | nil => exact fun arm member => absurd member List.not_mem_nil
  | cons first arms =>
    rw [List.length_cons, List.range_succ_eq_map] at labels
    have zero : first.label = 0 := (List.cons.inj labels).1
    exact zero ▸ h.outside distinct

/-- The passes leave the tests as they are and shorten each arm by itself. -/
theorem Fill.shortened (h : Fill arms code) (contained : ∀ arm ∈ arms, Contained arm.code)
    (distinct : (labelsOf code).Nodup) : Fill (arms.map shortened) (shorten code) := by
  cases h with
  | single arm => exact .single arm.shortened
  | @several _ gate rest many labels gates lie =>
    have parts := distinct
    rw [labelsOf_append] at parts
    have outside := lie.unlabelled labels (List.nodup_append.mp parts).2.1
    have bars : Bars (gate ++ rest) 0 := by
      refine Bars.append (fun pc i here is _ => ?_) (lie.bars contained outside)
      have tested := gates.tests i (List.mem_of_getElem? here)
      rw [is] at tested
      cases tested
    rw [shorten_abides distinct gates.abides (lie.jumps contained bars)]
    refine .several (by rwa [List.length_map]) ?_ (gates.congr (pairs_shortened arms))
      (lie.shortened contained (List.nodup_append.mp parts).2.1 outside)
    rw [List.map_map, List.length_map]
    exact labels

/-- In each arm in turn calls are inlined, by itself, from what is left of the budget. -/
inductive Inlining : Nat → Chunk → Store → List Arm → List Arm → Chunk → Store → Prop
  | nil {b : Nat} {c : Chunk} {s : Store} : Inlining b c s [] [] c s
  | cons {b left : Nat} {c d e : Chunk} {s t u : Store} {arm : Arm} {arms others : List Arm}
    {code : List Instruction} (yields : Yields (inlineCalls b c arm.code) s (code, e) u)
    (budget : left + u.inlined = b + s.inlined) (rest : Inlining left e u arms others d t) :
    Inlining b c s (arm :: arms) ({ arm with code } :: others) d t

section

variable {b : Nat} {c d : Chunk} {s t : Store} {made : List Arm} {result : List Instruction × Chunk}

theorem Inlining.pairs (h : Inlining b c s arms made d t) : made.map pair = arms.map pair := by
  induction h with
  | nil => rfl
  | @cons _ _ _ _ _ _ _ _ arm _ _ _ _ _ _ ih => exact congrArg (arm.pair :: ·) ih

theorem Lie.inlining (h : Lie arms code) (yields : Yields (inlineCalls b c code) s result t) :
    ∃ made, Lie made result.1 ∧ Inlining b c s arms made result.2 t := by
  induction h generalizing b c s result with
  | nil =>
    obtain ⟨rfl, rfl⟩ := Yields.pure_iff.mp yields
    exact ⟨[], .nil, .nil⟩
  | @cons arm arms rest small others ih =>
    obtain ⟨following, d, rfl, inlined⟩ := inlineCalls_keep (fun const => by cases const) yields
    obtain ⟨code, behind, left, e, u, same, own, budget, after⟩ := inlineCalls_append others.begins inlined
    obtain ⟨made, lie, inlining⟩ := ih after
    obtain rfl : following = code ++ behind := same
    exact ⟨{ arm with code } :: made, @Lie.cons { arm with code } _ _ small lie, .cons own budget inlining⟩

/-- Inlining leaves the tests as they are and works on one arm after another. -/
theorem Fill.inlining (h : Fill arms code) (yields : Yields (inlineCalls b c code) s result t) :
    ∃ made, Fill made result.1 ∧ Inlining b c s arms made result.2 t := by
  cases h with
  | single arm =>
    rw [← List.append_nil arm.code] at yields
    obtain ⟨code, none, left, e, u, same, own, budget, after⟩ :=
      inlineCalls_append (fun _ member => absurd member (Option.not_mem_none _)) yields
    obtain ⟨rest, rfl⟩ := Yields.pure_iff.mp after
    obtain ⟨rfl, last⟩ := Prod.mk.inj rest
    rw [same, List.append_nil, last]
    exact ⟨[{ arm with code }], .single { arm with code }, .cons own budget .nil⟩
  | several many labels gates lie =>
    obtain ⟨rest, same, inlined⟩ := inlineCalls_abides gates.abides gates.last yields
    obtain ⟨made, lies, inlining⟩ := lie.inlining inlined
    have pairs := inlining.pairs
    have length : made.length = arms.length := by simpa using congrArg List.length pairs
    refine ⟨made, same ▸ .several (length ▸ many) ?_ (gates.congr pairs) lies, inlining⟩
    rw [length, ← labels]
    have seconds := congrArg (List.map Prod.snd) pairs
    rwa [List.map_map, List.map_map] at seconds

end

/-- The passes as they work on arms: each is shortened, and then calls in it are inlined if that is asked for. -/
def Optimized (o : CompileOptions) (c : Chunk) (s : Store) (source made : List Arm) : Prop :=
  if o.inline then
    ∃ d t, Inlining o.maxInlinedCalls { c with code := shorten c.code } s (source.map shortened) made d t
  else made = source.map shortened

theorem Optimized.pairs {o : CompileOptions} {c : Chunk} {s : Store} {made : List Arm}
    (h : Optimized o c s arms made) : made.map pair = arms.map pair := by
  unfold Optimized at h
  split at h
  · obtain ⟨d, t, inlining⟩ := h
    exact inlining.pairs.trans (pairs_shortened arms)
  · rw [h, pairs_shortened]

/-- A build makes code of the arms that the passes make of each, with the same tests before them. -/
theorem Fill.build {arity : Arity} {o : CompileOptions} {s t : Store} {c : Chunk} {p : Procedure Value}
    (h : Fill arms c.code) (contained : ∀ arm ∈ arms, Contained arm.code) (built : Yields (c.build arity o) s p t) :
    ∃ made, Fill made p.code ∧ Optimized o c s arms made := by
  obtain ⟨d, u, checked, optimized, -, chunk, -⟩ := build_yields built
  have short := h.shortened contained (labels_nodup_of_build built)
  have same : p.code = d.code := congrArg Chunk.code chunk
  have passes := optimize_yields optimized
  rw [same]
  unfold Optimized
  split at passes
  next inline =>
    obtain ⟨result, rfl, inlined⟩ := passes
    obtain ⟨made, fill, inlining⟩ := short.inlining inlined
    exact ⟨made, fill, by rw [if_pos inline]; exact ⟨_, _, inlining⟩⟩
  next plain =>
    rw [passes]
    exact ⟨_, short, by rw [if_neg plain]⟩

end Arm

end StackLisp
