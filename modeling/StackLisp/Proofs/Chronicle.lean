import StackLisp.Proofs.Stability

/-!
What a history of namespaces comes to. The first deed that mentions a name in a namespace makes its entry and
says for good whether it is hidden, and the first that binds it gives the value. All that is ever resolved, and
whether a name can be bound, follows from these two.
-/

namespace StackLisp

/-- What code in the same namespace or below it sees of an entry. -/
def Entry.seen? (e : Entry) (inside : Bool) : Option Value :=
  if inside || !e.hidden then e.value else none

namespace Namespaces

variable {ns : Namespaces} {id place : NamespaceId} {name : String} {v : Value} {deeds : List Deed}

def Deed.target : Deed → NamespaceId
  | .declare place _ => place
  | .hide place _ => place
  | .bind place _ _ => place

/-- Namespaces with all that was done in them since they were made, each below an older one or below none. -/
inductive Past : Namespaces → List Deed → Prop
  | empty : Past [] []
  | add {ns : Namespaces} {deeds : List Deed} (past : Past ns deeds) (name : String) {parent : Option NamespaceId}
      (below : ∀ up ∈ parent, up < ns.length) : Past (ns.add name parent).2 deeds
  | deed {ns : Namespaces} {deeds : List Deed} (past : Past ns deeds) {d : Deed} (made : d.target < ns.length) :
      Past (ns.after d) (deeds ++ [d])

/-- The namespace's own entry for the name. -/
def own? (ns : Namespaces) (place : NamespaceId) (name : String) : Option Entry :=
  (get? ns place).bind (·.find? name)

theorem get?_isSome_iff : (get? ns place).isSome ↔ place < ns.length := by
  induction ns with
  | nil => simp [get?]
  | cons n older ih =>
    unfold get?
    split
    next here => simp [here]
    next other =>
      rw [ih]
      exact ⟨Nat.lt_succ_of_lt, fun before => Nat.lt_of_le_of_ne (Nat.le_of_lt_succ before) other⟩

theorem length_after (d : Deed) : (ns.after d).length = ns.length := by
  cases d with
  | declare | hide => exact length_modify ..
  | bind there other v =>
    rw [after_bind]
    split
    · rfl
    · exact length_modify ..

theorem Past.history (past : Past ns deeds) {more : List Deed} (made : ∀ d ∈ more, d.target < ns.length) :
    Past (ns.history more) (deeds ++ more) := by
  induction more generalizing ns deeds with
  | nil => rwa [List.append_nil]
  | cons d more ih =>
    have first := past.deed (made d List.mem_cons_self)
    rw [show deeds ++ d :: more = (deeds ++ [d]) ++ more by simp]
    exact ih first fun e member => (length_after d).symm ▸ made e (List.mem_cons_of_mem _ member)

theorem Past.target_lt (past : Past ns deeds) {d : Deed} (member : d ∈ deeds) : d.target < ns.length := by
  induction past with
  | empty => cases member
  | add past name below ih => exact Nat.lt_succ_of_lt (ih member)
  | @deed ns deeds past e made ih =>
    rw [length_after]
    rcases List.mem_append.mp member with before | last
    · exact ih before
    · cases List.mem_singleton.mp last
      exact made

/-! ### The way up -/

theorem path_cons_of_lt {n : Namespace} (before : id < ns.length) : path (n :: ns) id = path ns id := by
  rw [path, if_neg (Nat.ne_of_lt before)]

theorem parent_after (d : Deed) :
    (get? (ns.after d) id).map Namespace.parent = (get? ns id).map Namespace.parent := by
  have modified {f : Namespace → Namespace} (keeps : ∀ n, (f n).parent = n.parent) (there : NamespaceId) :
      (get? (modify f ns there) id).map Namespace.parent = (get? ns id).map Namespace.parent := by
    rw [get?_modify]
    split
    · cases get? ns id with
      | none => rfl
      | some n => exact congrArg some (keeps n)
    · rfl
  cases d with
  | declare there other => exact modified (fun n => n.parent_mention) there
  | hide there other => exact modified (fun n => n.parent_mention) there
  | bind there other v =>
    rw [after_bind]
    split
    · rfl
    · exact modified (f := fun n => (n.mention other false).fill other v) (fun n => n.parent_mention) there

theorem Past.parent_lt (past : Past ns deeds) {up : NamespaceId}
    (parent : (get? ns id).map Namespace.parent = some (some up)) : up < id := by
  induction past with
  | empty => cases parent
  | @add older deeds past name above below ih =>
    have inside : (get? (⟨name, above, []⟩ :: older) id).map Namespace.parent = some (some up) := parent
    rw [get?] at inside
    split at inside
    next here =>
      cases inside
      rw [here]
      exact below up rfl
    next before => exact ih inside
  | deed past made ih => exact ih (parent_after _ ▸ parent)

/-- The way up begins with the namespace itself and goes on with the way of its parent. -/
theorem Past.path_eq (past : Past ns deeds) {above : Option NamespaceId}
    (parent : (get? ns id).map Namespace.parent = some above) : path ns id = id :: above.elim [] (path ns) := by
  induction past with
  | empty => cases parent
  | @add older deeds past name last below ih =>
    have unchanged {up : NamespaceId} (before : up < older.length) :
        path (⟨name, last, []⟩ :: older) up = path older up := path_cons_of_lt before
    have inside : (get? (⟨name, last, []⟩ :: older) id).map Namespace.parent = some above := parent
    show path (⟨name, last, []⟩ :: older) id = id :: above.elim [] (path (⟨name, last, []⟩ :: older))
    rw [get?] at inside
    split at inside
    next here =>
      cases inside
      rw [path, if_pos here]
      cases last with
      | none => rfl
      | some up => rw [Option.elim_some, Option.elim_some, unchanged (below up rfl)]
    next before =>
      obtain ⟨n, found, -⟩ := Option.map_eq_some_iff.mp inside
      have made : id < older.length := get?_isSome_iff.mp (found ▸ rfl)
      rw [unchanged made, ih inside]
      cases above with
      | none => rfl
      | some up =>
        have lower : up < older.length := Nat.lt_trans (past.parent_lt inside) made
        rw [Option.elim_some, Option.elim_some, unchanged lower]
  | @deed ns deeds past d made ih =>
    have same : path (ns.after d) = path ns := funext fun id => path_after d
    rw [same]
    exact ih (parent_after d ▸ parent)

/-! ### Entries -/

/-- Whether a deed mentions the name in the namespace, and if so, whether it would hide it. -/
def Deed.mentions? (place : NamespaceId) (name : String) : Deed → Option Bool
  | .declare there other => if there = place ∧ other = name then some false else none
  | .hide there other => if there = place ∧ other = name then some true else none
  | .bind there other _ => if there = place ∧ other = name then some false else none

/-- What a deed would bind the name to in the namespace. -/
def Deed.binds? (place : NamespaceId) (name : String) : Deed → Option Value
  | .bind there other v => if there = place ∧ other = name then some v else none
  | _ => none

/-- The entry that a history leads to from none: hidden or not by the first mention, with the value of the
first bind. -/
def told? (deeds : List Deed) (place : NamespaceId) (name : String) : Option Entry :=
  (deeds.findSome? (Deed.mentions? place name)).map fun hidden =>
    ⟨hidden, deeds.findSome? (Deed.binds? place name)⟩

/-- An entry, if there is one, with what is known besides. -/
def extend (start : Option Entry) (mention : Option Bool) (bound : Option Value) : Option Entry :=
  ((start.map Entry.hidden).or mention).map fun hidden => ⟨hidden, (start.bind Entry.value).or bound⟩

theorem own?_modify {f : Namespace → Namespace} {there : NamespaceId} :
    own? (modify f ns there) place name =
      if place = there then (get? ns place).bind fun n => (f n).find? name else ns.own? place name := by
  unfold own?
  rw [get?_modify]
  split
  · cases get? ns place <;> rfl
  · rfl

theorem isTaken_bound : ns.isTaken place name = ((ns.own? place name).bind Entry.value).isSome := by
  unfold isTaken own?
  cases (get? ns place).bind (·.find? name) <;> rfl

theorem extend_none (start : Option Entry) : extend start none none = start := by
  cases start with
  | none => rfl
  | some e =>
    obtain ⟨hidden, value⟩ := e
    exact congrArg (fun v => some (Entry.mk hidden v)) Option.or_none

theorem own?_mention (there : NamespaceId) (other : String) (hidden : Bool) (made : place < ns.length) :
    own? (modify (·.mention other hidden) ns there) place name =
      extend (ns.own? place name) (if there = place ∧ other = name then some hidden else none) none := by
  obtain ⟨n, found⟩ := Option.isSome_iff_exists.mp (get?_isSome_iff.mpr made)
  have itself : ns.own? place name = n.find? name := by rw [own?, found, Option.bind_some]
  rw [own?_modify]
  by_cases here : place = there
  · subst here
    rw [if_pos rfl, found, Option.bind_some, Namespace.find?_mention, itself]
    by_cases same : name = other
    · subst same
      cases n.find? name with
      | none => simp [extend]
      | some e => simp [extend]
    · rw [if_neg same, if_neg fun both => same both.2.symm, extend_none, Option.or_none]
  · rw [if_neg here, if_neg fun both => here both.1.symm, extend_none]

theorem own?_bind (there : NamespaceId) (other : String) (v : Value) (made : place < ns.length) :
    (ns.after (.bind there other v)).own? place name =
      extend (ns.own? place name) (if there = place ∧ other = name then some false else none)
        (if there = place ∧ other = name then some v else none) := by
  obtain ⟨n, found⟩ := Option.isSome_iff_exists.mp (get?_isSome_iff.mpr made)
  have itself : ns.own? place name = n.find? name := by rw [own?, found, Option.bind_some]
  rw [after_bind]
  by_cases both : there = place ∧ other = name
  · obtain ⟨rfl, rfl⟩ := both
    simp only [and_self, if_true]
    rw [isTaken_bound]
    split
    next taken =>
      obtain ⟨w, bound⟩ := Option.isSome_iff_exists.mp taken
      obtain ⟨⟨hidden, value⟩, here, rfl⟩ := Option.bind_eq_some_iff.mp bound
      simp [here, extend]
    next vacant =>
      rw [own?_modify, if_pos rfl, found, Option.bind_some, Namespace.find?_fill, Namespace.find?_mention]
      rw [itself] at vacant ⊢
      cases here : n.find? other with
      | none => simp [extend]
      | some e =>
        have none : e.value = none := by simpa [here] using vacant
        simp [extend, none]
  · rw [if_neg both, if_neg both, extend_none]
    split
    · rfl
    · rw [own?_modify]
      by_cases here : place = there
      · have differ : name ≠ other := fun same => both ⟨here.symm, same.symm⟩
        rw [if_pos here, found, Option.bind_some, Namespace.find?_fill, Namespace.find?_mention, itself]
        simp [differ]
      · rw [if_neg here]

/-- A deed changes an entry only by what it lacks. -/
theorem own?_after (d : Deed) (made : place < ns.length) :
    (ns.after d).own? place name =
      extend (ns.own? place name) (d.mentions? place name) (d.binds? place name) := by
  cases d with
  | declare there other => exact own?_mention there other false made
  | hide there other => exact own?_mention there other true made
  | bind there other v => exact own?_bind there other v made

theorem extend_extend (start : Option Entry) {mention : Option Bool} {bound : Option Value} (later : Option Bool)
    (other : Option Value) (binder : mention = none → bound = none) :
    extend (extend start mention bound) later other = extend start (mention.or later) (bound.or other) := by
  cases start with
  | some e => simp [extend, Option.or_assoc]
  | none =>
    cases mention with
    | some hidden => simp [extend]
    | none =>
      rw [binder rfl]
      simp [extend]

theorem binds?_eq_none {d : Deed} (h : d.mentions? place name = none) : d.binds? place name = none := by
  cases d with
  | declare | hide => rfl
  | bind there other v =>
    simp only [Deed.mentions?, ite_eq_right_iff, reduceCtorEq, imp_false] at h
    exact if_neg h

theorem mentions?_eq_none {d : Deed} (h : d.target ≠ place) : d.mentions? place name = none := by
  cases d with
  | declare | hide | bind => exact if_neg fun both => h both.1

theorem told?_concat (d : Deed) :
    told? (deeds ++ [d]) place name =
      extend (told? deeds place name) (d.mentions? place name) (d.binds? place name) := by
  have binder : deeds.findSome? (Deed.mentions? place name) = none →
      deeds.findSome? (Deed.binds? place name) = none := fun unknown =>
    List.findSome?_eq_none_iff.mpr fun e member => binds?_eq_none (List.findSome?_eq_none_iff.mp unknown e member)
  have single {β : Type} (f : Deed → Option β) : [d].findSome? f = f d := by
    rw [List.findSome?_cons]
    cases f d <;> rfl
  have extended := extend_extend none (d.mentions? place name) (d.binds? place name) binder
  refine Eq.trans ?_ extended.symm
  rw [← single (Deed.mentions? place name), ← single (Deed.binds? place name), ← List.findSome?_append,
    ← List.findSome?_append]
  rfl

theorem Past.own?_eq (past : Past ns deeds) (made : place < ns.length) :
    ns.own? place name = told? deeds place name := by
  induction past with
  | empty => exact absurd made (Nat.not_lt_zero _)
  | @add older deeds past other parent below ih =>
    by_cases here : place = older.length
    · have fresh : own? (older.add other parent).2 place name = none := by
        subst here
        rw [own?]
        exact congrArg (Option.bind · (·.find? name)) (get?_add older other parent)
      have unknown : deeds.findSome? (Deed.mentions? place name) = none :=
        List.findSome?_eq_none_iff.mpr fun d member =>
          mentions?_eq_none (here ▸ Nat.ne_of_lt (past.target_lt member))
      rw [fresh, told?, unknown]
      rfl
    · have before : place < older.length := Nat.lt_of_le_of_ne (Nat.le_of_lt_succ made) here
      rw [← ih before, own?, own?]
      exact congrArg (Option.bind · (·.find? name)) (get?_cons_of_lt before)
  | @deed ns deeds past d there ih =>
    rw [length_after] at made
    rw [own?_after d made, ih made, told?_concat]

/-! ### Resolution -/

theorem shown?_eq : ns.shown? id name place = (ns.own? place name).bind (·.seen? (place = id)) := by
  unfold shown? own?
  cases get? ns place <;> rfl

/-- A name has the value of the nearest entry that is bound and seen. -/
theorem Past.resolve?_eq (past : Past ns deeds) :
    ns.resolve? id name =
      (ns.path id).findSome? fun place => (told? deeds place name).bind (·.seen? (place = id)) := by
  rw [resolve?_eq_findSome?]
  refine findSome?_congr fun place member => ?_
  rw [shown?_eq, past.own?_eq (lt_of_mem_path member)]

theorem modify_eq_self {f : Namespace → Namespace} (same : ∀ n, get? ns id = some n → f n = n) :
    modify f ns id = ns := by
  induction ns with
  | nil => rfl
  | cons n older ih =>
    unfold modify
    split
    next here => rw [same n (by rw [get?, if_pos here])]
    next other => rw [ih fun m found => same m (by rw [get?, if_neg other, found])]

/-- To mention a name again does nothing. -/
theorem declare_eq_self (known : (ns.own? id name).isSome) : ns.declare id name = ns := by
  refine modify_eq_self fun n found => ?_
  obtain ⟨e, here⟩ := Option.isSome_iff_exists.mp known
  have inside : n.find? name = some e := by rwa [own?, found] at here
  unfold Namespace.mention
  rw [inside]

theorem hidden_told? {before rest : List Deed} {d : Deed} {hidden : Bool}
    (unknown : ∀ e ∈ before, e.mentions? place name = none) (first : d.mentions? place name = some hidden) :
    (told? (before ++ d :: rest) place name).map Entry.hidden = some hidden := by
  have found : (before ++ d :: rest).findSome? (Deed.mentions? place name) = some hidden := by
    rw [List.findSome?_append, List.findSome?_eq_none_iff.mpr unknown, List.findSome?_cons, first]
    rfl
  unfold told?
  rw [found]
  rfl

end Namespaces

namespace Store

open Namespaces

variable {σ : Store} {ns : Namespaces} {id : NamespaceId} {name : String} {v : Value}

theorem resolve_eq : σ.resolve id name =
    (σ.namespaces.resolve? id name).elim (.error (.unboundSymbol name)) .ok := by
  unfold Store.resolve
  cases σ.namespaces.resolve? id name <;> rfl

theorem bind_of_vacant (vacant : σ.namespaces.isTaken id name = false) :
    σ.bind id name v = .ok { σ with namespaces := σ.namespaces.after (.bind id name v) } := by
  unfold Store.bind
  rw [after_bind, Namespaces.bind?, vacant]
  rfl

theorem bind_of_taken (taken : σ.namespaces.isTaken id name = true) :
    σ.bind id name v = .error (.alreadyBound name) := by
  unfold Store.bind
  rw [Namespaces.bind?, if_pos taken]

/-- All that namespaces answer follows from what was done in them. -/
theorem answers_of_past {deeds : List Namespaces.Deed} (past : Past σ.namespaces deeds)
    (made : id < σ.namespaces.length) (name : String) (v : Value) :
    (∃ n, get? σ.namespaces id = some n ∧
      σ.namespaces.path id = id :: n.parent.elim [] σ.namespaces.path) ∧
    σ.resolve id name = ((σ.namespaces.path id).findSome? fun place =>
      (told? deeds place name).bind (·.seen? (place = id))).elim (.error (.unboundSymbol name)) .ok ∧
    σ.namespaces.own? id name = told? deeds id name ∧
    (∀ before d rest hidden, deeds = before ++ d :: rest → (∀ e ∈ before, e.mentions? id name = none) →
      d.mentions? id name = some hidden → (σ.namespaces.own? id name).map Entry.hidden = some hidden) ∧
    ((told? deeds id name).bind Entry.value = none →
      ∃ τ, σ.bind id name v = .ok τ ∧ Past τ.namespaces (deeds ++ [.bind id name v])) ∧
    (((told? deeds id name).bind Entry.value).isSome →
      σ.bind id name v = .error (.alreadyBound name) ∧ σ.declare id name = σ ∧
        ∀ place word, (σ.namespaces.after (.bind id name v)).resolve? place word =
          σ.namespaces.resolve? place word) := by
  have entry : σ.namespaces.own? id name = told? deeds id name := past.own?_eq made
  refine ⟨?_, ?_, entry, ?_, ?_, ?_⟩
  · obtain ⟨n, found⟩ := Option.isSome_iff_exists.mp (get?_isSome_iff.mpr made)
    exact ⟨n, found, past.path_eq (by rw [found]; rfl)⟩
  · rw [resolve_eq, past.resolve?_eq]
  · rintro before d rest hidden rfl unknown first
    rw [entry, hidden_told? unknown first]
  · intro vacant
    refine ⟨_, bind_of_vacant ?_, past.deed (d := .bind id name v) made⟩
    rw [isTaken_bound, entry, vacant]
    rfl
  · intro bound
    have taken : σ.namespaces.isTaken id name = true := by rw [isTaken_bound, entry, bound]
    have known : (σ.namespaces.own? id name).isSome := by
      rw [entry]
      exact Option.isSome_of_isSome_bind bound
    refine ⟨bind_of_taken taken, ?_, fun place word => ?_⟩
    · unfold Store.declare
      rw [declare_eq_self known]
    · rw [after_bind, if_pos taken]

/-- What was done in two namespaces, one below the other. -/
def coreDeeds : List Namespaces.Deed :=
  [.hide 0 "secret", .bind 0 "secret" .null, .declare 1 "open", .bind 0 "open" (.integer 2), .declare 0 "secret"]

def coreStore : Store :=
  { namespaces := (Namespaces.add (Namespaces.add [] "core" none).2 "user" (some 0)).2.history coreDeeds }

theorem past_coreStore : Past coreStore.namespaces coreDeeds := by
  have core : Past (Namespaces.add [] "core" none).2 [] := .add .empty "core" nofun
  have user : Past (Namespaces.add (Namespaces.add [] "core" none).2 "user" (some 0)).2 [] := by
    refine .add core "user" fun up above => ?_
    cases above
    exact Nat.zero_lt_one
  exact user.history (by simp [coreDeeds, Namespaces.Deed.target, Namespaces.add])

theorem answers_of_past_core :
    coreStore.resolve 1 "open" = .ok (.integer 2) ∧
      coreStore.resolve 1 "secret" = .error (.unboundSymbol "secret") ∧
      (coreStore.namespaces.own? 0 "secret").map Entry.hidden = some true ∧
      (∃ τ, coreStore.bind 1 "open" .null = .ok τ ∧ Past τ.namespaces (coreDeeds ++ [.bind 1 "open" .null])) ∧
      coreStore.bind 0 "open" .null = .error (.alreadyBound "open") := by
  obtain ⟨-, shown, -, -, free, -⟩ := answers_of_past past_coreStore (show 1 < 2 by decide) "open" .null
  obtain ⟨-, unseen, -⟩ := answers_of_past past_coreStore (show 1 < 2 by decide) "secret" .null
  obtain ⟨-, -, -, hides, -⟩ := answers_of_past past_coreStore (show 0 < 2 by decide) "secret" .null
  obtain ⟨-, -, -, -, -, taken⟩ := answers_of_past past_coreStore (show 0 < 2 by decide) "open" .null
  refine ⟨shown, unseen, ?_, free rfl, (taken rfl).1⟩
  exact hides [] (.hide 0 "secret") coreDeeds.tail true rfl nofun rfl

end Store

end StackLisp
