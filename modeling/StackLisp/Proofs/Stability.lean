import Mathlib.Logic.Function.Iterate
import StackLisp.Machine
import StackLisp.Proofs.Runs

/-!
How long a global keeps its value. A namespace binds a name once, and yet a name that has a value may get
another: it has the value of the nearest namespace that shows one, and a nearer one may bind the name
later. That is the only way. A name keeps its value through any steps that bind it nowhere nearer.
-/

namespace StackLisp

namespace Namespace

variable {n : Namespace} {name other : String} {hidden inside : Bool} {v : Value}

/-- Whether code sees what the name will be bound to here: code inside does, and code below unless the
name is hidden. -/
def opens (n : Namespace) (inside : Bool) (name : String) : Bool :=
  inside || (n.find? name).all (!·.hidden)

theorem find?_mention :
    (n.mention name hidden).find? other =
      (n.find? other).or (if other = name then some ⟨hidden, none⟩ else none) := by
  unfold mention
  cases found : n.find? name with
  | some e =>
    by_cases same : other = name
    · simp [same, found]
    · simp [same]
  | none =>
    by_cases same : other = name
    · subst same
      simp only [find?] at found
      simp [find?, found]
    · have differ : (other == name) = false := beq_eq_false_iff_ne.mpr same
      simp [find?, List.lookup_cons, same, differ]

theorem find?_fill :
    (n.fill name v).find? other =
      (n.find? other).map fun e => if other = name then { e with value := some v } else e := by
  unfold fill find?
  dsimp only
  induction n.entries with
  | nil => rfl
  | cons entry entries ih =>
    rw [List.map_cons, List.lookup_cons, List.lookup_cons, ih]
    by_cases same : other = entry.1
    · simp [same]
    · have differ : (other == entry.1) = false := beq_eq_false_iff_ne.mpr same
      simp [differ]

theorem parent_mention : (n.mention name hidden).parent = n.parent := by
  unfold mention
  split <;> rfl

theorem shown?_mention : (n.mention name hidden).shown? inside other = n.shown? inside other := by
  unfold shown?
  rw [find?_mention]
  cases n.find? other with
  | some e => rfl
  | none =>
    by_cases same : other = name
    · simp [same]
    · simp [same]

/-- A name without a value gets its first one for all to whom it is open. Others are left alone. -/
theorem shown?_fill (vacant : (n.find? name).any (·.value.isSome) = false) :
    ((n.mention name false).fill name v).shown? inside other =
      (n.shown? inside other).or (if name = other ∧ n.opens inside other then some v else none) := by
  unfold shown? opens
  rw [find?_fill, find?_mention]
  by_cases same : other = name
  · subst same
    cases found : n.find? other with
    | none => simp
    | some e =>
      have none : e.value = none := by simpa [found] using vacant
      simp [none]
  · cases n.find? other <;> simp [same, Ne.symm same]

theorem shown?_taken (taken : (n.find? name).any (·.value.isSome) = true)
    (opens : n.opens inside name = true) : (n.shown? inside name).isSome := by
  unfold shown?
  unfold Namespace.opens at opens
  cases found : n.find? name with
  | none => simp [found] at taken
  | some e => simp_all

end Namespace

namespace Namespaces

variable {ns : Namespaces} {id place : NamespaceId} {name : String} {v w : Value}

/-! ### The way up -/

/-- A namespace and those above it, the nearest first. -/
def path : Namespaces → NamespaceId → List NamespaceId
  | [], _ => []
  | n :: older, id => if id = older.length then id :: (n.parent.elim [] (path older)) else path older id

/-- What a namespace shows for a name to code in `id`. -/
def shown? (ns : Namespaces) (id : NamespaceId) (name : String) (place : NamespaceId) : Option Value :=
  (get? ns place).bind (·.shown? (place = id) name)

/-- Whether code in `id` sees what a namespace will bind the name to. -/
def opens (ns : Namespaces) (id : NamespaceId) (name : String) (place : NamespaceId) : Bool :=
  (get? ns place).any (·.opens (place = id) name)

theorem lt_of_mem_path (member : place ∈ path ns id) : place < ns.length := by
  induction ns generalizing id with
  | nil => cases member
  | cons n older ih =>
    unfold path at member
    split at member
    next here =>
      rcases List.mem_cons.mp member with rfl | above
      · rw [here]
        exact Nat.lt_succ_self _
      · cases parent : n.parent with
        | none => simp [parent] at above
        | some up =>
          rw [parent] at above
          exact Nat.lt_succ_of_lt (ih above)
    · exact Nat.lt_succ_of_lt (ih member)

/-- The way leads from newer namespaces to older ones. -/
theorem pairwise_path (ns : Namespaces) (id : NamespaceId) : (path ns id).Pairwise (· > ·) := by
  induction ns generalizing id with
  | nil => exact .nil
  | cons n older ih =>
    unfold path
    split
    next here =>
      cases n.parent with
      | none => exact List.pairwise_singleton _ _
      | some up =>
        refine List.pairwise_cons.mpr ⟨fun place above => ?_, ih up⟩
        rw [here]
        exact lt_of_mem_path above
    · exact ih id

theorem get?_cons_of_lt {n : Namespace} (before : place < ns.length) : get? (n :: ns) place = get? ns place := by
  rw [get?, if_neg (Nat.ne_of_lt before)]

theorem findSome?_congr {α β : Type} {f g : α → Option β} {as : List α} (h : ∀ a ∈ as, f a = g a) :
    as.findSome? f = as.findSome? g := by
  induction as with
  | nil => rfl
  | cons a as ih =>
    rw [List.findSome?_cons, List.findSome?_cons, h a List.mem_cons_self,
      ih fun b member => h b (List.mem_cons_of_mem _ member)]

theorem lookup?_eq_findSome? (inside : Bool) :
    lookup? inside name ns id =
      (path ns id).findSome? fun place => (get? ns place).bind (·.shown? (inside && (place = id)) name) := by
  induction ns generalizing id inside with
  | nil => rfl
  | cons n older ih =>
    have above : ∀ {id : NamespaceId} {seen : NamespaceId → Bool},
        ((path older id).findSome? fun place => (get? (n :: older) place).bind (·.shown? (seen place) name)) =
          (path older id).findSome? fun place => (get? older place).bind (·.shown? (seen place) name) :=
      findSome?_congr fun place member => by rw [get?_cons_of_lt (lt_of_mem_path member)]
    unfold lookup? path
    split
    next here =>
      have first : get? (n :: older) id = some n := by rw [get?, if_pos here]
      rw [List.findSome?_cons, first]
      simp only [Option.bind_some, decide_true, Bool.and_true]
      cases n.shown? inside name with
      | some v => rfl
      | none =>
        cases n.parent with
        | none => rfl
        | some up =>
          simp only [Option.bind_some, Option.elim_some]
          rw [ih, above]
          refine findSome?_congr fun place member => ?_
          have differ : place ≠ id := Nat.ne_of_lt (here ▸ lt_of_mem_path member)
          simp [differ]
    · rw [ih, above]

/-- A name has the value that is shown first on the way up. -/
theorem resolve?_eq_findSome? : ns.resolve? id name = (ns.path id).findSome? (ns.shown? id name) :=
  lookup?_eq_findSome? true

/-! ### What decides -/

/-- Whatever a namespace shows for the name is what code in `id` sees: it is on the way up, and no nearer
namespace shows anything. -/
def Decides (ns : Namespaces) (id : NamespaceId) (name : String) (place : NamespaceId) : Prop :=
  ∃ nearer farther, ns.path id = nearer ++ place :: farther ∧ ∀ other ∈ nearer, ns.shown? id name other = none

/-- The name has its value from this namespace. -/
structure Provides (ns : Namespaces) (id : NamespaceId) (name : String) (place : NamespaceId) (v : Value) :
    Prop where
  decides : ns.Decides id name place
  shows : ns.shown? id name place = some v

/-- A value that the namespace binds the name to is the one that code in `id` sees from then on. -/
structure Overrides (ns : Namespaces) (id : NamespaceId) (name : String) (place : NamespaceId) : Prop where
  decides : ns.Decides id name place
  vacant : ns.shown? id name place = none
  opens : ns.opens id name place

theorem resolve?_eq_some_iff : ns.resolve? id name = some v ↔ ∃ place, ns.Provides id name place v := by
  rw [resolve?_eq_findSome?, List.findSome?_eq_some_iff]
  constructor
  · rintro ⟨nearer, place, farther, way, shows, none⟩
    exact ⟨place, ⟨nearer, farther, way, none⟩, shows⟩
  · rintro ⟨place, ⟨nearer, farther, way, none⟩, shows⟩
    exact ⟨nearer, place, farther, way, shows, none⟩

/-- Nothing farther decides. -/
theorem Provides.le (h : ns.Provides id name place v) {other : NamespaceId} (g : ns.Decides id name other) :
    place ≤ other := by
  obtain ⟨nearer, farther, way, none⟩ := g
  obtain ⟨before, after, also, -⟩ := h.decides
  have member : place ∈ nearer ++ other :: farther := by
    rw [← way, also]
    exact List.mem_append_right _ List.mem_cons_self
  have descends := pairwise_path ns id
  rw [way] at descends
  rcases List.mem_append.mp member with nearby | later
  · cases (none place nearby).symm.trans h.shows
  · rcases List.mem_cons.mp later with rfl | far
    · exact Nat.le_refl _
    · exact Nat.le_of_lt ((List.pairwise_cons.mp (List.pairwise_append.mp descends).2.1).1 place far)

theorem Provides.place_unique {other : NamespaceId} (h : ns.Provides id name place v)
    (g : ns.Provides id name other w) : place = other :=
  Nat.le_antisymm (h.le g.decides) (g.le h.decides)

theorem Provides.lt_of_overrides (h : ns.Provides id name place v) {near : NamespaceId}
    (binding : ns.Overrides id name near) : place < near := by
  refine Nat.lt_of_le_of_ne (h.le binding.decides) ?_
  rintro rfl
  cases binding.vacant.symm.trans h.shows

/-! ### Histories -/

/-- What a piece of code can do to the namespaces. -/
inductive Deed where
  | declare (place : NamespaceId) (name : String)
  | hide (place : NamespaceId) (name : String)
  | bind (place : NamespaceId) (name : String) (v : Value)

/-- The namespaces afterwards. To bind a name again is a fault, and changes nothing. -/
def after (ns : Namespaces) : Deed → Namespaces
  | .declare place name => ns.declare place name
  | .hide place name => ns.hide place name
  | .bind place name v => (ns.bind? place name v).getD ns

/-- The namespaces after all of that, in order. -/
def history (ns : Namespaces) (deeds : List Deed) : Namespaces :=
  deeds.foldl after ns

/-- The value that a deed gives the name in a namespace, as code in `id` sees it. -/
def Deed.gives? (ns : Namespaces) (id : NamespaceId) (name : String) (place : NamespaceId) :
    Deed → Option Value
  | .bind there other v => if there = place ∧ other = name ∧ ns.opens id name place then some v else none
  | _ => none

theorem gives?_eq_some {d : Deed} :
    d.gives? ns id name place = some v ↔ d = .bind place name v ∧ ns.opens id name place := by
  cases d with
  | declare | hide => simp [Deed.gives?]
  | bind there other w =>
    simp only [Deed.gives?, Option.ite_none_right_eq_some, Option.some.injEq, Deed.bind.injEq]
    grind

theorem path_modify {f : Namespace → Namespace} (keeps : ∀ n, (f n).parent = n.parent) (there : NamespaceId) :
    path (modify f ns there) id = path ns id := by
  induction ns generalizing id with
  | nil => rfl
  | cons n older ih =>
    have up : path (modify f older there) = path older := funext fun id => ih
    unfold modify
    split
    · simp [path, keeps]
    · simp [path, up]

theorem after_bind (ns : Namespaces) (place : NamespaceId) (name : String) (v : Value) :
    ns.after (.bind place name v) =
      if ns.isTaken place name then ns else modify (fun n => (n.mention name false).fill name v) ns place := by
  simp only [after, bind?]
  split <;> rfl

theorem path_after (d : Deed) : path (ns.after d) id = path ns id := by
  cases d with
  | declare there other => exact path_modify (fun n => n.parent_mention) there
  | hide there other => exact path_modify (fun n => n.parent_mention) there
  | bind there other v =>
    rw [after_bind]
    split
    · rfl
    · exact path_modify (f := fun n => (n.mention other false).fill other v) (fun n => n.parent_mention) there

theorem shown?_modify {f : Namespace → Namespace} {there : NamespaceId}
    (same : ∀ n inside, (f n).shown? inside name = n.shown? inside name) :
    shown? (modify f ns there) id name place = ns.shown? id name place := by
  unfold shown?
  rw [get?_modify]
  split
  · cases get? ns place with
    | none => rfl
    | some n => exact same n _
  · rfl

theorem shown?_of_taken (taken : ns.isTaken place name) (opens : ns.opens id name place) :
    (ns.shown? id name place).isSome := by
  unfold Namespaces.isTaken at taken
  unfold Namespaces.opens at opens
  unfold shown?
  cases found : get? ns place with
  | none => simp [found] at taken
  | some n =>
    rw [found] at taken opens
    exact n.shown?_taken taken opens

theorem shown?_bind {there : NamespaceId} {other : String} (vacant : ns.isTaken there other = false) :
    shown? (modify (fun n => (n.mention other false).fill other v) ns there) id name place =
      (ns.shown? id name place).or ((Deed.bind there other v).gives? ns id name place) := by
  unfold Namespaces.isTaken at vacant
  unfold Deed.gives? shown? opens
  rw [get?_modify]
  by_cases here : place = there
  · subst here
    rw [if_pos rfl]
    cases found : get? ns place with
    | none => simp
    | some n =>
      rw [found] at vacant
      simp [n.shown?_fill vacant]
  · simp [here, Ne.symm here]

/-- What a namespace shows, it goes on showing, and it shows something new only if it binds it. -/
theorem shown?_after (d : Deed) :
    (ns.after d).shown? id name place = (ns.shown? id name place).or (d.gives? ns id name place) := by
  cases d with
  | declare there other => exact (shown?_modify fun n _ => n.shown?_mention).trans Option.or_none.symm
  | hide there other => exact (shown?_modify fun n _ => n.shown?_mention).trans Option.or_none.symm
  | bind there other v =>
    rw [after_bind]
    split
    next taken =>
      cases given : (Deed.bind there other v).gives? ns id name place with
      | none => rw [Option.or_none]
      | some w =>
        obtain ⟨same, opens⟩ := gives?_eq_some.mp given
        cases same
        obtain ⟨w, shows⟩ := Option.isSome_iff_exists.mp (shown?_of_taken taken opens)
        rw [shows, Option.some_or]
    next vacant => exact shown?_bind (Bool.eq_false_iff.mpr vacant)

/-- A value stays where it is found, unless something nearer overrides it. -/
theorem Provides.after {d : Deed} (h : ns.Provides id name place v)
    (quiet : ∀ near w, d = .bind near name w → ¬ns.Overrides id name near) :
    (ns.after d).Provides id name place v := by
  obtain ⟨⟨nearer, farther, way, none⟩, shows⟩ := h
  constructor
  · refine ⟨nearer, farther, (path_after d).trans way, fun near member => ?_⟩
    rw [shown?_after, none near member, Option.none_or]
    cases given : d.gives? ns id name near with
    | none => rfl
    | some w =>
      obtain ⟨binds, opens⟩ := gives?_eq_some.mp given
      obtain ⟨before, between, split⟩ := List.append_of_mem member
      refine absurd ⟨⟨before, between ++ place :: farther, ?_, ?_⟩, none near member, opens⟩ (quiet near w binds)
      · simp [way, split]
      · exact fun other nearby => none other (split ▸ List.mem_append_left _ nearby)
  · rw [shown?_after, shows, Option.some_or]

theorem Overrides.after (h : ns.Overrides id name place) (v : Value) :
    (ns.after (.bind place name v)).Provides id name place v := by
  obtain ⟨⟨nearer, farther, way, none⟩, vacant, opens⟩ := h
  have given : (Deed.bind place name v).gives? ns id name place = some v := gives?_eq_some.mpr ⟨rfl, opens⟩
  constructor
  · refine ⟨nearer, farther, (path_after _).trans way, fun near member => ?_⟩
    rw [shown?_after, none near member, Option.none_or]
    cases nearby : (Deed.bind place name v).gives? ns id name near with
    | none => rfl
    | some w =>
      obtain ⟨same, -⟩ := gives?_eq_some.mp nearby
      have descends := pairwise_path ns id
      rw [way] at descends
      have before : near > place := (List.pairwise_append.mp descends).2.2 near member place List.mem_cons_self
      cases same
      exact absurd before (Nat.lt_irrefl _)
  · rw [shown?_after, vacant, given, Option.none_or]

/-- What provides a value only ever gets nearer. -/
theorem Provides.nearer (h : ns.Provides id name place v) (deeds : List Deed) :
    ∃ near w, (ns.history deeds).Provides id name near w ∧ place ≤ near := by
  induction deeds generalizing ns place v with
  | nil => exact ⟨place, v, h, Nat.le_refl _⟩
  | cons d deeds ih =>
    by_cases overriding : ∃ near w, d = .bind near name w ∧ ns.Overrides id name near
    · obtain ⟨near, w, rfl, overrides⟩ := overriding
      obtain ⟨last, u, provides, closer⟩ := ih (overrides.after w)
      exact ⟨last, u, provides, Nat.le_trans (Nat.le_of_lt (h.lt_of_overrides overrides)) closer⟩
    · exact ih (h.after fun near w binds overrides => overriding ⟨near, w, binds, overrides⟩)

/-- No bind of the name in all these deeds overrides what code in `id` sees then. -/
def Undisturbed (ns : Namespaces) (id : NamespaceId) (name : String) (deeds : List Deed) : Prop :=
  ∀ before place w rest, deeds = before ++ .bind place name w :: rest →
    ¬(ns.history before).Overrides id name place

theorem history_append (ns : Namespaces) (deeds more : List Deed) :
    ns.history (deeds ++ more) = (ns.history deeds).history more :=
  List.foldl_append

theorem undisturbed_nil : ns.Undisturbed id name [] := by
  intro before near w rest split
  cases before <;> cases split

theorem undisturbed_cons {d : Deed} {deeds : List Deed} :
    ns.Undisturbed id name (d :: deeds) ↔
      (∀ near w, d = .bind near name w → ¬ns.Overrides id name near) ∧
        (ns.after d).Undisturbed id name deeds := by
  constructor
  · intro quiet
    constructor
    · intro near w binds
      exact quiet [] near w deeds (binds ▸ rfl)
    · intro before near w rest split
      exact quiet (d :: before) near w rest (split ▸ rfl)
  · rintro ⟨first, later⟩ before near w rest whole
    cases before with
    | nil => exact first near w (List.cons.inj whole).1
    | cons e before =>
      obtain ⟨rfl, remains⟩ := List.cons.inj whole
      exact later before near w rest remains

theorem Provides.history {deeds : List Deed} (h : ns.Provides id name place v)
    (quiet : ns.Undisturbed id name deeds) : (ns.history deeds).Provides id name place v := by
  induction deeds generalizing ns with
  | nil => exact h
  | cons d deeds ih =>
    obtain ⟨now, later⟩ := undisturbed_cons.mp quiet
    exact ih (h.after now) later

/-- A value stays where it is found just as long as nothing overrides it. -/
theorem Provides.history_iff {deeds : List Deed} (h : ns.Provides id name place v) :
    (ns.history deeds).Provides id name place v ↔ ns.Undisturbed id name deeds := by
  refine ⟨?_, h.history⟩
  rintro still before near w rest rfl overrides
  obtain ⟨close, u, provides, first⟩ := h.nearer before
  obtain ⟨last, x, ends, second⟩ := (overrides.after w).nearer rest
  have whole : ns.history (before ++ .bind near name w :: rest) =
      ((ns.history before).after (.bind near name w)).history rest := history_append ..
  rw [← whole] at ends
  have same := still.place_unique ends
  have closer : place < last :=
    Nat.lt_of_le_of_lt first (Nat.lt_of_lt_of_le (provides.lt_of_overrides overrides) second)
  exact Nat.ne_of_lt closer same

/-- A name that has a value has it from one namespace, and it has it from there just as long as no bind
of the name overrides it. A bind that overrides it gives the name its own value. -/
theorem resolve_history (resolved : ns.resolve? id name = some v) :
    ∃ place, ns.Provides id name place v ∧ ∀ deeds,
      ((ns.history deeds).Provides id name place v ↔ ns.Undisturbed id name deeds) ∧
      (ns.Undisturbed id name deeds → (ns.history deeds).resolve? id name = some v) ∧
      ∀ before near w rest, deeds = before ++ .bind near name w :: rest →
        (ns.history before).Overrides id name near →
          (ns.history (before ++ [.bind near name w])).resolve? id name = some w := by
  obtain ⟨place, provides⟩ := resolve?_eq_some_iff.mp resolved
  refine ⟨place, provides, fun deeds => ⟨provides.history_iff, fun quiet => ?_, ?_⟩⟩
  · exact resolve?_eq_some_iff.mpr ⟨place, provides.history quiet⟩
  · intro before near w rest _ overrides
    rw [history_append]
    exact resolve?_eq_some_iff.mpr ⟨near, overrides.after w⟩

/-- A namespace below another one that binds a name. -/
def nested : Namespaces :=
  [⟨"user", some 0, []⟩, ⟨"core", none, [("count", ⟨false, some (.integer 1)⟩)]⟩]

theorem resolve_history_nested :
    (nested.history [.declare 1 "count", .bind 1 "size" .null]).resolve? 1 "count" = some (.integer 1) ∧
      (nested.history [.declare 1 "count", .bind 1 "count" .null]).resolve? 1 "count" = some .null := by
  have resolved : nested.resolve? 1 "count" = some (.integer 1) := rfl
  obtain ⟨place, provides, keeps⟩ := resolve_history resolved
  constructor
  · refine (keeps [.declare 1 "count", .bind 1 "size" .null]).2.1 ?_
    simp [undisturbed_cons, undisturbed_nil]
  · refine (keeps [.declare 1 "count", .bind 1 "count" .null]).2.2 [.declare 1 "count"] 1 .null [] rfl ?_
    exact ⟨⟨[], [0], rfl, nofun⟩, rfl, rfl⟩

end Namespaces

/-! ### Runs -/

namespace Store

variable {σ τ : Store} {id : NamespaceId} {name : String} {v : Value}

theorem resolve_eq_ok_iff : σ.resolve id name = .ok v ↔ σ.namespaces.resolve? id name = some v := by
  unfold Store.resolve
  cases σ.namespaces.resolve? id name <;> simp

theorem history_of_bind (bound : σ.bind id name v = .ok τ) :
    τ.namespaces = σ.namespaces.history [.bind id name v] := by
  unfold Store.bind at bound
  split at bound
  next namespaces made =>
    cases bound
    simp [Namespaces.history, Namespaces.after, made]
  · cases bound

theorem namespaces_of_fillRef {cell : RefId} (filled : σ.fillRef cell v = .ok τ) :
    τ.namespaces = σ.namespaces := by
  unfold Store.fillRef at filled
  split at filled
  · cases filled
  · cases filled
    rfl

end Store

namespace Act

variable {globals : NamespaceId} {σ τ : Store} {a b : Activation} {move : Move}

theorem of_lift {α : Type} {r : Except Fault α} {x : α} (yields : Yields (lift r) a x b) : r = .ok x :=
  mapError_eq_ok.mp (Prod.mk.inj yields).1

theorem store_of_quietly {act : Act Unit} (yields : Yields (quietly σ act) a (move, τ) b) : τ = σ := by
  obtain ⟨_, _, -, returns⟩ := Yields.bind_iff.mp yields
  exact (Prod.mk.inj (Yields.pure_iff.mp returns).1).2

theorem store_of_return {α : Type} {act : Act α} {f : α → Move}
    (yields : Yields (act >>= fun r => pure (f r, σ)) a (move, τ) b) : τ = σ := by
  obtain ⟨_, _, -, returns⟩ := Yields.bind_iff.mp yields
  exact (Prod.mk.inj (Yields.pure_iff.mp returns).1).2

theorem history_of_performIn {i : Instruction} (yields : Yields (performIn globals σ i) a (move, τ) b) :
    ∃ deeds, τ.namespaces = σ.namespaces.history deeds := by
  have still : τ = σ → ∃ deeds, τ.namespaces = σ.namespaces.history deeds := by
    rintro rfl
    exact ⟨[], rfl⟩
  obtain ⟨op, operand, small⟩ := i
  cases op with
  | declare =>
    obtain ⟨name, _, -, returns⟩ := Yields.bind_iff.mp yields
    cases (Yields.pure_iff.mp returns).1
    exact ⟨[.declare globals name], rfl⟩
  | hide =>
    obtain ⟨name, _, -, returns⟩ := Yields.bind_iff.mp yields
    cases (Yields.pure_iff.mp returns).1
    exact ⟨[.hide globals name], rfl⟩
  | bind =>
    obtain ⟨name, _, -, yields⟩ := Yields.bind_iff.mp yields
    obtain ⟨v, _, -, yields⟩ := Yields.bind_iff.mp yields
    obtain ⟨symbol, _, -, yields⟩ := Yields.bind_iff.mp yields
    obtain ⟨store, _, bound, returns⟩ := Yields.bind_iff.mp yields
    cases (Yields.pure_iff.mp returns).1
    exact ⟨[.bind globals symbol v], Store.history_of_bind (of_lift bound)⟩
  | bindRef =>
    obtain ⟨cell, _, -, yields⟩ := Yields.bind_iff.mp yields
    obtain ⟨v, _, -, yields⟩ := Yields.bind_iff.mp yields
    obtain ⟨id, _, -, yields⟩ := Yields.bind_iff.mp yields
    obtain ⟨store, _, filled, returns⟩ := Yields.bind_iff.mp yields
    cases (Yields.pure_iff.mp returns).1
    exact ⟨[], Store.namespaces_of_fillRef (of_lift filled)⟩
  | newRef =>
    rw [store_of_quietly yields]
    exact ⟨[], rfl⟩
  | label | noOp | retNull | retTrue | retFalse => exact still (Prod.mk.inj (Yields.pure_iff.mp yields).1).2
  | ret | call0 | call1 | call | tailCall => exact still (store_of_return yields)
  | panic =>
    obtain ⟨v, _, -, raises⟩ := Yields.bind_iff.mp yields
    cases Yields.throw_iff.mp raises
  | _ => exact still (store_of_quietly yields)

theorem history_of_perform {i : Instruction} (yields : Yields (perform σ i) a (move, τ) b) :
    ∃ deeds, τ.namespaces = σ.namespaces.history deeds := by
  obtain ⟨_, _, -, inside⟩ := Yields.bind_iff.mp yields
  exact history_of_performIn inside

end Act

namespace Machine

variable {m : Machine} {a : Activation}

@[simp] theorem namespaces_granted (g : Grant) : (m.granted g).store.namespaces = m.store.namespaces := by
  unfold granted
  dsimp only
  split <;> rfl

@[simp] theorem namespaces_traced (i : Instruction) :
    (State.traced m a i).store.namespaces = m.store.namespaces := by
  unfold State.traced
  split <;> rfl

namespace State

variable {pending : List Pending}

theorem namespaces_fail (f : Failure) : (fail m pending a f).machine.store.namespaces = m.store.namespaces := by
  cases f <;> rfl

theorem namespaces_follow (move : Move) :
    (follow m pending a move).machine.store.namespaces = m.store.namespaces := by
  cases move with
  | switch c args => exact namespaces_granted _
  | go | answer | call | leave => rfl

theorem namespaces_reply (r : Reply) : (reply m pending r).machine.store.namespaces = m.store.namespaces := by
  cases r <;> rfl

theorem namespaces_callValue (callee : Value) (args : List Value) :
    (callValue m pending callee args).machine.store.namespaces = m.store.namespaces := by
  unfold callValue
  split
  · rfl
  · split
    · exact namespaces_granted _
    · exact namespaces_reply _
    · rfl

theorem namespaces_returnTo (v : Value) (w : Pending) :
    (returnTo m pending v w).machine.store.namespaces = m.store.namespaces := by
  cases w with
  | resume a =>
    simp only [returnTo]
    split
    · rfl
    · exact namespaces_fail _
  | finish | guard => rfl

/-- What a step does to the namespaces is a deed of the code that runs, or nothing. -/
theorem history_of_step (s : State) :
    ∃ deeds, s.step.machine.store.namespaces = s.machine.store.namespaces.history deeds := by
  obtain ⟨m, control, pending⟩ := s
  cases control with
  | running a =>
    unfold step runInstruction
    dsimp only
    split
    · exact ⟨[], namespaces_fail _⟩
    next i here =>
      split
      next failed => exact ⟨[], (namespaces_fail _).trans (namespaces_traced i)⟩
      next move store b performed =>
        obtain ⟨deeds, same⟩ := Act.history_of_perform performed
        refine ⟨deeds, (namespaces_follow _).trans (same.trans ?_)⟩
        rw [namespaces_traced]
  | calling callee args => exact ⟨[], namespaces_callValue callee args⟩
  | returning v =>
    cases pending with
    | nil => exact ⟨[], rfl⟩
    | cons w pending => exact ⟨[], namespaces_returnTo v w⟩
  | unwinding f =>
    cases pending with
    | nil => exact ⟨[], rfl⟩
    | cons w pending => cases w <;> exact ⟨[], rfl⟩
  | breaching b =>
    cases pending with
    | nil => exact ⟨[], rfl⟩
    | cons w pending => cases w <;> exact ⟨[], rfl⟩

theorem history_of_iterate (s : State) (k : Nat) :
    ∃ deeds, (step^[k] s).machine.store.namespaces = s.machine.store.namespaces.history deeds := by
  induction k with
  | zero => exact ⟨[], rfl⟩
  | succ k ih =>
    obtain ⟨deeds, before⟩ := ih
    obtain ⟨more, last⟩ := (step^[k] s).history_of_step
    rw [Function.iterate_succ_apply']
    exact ⟨deeds ++ more, by rw [last, before, Namespaces.history_append]⟩

/-- Along a run, a global that has a value has it at every later time, unless a nearer namespace binds the
name in between. -/
theorem resolve_iterate {s : State} {id : NamespaceId} {name : String} {v : Value}
    (resolved : s.machine.store.resolve id name = .ok v) (k : Nat) :
    ∃ deeds, (step^[k] s).machine.store.namespaces = s.machine.store.namespaces.history deeds ∧
      (s.machine.store.namespaces.Undisturbed id name deeds →
        (step^[k] s).machine.store.resolve id name = .ok v) := by
  obtain ⟨deeds, same⟩ := s.history_of_iterate k
  refine ⟨deeds, same, fun quiet => ?_⟩
  obtain ⟨place, provides⟩ := Namespaces.resolve?_eq_some_iff.mp (Store.resolve_eq_ok_iff.mp resolved)
  rw [Store.resolve_eq_ok_iff, same]
  exact Namespaces.resolve?_eq_some_iff.mpr ⟨place, provides.history quiet⟩

end State

end Machine

end StackLisp
