import StackLisp.Proofs.Matching
import StackLisp.Store

/-!
Stores that differ in nothing but the procedures in them. Reports and the count of procedures are left
out, since no code can see them.
-/

namespace StackLisp

open Value (Matches)

variable {P : Procedure Value → Procedure Value → Prop}

structure Entry.Matches (P : Procedure Value → Procedure Value → Prop) (e f : String × Entry) :
    Prop where
  name : e.1 = f.1
  hidden : e.2.hidden = f.2.hidden
  value : Option.Rel (Value.Matches P) e.2.value f.2.value

structure Namespace.Matches (P : Procedure Value → Procedure Value → Prop) (m n : Namespace) :
    Prop where
  name : m.name = n.name
  parent : m.parent = n.parent
  entries : List.Forall₂ (Entry.Matches P) m.entries n.entries

structure Store.Matches (P : Procedure Value → Procedure Value → Prop) (s t : Store) : Prop where
  namespaces : List.Forall₂ (Namespace.Matches P) s.namespaces t.namespaces
  refs : List.Forall₂ (Option.Rel (Value.Matches P)) s.refs.toList t.refs.toList

theorem rel_mono {Q : Procedure Value → Procedure Value → Prop} (wider : ∀ {p q}, P p q → Q p q)
    {x y : Option Value} (h : Option.Rel (Value.Matches P) x y) : Option.Rel (Value.Matches Q) x y := by
  cases h with
  | none => exact .none
  | some value => exact .some (value.mono wider)

theorem Store.Matches.mono {Q : Procedure Value → Procedure Value → Prop} {s t : Store} (h : s.Matches P t)
    (wider : ∀ {p q}, P p q → Q p q) : s.Matches Q t where
  namespaces := h.namespaces.imp fun _ _ space => ⟨space.name, space.parent, space.entries.imp
    fun _ _ entry => ⟨entry.name, entry.hidden, rel_mono wider entry.value⟩⟩
  refs := h.refs.imp fun _ _ ref => rel_mono wider ref

namespace Namespace

theorem Matches.find? {m n : Namespace} (h : m.Matches P n) (name : String) :
    Option.Rel (fun e f => e.hidden = f.hidden ∧ Option.Rel (Value.Matches P) e.value f.value)
      (m.find? name) (n.find? name) := by
  have entries := h.entries
  unfold Namespace.find?
  revert entries
  generalize m.entries = es
  generalize n.entries = fs
  intro entries
  induction entries with
  | nil => exact .none
  | @cons e f es fs first _ ih =>
    obtain ⟨key, e⟩ := e
    obtain ⟨other, f⟩ := f
    obtain rfl : key = other := first.name
    rw [List.lookup_cons, List.lookup_cons]
    split
    · exact .some ⟨first.hidden, first.value⟩
    · exact ih

theorem Matches.mention {m n : Namespace} (h : m.Matches P n) (name : String) (hidden : Bool) :
    (m.mention name hidden).Matches P (n.mention name hidden) := by
  have found := h.find? name
  unfold Namespace.mention
  revert found
  generalize m.find? name = e
  generalize n.find? name = f
  intro found
  cases found with
  | some => exact h
  | none => exact ⟨h.name, h.parent, .cons ⟨rfl, rfl, .none⟩ h.entries⟩

theorem Matches.fill {m n : Namespace} (h : m.Matches P n) (name : String) {v w : Value}
    (value : v.Matches P w) : (m.fill name v).Matches P (n.fill name w) := by
  refine ⟨h.name, h.parent, ?_⟩
  refine List.rel_map (fun {e f} first => ?_) h.entries
  obtain ⟨key, e⟩ := e
  obtain ⟨other, f⟩ := f
  obtain rfl : key = other := first.name
  by_cases same : key = name
  · simp only [same, if_true]
    exact ⟨rfl, first.hidden, .some value⟩
  · simp only [same, if_false]
    exact first

theorem Matches.shown? {m n : Namespace} (h : m.Matches P n) (inside : Bool) (name : String) :
    Option.Rel (Value.Matches P) (m.shown? inside name) (n.shown? inside name) := by
  have found := h.find? name
  unfold Namespace.shown?
  revert found
  generalize m.find? name = e
  generalize n.find? name = f
  intro found
  cases found with
  | none => exact .none
  | some related =>
    obtain ⟨hidden, value⟩ := related
    simp only [Option.bind_some, hidden]
    split
    · exact value
    · exact .none

end Namespace

namespace Namespaces

theorem matches_modify {ms ns : Namespaces} (h : List.Forall₂ (Namespace.Matches P) ms ns)
    {f g : Namespace → Namespace}
    (each : ∀ {m n : Namespace}, m.Matches P n → (f m).Matches P (g n)) (id : NamespaceId) :
    List.Forall₂ (Namespace.Matches P) (modify f ms id) (modify g ns id) := by
  induction h with
  | nil => exact .nil
  | cons first rest ih =>
    unfold modify
    rw [rest.length_eq]
    split
    · exact .cons (each first) rest
    · exact .cons first ih

theorem matches_lookup? {ms ns : Namespaces} (h : List.Forall₂ (Namespace.Matches P) ms ns)
    (inside : Bool) (name : String) (id : NamespaceId) :
    Option.Rel (Matches P) (lookup? inside name ms id) (lookup? inside name ns id) := by
  induction h generalizing inside id with
  | nil => exact .none
  | @cons m n ms ns first rest ih =>
    unfold lookup?
    rw [rest.length_eq, first.parent]
    have shown := first.shown? inside name
    revert shown
    generalize m.shown? inside name = v
    generalize n.shown? inside name = w
    intro shown
    split
    · cases shown with
      | some value => exact .some value
      | none =>
        cases n.parent with
        | none => exact .none
        | some parent => exact ih false parent
    · exact ih inside id

theorem matches_get? {ms ns : Namespaces} (h : List.Forall₂ (Namespace.Matches P) ms ns)
    (id : NamespaceId) : Option.Rel (Namespace.Matches P) (get? ms id) (get? ns id) := by
  induction h with
  | nil => exact .none
  | cons first rest ih =>
    unfold get?
    rw [rest.length_eq]
    split
    · exact .some first
    · exact ih

theorem isTaken_eq {ms ns : Namespaces} (h : List.Forall₂ (Namespace.Matches P) ms ns)
    (id : NamespaceId) (name : String) : isTaken ms id name = isTaken ns id name := by
  have got := matches_get? h id
  unfold isTaken
  revert got
  generalize get? ms id = m
  generalize get? ns id = n
  intro got
  cases got with
  | none => rfl
  | @some m n first =>
    have found := first.find? name
    simp only [Option.bind_some]
    revert found
    generalize m.find? name = e
    generalize n.find? name = f
    intro found
    cases found with
    | none => rfl
    | @some e f related =>
      have value := related.2
      show e.value.isSome = f.value.isSome
      revert value
      generalize e.value = v
      generalize f.value = w
      intro value
      cases value <;> rfl

end Namespaces

namespace Store

variable {s t : Store}

theorem Matches.resolve (h : s.Matches P t) (id : NamespaceId) (name : String) :
    Agree P (Value.Matches P) (s.resolve id name) (t.resolve id name) := by
  have found := Namespaces.matches_lookup? h.namespaces true name id
  unfold Store.resolve Namespaces.resolve?
  revert found
  generalize Namespaces.lookup? true name s.namespaces id = v
  generalize Namespaces.lookup? true name t.namespaces id = w
  intro found
  cases found with
  | some value => exact .ok value
  | none => exact .error (.plain nofun)

theorem Matches.declare (h : s.Matches P t) (id : NamespaceId) (name : String) :
    (s.declare id name).Matches P (t.declare id name) :=
  ⟨Namespaces.matches_modify h.namespaces (fun first => first.mention name false) id, h.refs⟩

theorem Matches.hide (h : s.Matches P t) (id : NamespaceId) (name : String) :
    (s.hide id name).Matches P (t.hide id name) :=
  ⟨Namespaces.matches_modify h.namespaces (fun first => first.mention name true) id, h.refs⟩

theorem Matches.bind (h : s.Matches P t) (id : NamespaceId) (name : String) {v w : Value}
    (value : v.Matches P w) :
    Agree P (Store.Matches P) (s.bind id name v) (t.bind id name w) := by
  have taken := Namespaces.isTaken_eq h.namespaces id name
  unfold Store.bind Namespaces.bind?
  rw [taken]
  cases Namespaces.isTaken t.namespaces id name with
  | true => exact .error (.plain nofun)
  | false =>
    exact .ok ⟨Namespaces.matches_modify h.namespaces
      (fun first => (first.mention name false).fill name value) id, h.refs⟩

theorem Matches.refs_size (h : s.Matches P t) : s.refs.size = t.refs.size :=
  h.refs.length_eq

theorem Matches.ref (h : s.Matches P t) (id : RefId) :
    Option.Rel (Option.Rel (Value.Matches P)) s.refs[id]? t.refs[id]? := by
  rw [← Array.getElem?_toList, ← Array.getElem?_toList]
  exact rel_getElem? h.refs id

theorem Matches.newRef (h : s.Matches P t) :
    s.newRef.1 = t.newRef.1 ∧ s.newRef.2.Matches P t.newRef.2 := by
  refine ⟨h.refs_size, h.namespaces, ?_⟩
  show List.Forall₂ _ (s.refs.push none).toList (t.refs.push none).toList
  rw [Array.toList_push, Array.toList_push]
  exact List.rel_append h.refs (.cons .none .nil)

theorem Matches.deref (h : s.Matches P t) (id : RefId) :
    Agree P (Value.Matches P) (s.deref id) (t.deref id) := by
  have found := h.ref id
  unfold Store.deref
  revert found
  generalize s.refs[id]? = v
  generalize t.refs[id]? = w
  intro found
  cases found with
  | none => exact .error (.plain nofun)
  | some filled =>
    cases filled with
    | none => exact .error (.plain nofun)
    | some value => exact .ok value

theorem Matches.fillRef (h : s.Matches P t) (id : RefId) {v w : Value} (value : v.Matches P w) :
    Agree P (Store.Matches P) (s.fillRef id v) (t.fillRef id w) := by
  have filled : Store.Matches P { s with refs := s.refs.setIfInBounds id (some v) }
      { t with refs := t.refs.setIfInBounds id (some w) } := by
    refine ⟨h.namespaces, ?_⟩
    show List.Forall₂ _ (s.refs.setIfInBounds id (some v)).toList
      (t.refs.setIfInBounds id (some w)).toList
    rw [Array.toList_setIfInBounds, Array.toList_setIfInBounds]
    exact rel_set h.refs (.some value) id
  have found := h.ref id
  unfold Store.fillRef
  revert found
  generalize s.refs[id]? = x
  generalize t.refs[id]? = y
  intro found
  cases found with
  | none => exact .ok filled
  | some before =>
    cases before with
    | none => exact .ok filled
    | some _ => exact .error (.plain nofun)

end Store

end StackLisp
