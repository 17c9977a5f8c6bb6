import StackLisp.Value

/-!
Namespaces of global names. Names bind once; a name hidden when it is first mentioned is seen from its
own namespace only. A name not bound in a namespace is looked for in its parent.
-/

namespace StackLisp

structure Entry where
  hidden : Bool
  value : Option Value

structure Namespace where
  name : String
  parent : Option NamespaceId
  entries : List (String × Entry)

/-- The namespaces made so far, the newest first. The place of a namespace is the number of older ones,
and its parent is one of them. -/
abbrev Namespaces := List Namespace

namespace Namespace

def find? (n : Namespace) (name : String) : Option Entry :=
  n.entries.lookup name

/-- The namespace with an entry for the name; an entry that is there already stays as it is. -/
def mention (n : Namespace) (name : String) (hidden : Bool) : Namespace :=
  match n.find? name with
  | some _ => n
  | none => { n with entries := (name, ⟨hidden, none⟩) :: n.entries }

/-- What the namespace itself shows for a name, from inside or from below. -/
def shown? (n : Namespace) (inside : Bool) (name : String) : Option Value :=
  (n.find? name).bind fun e => if inside || !e.hidden then e.value else none

/-- Gives a mentioned name its value. -/
def fill (n : Namespace) (name : String) (v : Value) : Namespace :=
  { n with
    entries := n.entries.map fun (other, e) =>
      (other, if other = name then { e with value := some v } else e) }

end Namespace

namespace Namespaces

/-- Adds a namespace and gives its place. -/
def add (ns : Namespaces) (name : String) (parent : Option NamespaceId) :
    NamespaceId × Namespaces :=
  (ns.length, ⟨name, parent, []⟩ :: ns)

def get? : Namespaces → NamespaceId → Option Namespace
  | [], _ => none
  | n :: older, id => if id = older.length then some n else get? older id

def modify (f : Namespace → Namespace) : Namespaces → NamespaceId → Namespaces
  | [], _ => []
  | n :: older, id => if id = older.length then f n :: older else n :: modify f older id

def nameOf (ns : Namespaces) (id : NamespaceId) : String :=
  ((get? ns id).map Namespace.name).getD ""

def lookup? (inside : Bool) (name : String) : Namespaces → NamespaceId → Option Value
  | [], _ => none
  | n :: older, id =>
    if id = older.length then
      match n.shown? inside name with
      | some v => some v
      | none => n.parent.bind fun parent => lookup? false name older parent
    else lookup? inside name older id

/-- The value of a name as code in the namespace sees it. -/
def resolve? (ns : Namespaces) (id : NamespaceId) (name : String) : Option Value :=
  lookup? true name ns id

def isBound (ns : Namespaces) (id : NamespaceId) (name : String) : Bool :=
  (ns.resolve? id name).isSome

def declare (ns : Namespaces) (id : NamespaceId) (name : String) : Namespaces :=
  modify (·.mention name false) ns id

def hide (ns : Namespaces) (id : NamespaceId) (name : String) : Namespaces :=
  modify (·.mention name true) ns id

/-- Whether the namespace itself has bound the name. -/
def isTaken (ns : Namespaces) (id : NamespaceId) (name : String) : Bool :=
  ((get? ns id).bind (·.find? name)).any (·.value.isSome)

/-- `none` if the name is bound there already. -/
def bind? (ns : Namespaces) (id : NamespaceId) (name : String) (v : Value) : Option Namespaces :=
  if ns.isTaken id name then none
  else some (modify (fun n => (n.mention name false).fill name v) ns id)

theorem get?_add (ns : Namespaces) (name : String) (parent : Option NamespaceId) :
    get? (ns.add name parent).2 (ns.add name parent).1 = some ⟨name, parent, []⟩ := by
  simp [add, get?]

@[simp] theorem length_modify (f : Namespace → Namespace) (ns : Namespaces) (id : NamespaceId) :
    (modify f ns id).length = ns.length := by
  fun_induction modify f ns id <;> simp_all

theorem get?_modify (f : Namespace → Namespace) (ns : Namespaces) (id other : NamespaceId) :
    get? (modify f ns id) other = if other = id then (get? ns other).map f else get? ns other := by
  induction ns with
  | nil => simp [modify, get?]
  | cons n older ih =>
    by_cases here : id = older.length
    · by_cases same : other = older.length
      · simp [modify, get?, here, same]
      · simp [modify, get?, here, same]
    · by_cases same : other = older.length
      · simp [modify, get?, here, same, Ne.symm here]
      · simp [modify, get?, here, same, ih]

end Namespaces

end StackLisp
