import StackLisp.Event
import StackLisp.Namespace

/-!
The store: everything that outlives a single evaluation and is shared by name or place. Namespaces,
references, the number of procedures built, and the reports made so far.
-/

namespace StackLisp

structure Store where
  namespaces : Namespaces := []
  /-- The value of each reference that is filled. -/
  refs : Array (Option Value) := #[]
  built : Nat := 0
  /-- The newest first. -/
  events : List Event := []

namespace Store

def report (s : Store) (e : Event) : Store :=
  { s with events := e :: s.events }

/-- An unfilled reference. -/
def newRef (s : Store) : RefId × Store :=
  (s.refs.size, { s with refs := s.refs.push none })

def deref (s : Store) (id : RefId) : Except Fault Value :=
  match s.refs[id]? with
  | some (some v) => .ok v
  | _ => .error .unboundRef

/-- References are filled once. -/
def fillRef (s : Store) (id : RefId) (v : Value) : Except Fault Store :=
  match s.refs[id]? with
  | some (some _) => .error .refAlreadyBound
  | _ => .ok { s with refs := s.refs.setIfInBounds id (some v) }

def addNamespace (s : Store) (name : String) (parent : Option NamespaceId) : NamespaceId × Store :=
  let (id, namespaces) := s.namespaces.add name parent
  (id, { s with namespaces })

def declare (s : Store) (id : NamespaceId) (name : String) : Store :=
  { s with namespaces := s.namespaces.declare id name }

def hide (s : Store) (id : NamespaceId) (name : String) : Store :=
  { s with namespaces := s.namespaces.hide id name }

def bind (s : Store) (id : NamespaceId) (name : String) (v : Value) : Except Fault Store :=
  match s.namespaces.bind? id name v with
  | some namespaces => .ok { s with namespaces }
  | none => .error (.alreadyBound name)

def resolve (s : Store) (id : NamespaceId) (name : String) : Except Fault Value :=
  match s.namespaces.resolve? id name with
  | some v => .ok v
  | none => .error (.unboundSymbol name)

theorem deref_newRef (s : Store) : s.newRef.2.deref s.newRef.1 = .error .unboundRef := by
  simp [newRef, deref]

theorem deref_fillRef {s t : Store} {id : RefId} {v : Value} (h : s.fillRef id v = .ok t)
    (made : id < s.refs.size) : t.deref id = .ok v := by
  unfold fillRef at h
  split at h
  · simp at h
  · obtain rfl := Except.ok.inj h
    simp [deref, made]

end Store

end StackLisp
