import StackLisp.Fault

/-!
What values can be asked for: numbers, symbols, the parts of pairs and sequences. A value without the
capability is a fault that names both.
-/

namespace StackLisp.Value

def number? : Value → Except Fault Number
  | integer n => .ok (.integer n)
  | float x => .ok (.float x)
  | v => .error (.mismatch .number v)

def symbol? : Value → Except Fault String
  | symbol name => .ok name
  | v => .error (.mismatch .symbol v)

def ref? : Value → Except Fault RefId
  | ref id => .ok id
  | v => .error (.mismatch .reference v)

/-- The counts a callable takes. -/
def callable? : Value → Except Fault Arity
  | closure p _ => .ok p.arity
  | builtin b => .ok b.arity
  | v => .error (.mismatch .callable v)

/-- The first item; that of an empty vector is the empty list. -/
def car? : Value → Except Fault Value
  | pair car _ => .ok car
  | vector items => .ok (items.head?.getD null)
  | v => .error (.mismatch .pair v)

/-- The rest; a vector of one item leaves the empty list. -/
def cdr? : Value → Except Fault Value
  | pair _ cdr => .ok cdr
  | vector (_ :: item :: items) => .ok (vector (item :: items))
  | vector _ => .ok null
  | v => .error (.mismatch .pair v)

def isEmpty? : Value → Except Fault Bool
  | null => .ok true
  | pair _ _ => .ok false
  | vector items => .ok items.isEmpty
  | v => .error (.mismatch .sequence v)

/-- The sequence with an item before its first. -/
def prepend? (v item : Value) : Except Fault Value :=
  match v with
  | null => .ok (pair item null)
  | pair _ _ => .ok (pair item v)
  | vector items => .ok (vector (item :: items))
  | _ => .error (.mismatch .sequence v)

/-- The items of a vector or of a list that ends in the empty list. -/
def items? (v : Value) : Except Fault (List Value) :=
  match v with
  | vector items => .ok items
  | null | pair _ _ =>
    match v.spine with
    | (items, null) => .ok items
    | (_, tail) => .error (.mismatch .list tail)
  | v => .error (.mismatch .sequence v)

theorem items?_ofList (items : List Value) : (ofList items).items? = .ok items := by
  have spine := spine_ofList items
  cases items with
  | nil => rfl
  | cons v vs =>
    change (match (ofList (v :: vs)).spine with
      | (items, null) => Except.ok items
      | (_, tail) => .error (Fault.mismatch .list tail)) = _
    rw [spine]

theorem car?_prepend? {v w item : Value} (h : v.prepend? item = .ok w) : w.car? = .ok item := by
  cases v <;> simp [prepend?] at h <;> subst h <;> rfl

end StackLisp.Value
