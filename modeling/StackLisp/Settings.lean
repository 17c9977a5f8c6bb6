import StackLisp.Settings.Json
import StackLisp.Decimal.Numeral

/-!
The settings of a machine and of the compiler, and how they are read from JSON: an object with the
fields that differ from the defaults, or an array of the first fields in order. A name may be unknown
but not repeated.
-/

namespace StackLisp

structure CompileOptions where
  inline : Bool := true
  /-- Calls inlined into one chunk. -/
  maxInlinedCalls : Nat := 4
  /-- The longest code that is inlined. -/
  maxInlineLength : Nat := 32
deriving DecidableEq

def CompileOptions.withoutInlining : CompileOptions :=
  { inline := false }

structure PoolOptions where
  /-- Frames made whenever a size class has none left. -/
  spanEntries : Nat := 16
deriving DecidableEq

structure Settings where
  trace : Bool := false
  compile : CompileOptions := {}
  pool : PoolOptions := {}
deriving DecidableEq

inductive SettingsError where
  | malformed
  | emptySpan
deriving DecidableEq

def SettingsError.message? : SettingsError → Option String
  | malformed => none
  | emptySpan => some "allocator.span_entries must be at least 1"

namespace Json

def bool? : Json → Option Bool
  | bool b => some b
  | _ => none

/-- A count: digits alone, below 2 ^ 64. -/
def count? : Json → Option Nat
  | number spelling =>
    let n := Decimal.ofDigits spelling
    if spelling.all isDigit ∧ n < Nat.pow 2 64 then some n else none
  | _ => none

/-- How a field is read into a record. -/
abbrev Field (α : Type) := String × (α → Json → Option α)

/-- Reads members in order; `seen` are the known names so far. -/
def readMembers {α : Type} (fields : List (Field α)) :
    List String → α → List (Option String × Json) → Option α
  | _, a, [] => some a
  | seen, a, (name, item) :: rest => do
    let name ← name
    match fields.lookup name with
    | none => readMembers fields seen a rest
    | some read =>
      if seen.contains name then none
      else readMembers fields (name :: seen) (← read a item) rest

/-- Reads items into the fields in order; there may be fewer items than fields, not more. -/
def readItems {α : Type} : List (Field α) → α → List Json → Option α
  | _, a, [] => some a
  | [], _, _ :: _ => none
  | (_, read) :: fields, a, item :: items => do readItems fields (← read a item) items

def record? {α : Type} (fields : List (Field α)) (start : α) : Json → Option α
  | object members => readMembers fields [] start members
  | array items => readItems fields start items
  | _ => none

end Json

def CompileOptions.fields : List (Json.Field CompileOptions) :=
  [("inline", fun o v => v.bool?.map fun b => { o with inline := b }),
   ("max_inlined_calls", fun o v => v.count?.map fun n => { o with maxInlinedCalls := n }),
   ("max_inline_len", fun o v => v.count?.map fun n => { o with maxInlineLength := n })]

def PoolOptions.fields : List (Json.Field PoolOptions) :=
  [("span_entries", fun o v => v.count?.map fun n => { o with spanEntries := n })]

def CompileOptions.ofJson? : Json → Option CompileOptions :=
  Json.record? fields {}

def PoolOptions.ofJson? : Json → Option PoolOptions :=
  Json.record? fields {}

namespace Settings

def fields : List (Json.Field Settings) :=
  [("trace", fun s v => v.bool?.map fun b => { s with trace := b }),
   ("compile", fun s v => (CompileOptions.ofJson? v).map fun o => { s with compile := o }),
   ("allocator", fun s v => (PoolOptions.ofJson? v).map fun o => { s with pool := o })]

def isValid (s : Settings) : Bool :=
  s.pool.spanEntries ≠ 0

def read (text : String) : Except SettingsError Settings :=
  match (Json.parse? text).bind (Json.record? fields {}) with
  | none => .error .malformed
  | some s => if s.isValid then .ok s else .error .emptySpan

end Settings

end StackLisp
