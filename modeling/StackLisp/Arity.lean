/-!
The argument counts a callable accepts: some fixed counts and perhaps every count from a minimum up.
-/

namespace StackLisp

structure Arity where
  counts : List Nat
  atLeast : Option Nat
deriving DecidableEq

namespace Arity

def fixed (n : Nat) : Arity :=
  ⟨[n], none⟩

def least (n : Nat) : Arity :=
  ⟨[], some n⟩

/-- Every count from `low` to `high`, none if the bounds cross. -/
def range (low high : Nat) : Arity :=
  ⟨List.range' low (high + 1 - low), none⟩

def any : Arity :=
  least 0

/-- Inserts into an ascending list, keeping one of each count. -/
def insertCount (n : Nat) : List Nat → List Nat
  | [] => [n]
  | m :: ms => if n < m then n :: m :: ms else if n = m then m :: ms else m :: insertCount n ms

/-- Ascending counts below the minimum, if there is one; the others it takes in. -/
def ofParts (counts : List Nat) (atLeast : Option Nat) : Arity :=
  let ascending := counts.foldr insertCount []
  ⟨match atLeast with
    | none => ascending
    | some least => ascending.filter (· < least), atLeast⟩

def accepts (a : Arity) (n : Nat) : Bool :=
  a.atLeast.any (· ≤ n) || a.counts.contains n

def commas (parts : List String) : String :=
  ", ".intercalate parts

/-- Alternatives as words: `a`, `a or b`, `a, b, or c`. -/
def alternatives : List String → String
  | [] => "nothing"
  | [a] => a
  | [a, b] => s!"{a} or {b}"
  | parts =>
    let last := parts.getLast?.getD ""
    s!"{commas parts.dropLast}, or {last}"

def text (a : Arity) : String :=
  alternatives (a.counts.map toString ++ a.atLeast.toList.map fun n => s!"at least {n}")

@[simp] theorem mem_insertCount {n m : Nat} {ms : List Nat} :
    n ∈ insertCount m ms ↔ n = m ∨ n ∈ ms := by
  induction ms with
  | nil => simp [insertCount]
  | cons k ks ih => grind [insertCount]

@[simp] theorem mem_foldr_insertCount {n : Nat} {ms : List Nat} :
    n ∈ ms.foldr insertCount [] ↔ n ∈ ms := by
  induction ms with
  | nil => simp
  | cons m ms ih => simp [ih]

theorem accepts_ofParts {counts : List Nat} {atLeast : Option Nat} {n : Nat} :
    (ofParts counts atLeast).accepts n ↔ n ∈ counts ∨ ∃ least ∈ atLeast, least ≤ n := by
  cases atLeast with
  | none => simp [ofParts, accepts]
  | some least => simp [ofParts, accepts]; grind

theorem accepts_fixed {m n : Nat} : (fixed m).accepts n ↔ n = m := by
  simp [fixed, accepts]

theorem accepts_range {low high n : Nat} :
    (range low high).accepts n ↔ low ≤ n ∧ n ≤ high := by
  simp [range, accepts]; omega

end Arity

end StackLisp
