import StackLisp.Value.Printer

/-!
Clauses of a lambda: named parameters, perhaps a name for the remaining arguments, and a body. A call
runs the first clause that its argument count fits.
-/

namespace StackLisp

structure Clause where
  params : List String
  rest : Option String
  body : List Value

namespace Clause

def fixedCount (c : Clause) : Nat :=
  c.params.length

def isVariadic (c : Clause) : Bool :=
  c.rest.isSome

def text (c : Clause) : String :=
  let rest := match c.rest with
    | none => []
    | some name => [s!". {name}"]
  let words := " ".intercalate (c.params ++ rest)
  s!"({words})"

/-- Whether a call with `n` arguments fits the clause. -/
def fits (c : Clause) (n : Nat) : Bool :=
  if c.isVariadic then c.fixedCount ≤ n else n = c.fixedCount

/-- Whether every count that fits the second clause fits the first. -/
def shadows (earlier later : Clause) : Bool :=
  if earlier.isVariadic then earlier.fixedCount ≤ later.fixedCount
  else !later.isVariadic && earlier.fixedCount = later.fixedCount

theorem shadows_iff {earlier later : Clause} :
    earlier.shadows later ↔ ∀ n, later.fits n → earlier.fits n := by
  unfold shadows fits
  cases he : earlier.isVariadic <;> cases hl : later.isVariadic
  · simp [eq_comm]
  · simp only [Bool.false_eq_true, ↓reduceIte, Bool.not_true, Bool.false_and, decide_eq_true_eq,
      false_iff]
    intro h
    have far := h (later.fixedCount + earlier.fixedCount + 1) (by omega)
    omega
  · simp
  · simp only [↓reduceIte, decide_eq_true_eq]
    exact ⟨fun h n hn => Nat.le_trans h hn, fun h => h _ (Nat.le_refl _)⟩

end Clause

/-- What clauses cover: fixed counts as bits of words, and the least count from which a variadic clause
takes all. -/
structure Coverage where
  words : List (BitVec 64) := []
  leastRest : Option Nat := none

namespace Coverage

/-- Whether the bit of a fixed count is set. -/
def hasFixed (v : Coverage) (n : Nat) : Bool :=
  v.words[n / 64]?.any (·.getLsbD (n % 64))

/-- Sets the bit of a fixed count, with as many words as it takes. -/
def addFixed (v : Coverage) (n : Nat) : Coverage :=
  let words := v.words ++ List.replicate (n / 64 + 1 - v.words.length) 0
  { v with words := words.modify (n / 64) (· ||| BitVec.twoPow 64 (n % 64)) }

/-- Whether a variadic clause takes all counts from this one up. -/
def hasRest (v : Coverage) (n : Nat) : Bool :=
  v.leastRest.any (· ≤ n)

def addRest (v : Coverage) (n : Nat) : Coverage :=
  { v with leastRest := some (v.leastRest.elim n (min · n)) }

def add (v : Coverage) (c : Clause) : Coverage :=
  if c.isVariadic then v.addRest c.fixedCount else v.addFixed c.fixedCount

/-- Whether a clause is taken to be out of reach. -/
def closes (v : Coverage) (c : Clause) : Bool :=
  v.hasRest c.fixedCount || (!c.isVariadic && v.hasFixed c.fixedCount)

@[simp] theorem hasFixed_addRest (v : Coverage) (n m : Nat) :
    (v.addRest n).hasFixed m = v.hasFixed m :=
  rfl

@[simp] theorem hasRest_addFixed (v : Coverage) (n m : Nat) :
    (v.addFixed n).hasRest m = v.hasRest m :=
  rfl

/-- Words of zeros at the end have no bit set. -/
theorem any_getLsbD_pad (words : List (BitVec 64)) (count i j : Nat) :
    (words ++ List.replicate count 0)[i]?.any (·.getLsbD j) = words[i]?.any (·.getLsbD j) := by
  by_cases inside : i < words.length
  · rw [List.getElem?_append_left inside]
  · have late : words.length ≤ i := Nat.le_of_not_lt inside
    rw [List.getElem?_append_right late, List.getElem?_replicate, List.getElem?_eq_none late]
    split <;> simp

theorem hasFixed_addFixed {v : Coverage} {n m : Nat} :
    (v.addFixed n).hasFixed m ↔ v.hasFixed m ∨ m = n := by
  have padded := any_getLsbD_pad v.words (n / 64 + 1 - v.words.length) (m / 64) (m % 64)
  have long : n / 64 < (v.words ++ List.replicate (n / 64 + 1 - v.words.length) 0).length := by
    rw [List.length_append, List.length_replicate]
    omega
  unfold hasFixed addFixed
  rw [← padded]
  dsimp only
  generalize v.words ++ List.replicate (n / 64 + 1 - v.words.length) 0 = words at long
  rw [List.getElem?_modify]
  by_cases same : n / 64 = m / 64
  · have inside : m / 64 < words.length := same ▸ long
    have bit : m % 64 = n % 64 ↔ m = n := by omega
    have short : m % 64 < 64 := Nat.mod_lt m (by decide)
    simp [same, List.getElem?_eq_getElem inside, short, bit]
  · have other : m ≠ n := fun equal => same (by rw [equal])
    simp [same, other]

theorem hasRest_addRest {v : Coverage} {n m : Nat} :
    (v.addRest n).hasRest m ↔ v.hasRest m ∨ n ≤ m := by
  cases least : v.leastRest with
  | none => simp [hasRest, addRest, least]
  | some k =>
    simp only [hasRest, addRest, least, Option.elim_some, Option.any_some, decide_eq_true_eq]
    omega

theorem hasFixed_add {v : Coverage} {c : Clause} {n : Nat} :
    (v.add c).hasFixed n ↔ v.hasFixed n ∨ !c.isVariadic ∧ n = c.fixedCount := by
  unfold add
  split
  next variadic => simp [variadic]
  next fixed => simp [fixed, hasFixed_addFixed]

theorem hasRest_add {v : Coverage} {c : Clause} {n : Nat} :
    (v.add c).hasRest n ↔ v.hasRest n ∨ c.isVariadic ∧ c.fixedCount ≤ n := by
  unfold add
  split
  next variadic => simp [variadic, hasRest_addRest]
  next fixed => simp [fixed]

theorem hasFixed_foldl {cs : List Clause} {v : Coverage} {n : Nat} :
    (cs.foldl add v).hasFixed n ↔ v.hasFixed n ∨ ∃ c ∈ cs, !c.isVariadic ∧ n = c.fixedCount := by
  induction cs generalizing v with
  | nil => simp
  | cons c cs ih => simp [ih, hasFixed_add, or_assoc]

theorem hasRest_foldl {cs : List Clause} {v : Coverage} {n : Nat} :
    (cs.foldl add v).hasRest n ↔ v.hasRest n ∨ ∃ c ∈ cs, c.isVariadic ∧ c.fixedCount ≤ n := by
  induction cs generalizing v with
  | nil => simp
  | cons c cs ih => simp [ih, hasRest_add, or_assoc]

end Coverage

/-- Clauses in order, none of them shadowed by one before it. -/
abbrev Clauses := List Clause

namespace Clauses

def coverage (cs : Clauses) : Coverage :=
  cs.foldl .add {}

/-- The clauses with one more at the end; `none` if what they cover closes it off. -/
def push? (cs : Clauses) (c : Clause) : Option Clauses :=
  if cs.coverage.closes c then none else some (cs ++ [c])

theorem coverage_hasFixed {cs : Clauses} {n : Nat} :
    cs.coverage.hasFixed n ↔ ∃ c ∈ cs, !c.isVariadic ∧ n = c.fixedCount := by
  have blank : ({} : Coverage).hasFixed n = false := rfl
  rw [coverage, Coverage.hasFixed_foldl, blank, or_iff_right Bool.false_ne_true]

theorem coverage_hasRest {cs : Clauses} {n : Nat} :
    cs.coverage.hasRest n ↔ ∃ c ∈ cs, c.isVariadic ∧ c.fixedCount ≤ n := by
  have blank : ({} : Coverage).hasRest n = false := rfl
  rw [coverage, Coverage.hasRest_foldl, blank, or_iff_right Bool.false_ne_true]

theorem coverage_closes {cs : Clauses} {c : Clause} :
    cs.coverage.closes c ↔ ∃ earlier ∈ cs, earlier.shadows c := by
  simp only [Coverage.closes, Bool.or_eq_true, Bool.and_eq_true, coverage_hasRest, coverage_hasFixed]
  constructor
  · rintro (⟨earlier, member, variadic, fits⟩ | ⟨fixed, earlier, member, plain, same⟩)
    · exact ⟨earlier, member, by simp [Clause.shadows, variadic, fits]⟩
    · refine ⟨earlier, member, ?_⟩
      simp only [Bool.not_eq_true'] at plain fixed
      simp [Clause.shadows, plain, fixed, same]
  · rintro ⟨earlier, member, shadows⟩
    unfold Clause.shadows at shadows
    split at shadows
    next variadic => exact Or.inl ⟨earlier, member, variadic, of_decide_eq_true shadows⟩
    next fixed =>
      obtain ⟨plain, same⟩ := Bool.and_eq_true_iff.mp shadows
      refine Or.inr ⟨plain, earlier, member, by simpa using fixed, (of_decide_eq_true same).symm⟩

theorem push?_eq_none_iff {cs : Clauses} {c : Clause} :
    cs.push? c = none ↔ ∃ earlier ∈ cs, ∀ n, c.fits n → earlier.fits n := by
  simp only [push?, ite_eq_left_iff, reduceCtorEq, imp_false, Classical.not_not, coverage_closes,
    Clause.shadows_iff]

/-- The least count from which a variadic clause takes all. -/
def leastRest? (cs : Clauses) : Option Nat :=
  ((cs.filter (·.isVariadic)).map (·.fixedCount)).min?

def arity (cs : Clauses) : Arity :=
  Arity.ofParts ((cs.filter (!·.isVariadic)).map (·.fixedCount)) (leastRest? cs)

end Clauses

end StackLisp
