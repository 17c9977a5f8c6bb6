import Mathlib.Data.List.Forall2
import Mathlib.Logic.Function.Iterate

/-!
Systems that run side by side. If two of them meet again and again, each after steps of its own, then both
end alike or neither ends.
-/

namespace StackLisp

/-- What runs step by step. A state at its end stays as it is and notes nothing more. -/
structure System (S A N : Type) where
  step : S → S
  ended? : S → Option A
  notes : S → List N
  still : ∀ {s : S} {a : A}, ended? s = some a → step s = s
  silent : ∀ {s : S} {a : A}, ended? s = some a → notes s = []

namespace System

variable {S T A B M N : Type} {sys : System S A M} {other : System T B N} {s : S} {t : T} {a : A} {b : B}

/-- What the first so many steps note. -/
def noted (sys : System S A M) : Nat → S → List M
  | 0, _ => []
  | n + 1, s => sys.notes s ++ sys.noted n (sys.step s)

theorem noted_add (m n : Nat) (s : S) :
    sys.noted (m + n) s = sys.noted m s ++ sys.noted n (sys.step^[m] s) := by
  induction m generalizing s with
  | zero => simp [noted]
  | succ m ih =>
    rw [Nat.succ_add]
    simp only [noted, Function.iterate_succ_apply, ih, List.append_assoc]

/-- The run from a state ends, after at most so many steps and with these notes. -/
structure EndsIn (sys : System S A M) (n : Nat) (s : S) (a : A) (notes : List M) : Prop where
  ended : sys.ended? (sys.step^[n] s) = some a
  noted : sys.noted n s = notes

/-- The run from a state ends. -/
def Ends (sys : System S A M) (s : S) (a : A) (notes : List M) : Prop :=
  ∃ n, sys.EndsIn n s a notes

variable {notes : List M}

theorem noted_of_ended (h : sys.ended? s = some a) (n : Nat) :
    sys.step^[n] s = s ∧ sys.noted n s = [] := by
  induction n with
  | zero => exact ⟨rfl, rfl⟩
  | succ n ih => simp only [Function.iterate_succ_apply, noted, sys.still h, sys.silent h, ih, List.append_nil, and_self]

theorem EndsIn.add {n : Nat} (h : sys.EndsIn n s a notes) (k : Nat) : sys.EndsIn (n + k) s a notes := by
  obtain ⟨stays, quiet⟩ := noted_of_ended h.ended k
  refine ⟨?_, ?_⟩
  · rw [Nat.add_comm, Function.iterate_add_apply, stays]
    exact h.ended
  · rw [noted_add, quiet, List.append_nil, h.noted]

theorem Ends.unique {c : A} {more : List M} (h : sys.Ends s a notes) (g : sys.Ends s c more) :
    a = c ∧ notes = more := by
  obtain ⟨n, h⟩ := h
  obtain ⟨k, g⟩ := g
  have first := h.add k
  have second := Nat.add_comm n k ▸ g.add n
  exact ⟨Option.some.inj (first.ended.symm.trans second.ended), first.noted.symm.trans second.noted⟩

/-- The end of a run is that of any later part of it. -/
theorem EndsIn.later {n : Nat} (h : sys.EndsIn n s a notes) (k : Nat) :
    ∃ rest, notes = sys.noted k s ++ rest ∧ sys.EndsIn (n - k) (sys.step^[k] s) a rest := by
  have long := h.add (k - n)
  have split : n + (k - n) = k + (n - k) := by omega
  rw [split] at long
  refine ⟨sys.noted (n - k) (sys.step^[k] s), ?_, ?_, rfl⟩
  · rw [← noted_add, long.noted]
  · rw [← Function.iterate_add_apply, Nat.add_comm]
    exact long.ended

theorem Ends.earlier {k : Nat} (h : sys.Ends (sys.step^[k] s) a notes) :
    sys.Ends s a (sys.noted k s ++ notes) := by
  obtain ⟨n, h⟩ := h
  refine ⟨k + n, ?_, ?_⟩
  · rw [Nat.add_comm, Function.iterate_add_apply]
    exact h.ended
  · rw [noted_add, h.noted]

/-- Related states end alike, or come to related states again with notes that match. -/
def Progress (sys : System S A M) (other : System T B N) (R : S → T → Prop) (Q : A → B → Prop)
    (L : M → N → Prop) (s : S) (t : T) : Prop :=
  (∃ a b notes more, sys.Ends s a notes ∧ other.Ends t b more ∧ Q a b ∧ List.Forall₂ L notes more) ∨
    sys.ended? s = none ∧ other.ended? t = none ∧ ∃ j k, 0 < j ∧ 0 < k ∧
      List.Forall₂ L (sys.noted j s) (other.noted k t) ∧ R (sys.step^[j] s) (other.step^[k] t)

variable {R : S → T → Prop} {Q : A → B → Prop} {L : M → N → Prop}

theorem Progress.flip (h : Progress sys other R Q L s t) :
    Progress other sys (fun t s => R s t) (fun b a => Q a b) (fun n m => L m n) t s := by
  rcases h with ⟨a, b, notes, more, first, second, alike, same⟩ | ⟨going, moving, j, k, hj, hk, same, related⟩
  · exact .inl ⟨b, a, more, notes, second, first, alike, same.flip⟩
  · exact .inr ⟨moving, going, k, j, hk, hj, same.flip, related⟩

/-- Steps that note nothing may be made first. -/
theorem Progress.earlier {k : Nat} (quiet : other.noted k t = [])
    (h : Progress sys other R Q L s (other.step^[k] t)) : Progress sys other R Q L s t := by
  rcases h with ⟨a, b, notes, more, first, second, alike, same⟩ | ⟨going, moving, j, n, hj, hn, same, related⟩
  · refine .inl ⟨a, b, notes, more, first, ?_, alike, same⟩
    have ends := second.earlier
    rwa [quiet] at ends
  · refine .inr ⟨going, ?_, j, k + n, hj, by omega, ?_, ?_⟩
    · cases ended : other.ended? t with
      | none => rfl
      | some b =>
        rw [(noted_of_ended ended k).1, ended] at moving
        exact moving
    · rw [noted_add, quiet]
      exact same
    · rw [Nat.add_comm, Function.iterate_add_apply]
      exact related

theorem Progress.sooner {k : Nat} (quiet : sys.noted k s = [])
    (h : Progress sys other R Q L (sys.step^[k] s) t) : Progress sys other R Q L s t :=
  (h.flip.earlier quiet).flip

/-- If the first of two systems that keep meeting ends, the other ends alike. -/
theorem ends_of_progress (progress : ∀ {s t}, R s t → Progress sys other R Q L s t) (related : R s t)
    (h : sys.Ends s a notes) : ∃ b more, other.Ends t b more ∧ Q a b ∧ List.Forall₂ L notes more := by
  obtain ⟨n, h⟩ := h
  induction n using Nat.strongRecOn generalizing s t notes with
  | ind n ih =>
    rcases progress related with ⟨c, b, own, more, first, second, alike, same⟩ |
      ⟨going, -, j, k, hj, -, same, again⟩
    · obtain ⟨rfl, rfl⟩ := first.unique ⟨n, h⟩
      exact ⟨b, more, second, alike, same⟩
    · have late : n ≠ 0 := by
        rintro rfl
        cases going.symm.trans h.ended
      obtain ⟨rest, rfl, later⟩ := h.later j
      obtain ⟨b, more, ends, alike, others⟩ := ih (n - j) (by omega) again later
      exact ⟨b, _, ends.earlier, alike, List.rel_append same others⟩

/-- Each of two runs ends just if the other does, with ends and notes that are alike. -/
def Together (sys : System S A M) (other : System T B N) (Q : A → B → Prop) (L : M → N → Prop) (s : S)
    (t : T) : Prop :=
  (∀ a notes, sys.Ends s a notes → ∃ b more, other.Ends t b more ∧ Q a b ∧ List.Forall₂ L notes more) ∧
    ∀ b more, other.Ends t b more → ∃ a notes, sys.Ends s a notes ∧ Q a b ∧ List.Forall₂ L notes more

/-- Two systems that keep meeting end together. -/
theorem together_of_progress (progress : ∀ {s t}, R s t → Progress sys other R Q L s t) (related : R s t) :
    Together sys other Q L s t := by
  refine ⟨fun a notes ends => ends_of_progress progress related ends, fun b more ends => ?_⟩
  obtain ⟨a, notes, first, alike, same⟩ := ends_of_progress
    (R := fun t s => R s t) (fun {t s} related => (progress related).flip) related ends
  exact ⟨a, notes, first, alike, same.flip⟩

theorem Together.flip (h : Together sys other Q L s t) :
    Together other sys (fun b a => Q a b) (fun n m => L m n) t s := by
  refine ⟨fun b more ends => ?_, fun a notes ends => ?_⟩
  · obtain ⟨a, notes, first, alike, same⟩ := h.2 b more ends
    exact ⟨a, notes, first, alike, same.flip⟩
  · obtain ⟨b, more, second, alike, same⟩ := h.1 a notes ends
    exact ⟨b, more, second, alike, same.flip⟩

theorem Together.trans {U C O : Type} {third : System U C O} {u : U} {X : B → C → Prop} {J : N → O → Prop}
    {Y : A → C → Prop} {K : M → O → Prop} (h : Together sys other Q L s t)
    (g : Together other third X J t u) (ends : ∀ {a b c}, Q a b → X b c → Y a c)
    (notes : ∀ {m n o}, L m n → J n o → K m o) : Together sys third Y K s u := by
  have all : ∀ {ms : List M} {ns : List N} {os : List O}, List.Forall₂ L ms ns → List.Forall₂ J ns os →
      List.Forall₂ K ms os := by
    intro ms ns os first second
    induction first generalizing os with
    | nil =>
      cases second
      exact .nil
    | cons m _ ih =>
      cases second with
      | cons n rest => exact .cons (notes m n) (ih rest)
  refine ⟨fun a ms first => ?_, fun c os last => ?_⟩
  · obtain ⟨b, ns, middle, alike, same⟩ := h.1 a ms first
    obtain ⟨c, os, last, likewise, also⟩ := g.1 b ns middle
    exact ⟨c, os, last, ends alike likewise, all same also⟩
  · obtain ⟨b, ns, middle, likewise, also⟩ := g.2 c os last
    obtain ⟨a, ms, first, alike, same⟩ := h.2 b ns middle
    exact ⟨a, ms, first, ends alike likewise, all same also⟩

/-- A state ends as it does after a step that notes nothing. -/
theorem ends_step_iff (quiet : sys.notes s = []) : sys.Ends (sys.step s) a notes ↔ sys.Ends s a notes := by
  have silent : sys.noted 1 s = [] := by
    change sys.notes s ++ [] = []
    rw [quiet, List.append_nil]
  constructor
  · intro ends
    have earlier := Ends.earlier (k := 1) ends
    rwa [silent] at earlier
  · rintro ⟨n, ends⟩
    obtain ⟨rest, rfl, later⟩ := ends.later 1
    rw [silent]
    exact ⟨_, later⟩

theorem together_of_step (quiet : sys.notes s = []) (silent : other.notes t = [])
    (h : Together sys other Q L (sys.step s) (other.step t)) : Together sys other Q L s t := by
  unfold Together at h ⊢
  simpa only [ends_step_iff quiet, ends_step_iff silent] using h

end System

end StackLisp
