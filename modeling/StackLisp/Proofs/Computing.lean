import StackLisp.Proofs.Replies
import StackLisp.Proofs.Scene
import StackLisp.Proofs.Stores

/-!
Instructions that work on their operands and on the store only. On operands and stores that match they
come to turns that match, whatever scenes they run in.
-/

namespace StackLisp

open Value (Matches)

/-- Whether an operation looks at nothing but its operands and the store. -/
def Opcode.computes : Opcode → Bool
  | label | noOp | nullLit | trueLit | falseLit | posInt | negInt | newRef | bindRef | deref
  | makeClosure | pop | resolve | declare | hide | bind | add | sub | mul | div | mod | neg | numEq
  | numLt | numLte | numGt | numGte | eq | not | car | cdr | cons | empty => true
  | _ => false

variable {P : Procedure Value → Procedure Value → Prop}

/-- Turns that push values that match, in scenes that may differ in all else. -/
inductive Turn.Matches (P : Procedure Value → Procedure Value → Prop) (s t : Scene) :
    Turn → Turn → Prop where
  | go {vs ws : List Value} {σ τ : Store} (given : List.Forall₂ (Value.Matches P) vs ws)
    (stores : σ.Matches P τ) :
    Matches P s t (.go { s with stack := vs ++ s.stack } σ) (.go { t with stack := ws ++ t.stack } τ)
  | fault {f g : Fault} (h : f.Matches P g) : Matches P s t (.fault f) (.fault g)
  | stray : Matches P s t .stray .stray

namespace Turn

variable {s t : Scene}

theorem matches_withNone {x y : Turn} (h : x.Matches P s t y) {as bs : List Value}
    (taken : List.Forall₂ (Value.Matches P) as bs) :
    (withNone x as).Matches P s t (withNone y bs) := by
  cases taken with
  | nil => exact h
  | cons => exact .stray

theorem matches_withOne {x y : Value → Turn}
    (h : ∀ {v w : Value}, v.Matches P w → (x v).Matches P s t (y w)) {as bs : List Value}
    (taken : List.Forall₂ (Value.Matches P) as bs) :
    (withOne x as).Matches P s t (withOne y bs) := by
  match as, bs, taken with
  | [_], [_], .cons first .nil => exact h first
  | [], [], .nil | _ :: _ :: _, _ :: _ :: _, .cons _ (.cons _ _) => exact .stray

theorem matches_withTwo {x y : Value → Value → Turn}
    (h : ∀ {a b c d : Value}, a.Matches P b → c.Matches P d → (x a c).Matches P s t (y b d))
    {as bs : List Value} (taken : List.Forall₂ (Value.Matches P) as bs) :
    (withTwo x as).Matches P s t (withTwo y bs) := by
  match as, bs, taken with
  | [_, _], [_, _], .cons first (.cons second .nil) => exact h first second
  | [], [], .nil | [_], [_], .cons _ .nil
  | _ :: _ :: _ :: _, _ :: _ :: _ :: _, .cons _ (.cons _ (.cons _ _)) => exact .stray

theorem matches_withFirst {x y : Value → List Value → Turn}
    (h : ∀ {v w : Value} {as bs : List Value}, v.Matches P w →
      List.Forall₂ (Value.Matches P) as bs → (x v as).Matches P s t (y w bs))
    {as bs : List Value} (taken : List.Forall₂ (Value.Matches P) as bs) :
    (withFirst x as).Matches P s t (withFirst y bs) := by
  cases taken with
  | nil => exact .stray
  | cons first rest => exact h first rest

end Turn

namespace Scene

variable {s t : Scene} {σ τ : Store}

theorem matches_give {v w : Value} (h : v.Matches P w) (stores : σ.Matches P τ) :
    (s.give σ v).Matches P s t (t.give τ w) :=
  .go (.cons h .nil) stores

theorem matches_none (stores : σ.Matches P τ) : (Turn.go s σ).Matches P s t (.go t τ) :=
  @Turn.Matches.go P s t [] [] σ τ .nil stores

theorem matches_giveResult {x y : Except Fault Value} (h : Agree P (Matches P) x y)
    (stores : σ.Matches P τ) : (s.giveResult σ x).Matches P s t (t.giveResult τ y) := by
  cases h with
  | ok value => exact matches_give value stores
  | error faults => exact .fault faults

theorem matches_keep {x y : Except Fault Store} (h : Agree P (Store.Matches P) x y) :
    (s.keep x).Matches P s t (t.keep y) := by
  cases h with
  | ok stores => exact matches_none stores
  | error faults => exact .fault faults

theorem matches_makeClosure (stores : σ.Matches P τ) {v w : Value} {as bs : List Value}
    (template : v.Matches P w) (captured : List.Forall₂ (Matches P) as bs) :
    (s.makeClosure σ as v).Matches P s t (t.makeClosure τ bs w) := by
  cases template with
  | procedure bodies => exact matches_give (.closure bodies captured) stores
  | _ => exact .fault (.plain nofun)

theorem matches_unary (op : Opcode) {f : Value → Except Fault Value}
    (meaning : op.unary? = some f) (stores : σ.Matches P τ) {as bs : List Value}
    (taken : List.Forall₂ (Matches P) as bs) :
    (Turn.withOne (fun v => s.giveResult σ (f v)) as).Matches P s t
      (Turn.withOne (fun v => t.giveResult τ (f v)) bs) :=
  Turn.matches_withOne (fun h => matches_giveResult (agree_unary meaning h) stores) taken

theorem matches_binary (alike : Alikeness P) (op : Opcode) {f : Value → Value → Except Fault Value}
    (meaning : op.binary? = some f) (stores : σ.Matches P τ) {as bs : List Value}
    (taken : List.Forall₂ (Matches P) as bs) :
    (Turn.withTwo (fun left right => s.giveResult σ (f left right)) as).Matches P s t
      (Turn.withTwo (fun left right => t.giveResult τ (f left right)) bs) :=
  Turn.matches_withTwo
    (fun left right => matches_giveResult (agree_binary alike meaning left right) stores) taken

theorem act_matches (alike : Alikeness P) {i : Instruction} (h : i.op.computes)
    (globals : s.chunk.globals = t.chunk.globals) (stores : σ.Matches P τ) {as bs : List Value}
    (taken : List.Forall₂ (Matches P) as bs) :
    (s.act σ i as).Matches P s t (t.act τ i bs) := by
  have agree {α : Type} {S : α → α → Prop} {x y : Except Fault String}
      {f g : String → Except Fault α} (h : Agree P Eq x y)
      (next : ∀ name, Agree P S (f name) (g name)) : Agree P S (x.bind f) (y.bind g) :=
    h.bind fun {m n} same => by
      subst same
      exact next m
  obtain ⟨op, operand, small⟩ := i
  cases op <;> cases h
  case label | noOp => exact Turn.matches_withNone (matches_none stores) taken
  case nullLit => exact Turn.matches_withNone (matches_give .null stores) taken
  case trueLit | falseLit => exact Turn.matches_withNone (matches_give (.bool _) stores) taken
  case posInt | negInt => exact Turn.matches_withNone (matches_give (.integer _) stores) taken
  case newRef =>
    obtain ⟨same, made⟩ := stores.newRef
    refine Turn.matches_withNone (matches_give ?_ made) taken
    rw [same]
    exact .ref _
  case bindRef =>
    refine Turn.matches_withTwo (fun cell value => matches_keep (cell.ref?.bind fun {m n} same => ?_))
      taken
    subst same
    exact stores.fillRef m value
  case deref =>
    refine Turn.matches_withOne
      (fun cell => matches_giveResult (cell.ref?.bind fun {m n} same => ?_) stores) taken
    subst same
    exact stores.deref m
  case makeClosure =>
    exact Turn.matches_withFirst (fun template rest => matches_makeClosure stores template rest) taken
  case pop => exact Turn.matches_withOne (fun _ => matches_none stores) taken
  case resolve =>
    refine Turn.matches_withOne (fun h => matches_giveResult (agree h.symbol? fun name => ?_) stores)
      taken
    rw [globals]
    exact stores.resolve _ name
  case declare =>
    refine Turn.matches_withOne (fun h => matches_keep (h.symbol?.map fun {m n} same => ?_)) taken
    subst same
    rw [globals]
    exact stores.declare _ m
  case hide =>
    refine Turn.matches_withOne (fun h => matches_keep (h.symbol?.map fun {m n} same => ?_)) taken
    subst same
    rw [globals]
    exact stores.hide _ m
  case bind =>
    refine Turn.matches_withTwo (fun h value => matches_keep (agree h.symbol? fun name => ?_)) taken
    rw [globals]
    exact stores.bind _ name value
  case neg => exact matches_unary .neg rfl stores taken
  case not => exact matches_unary .not rfl stores taken
  case car => exact matches_unary .car rfl stores taken
  case cdr => exact matches_unary .cdr rfl stores taken
  case empty => exact matches_unary .empty rfl stores taken
  case add => exact matches_binary alike .add rfl stores taken
  case sub => exact matches_binary alike .sub rfl stores taken
  case mul => exact matches_binary alike .mul rfl stores taken
  case div => exact matches_binary alike .div rfl stores taken
  case mod => exact matches_binary alike .mod rfl stores taken
  case numEq => exact matches_binary alike .numEq rfl stores taken
  case numLt => exact matches_binary alike .numLt rfl stores taken
  case numLte => exact matches_binary alike .numLte rfl stores taken
  case numGt => exact matches_binary alike .numGt rfl stores taken
  case numGte => exact matches_binary alike .numGte rfl stores taken
  case eq => exact matches_binary alike .eq rfl stores taken
  case cons => exact matches_binary alike .cons rfl stores taken

end Scene

end StackLisp
