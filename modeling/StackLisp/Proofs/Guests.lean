import StackLisp.Proofs.Shortened

/-!
Plays side by side where one scene does the work of several. A scene of the first play may run while others
wait for it whose work the scene beside it does as well. If such scenes keep coming to such scenes, the two
plays end alike or both go on.
-/

namespace StackLisp

/-- The scene comes to another by steps that change nothing but the scene. -/
def Scene.Comes (s t : Scene) : Prop :=
  ∃ k, ∀ (σ : Store) (ws : List Waiting), (Play.step .plain)^[k] ⟨σ, .running s, ws⟩ = ⟨σ, .running t, ws⟩ ∧
    (Play.system .plain).noted k ⟨σ, .running s, ws⟩ = []

theorem Scene.Comes.refl (s : Scene) : s.Comes s :=
  ⟨0, fun _ _ => ⟨rfl, rfl⟩⟩

theorem Scene.Comes.head {s t u : Scene} {i : Instruction} (here : s.chunk.code[s.pc]? = some i)
    (quiet : i.op ∉ [.declare, .hide, .bind]) (goes : ∀ σ, s.turn σ i = .go t σ) (h : t.Comes u) : s.Comes u := by
  obtain ⟨k, runs⟩ := h
  refine ⟨k + 1, fun σ ws => ?_⟩
  obtain ⟨ends, notes⟩ := runs σ ws
  obtain ⟨notes, ends⟩ := Scene.quiet_run (r := .plain) here quiet (goes σ) notes ends
  exact ⟨ends, notes⟩

/-- Scenes that wait for one after the other. -/
def Waiting.all (hosts : List Scene) : List Waiting :=
  hosts.map .resume

section

variable (P : Procedure Value → Procedure Value → Prop) (H : Scene → List Scene → Scene → Prop)

/-- Work that waits in two plays. A scene of the second does what one of the first does when it is given a
value, with the scenes that wait for that one. -/
inductive Queues : List Waiting → List Waiting → Prop
  | nil : Queues [] []
  | resume {s t : Scene} {hosts : List Scene} {ws xs : List Waiting}
    (push : ∀ {v w : Value}, v.Matches P w → H (s.push v) hosts (t.push w)) (rest : Queues ws xs) :
    Queues (.resume s :: (Waiting.all hosts ++ ws)) (.resume t :: xs)
  | guard {v w : Value} {ws xs : List Waiting} (handler : v.Matches P w) (rest : Queues ws xs) :
    Queues (.guard v :: ws) (.guard w :: xs)

/-- Two plays at the same point. -/
inductive Play.Hosted : Play → Play → Prop
  | running {s t : Scene} (hosts : List Scene) {σ τ : Store} {ws xs : List Waiting} (scenes : H s hosts t)
    (stores : σ.Matches P τ) (waits : Queues P H ws xs) :
    Hosted ⟨σ, .running s, Waiting.all hosts ++ ws⟩ ⟨τ, .running t, xs⟩
  | calling {v w : Value} {as bs : List Value} {σ τ : Store} {ws xs : List Waiting} (callee : v.Matches P w)
    (args : List.Forall₂ (Value.Matches P) as bs) (stores : σ.Matches P τ) (waits : Queues P H ws xs) :
    Hosted ⟨σ, .calling v as, ws⟩ ⟨τ, .calling w bs, xs⟩
  | returning {v w : Value} {σ τ : Store} {ws xs : List Waiting} (value : v.Matches P w)
    (stores : σ.Matches P τ) (waits : Queues P H ws xs) : Hosted ⟨σ, .returning v, ws⟩ ⟨τ, .returning w, xs⟩
  | unwinding {f g : Fault} {σ τ : Store} {ws xs : List Waiting} (fault : f.Matches P g)
    (stores : σ.Matches P τ) (waits : Queues P H ws xs) : Hosted ⟨σ, .unwinding f, ws⟩ ⟨τ, .unwinding g, xs⟩
  | breaching {b c : Breach} {σ τ : Store} {ws xs : List Waiting} (stores : σ.Matches P τ)
    (waits : Queues P H ws xs) : Hosted ⟨σ, .breaching b, ws⟩ ⟨τ, .breaching c, xs⟩

end

namespace Play

variable {P : Procedure Value → Procedure Value → Prop} {H : Scene → List Scene → Scene → Prop} {σ τ : Store}
  {ws xs : List Waiting}

/-- Both plays end alike, or they come to the same point again. -/
abbrev Keeping (P : Procedure Value → Procedure Value → Prop) (H : Scene → List Scene → Scene → Prop) :
    Play → Play → Prop :=
  System.Progress (system .plain) (system .plain) (Hosted P H) (EndAlike (.shortening P)) (Edit.Matches P)

theorem noted_one (p : Play) : (system .plain).noted 1 p = edits .plain p :=
  List.append_nil _

theorem keeping_of_steps {p q p' q' : Play} (first : p.ended? = none) (second : q.ended? = none) (j k : Nat)
    (here : (step .plain)^[j + 1] p = p' ∧ (system .plain).noted (j + 1) p = [])
    (there : (step .plain)^[k + 1] q = q' ∧ (system .plain).noted (k + 1) q = []) (same : Hosted P H p' q') :
    Keeping P H p q := by
  refine .inr ⟨first, second, j + 1, k + 1, Nat.succ_pos j, Nat.succ_pos k, ?_, ?_⟩
  · rw [here.2, there.2]
    exact .nil
  · change Hosted P H ((step .plain)^[j + 1] p) ((step .plain)^[k + 1] q)
    rw [here.1, there.1]
    exact same

theorem keeping_of_step {p q : Play} (first : p.ended? = none) (second : q.ended? = none)
    (changes : List.Forall₂ (Edit.Matches P) (edits .plain p) (edits .plain q))
    (same : Hosted P H (step .plain p) (step .plain q)) : Keeping P H p q := by
  refine .inr ⟨first, second, 1, 1, Nat.one_pos, Nat.one_pos, ?_, same⟩
  change List.Forall₂ _ (edits .plain p ++ []) (edits .plain q ++ [])
  rwa [List.append_nil, List.append_nil]

theorem keeping_of_quiet {p q p' : Play} (first : p.ended? = none) (second : q.ended? = none)
    (silent : edits .plain p = []) (mute : edits .plain q = []) (n : Nat)
    (rest : (step .plain)^[n] (step .plain p) = p' ∧ (system .plain).noted n (step .plain p) = [])
    (same : Hosted P H p' (step .plain q)) : Keeping P H p q := by
  refine keeping_of_steps first second n 0 ⟨rest.1, ?_⟩ ⟨rfl, ?_⟩ same
  · change edits .plain p ++ (system .plain).noted n (step .plain p) = []
    rw [silent, rest.2]
    rfl
  · change edits .plain q ++ [] = []
    rw [mute]
    rfl

/-- A fault ends all the scenes that wait for one another. -/
theorem unwinds (f : Fault) (hosts : List Scene) :
    (step .plain)^[hosts.length] ⟨σ, .unwinding f, Waiting.all hosts ++ ws⟩ = ⟨σ, .unwinding f, ws⟩ ∧
      (system .plain).noted hosts.length ⟨σ, .unwinding f, Waiting.all hosts ++ ws⟩ = [] := by
  induction hosts with
  | nil => exact ⟨rfl, rfl⟩
  | cons s hosts ih => exact ih

theorem breaches (b : Breach) (hosts : List Scene) :
    (step .plain)^[hosts.length] ⟨σ, .breaching b, Waiting.all hosts ++ ws⟩ = ⟨σ, .breaching b, ws⟩ ∧
      (system .plain).noted hosts.length ⟨σ, .breaching b, Waiting.all hosts ++ ws⟩ = [] := by
  induction hosts with
  | nil => exact ⟨rfl, rfl⟩
  | cons s hosts ih => exact ih

theorem keeping_returning (waits : Queues P H ws xs) (stores : σ.Matches P τ) {v w : Value}
    (value : v.Matches P w) : Keeping P H ⟨σ, .returning v, ws⟩ ⟨τ, .returning w, xs⟩ := by
  cases waits with
  | nil => exact .inl ⟨_, _, [], [], ⟨0, rfl, rfl⟩, ⟨0, rfl, rfl⟩, ⟨.value value, stores⟩, .nil⟩
  | resume push rest =>
    exact keeping_of_steps rfl rfl 0 0 ⟨rfl, rfl⟩ ⟨rfl, rfl⟩ (.running _ (push value) stores rest)
  | guard handler rest => exact keeping_of_steps rfl rfl 0 0 ⟨rfl, rfl⟩ ⟨rfl, rfl⟩ (.returning value stores rest)

theorem keeping_unwinding (waits : Queues P H ws xs) (stores : σ.Matches P τ) {f g : Fault}
    (fault : f.Matches P g) : Keeping P H ⟨σ, .unwinding f, ws⟩ ⟨τ, .unwinding g, xs⟩ := by
  cases waits with
  | nil => exact .inl ⟨_, _, [], [], ⟨0, rfl, rfl⟩, ⟨0, rfl, rfl⟩, ⟨.fault fault, stores⟩, .nil⟩
  | @resume s t hosts ws xs push rest =>
    exact keeping_of_steps rfl rfl hosts.length 0 (unwinds f (s :: hosts)) ⟨rfl, rfl⟩ (.unwinding fault stores rest)
  | guard handler rest =>
    exact keeping_of_steps rfl rfl 0 0 ⟨rfl, rfl⟩ ⟨rfl, rfl⟩ (.calling handler (.cons fault.payload .nil) stores rest)

theorem keeping_breaching (waits : Queues P H ws xs) (stores : σ.Matches P τ) (b c : Breach) :
    Keeping P H ⟨σ, .breaching b, ws⟩ ⟨τ, .breaching c, xs⟩ := by
  cases waits with
  | nil => exact .inl ⟨_, _, [], [], ⟨0, rfl, rfl⟩, ⟨0, rfl, rfl⟩, ⟨.breach trivial, stores⟩, .nil⟩
  | @resume s t hosts ws xs push rest =>
    exact keeping_of_steps rfl rfl hosts.length 0 (breaches b (s :: hosts)) ⟨rfl, rfl⟩ (.breaching stores rest)
  | guard handler rest => exact keeping_of_steps rfl rfl 0 0 ⟨rfl, rfl⟩ ⟨rfl, rfl⟩ (.breaching stores rest)

theorem hosted_reply (stores : σ.Matches P τ) (waits : Queues P H ws xs) {x y : Reply} (replies : x.Matches P y) :
    Hosted P H (reply σ ws x) (reply τ xs y) := by
  cases replies with
  | answer value => exact .returning value stores waits
  | fault fault => exact .unwinding fault stores waits
  | call callee args => exact .calling callee args stores waits
  | guarded thunk handler => exact .calling thunk .nil stores (.guard handler waits)
  | noted _ _ value => exact .returning value stores waits

/-- Procedures of the relation start in scenes that are beside each other. -/
def Welcomes (P : Procedure Value → Procedure Value → Prop) (H : Scene → List Scene → Scene → Prop) : Prop :=
  ∀ {p q : Procedure Value} {as bs args args' : List Value}, P p q →
    List.Forall₂ (Value.Matches P) as bs → List.Forall₂ (Value.Matches P) args args' →
      H (.enter p.chunk ⟨p, as⟩ args) [] (.enter q.chunk ⟨q, bs⟩ args')

theorem hosted_call (alike : Alikeness P) (welcomes : Welcomes P H) (stores : σ.Matches P τ)
    (waits : Queues P H ws xs) {v w : Value} {as bs : List Value} (callee : v.Matches P w)
    (args : List.Forall₂ (Value.Matches P) as bs) :
    Hosted P H (call .plain σ ws v as) (call .plain τ xs w bs) := by
  have checked := callee.check alike as.length
  unfold call
  rw [← args.length_eq]
  revert checked
  generalize v.callable?.bind (·.check as.length) = x
  generalize w.callable?.bind (·.check as.length) = y
  intro checked
  cases checked with
  | error fault => exact .unwinding fault stores waits
  | ok =>
    cases callee with
    | closure body captured => exact .running [] (welcomes body captured args) stores waits
    | builtin b => exact hosted_reply stores waits (b.matches_reply alike args)
    | _ => exact .unwinding (.plain nofun) stores waits

/-- Two plays at the same point keep coming to the same point if their scenes do. -/
theorem keeping_of_hosted (alike : Alikeness P) (welcomes : Welcomes P H)
    (turns : ∀ {s t : Scene} {hosts : List Scene} {σ τ : Store} {ws xs : List Waiting}, H s hosts t →
      σ.Matches P τ → Queues P H ws xs →
        Keeping P H ⟨σ, .running s, Waiting.all hosts ++ ws⟩ ⟨τ, .running t, xs⟩)
    {p q : Play} (h : Hosted P H p q) : Keeping P H p q := by
  cases h with
  | running hosts scenes stores waits => exact turns scenes stores waits
  | calling callee args stores waits =>
    exact keeping_of_steps rfl rfl 0 0 ⟨rfl, rfl⟩ ⟨rfl, rfl⟩ (hosted_call alike welcomes stores waits callee args)
  | returning value stores waits => exact keeping_returning waits stores value
  | unwinding fault stores waits => exact keeping_unwinding waits stores fault
  | breaching stores waits => exact keeping_breaching waits stores _ _

end Play

end StackLisp
