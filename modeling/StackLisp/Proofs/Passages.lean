import StackLisp.Proofs.Runs
import StackLisp.Reader
import StackLisp.Text.Quoted

/-!
Passages of a text. Wherever a form may begin, blanks and comments are passed over, a word that ends at a
delimiter or with the text is handed over as an atom, and the characters of a printed string come back as they
were, as long as the reader knows each escape. What is left of the text is read from there.
-/

namespace StackLisp

/-- Printed as itself, or behind a backslash by an escape that the reader knows. -/
def Text.isFamiliar (c : Char) : Bool :=
  [[c], ['\\', '"'], ['\\', '\\'], ['\\', 'n'], ['\\', 't']].contains (encodeChar c)

theorem Text.familiar_cases {c : Char} (familiar : isFamiliar c = true) :
    c ∈ ['"', '\\', '\n', '\t'] ∨ encodeChar c = [c] ∧ c ≠ '"' ∧ c ≠ '\\' := by
  by_cases escaped : c ∈ ['"', '\\', '\n', '\t']
  · exact .inl escaped
  · right
    simp only [List.mem_cons, List.not_mem_nil, or_false, not_or] at escaped
    obtain ⟨quote, backslash, newline, tab⟩ := escaped
    refine ⟨?_, quote, backslash⟩
    simp only [isFamiliar, encodeChar, quote, backslash, newline, tab, if_false] at familiar ⊢
    -- The escapes that are left are none of the four that the reader knows.
    split at familiar
    · simp at familiar
    split at familiar
    · simp at familiar
    split at familiar
    · simp at familiar
    · simp [*]

namespace Reader

variable {c : Char} {cs before word words rest : List Char} {contexts : List Context} {forms : List Value}
  {v : Value}

/-- Reads what is left of a text. -/
def run (s : State) (cs : List Char) : Except ReadError (List Value) := do
  finish (← cs.foldlM step s)

theorem read_ofList (cs : List Char) : read (String.ofList cs) = run {} cs := by
  rw [read, String.toList_ofList, run]

theorem run_cons (s : State) (c : Char) (cs : List Char) :
    run s (c :: cs) = (step s c >>= fun t => run t cs) := by
  simp only [run, List.foldlM_cons, bind_assoc]

theorem run_step {s t : State} (stepped : step s c = .ok t) : run s (c :: cs) = run t cs := by
  rw [run_cons, stepped]
  rfl

/-! ### Beginnings -/

/-- A form may begin: no parenthesis has to come first. -/
def Admits : List Context → Prop
  | .closing _ _ :: _ => False
  | _ => True

/-- The mode and the open form that a character begins. -/
def begun (c : Char) : Mode × List Context :=
  match c with
  | '(' => (.blank, [.list []])
  | '[' => (.blank, [.vector []])
  | '\'' => (.blank, [.quote])
  | '"' => (.string [], [])
  | c => (.atom [c], [])

theorem start_begun (admits : Admits contexts) (shown : Text.isBlank c = false) (other : c ∉ [';', ')', ']']) :
    start contexts forms c = .ok { mode := (begun c).1, contexts := (begun c).2 ++ contexts, forms } := by
  simp only [List.mem_cons, List.not_mem_nil, or_false, not_or] at other
  unfold start begun
  rw [if_neg (by simp [shown]), if_neg other.1]
  split
  all_goals simp_all [Admits]

theorem run_begun (admits : Admits contexts) (shown : Text.isBlank c = false) (other : c ∉ [';', ')', ']']) :
    run { contexts, forms } (c :: cs) =
      run { mode := (begun c).1, contexts := (begun c).2 ++ contexts, forms } cs :=
  run_step (start_begun admits shown other)

theorem run_blank (blank : Text.isBlank c = true) :
    run { contexts, forms } (c :: cs) = run { contexts, forms } cs :=
  run_step (if_pos blank)

/-! ### Gaps -/

/-- Blanks, and comments with the ends of their lines. -/
inductive Gap : List Char → Prop
  | none : Gap []
  | blank {c : Char} {cs : List Char} (blank : Text.isBlank c = true) (others : Gap cs) : Gap (c :: cs)
  | comment {words cs : List Char} (line : '\n' ∉ words) (others : Gap cs) :
      Gap (';' :: (words ++ '\n' :: cs))

theorem run_comment (line : '\n' ∉ words) :
    run { mode := .comment, contexts, forms } (words ++ '\n' :: rest) = run { contexts, forms } rest := by
  induction words with
  | nil => exact run_step rfl
  | cons c words ih =>
    have other : c ≠ '\n' := (List.ne_of_not_mem_cons line).symm
    have stays : step { mode := .comment, contexts, forms } c = .ok { mode := .comment, contexts, forms } := by
      simp [step, other]
    rw [List.cons_append, run_step stays, ih (List.not_mem_of_not_mem_cons line)]

theorem run_gap (gap : Gap cs) : run { contexts, forms } (cs ++ rest) = run { contexts, forms } rest := by
  induction gap with
  | none => rfl
  | blank blank _ ih => rw [List.cons_append, run_blank blank, ih]
  | comment line _ ih =>
    have begins : step { contexts, forms } ';' = .ok { mode := .comment, contexts, forms } := rfl
    rw [List.cons_append, run_step begins, List.append_assoc, List.cons_append, run_comment line, ih]

/-! ### Words -/

theorem isDelimiter_eq_false_iff :
    isDelimiter c = false ↔ Text.isBlank c = false ∧ c ∉ ['(', ')', '[', ']', '"', ';', '\''] := by
  simp [isDelimiter]

/-- Nothing follows that would belong to a word before it. -/
def Delimited (cs : List Char) : Prop :=
  ∀ c ∈ cs.head?, isDelimiter c = true

theorem delimited_nil : Delimited [] := by
  simp [Delimited]

theorem delimited_cons (delimiter : isDelimiter c = true) : Delimited (c :: cs) := by
  simpa [Delimited] using delimiter

theorem Gap.delimited (gap : Gap cs) (follows : cs = [] → Delimited rest) : Delimited (cs ++ rest) := by
  cases gap with
  | none => exact follows rfl
  | blank blank => exact delimited_cons (by simp [isDelimiter, blank])
  | comment => exact delimited_cons (by decide)

theorem mode_deliver {s : State} (delivered : deliver v forms contexts = .ok s) : s.mode = .blank := by
  induction contexts generalizing v with
  | nil => exact Except.ok.inj delivered ▸ rfl
  | cons context outer ih =>
    cases context with
    | list items =>
      unfold deliver at delivered
      split at delivered
      all_goals exact Except.ok.inj delivered ▸ rfl
    | dotted items => exact Except.ok.inj delivered ▸ rfl
    | closing items tail => cases delivered
    | vector items => exact Except.ok.inj delivered ▸ rfl
    | quote => exact ih delivered

/-- A word ends with the text, or at a delimiter. The delimiter is read as after any other form, since what is
handed over leaves the reader between forms. -/
theorem run_ended (delimited : Delimited rest) :
    run { mode := .atom before, contexts, forms } rest =
      (deliver (atom before.reverse) forms contexts >>= fun s => run s rest) := by
  cases rest with
  | nil =>
    change (deliver (atom before.reverse) forms contexts >>= close) = _
    cases delivered : deliver (atom before.reverse) forms contexts with
    | error e => rfl
    | ok s =>
      change close s = finish s
      rw [finish, mode_deliver delivered]
  | cons c cs =>
    have ended : step { mode := .atom before, contexts, forms } c =
        (deliver (atom before.reverse) forms contexts >>= fun s => start s.contexts s.forms c) :=
      if_pos (delimited c rfl)
    rw [run_cons, ended]
    cases delivered : deliver (atom before.reverse) forms contexts with
    | error e => rfl
    | ok s =>
      have started : step s c = start s.contexts s.forms c := by
        rw [step, mode_deliver delivered]
      change (start s.contexts s.forms c >>= fun t => run t cs) = run s (c :: cs)
      rw [run_cons, started]

theorem run_atom (inside : ∀ c ∈ word, isDelimiter c = false) (delimited : Delimited rest) :
    run { mode := .atom before, contexts, forms } (word ++ rest) =
      (deliver (atom (before.reverse ++ word)) forms contexts >>= fun s => run s rest) := by
  induction word generalizing before with
  | nil => simpa using run_ended delimited
  | cons c word ih =>
    obtain ⟨first, others⟩ := List.forall_mem_cons.mp inside
    have grows : step { mode := .atom before, contexts, forms } c =
        .ok { mode := .atom (c :: before), contexts, forms } := by
      simp [step, first]
    rw [List.cons_append, run_step grows, ih others]
    simp

theorem begun_of_not_delimiter (inside : isDelimiter c = false) :
    Text.isBlank c = false ∧ c ∉ [';', ')', ']'] ∧ begun c = (.atom [c], []) := by
  obtain ⟨shown, other⟩ := isDelimiter_eq_false_iff.mp inside
  simp only [List.mem_cons, List.not_mem_nil, or_false, not_or] at other
  obtain ⟨opening, closing, bracket, closingBracket, quote, comment, apostrophe⟩ := other
  refine ⟨shown, by simp [comment, closing, closingBracket], ?_⟩
  unfold begun
  split
  case h_5 => rfl
  all_goals contradiction

/-- A word is handed over as its atom. -/
theorem run_word (admits : Admits contexts) (nonempty : word ≠ []) (inside : ∀ c ∈ word, isDelimiter c = false)
    (delimited : Delimited rest) :
    run { contexts, forms } (word ++ rest) =
      (deliver (atom word) forms contexts >>= fun s => run s rest) := by
  obtain ⟨c, word, rfl⟩ := List.exists_cons_of_ne_nil nonempty
  obtain ⟨first, others⟩ := List.forall_mem_cons.mp inside
  obtain ⟨shown, other, begins⟩ := begun_of_not_delimiter first
  rw [List.cons_append, run_begun admits shown other, begins]
  exact run_atom others delimited

theorem readOne_word {name : String} (nonempty : name ≠ "") (inside : ∀ c ∈ name.toList, isDelimiter c = false) :
    readOne name = .ok (atom name.toList) := by
  have whole : run {} (name.toList ++ []) = .ok [atom name.toList] :=
    run_word trivial (by simpa using nonempty) inside delimited_nil
  rw [List.append_nil, ← read_ofList, String.ofList_toList] at whole
  rw [readOne, whole]
  rfl

/-! ### Strings -/

theorem run_encodeChar (familiar : Text.isFamiliar c = true) :
    run { mode := .string before, contexts, forms } (Text.encodeChar c ++ rest) =
      run { mode := .string (c :: before), contexts, forms } rest := by
  obtain escaped | ⟨itself, quote, backslash⟩ := Text.familiar_cases familiar
  · simp only [List.mem_cons, List.not_mem_nil, or_false] at escaped
    obtain rfl | rfl | rfl | rfl := escaped
    all_goals exact (run_step rfl).trans (run_step rfl)
  · rw [itself]
    exact run_step (by simp [step, quote, backslash])

theorem run_encode (before : List Char) (familiar : ∀ c ∈ cs, Text.isFamiliar c = true) :
    run { mode := .string before, contexts, forms } (Text.encode cs ++ rest) =
      run { mode := .string (cs.reverse ++ before), contexts, forms } rest := by
  induction cs generalizing before with
  | nil => rfl
  | cons c cs ih =>
    obtain ⟨first, others⟩ := List.forall_mem_cons.mp familiar
    rw [Text.encode, List.flatMap_cons, List.append_assoc, run_encodeChar first]
    simpa [Text.encode] using ih (c :: before) others

/-- A printed string is handed over as it was. -/
theorem run_quoted {text : String} (admits : Admits contexts)
    (familiar : ∀ c ∈ text.toList, Text.isFamiliar c = true) :
    run { contexts, forms } (Text.quoted text ++ rest) =
      (deliver (.string text) forms contexts >>= fun s => run s rest) := by
  have closes : step { mode := .string text.toList.reverse, contexts, forms } '"' =
      deliver (.string text) forms contexts := by
    simp [step]
  calc run { contexts, forms } (Text.quoted text ++ rest)
      = run { mode := .string [], contexts, forms } (Text.encode text.toList ++ '"' :: rest) := by
        rw [Text.quoted, List.append_assoc, List.cons_append, run_begun admits (by decide) (by decide)]
        rfl
    _ = run { mode := .string text.toList.reverse, contexts, forms } ('"' :: rest) := by
        simpa using run_encode [] familiar
    _ = (deliver (.string text) forms contexts >>= fun s => run s rest) := by
        rw [run_cons, closes]

end Reader

end StackLisp
