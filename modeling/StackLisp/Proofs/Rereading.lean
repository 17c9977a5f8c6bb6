import StackLisp.Proofs.Passages
import StackLisp.Proofs.Words
import StackLisp.Value.Printer

/-!
Reading undoes printing. Values of the empty list, Booleans, integers, familiar strings and proper names, in
lists, dotted or not, and in vectors, come back from their texts as they were: one value from its own text, and
several in their order from texts with blanks or comments between them. The invariant is about what follows:
reading the text of a value hands that value over and goes on with what is left, and reading the rest of a list
from a tail on ends the list with this tail.
-/

namespace StackLisp

namespace Reader

variable {v : Value} {rest : List Char} {contexts : List Context} {forms items : List Value}

/-- Reading the text of a value hands the value over and goes on behind it. -/
def Rereads (v : Value) : Prop :=
  ∀ ⦃contexts : List Context⦄ ⦃forms : List Value⦄ ⦃rest : List Char⦄, Admits contexts → Delimited rest →
    run { contexts, forms } (v.chars false ++ rest) = (deliver v forms contexts >>= fun s => run s rest)

/-- Reading the text of a list from this tail on ends the list with it. -/
def Continues (v : Value) : Prop :=
  ∀ ⦃items : List Value⦄ ⦃contexts : List Context⦄ ⦃forms : List Value⦄ ⦃rest : List Char⦄,
    run { contexts := .list items :: contexts, forms } (v.chars true ++ rest) =
      (deliver (.ofListOnto items.reverse v) forms contexts >>= fun s => run s rest)

/-! ### Atoms -/

theorem rereads_word (word : List Char) (nonempty : word ≠ []) (inside : ∀ c ∈ word, isDelimiter c = false)
    (shown : v.chars false = word) (stands : atom word = v) : Rereads v := by
  intro contexts forms rest admits delimited
  rw [shown, run_word admits nonempty inside delimited, stands]

theorem rereads_null : Rereads .null :=
  rereads_word ['n', 'u', 'l', 'l'] (by decide) (by simp [isDelimiter, Text.isBlank]) rfl rfl

theorem rereads_bool (b : Bool) : Rereads (.bool b) := by
  cases b with
  | false =>
    exact rereads_word ['f', 'a', 'l', 's', 'e'] (by decide) (by simp [isDelimiter, Text.isBlank]) rfl rfl
  | true => exact rereads_word ['t', 'r', 'u', 'e'] (by decide) (by simp [isDelimiter, Text.isBlank]) rfl rfl

theorem not_isDelimiter_of_isDigit {c : Char} (digit : Decimal.isDigit c = true) : isDelimiter c = false := by
  have bounds : '0' ≤ c ∧ c ≤ '9' := by
    simpa [Decimal.isDigit] using digit
  have least : 48 ≤ c.toNat := bounds.1
  have greatest : c.toNat ≤ 57 := bounds.2
  refine isDelimiter_eq_false_iff.mpr ⟨?_, ?_⟩
  · simp only [Text.isBlank, Bool.or_eq_false_iff, Bool.and_eq_false_iff, decide_eq_false_iff_not, beq_eq_false_iff_ne]
    omega
  · intro member
    simp only [List.mem_cons, List.not_mem_nil, or_false] at member
    obtain rfl | rfl | rfl | rfl | rfl | rfl | rfl := member
    all_goals exact absurd digit (by decide)

theorem rereads_integer (n : Int64) : Rereads (.integer n) := by
  refine rereads_word (Decimal.integerText n.toInt) (Decimal.integerText_ne_nil _) ?_ rfl (atom_integerText n)
  intro c member
  obtain rfl | digit := Decimal.mem_integerText member
  · decide
  · exact not_isDelimiter_of_isDigit digit

theorem rereads_string {text : String} (familiar : ∀ c ∈ text.toList, Text.isFamiliar c = true) :
    Rereads (.string text) := by
  intro contexts forms rest admits _
  exact run_quoted admits familiar

/-- A word that is not read as anything but a name, and no dot. -/
structure IsName (name : String) : Prop where
  nonempty : name ≠ ""
  undelimited : ∀ c ∈ name.toList, isDelimiter c = false
  not_dot : name ≠ "."
  not_other : ∀ v, readOne name = .ok v → v.kind ∉ [.null, .boolean, .integer, .float]

/-- Names are the words that the language has left: no words of its own and no numerals. -/
theorem isName_iff {name : String} :
    IsName name ↔ name ≠ "" ∧ name.toList.any isDelimiter = false ∧ name ≠ "." ∧
      name.toList ∉ reserved ∧ Decimal.Numeral.parse? name.toList = none := by
  constructor
  · intro isName
    have other := isName.not_other _ (readOne_word isName.nonempty isName.undelimited)
    refine ⟨isName.nonempty, by simpa using isName.undelimited, isName.not_dot, ?_, ?_⟩
    · intro member
      obtain kind | kind := kind_atom_of_reserved member
      all_goals simp [kind] at other
    · cases parsed : Decimal.Numeral.parse? name.toList with
      | none => rfl
      | some m =>
        rw [atom_of_parse? parsed] at other
        obtain kind | kind := kind_numeralValue m
        all_goals simp [kind] at other
  · rintro ⟨nonempty, whole, not_dot, free, other⟩
    have undelimited : ∀ c ∈ name.toList, isDelimiter c = false := by simpa using whole
    refine ⟨nonempty, undelimited, not_dot, ?_⟩
    intro v read
    rw [readOne_word nonempty undelimited, atom_of_not_reserved free other] at read
    rw [← Except.ok.inj read]
    simp [Value.kind]

instance (name : String) : Decidable (IsName name) :=
  decidable_of_iff _ isName_iff.symm

theorem rereads_symbol {name : String} (isName : IsName name) : Rereads (.symbol name) := by
  obtain ⟨-, -, -, free, other⟩ := isName_iff.mp isName
  refine rereads_word name.toList (by simpa using isName.nonempty) isName.undelimited rfl ?_
  rw [atom_of_not_reserved free other, String.ofList_toList]

/-! ### Lists -/

theorem deliver_list (other : v ≠ .symbol ".") :
    deliver v forms (.list items :: contexts) = .ok { contexts := .list (v :: items) :: contexts, forms } := by
  unfold deliver
  split
  · contradiction
  · rfl

theorem delimited_tail (v : Value) (rest : List Char) : Delimited (v.chars true ++ rest) := by
  cases v with
  | null => exact delimited_cons (by decide)
  | bool b => cases b <;> exact delimited_cons (by decide)
  | _ => exact delimited_cons (by decide)

theorem continues_null : Continues .null := by
  intro items contexts forms rest
  exact run_cons _ _ _

theorem continues_of_rereads (tail : Rereads v) (shown : v.chars true = Value.dotted (v.chars false)) :
    Continues v := by
  intro items contexts forms rest
  have whole : v.chars true ++ rest = ' ' :: (['.'] ++ ' ' :: (v.chars false ++ ')' :: rest)) := by
    simp [shown, Value.dotted]
  -- The dot is read as a word. It is the one word that a list takes for no item.
  calc run { contexts := .list items :: contexts, forms } (v.chars true ++ rest)
      = run { contexts := .list items :: contexts, forms } (['.'] ++ ' ' :: (v.chars false ++ ')' :: rest)) := by
        rw [whole, run_blank (by decide)]
    _ = run { contexts := .dotted items :: contexts, forms } (' ' :: (v.chars false ++ ')' :: rest)) :=
        run_word trivial (by decide) (List.forall_mem_singleton.mpr (by decide)) (delimited_cons (by decide))
    _ = run { contexts := .dotted items :: contexts, forms } (v.chars false ++ ')' :: rest) :=
        run_blank (by decide)
    _ = run { contexts := .closing items v :: contexts, forms } (')' :: rest) :=
        tail trivial (delimited_cons (by decide))
    _ = (deliver (.ofListOnto items.reverse v) forms contexts >>= fun s => run s rest) :=
        run_cons _ _ _

variable {car cdr : Value}

theorem run_item (first : Rereads car) (other : car ≠ .symbol ".") (last : Continues cdr) :
    run { contexts := .list items :: contexts, forms } (car.chars false ++ (cdr.chars true ++ rest)) =
      (deliver (.ofListOnto items.reverse (.pair car cdr)) forms contexts >>= fun s => run s rest) := by
  have begins : Admits (.list items :: contexts) := trivial
  rw [first begins (delimited_tail cdr rest), deliver_list other]
  refine (last ..).trans ?_
  simp [Value.ofListOnto]

theorem continues_pair (first : Rereads car) (other : car ≠ .symbol ".") (last : Continues cdr) :
    Continues (.pair car cdr) := by
  intro items contexts forms rest
  have whole : (Value.pair car cdr).chars true ++ rest = ' ' :: (car.chars false ++ (cdr.chars true ++ rest)) := by
    simp [Value.chars]
  rw [whole, run_blank (by decide), run_item first other last]

theorem rereads_pair (first : Rereads car) (other : car ≠ .symbol ".") (last : Continues cdr) :
    Rereads (.pair car cdr) := by
  intro contexts forms rest admits _
  have whole : (Value.pair car cdr).chars false ++ rest = '(' :: (car.chars false ++ (cdr.chars true ++ rest)) := by
    simp [Value.chars]
  rw [whole, run_begun admits (by decide) (by decide)]
  exact run_item first other last

/-! ### Vectors -/

/-- Behind an item of a vector stand a blank and the next item, or the end of the vector. -/
theorem behind_item (v : Value) (vs : List Value) (rest : List Char) :
    ∃ behind, Value.separated (Value.charsEach (v :: vs)) ++ ']' :: rest = v.chars false ++ behind ∧
      Delimited behind ∧ ∀ contexts forms, run { contexts, forms } behind =
        run { contexts, forms } (Value.separated (Value.charsEach vs) ++ ']' :: rest) := by
  cases vs with
  | nil => exact ⟨']' :: rest, rfl, delimited_cons (by decide), fun _ _ => rfl⟩
  | cons w ws =>
    refine ⟨' ' :: (Value.separated (Value.charsEach (w :: ws)) ++ ']' :: rest), ?_, delimited_cons (by decide),
      fun _ _ => run_blank (by decide)⟩
    simp [Value.charsEach, Value.separated]

theorem run_items {before vs : List Value} (each : ∀ v ∈ vs, Rereads v) :
    run { contexts := .vector before :: contexts, forms }
        (Value.separated (Value.charsEach vs) ++ ']' :: rest) =
      (deliver (.vector (before.reverse ++ vs)) forms contexts >>= fun s => run s rest) := by
  induction vs generalizing before with
  | nil =>
    rw [List.append_nil]
    exact run_cons _ _ _
  | cons v vs ih =>
    obtain ⟨first, others⟩ := List.forall_mem_cons.mp each
    obtain ⟨behind, whole, delimited, skips⟩ := behind_item v vs rest
    have begins : Admits (.vector before :: contexts) := trivial
    have delivers : deliver v forms (.vector before :: contexts) =
        .ok { contexts := .vector (v :: before) :: contexts, forms } := rfl
    rw [whole, first begins delimited, delivers]
    refine (skips _ _).trans ?_
    rw [ih others, List.reverse_cons, List.append_assoc, List.singleton_append]

theorem rereads_vector {vs : List Value} (each : ∀ v ∈ vs, Rereads v) : Rereads (.vector vs) := by
  intro contexts forms rest admits _
  have whole : (Value.vector vs).chars false ++ rest =
      '[' :: (Value.separated (Value.charsEach vs) ++ ']' :: rest) := by
    simp [Value.chars, Value.chars.closed]
  rw [whole, run_begun admits (by decide) (by decide)]
  exact run_items each

end Reader

namespace Value

/-- Values that their texts tell: the empty list, Booleans, integers, strings of familiar characters and symbols
with proper names, and what pairs and vectors make of them. -/
inductive Readable : Value → Prop
  | null : Readable .null
  | bool (b : Bool) : Readable (.bool b)
  | integer (n : Int64) : Readable (.integer n)
  | string {text : String} (familiar : ∀ c ∈ text.toList, Text.isFamiliar c = true) : Readable (.string text)
  | symbol {name : String} (isName : Reader.IsName name) : Readable (.symbol name)
  | pair {car cdr : Value} (first : Readable car) (rest : Readable cdr) : Readable (.pair car cdr)
  | vector {items : List Value} (each : ∀ v ∈ items, Readable v) : Readable (.vector items)

theorem Readable.ne_dot {v : Value} (readable : v.Readable) : v ≠ .symbol "." := by
  rintro rfl
  cases readable with
  | symbol isName => exact isName.not_dot rfl

/-- The texts of values, each behind what stands between it and the one before. -/
def textEach (others : List (String × Value)) : String :=
  String.join (others.map fun p => p.1 ++ p.2.text)

theorem toList_textEach_cons (p : String × Value) (others : List (String × Value)) :
    (textEach (p :: others)).toList = p.1.toList ++ (p.2.chars false ++ (textEach others).toList) := by
  simp [textEach, String.toList_join, text]

end Value

namespace Reader

/-- At least one blank or comment. -/
def Separates (between : String) : Prop :=
  Gap between.toList ∧ between ≠ ""

variable {v : Value} {forms : List Value} {others : List (String × Value)} {trail : List Char}

/-- By the parts of the value. Where it is the tail of a list, it ends the list or goes on with it, and any other
value stands behind a dot. -/
theorem rereads_of_readable (readable : v.Readable) : Rereads v ∧ Continues v := by
  induction readable with
  | null => exact ⟨rereads_null, continues_null⟩
  | bool b =>
    refine ⟨rereads_bool b, continues_of_rereads (rereads_bool b) ?_⟩
    cases b <;> rfl
  | integer n => exact ⟨rereads_integer n, continues_of_rereads (rereads_integer n) rfl⟩
  | string familiar => exact ⟨rereads_string familiar, continues_of_rereads (rereads_string familiar) rfl⟩
  | symbol isName => exact ⟨rereads_symbol isName, continues_of_rereads (rereads_symbol isName) rfl⟩
  | pair first rest headReads tailReads =>
    exact ⟨rereads_pair headReads.1 first.ne_dot tailReads.2, continues_pair headReads.1 first.ne_dot tailReads.2⟩
  | vector each ih =>
    have reads := rereads_vector fun v member => (ih v member).1
    exact ⟨reads, continues_of_rereads reads rfl⟩

theorem delimited_each (each : ∀ p ∈ others, Separates p.1 ∧ p.2.Readable) (after : Gap trail) :
    Delimited ((Value.textEach others).toList ++ trail) := by
  cases others with
  | nil => simpa [Value.textEach] using after.delimited fun _ => delimited_nil
  | cons p others =>
    obtain ⟨⟨gap, some⟩, -⟩ := each p List.mem_cons_self
    rw [Value.toList_textEach_cons, List.append_assoc]
    exact gap.delimited fun none => absurd (String.toList_eq_nil_iff.mp none) some

theorem run_each (each : ∀ p ∈ others, Separates p.1 ∧ p.2.Readable) (after : Gap trail) :
    run { forms } ((Value.textEach others).toList ++ trail) = .ok (forms.reverse ++ others.map Prod.snd) := by
  induction others generalizing forms with
  | nil =>
    have nothing : run { forms } (trail ++ []) = run { forms } [] := run_gap after
    simpa [Value.textEach, run, finish, close] using nothing
  | cons p others ih =>
    obtain ⟨⟨⟨gap, -⟩, readable⟩, later⟩ := List.forall_mem_cons.mp each
    have begins : Admits [] := trivial
    rw [Value.toList_textEach_cons, List.append_assoc, List.append_assoc, run_gap gap,
      (rereads_of_readable readable).1 begins (delimited_each later after)]
    refine (ih later).trans ?_
    simp

end Reader

namespace Value

open Reader

variable {v w : Value} {others : List (String × Value)}

theorem Readable.readOne_text (readable : v.Readable) : readOne v.text = .ok v := by
  have whole : run {} (v.chars false ++ []) = .ok [v] :=
    (rereads_of_readable readable).1 trivial delimited_nil
  rw [List.append_nil, ← read_ofList] at whole
  rw [readOne, text, whole]
  rfl

/-- Different values have different texts. -/
theorem Readable.text_inj (first : v.Readable) (second : w.Readable) : v.text = w.text ↔ v = w := by
  constructor
  · intro same
    have reads := first.readOne_text
    rw [same, second.readOne_text] at reads
    exact (Except.ok.inj reads).symm
  · rintro rfl
    rfl

/-- The text of a value is read as that value, and the texts of several with blanks or comments between them
are read as these values in their order. -/
theorem Readable.reads_back {lead trail : String} (readable : v.Readable)
    (each : ∀ p ∈ others, Separates p.1 ∧ p.2.Readable) (before : Gap lead.toList) (after : Gap trail.toList) :
    readOne v.text = .ok v ∧
      read (lead ++ v.text ++ textEach others ++ trail) = .ok (v :: others.map Prod.snd) := by
  refine ⟨readable.readOne_text, ?_⟩
  have begins : Admits [] := trivial
  have whole : (lead ++ v.text ++ textEach others ++ trail).toList =
      lead.toList ++ (v.chars false ++ ((textEach others).toList ++ trail.toList)) := by
    simp [text]
  rw [← String.ofList_toList (s := lead ++ v.text ++ textEach others ++ trail), read_ofList, whole,
    run_gap before, (rereads_of_readable readable).1 begins (delimited_each each after)]
  exact run_each each after

/-- A dotted list with every kind of readable value in it. -/
def mixed : Value :=
  .pair (.symbol "a-1") (.pair (.integer Int64.minValue)
    (.vector [.string "q\"\\\n\té", .null, .bool true, .pair .null .null]))

theorem readable_mixed : mixed.Readable := by
  refine .pair (.symbol (by decide +kernel)) (.pair (.integer _) (.vector ?_))
  intro v member
  simp only [List.mem_cons, List.not_mem_nil, or_false] at member
  obtain rfl | rfl | rfl | rfl := member
  · exact .string (List.all_eq_true.mp (by decide +kernel))
  · exact .null
  · exact .bool true
  · exact .pair .null .null

theorem separates_comment : Separates "\t; next\n" :=
  ⟨.blank (by decide) (@Gap.comment " next".toList [] (by decide) .none), by decide⟩

theorem separates_newline : Separates "\n" :=
  ⟨.blank (by decide) .none, by decide⟩

theorem reads_back_mixed :
    mixed.text = "(a-1 -9223372036854775808 . [\"q\\\"\\\\\\n\\té\" null true (null)])" ∧
      readOne mixed.text = .ok mixed ∧
      read ("; first\n" ++ mixed.text ++ textEach [("\t; next\n", .symbol "-"), ("\n", .vector [])] ++ " ") =
        .ok [mixed, .symbol "-", .vector []] := by
  refine ⟨by decide +kernel, readable_mixed.reads_back ?_ ?_ ?_⟩
  · intro p member
    simp only [List.mem_cons, List.not_mem_nil, or_false] at member
    obtain rfl | rfl := member
    · exact ⟨separates_comment, .symbol (by decide +kernel)⟩
    · exact ⟨separates_newline, .vector (by simp)⟩
  · exact @Gap.comment " first".toList [] (by decide) .none
  · exact .blank (by decide) .none

end Value

end StackLisp
