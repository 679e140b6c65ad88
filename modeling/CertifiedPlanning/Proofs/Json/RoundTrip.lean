import Mathlib.Data.List.DropRight
import CertifiedPlanning.Proofs.Json.Parts

/-!
# Reading back documents

What is written with one item or member per line is read back as the value that it was
(`Json.parse?_pretty`), provided that its numbers are spelled by their literals and that no text is
missing. The reader's fuel is the length of the text: every nested call has read a character.
-/

namespace CertifiedPlanning

namespace Json

/-! ## Values -/

/-- Everything the value is made of can be written: numbers are spelled by their literals, and no
text is missing. -/
inductive IsWritable : Json → Prop
  | null : IsWritable .null
  | bool (b : Bool) : IsWritable (.bool b)
  | number {literal : String} (spelled : number? literal.toList = some (.number literal, [])) :
      IsWritable (.number literal)
  | text (s : String) : IsWritable (.ofString s)
  | array {items : List Json} (writable : ∀ item ∈ items, IsWritable item) :
      IsWritable (.array items)
  | object {members : List (String × Json)} (writable : ∀ m ∈ members, IsWritable m.2) :
      IsWritable (.ofMembers members)

theorem skipBlanks_skipBlanks (cs : List Char) : skipBlanks (skipBlanks cs) = skipBlanks cs :=
  List.dropWhile_idempotent isBlank cs

theorem skipBlanks_cons {c : Char} (h : isBlank c = false) (cs : List Char) :
    skipBlanks (c :: cs) = c :: cs := by
  rw [skipBlanks, List.dropWhile_cons, h]
  rfl

theorem toList_newLine (level : ℕ) :
    (newLine level).toList = '\n' :: List.replicate (2 * level) ' ' := by
  simp [newLine]

theorem skipBlanks_newLine (level : ℕ) (cs : List Char) :
    skipBlanks ((newLine level).toList ++ cs) = skipBlanks cs := by
  have blank : ∀ c ∈ (newLine level).toList, isBlank c = true := by
    intro c hc
    rw [toList_newLine] at hc
    rcases List.mem_cons.1 hc with rfl | hc
    · decide
    · obtain rfl := List.eq_of_mem_replicate hc
      decide
  rw [skipBlanks, List.dropWhile_append, List.dropWhile_eq_nil_iff.2 blank]
  rfl

theorem value?_skipBlanks (fuel : ℕ) (cs : List Char) :
    value? fuel (skipBlanks cs) = value? fuel cs := by
  cases fuel with
  | zero => rfl
  | succ fuel => rw [value?, value?, skipBlanks_skipBlanks]

theorem itemList?_skipBlanks (fuel : ℕ) (cs : List Char) :
    itemList? fuel (skipBlanks cs) = itemList? fuel cs := by
  cases fuel with
  | zero => rfl
  | succ fuel => rw [itemList?, itemList?, value?_skipBlanks]

theorem memberList?_skipBlanks (fuel : ℕ) (cs : List Char) :
    memberList? fuel (skipBlanks cs) = memberList? fuel cs := by
  cases fuel with
  | zero => rfl
  | succ fuel => rw [memberList?, memberList?, skipBlanks_skipBlanks]

/-- A new line before a value changes nothing. -/
theorem value?_newLine (fuel level : ℕ) (cs : List Char) :
    value? fuel ((newLine level).toList ++ cs) = value? fuel cs := by
  rw [← value?_skipBlanks, skipBlanks_newLine, value?_skipBlanks]

theorem ends_newLine (level : ℕ) (cs : List Char) : Ends ((newLine level).toList ++ cs) := by
  rw [toList_newLine]
  exact .cons (by decide) _

/-- At its level the value is written as `text`, whatever was written before, and read from it,
whatever follows. -/
structure Spells (level : ℕ) (j : Json) (text : List Char) : Prop where
  written : ∀ acc, (prettyTo level acc j).toList = acc.toList ++ text
  start : ∃ c more, text = c :: more ∧ isBlank c = false ∧ c ≠ ']'
  read : ∀ fuel tail, 2 * text.length ≤ fuel → Ends tail →
    value? fuel (text ++ tail) = some (j, tail)

/-- The same for the items of an array, each on a line of its own. -/
structure SpellsItems (level : ℕ) (items : List Json) (text : List Char) : Prop where
  written : ∀ acc first, (prettyTo.prettyItems level acc first items).toList =
    acc.toList ++ (if first then [] else [',']) ++ text
  start : ∀ cs, ∃ c more, skipBlanks (text ++ cs) = c :: more ∧ c ≠ ']'
  read : ∀ fuel tail, 2 * text.length < fuel →
    itemList? fuel (text ++ ((newLine level).toList ++ ']' :: tail)) = some (items, tail)

theorem SpellsItems.single {level : ℕ} {item : Json} {text : List Char}
    (h : Spells (level + 1) item text) :
    SpellsItems level [item] ((newLine (level + 1)).toList ++ text) := by
  refine ⟨fun acc first => ?_, fun cs => ?_, fun fuel tail enough => ?_⟩
  · unfold prettyTo.prettyItems
    dsimp only
    unfold prettyTo.prettyItems
    rw [h.written]
    cases first <;> simp
  · obtain ⟨c, more, rfl, plain, other⟩ := h.start
    refine ⟨c, more ++ cs, ?_, other⟩
    rw [List.append_assoc, skipBlanks_newLine, List.cons_append, skipBlanks_cons plain]
  · cases fuel with
    | zero => cases enough
    | succ fuel =>
      rw [itemList?, List.append_assoc, value?_newLine, h.read fuel _ ?_ (ends_newLine _ _)]
      · dsimp only [bind, Option.bind]
        rw [skipBlanks_newLine]
        rfl
      · rw [List.length_append] at enough
        omega

theorem SpellsItems.cons {level : ℕ} {item : Json} {rest : List Json} {text others : List Char}
    (h : Spells (level + 1) item text) (h' : SpellsItems level rest others) :
    SpellsItems level (item :: rest) ((newLine (level + 1)).toList ++ text ++ ',' :: others) := by
  refine ⟨fun acc first => ?_, fun cs => ?_, fun fuel tail enough => ?_⟩
  · unfold prettyTo.prettyItems
    dsimp only
    rw [h'.written, h.written]
    cases first <;> simp
  · obtain ⟨c, more, rfl, plain, other⟩ := h.start
    refine ⟨c, more ++ ',' :: others ++ cs, ?_, other⟩
    rw [List.append_assoc, List.append_assoc, skipBlanks_newLine]
    exact (skipBlanks_cons plain _).trans (by simp)
  · cases fuel with
    | zero => cases enough
    | succ fuel =>
      simp only [List.length_append, List.length_cons] at enough
      rw [itemList?, List.append_assoc, List.append_assoc, value?_newLine, List.cons_append,
        h.read fuel _ (by omega) (.cons (by decide) _)]
      dsimp only [bind, Option.bind]
      rw [skipBlanks_cons (by decide)]
      change Option.bind (itemList? fuel _) _ = _
      rw [h'.read fuel tail (by omega)]
      rfl

theorem exists_spellsItems {level : ℕ} {item : Json} {rest : List Json}
    (h : ∀ i ∈ item :: rest, ∃ text, Spells (level + 1) i text) :
    ∃ text, SpellsItems level (item :: rest) text := by
  induction rest generalizing item with
  | nil =>
    obtain ⟨text, spells⟩ := h item (by simp)
    exact ⟨_, .single spells⟩
  | cons next rest ih =>
    obtain ⟨text, spells⟩ := h item (by simp)
    obtain ⟨others, spells'⟩ := ih fun i hi => h i (List.mem_cons_of_mem _ hi)
    exact ⟨_, .cons spells spells'⟩

/-- A member on a line of its own. -/
def memberText (level : ℕ) (name : String) (text : List Char) : List Char :=
  (newLine (level + 1)).toList ++ ((writtenText name).toList ++ ':' :: ' ' :: text)

theorem skipBlanks_memberText (level : ℕ) (name : String) (text rest : List Char) :
    ∃ more, skipBlanks (memberText level name text ++ rest) = '"' :: more := by
  obtain ⟨cs, quoted, -⟩ := text?_writtenText name []
  refine ⟨cs ++ ':' :: ' ' :: text ++ rest, ?_⟩
  rw [memberText, List.append_assoc, skipBlanks_newLine, quoted]
  exact skipBlanks_cons (by decide) _

/-- A member is read, and then what comes after it is looked at. -/
theorem memberList?_memberText {level fuel : ℕ} {name : String} {value : Json}
    {text tail : List Char} (h : Spells (level + 1) value text) (enough : 2 * text.length ≤ fuel)
    (ends : Ends tail) : memberList? (fuel + 1) (memberText level name text ++ tail) =
      match skipBlanks tail with
      | ',' :: rest => do
          let (members, rest) ← memberList? fuel rest
          return ((some name, value) :: members, rest)
      | '\x7d' :: rest => some ([(some name, value)], rest)
      | _ => none := by
  obtain ⟨cs, quoted, read⟩ := text?_writtenText name (':' :: ' ' :: (text ++ tail))
  have blank : value? fuel (' ' :: (text ++ tail)) = some (value, tail) := by
    rw [← h.read fuel tail enough ends, ← value?_skipBlanks,
      ← value?_skipBlanks fuel (text ++ tail)]
    rfl
  rw [memberList?, memberText, List.append_assoc, skipBlanks_newLine, quoted, List.append_assoc,
    List.cons_append, skipBlanks_cons (by decide)]
  change Option.bind (text? (cs ++ ':' :: ' ' :: (text ++ tail))) _ = _
  rw [read]
  dsimp only [Option.bind]
  rw [skipBlanks_cons (by decide)]
  change Option.bind (value? fuel (' ' :: (text ++ tail))) _ = _
  rw [blank]
  rfl

/-- The same for the members of an object. -/
structure SpellsMembers (level : ℕ) (members : List (String × Json)) (text : List Char) : Prop where
  written : ∀ acc first,
    (prettyTo.prettyMembers level acc first (members.map fun m => (some m.1, m.2))).toList =
      acc.toList ++ (if first then [] else [',']) ++ text
  start : ∀ cs, ∃ more, skipBlanks (text ++ cs) = '"' :: more
  read : ∀ fuel tail, 2 * text.length < fuel →
    memberList? fuel (text ++ ((newLine level).toList ++ '\x7d' :: tail)) =
      some (members.map fun m => (some m.1, m.2), tail)

theorem SpellsMembers.single {level : ℕ} {name : String} {value : Json} {text : List Char}
    (h : Spells (level + 1) value text) :
    SpellsMembers level [(name, value)] (memberText level name text) := by
  refine ⟨fun acc first => ?_, skipBlanks_memberText level name text, fun fuel tail enough => ?_⟩
  · simp only [List.map_cons, List.map_nil]
    unfold prettyTo.prettyMembers
    dsimp only
    unfold prettyTo.prettyMembers
    rw [h.written]
    cases first <;> simp [memberText]
  · cases fuel with
    | zero => cases enough
    | succ fuel =>
      have shorter : 2 * text.length ≤ fuel := by
        simp only [memberText, List.length_append, List.length_cons] at enough
        omega
      rw [memberList?_memberText h shorter (ends_newLine _ _), skipBlanks_newLine]
      rfl

theorem SpellsMembers.cons {level : ℕ} {name : String} {value : Json}
    {rest : List (String × Json)} {text others : List Char} (h : Spells (level + 1) value text)
    (h' : SpellsMembers level rest others) :
    SpellsMembers level ((name, value) :: rest) (memberText level name text ++ ',' :: others) := by
  refine ⟨fun acc first => ?_, fun cs => ?_, fun fuel tail enough => ?_⟩
  · rw [List.map_cons]
    unfold prettyTo.prettyMembers
    dsimp only
    rw [h'.written, h.written]
    cases first <;> simp [memberText]
  · rw [List.append_assoc]
    exact skipBlanks_memberText level name text _
  · cases fuel with
    | zero => cases enough
    | succ fuel =>
      rw [List.length_append, List.length_cons] at enough
      have shorter : 2 * text.length ≤ fuel := by
        simp only [memberText, List.length_append, List.length_cons] at enough
        omega
      rw [List.append_assoc, List.cons_append,
        memberList?_memberText h shorter (.cons (by decide) _), skipBlanks_cons (by decide)]
      change Option.bind (memberList? fuel _) _ = _
      rw [h'.read fuel tail (by omega)]
      rfl

theorem exists_spellsMembers {level : ℕ} {m : String × Json} {rest : List (String × Json)}
    (h : ∀ i ∈ m :: rest, ∃ text, Spells (level + 1) i.2 text) :
    ∃ text, SpellsMembers level (m :: rest) text := by
  induction rest generalizing m with
  | nil =>
    obtain ⟨text, spells⟩ := h m (by simp)
    exact ⟨_, .single spells⟩
  | cons next rest ih =>
    obtain ⟨text, spells⟩ := h m (by simp)
    obtain ⟨others, spells'⟩ := ih fun i hi => h i (List.mem_cons_of_mem _ hi)
    exact ⟨_, .cons spells spells'⟩

/-- A value takes at least one step. -/
theorem Spells.of_succ {level : ℕ} {j : Json} {text : List Char}
    (written : ∀ acc, (prettyTo level acc j).toList = acc.toList ++ text)
    (start : ∃ c more, text = c :: more ∧ isBlank c = false ∧ c ≠ ']')
    (read : ∀ fuel tail, 2 * text.length ≤ fuel + 1 → Ends tail →
      value? (fuel + 1) (text ++ tail) = some (j, tail)) : Spells level j text := by
  refine ⟨written, start, fun fuel tail enough ends => ?_⟩
  cases fuel with
  | zero =>
    obtain ⟨c, more, rfl, -⟩ := start
    cases enough
  | succ fuel => exact read fuel tail enough ends

/-- The first character of a number starts nothing else. -/
theorem number_start {c : Char} (h : c = '-' ∨ c.isDigit = true) :
    c ∉ ['[', '\x7b', '"', 't', 'f', 'n', ' ', '\n', '\t', '\r', ']'] := by
  intro other
  simp only [List.mem_cons, List.not_mem_nil, or_false] at other
  rcases h with rfl | digit
  · simp at other
  · rcases other with rfl | rfl | rfl | rfl | rfl | rfl | rfl | rfl | rfl | rfl | rfl <;>
      exact absurd digit (by decide)

theorem Spells.number {level : ℕ} {literal : String}
    (spelled : number? literal.toList = some (.number literal, [])) :
    Spells level (.number literal) literal.toList := by
  obtain ⟨c, more, chars, first⟩ := exists_of_number? spelled
  have other := number_start first
  simp only [List.mem_cons, List.not_mem_nil, or_false, not_or] at other
  have blank : isBlank c = false := by simp [isBlank, other]
  refine .of_succ (fun acc => String.toList_append) ⟨c, more, chars, blank, by simp [other]⟩ ?_
  intro fuel tail _ ends
  have read := number?_append spelled fun _ => ends
  rw [chars] at read ⊢
  rw [value?, List.cons_append, skipBlanks_cons blank]
  split <;> simp_all

theorem Spells.text {level : ℕ} (s : String) :
    Spells level (.ofString s) (writtenText s).toList := by
  obtain ⟨cs, quoted, -⟩ := text?_writtenText s []
  refine .of_succ (fun acc => String.toList_append) ⟨_, cs, quoted, by decide, by decide⟩ ?_
  intro fuel tail _ _
  obtain ⟨cs, quoted, read⟩ := text?_writtenText s tail
  rw [quoted, List.cons_append, value?, skipBlanks_cons (by decide)]
  change Option.bind (text? (cs ++ tail)) _ = _
  rw [read]
  rfl

/-- Items that are read up to the closing bracket make an array. -/
theorem value?_array {fuel : ℕ} {cs more tail : List Char} {c : Char} {items : List Json}
    (start : skipBlanks cs = c :: more) (other : c ≠ ']')
    (read : itemList? fuel (c :: more) = some (items, tail)) :
    value? (fuel + 1) ('[' :: cs) = some (.array items, tail) := by
  rw [value?, skipBlanks_cons (by decide)]
  split
  · rename_i inner opened
    obtain rfl := (List.cons.inj opened).2
    rw [start]
    split
    · rename_i closed
      exact absurd (List.cons.inj closed).1 other
    · rw [read]
      rfl
  all_goals simp_all

/-- Members that are read up to the closing brace make an object. -/
theorem value?_object {fuel : ℕ} {cs more tail : List Char}
    {members : List (Option String × Json)} (start : skipBlanks cs = '"' :: more)
    (read : memberList? fuel ('"' :: more) = some (members, tail)) :
    value? (fuel + 1) ('\x7b' :: cs) = some (.object members, tail) := by
  rw [value?, skipBlanks_cons (by decide)]
  split
  case h_2 =>
    rename_i inner opened
    obtain rfl := (List.cons.inj opened).2
    rw [start]
    split
    · rename_i closed
      exact absurd (List.cons.inj closed).1 (by decide)
    · rw [read]
      rfl
  all_goals simp_all

theorem Spells.array {level : ℕ} {item : Json} {rest : List Json} {text : List Char}
    (h : SpellsItems level (item :: rest) text) :
    Spells level (.array (item :: rest)) ('[' :: (text ++ ((newLine level).toList ++ [']']))) := by
  refine .of_succ (fun acc => ?_) ⟨_, _, rfl, by decide, by decide⟩ fun fuel tail enough _ => ?_
  · unfold prettyTo
    rw [String.toList_append, String.toList_append, h.written]
    simp
  · simp only [List.length_cons, List.length_append] at enough
    have read := h.read fuel tail (by omega)
    obtain ⟨c, more, start, other⟩ := h.start ((newLine level).toList ++ ']' :: tail)
    rw [← itemList?_skipBlanks, start] at read
    simp only [List.cons_append, List.append_assoc, List.nil_append]
    exact value?_array start other read

theorem Spells.object {level : ℕ} {m : String × Json} {rest : List (String × Json)}
    {text : List Char} (h : SpellsMembers level (m :: rest) text) :
    Spells level (.ofMembers (m :: rest))
      ('\x7b' :: (text ++ ((newLine level).toList ++ ['\x7d']))) := by
  refine .of_succ (fun acc => ?_) ⟨_, _, rfl, by decide, by decide⟩ fun fuel tail enough _ => ?_
  · have written := h.written (acc ++ "\x7b") true
    rw [List.map_cons] at written
    rw [ofMembers, List.map_cons]
    unfold prettyTo
    rw [String.toList_append, String.toList_append, written]
    simp
  · simp only [List.length_cons, List.length_append] at enough
    have read := h.read fuel tail (by omega)
    obtain ⟨more, start⟩ := h.start ((newLine level).toList ++ '\x7d' :: tail)
    rw [← memberList?_skipBlanks, start] at read
    simp only [List.cons_append, List.append_assoc, List.nil_append]
    exact value?_object start read

/-- Every value that can be written is read back. -/
theorem IsWritable.exists_spells {j : Json} (h : j.IsWritable) (level : ℕ) :
    ∃ text, Spells level j text := by
  induction h generalizing level with
  | null =>
    exact ⟨"null".toList, .of_succ (fun _ => String.toList_append)
      ⟨_, _, rfl, by decide, by decide⟩ fun _ _ _ _ => rfl⟩
  | bool b =>
    cases b with
    | true =>
      exact ⟨"true".toList, .of_succ (fun _ => String.toList_append)
        ⟨_, _, rfl, by decide, by decide⟩ fun _ _ _ _ => rfl⟩
    | false =>
      exact ⟨"false".toList, .of_succ (fun _ => String.toList_append)
        ⟨_, _, rfl, by decide, by decide⟩ fun _ _ _ _ => rfl⟩
  | number spelled => exact ⟨_, .number spelled⟩
  | text s => exact ⟨_, .text s⟩
  | @array items writable ih =>
    cases items with
    | nil =>
      exact ⟨"[]".toList, .of_succ (fun _ => String.toList_append)
        ⟨_, _, rfl, by decide, by decide⟩ fun _ _ _ _ => rfl⟩
    | cons item rest =>
      obtain ⟨text, spells⟩ := exists_spellsItems fun i hi => ih i hi (level + 1)
      exact ⟨_, .array spells⟩
  | @object members writable ih =>
    cases members with
    | nil =>
      exact ⟨"\x7b\x7d".toList, .of_succ (fun _ => String.toList_append)
        ⟨_, _, rfl, by decide, by decide⟩ fun _ _ _ _ => rfl⟩
    | cons m rest =>
      obtain ⟨text, spells⟩ := exists_spellsMembers fun i hi => ih i hi (level + 1)
      exact ⟨_, .object spells⟩

/-- A document of a value that can be written is read back, a blank at its end included. -/
theorem parse?_pretty {j : Json} (h : j.IsWritable) : parse? (j.pretty ++ "\n") = some j := by
  obtain ⟨text, spells⟩ := h.exists_spells 0
  have written : (j.pretty ++ "\n").toList = text ++ ['\n'] := by
    rw [String.toList_append, pretty, spells.written]
    rfl
  rw [parse?, written]
  dsimp only
  rw [spells.read _ _ (by simp; omega) (.cons (by decide) [])]
  rfl

end Json

end CertifiedPlanning
