import DbBackup.Engine.Mssql.Batches
import DbBackup.Engine.Mssql.Literals
import DbBackup.Lib.Marker

/-!
Owns the text of the rows of one `INSERT`: where its lines can be `GO` lines and
where `].` can stand in it.

Contract: quotes, commas, parentheses and the closing semicolon cut the text into
segments, and none of them is part of a `GO` line or of `].`. So both are decided
value by value (`BarLaw.rows`, `holds_valuePart_iff`).
-/

set_option linter.all false

namespace DbBackup.Engine.Mssql

open Lib.Delimited Lib.GoString Lib.LineScan Lib.Marker

/-! ### Bars -/

def isBar (c : Char) : Bool := c = '(' || c = ')' || c = ',' || c = ';' || c = '\''

theorem mem_trimSpace {text : String} {c : Char} (member : c ∈ text.toList)
    (visible : isSpace c = false) : c ∈ (trimSpace text).toList := by
  have stays : ∀ chars : List Char, c ∈ chars → c ∈ chars.dropWhile isSpace := by
    intro chars inChars
    rw [← List.takeWhile_append_dropWhile (p := isSpace) (l := chars)] at inChars
    rcases List.mem_append.mp inChars with blank | inRest
    · exact absurd (List.mem_takeWhile_imp blank) (by simp [visible])
    · exact inRest
  unfold trimSpace
  rw [String.toList_ofList, List.mem_reverse]
  exact stays _ (List.mem_reverse.mpr (stays _ member))

/-- A line with a character that is neither blank nor a letter of `GO`. -/
theorem not_go_of_mem {line : String} {c : Char} (member : c ∈ line.toList)
    (visible : isSpace c = false) (other : c.toLower ≠ 'g' ∧ c.toLower ≠ 'o') :
    isGOSeparator line = false := by
  unfold isGOSeparator toLower
  rw [decide_eq_false_iff_not]
  intro go
  have letters := congrArg String.toList go
  rw [String.toList_ofList] at letters
  have lowered := List.mem_map_of_mem (f := Char.toLower) (mem_trimSpace member visible)
  rw [letters] at lowered
  rcases List.mem_cons.mp lowered with isG | rest
  · exact other.1 isG
  · exact other.2 (List.mem_singleton.mp rest)

theorem not_go_of_bar {line : String} {c : Char} (member : c ∈ line.toList)
    (bar : isBar c = true) : isGOSeparator line = false := by
  simp only [isBar, Bool.or_eq_true, decide_eq_true_eq] at bar
  rcases bar with (((rfl | rfl) | rfl) | rfl) | rfl <;>
    exact not_go_of_mem member (by decide) (by decide)

def charLines (text : List Char) : List (List Char) := text.splitOnP (· == '\n')

/-- No `GO` line after the first line. -/
def GoTail (text : List Char) : Prop :=
  ∀ line ∈ (charLines text).tail, isGOSeparator (String.ofList line) = false

/-- No `GO` line between the first and the last line. -/
def GoInner (text : List Char) : Prop :=
  ∀ line ∈ (charLines text).tail.dropLast, isGOSeparator (String.ofList line) = false

variable {bar : Char}

theorem charLines_append_bar (first second : List Char) (isBar : bar ≠ '\n') :
    ∃ init last head tail, charLines first = init ++ [last] ∧ charLines second = head :: tail ∧
      charLines (first ++ bar :: second) = init ++ (last ++ bar :: head) :: tail := by
  obtain ⟨init, last, firstLines, extended⟩ := splitOnP_append (p := (· == '\n')) first
  obtain ⟨head, tail, secondLines, grown⟩ :=
    splitOnP_cons_other (p := (· == '\n')) (beq_eq_false_iff_ne.mpr isBar) second
  exact ⟨init, last, head, tail, firstLines, secondLines, extended grown⟩

theorem goTail_append_bar_iff (first second : List Char) (bars : isBar bar = true) :
    GoTail (first ++ bar :: second) ↔ GoInner first ∧ GoTail second := by
  have notNewline : bar ≠ '\n' := by
    rintro rfl
    exact absurd bars (by decide)
  obtain ⟨init, last, head, tail, firstLines, secondLines, whole⟩ :=
    charLines_append_bar first second notNewline
  have middle : isGOSeparator (String.ofList (last ++ bar :: head)) = false :=
    not_go_of_bar (by simp) bars
  unfold GoTail GoInner
  rw [whole, firstLines, secondLines]
  cases init with
  | nil => simp
  | cons line init =>
    rw [List.cons_append, List.cons_append, List.tail_cons, List.tail_cons, List.dropLast_concat,
      List.tail_cons]
    simp only [List.mem_append, List.mem_cons, or_imp, forall_and, forall_eq, middle, true_and]

variable (text : List Char)

theorem goFree_bar_iff (bars : isBar bar = true) :
    GoFree (String.ofList (bar :: text)) ↔ GoTail text := by
  have notNewline : bar ≠ '\n' := by
    rintro rfl
    exact absurd bars (by decide)
  obtain ⟨init, last, head, tail, firstLines, secondLines, whole⟩ :=
    charLines_append_bar [] text notNewline
  have nothing : init = [] ∧ last = [] := by
    have single : init ++ [last] = [[]] := firstLines.symm
    cases init with
    | nil => exact ⟨rfl, by simpa using single⟩
    | cons line rest => simp at single
  have middle : isGOSeparator (String.ofList (bar :: head)) = false :=
    not_go_of_bar (by simp) bars
  obtain ⟨rfl, rfl⟩ := nothing
  unfold GoFree EveryLine splitNewlines GoTail
  rw [List.splitOn_eq_splitOnP, String.toList_ofList]
  change (∀ line ∈ (charLines ([] ++ bar :: text)).map String.ofList, _) ↔ _
  rw [whole, secondLines]
  simp only [List.nil_append, List.map_cons, List.mem_cons, List.mem_map, or_imp, forall_and,
    forall_eq, middle, true_and, List.tail_cons, forall_exists_index, and_imp,
    forall_apply_eq_imp_iff₂]

/-! ### `].` -/

def bracketDot : List Char := [']', '.']

def NoBracketDot (text : List Char) : Prop := ¬ bracketDot <:+: text

theorem noBracketDot_append_iff (first second : List Char) {c : Char} (other : c ∉ bracketDot) :
    NoBracketDot (first ++ c :: second) ↔ NoBracketDot first ∧ NoBracketDot second := by
  unfold NoBracketDot
  rw [isPiece_append_other_iff other (by decide), not_or]

/-! ### Rows -/

/-- What bars cut a statement about a text into: one about each segment. -/
structure BarLaw (whole segment : List Char → Prop) : Prop where
  cut : ∀ first second bar, isBar bar = true →
    (whole (first ++ bar :: second) ↔ segment first ∧ whole second)
  calm : ∀ text : List Char, ']' ∉ text → '\n' ∉ text → segment text
  newline : segment ['\n']

theorem goTail_barLaw : BarLaw GoTail GoInner where
  cut first second bar bars := goTail_append_bar_iff first second bars
  calm text _ oneLine := by
    have single : charLines text = [text] := List.splitOnP_eq_singleton fun c member =>
      beq_eq_false_iff_ne.mpr fun same => oneLine (same ▸ member)
    unfold GoInner
    rw [single]
    exact fun line member => absurd member List.not_mem_nil
  newline := fun line member => absurd member List.not_mem_nil

theorem noBracketDot_barLaw : BarLaw NoBracketDot NoBracketDot where
  cut first second bar bars := by
    refine noBracketDot_append_iff first second ?_
    intro member
    rcases List.mem_cons.mp member with rfl | rest
    · exact absurd bars (by decide)
    · rw [List.mem_singleton.mp rest] at bars
      exact absurd bars (by decide)
  calm text noBracket _ := fun ⟨before, after, shape⟩ => noBracket (by rw [← shape]; simp [bracketDot])
  newline := fun piece => absurd (piece.subset List.mem_cons_self) (by decide)

/-- The texts without quotes hold neither a bracket nor a line break. -/
def Part.Calm : Part → Prop
  | .literal _ _ => True
  | .plain text => ']' ∉ text.toList ∧ '\n' ∉ text.toList

def Part.Holds (segment : List Char → Prop) : Part → Prop
  | .literal _ body => segment body.toList
  | .plain _ => True

section Law

variable {whole segment : List Char → Prop}

theorem BarLaw.part (law : BarLaw whole segment) {lead : List Char} (noBracket : ']' ∉ lead) (oneLine : '\n' ∉ lead)
    {part : Part} (calm : part.Calm) (bar : Char) (bars : isBar bar = true) (rest : List Char) :
    whole (lead ++ (part.text.toList ++ bar :: rest)) ↔ part.Holds segment ∧ whole rest := by
  cases part with
  | plain text =>
    have both : segment (lead ++ text.toList) := by
      refine law.calm _ ?_ ?_
      · rw [List.mem_append, not_or]
        exact ⟨noBracket, calm.1⟩
      · rw [List.mem_append, not_or]
        exact ⟨oneLine, calm.2⟩
    rw [Part.text, ← List.append_assoc, law.cut _ _ _ bars]
    simp [both, Part.Holds]
  | literal unicode body =>
    have shape : lead ++ ((Part.literal unicode body).text.toList ++ bar :: rest) =
        (lead ++ (if unicode then ['N'] else [])) ++ '\'' :: (body.toList ++ '\'' ::
          ([] ++ bar :: rest)) := by
      cases unicode <;> simp [Part.text]
    have start : segment (lead ++ (if unicode then ['N'] else [])) := by
      refine law.calm _ ?_ ?_
      · cases unicode <;> simp [noBracket]
      · cases unicode <;> simp [oneLine]
    have none : segment [] := law.calm [] (by simp) (by simp)
    rw [shape, law.cut _ _ _ (by decide), law.cut _ _ _ (by decide), law.cut _ _ _ bars]
    simp [start, none, Part.Holds]

/-- The parts of a row up to its closing parenthesis. -/
theorem BarLaw.parts (law : BarLaw whole segment) {parts : List Part}
    (calm : ∀ part ∈ parts, part.Calm) (rest : List Char) :
    whole ((", ".intercalate (parts.map Part.text)).toList ++ ')' :: rest) ↔
      (∀ part ∈ parts, part.Holds segment) ∧ whole rest := by
  cases parts with
  | nil =>
    have none : segment [] := law.calm [] (by simp) (by simp)
    have cut := law.cut [] rest ')' (by decide)
    simpa [none] using cut
  | cons part others =>
    have led : ∀ (lead : List Char), ']' ∉ lead → '\n' ∉ lead →
        (whole (lead ++ ((", ".intercalate ((part :: others).map Part.text)).toList ++
            ')' :: rest)) ↔
          (∀ one ∈ part :: others, one.Holds segment) ∧ whole rest) := by
      induction others generalizing part with
      | nil =>
        intro lead noBracket oneLine
        have here := law.part noBracket oneLine (calm part List.mem_cons_self)
          ')' (by decide) rest
        simpa using here
      | cons next others ih =>
        intro lead noBracket oneLine
        have shape : (", ".intercalate ((part :: next :: others).map Part.text)).toList ++
            ')' :: rest = part.text.toList ++ ',' :: ([' '] ++
              ((", ".intercalate ((next :: others).map Part.text)).toList ++ ')' :: rest)) := by
          simp [String.intercalate_cons_cons]
        have here := law.part noBracket oneLine (calm part List.mem_cons_self)
          ',' (by decide)
        have later := ih next
          (List.forall_mem_cons.mp calm).2 [' '] (by decide) (by decide)
        rw [shape, here, later, List.forall_mem_cons (a := part), and_assoc]
    have unled := led [] (by simp) (by simp)
    rwa [List.nil_append] at unled

/-- The text of the rows of one `INSERT`. -/
def rowsText (table : Table) (chunk : List (List Value)) : List Char :=
  (output (rowWrites table chunk)).toList

theorem toList_output_row (parts : List Part) : (Write.row parts).output.toList =
      '(' :: ((", ".intercalate (parts.map Part.text)).toList ++ [')']) := by
  have opening : "(".toList = ['('] := by decide
  have closing : ")".toList = [')'] := by decide
  change ("(" ++ ", ".intercalate (parts.map Part.text) ++ ")").toList = _
  rw [String.toList_append, String.toList_append, opening, closing, List.append_assoc]
  rfl

variable (table : Table)

theorem rowsText_singleton (vals : List Value) :
    rowsText table [vals] = (Write.row (rowParts table vals)).output.toList := by
  rw [rowsText, rowWrites, List.flatMap_nil, output_cons, String.toList_append]
  exact List.append_nil _

theorem rowsText_cons (vals next : List Value) (others : List (List Value)) :
    rowsText table (vals :: next :: others) =
      (Write.row (rowParts table vals)).output.toList ++
        ',' :: '\n' :: rowsText table (next :: others) := by
  have comma : Write.comma.output.toList = [',', '\n'] := by decide
  rw [rowsText, rowsText, rowWrites, rowWrites, List.flatMap_cons, output_cons, String.toList_append,
    List.cons_append, List.singleton_append, output_cons, String.toList_append, comma]
  rfl

theorem rowsText_opening {chunk : List (List Value)} (notEmpty : chunk ≠ []) :
    ∃ rest, rowsText table chunk = '(' :: rest := by
  cases chunk with
  | nil => exact absurd rfl notEmpty
  | cons vals others =>
    cases others with
    | nil => exact ⟨_, by rw [rowsText_singleton, toList_output_row]⟩
    | cons next others => exact ⟨_, by rw [rowsText_cons, toList_output_row, List.cons_append]⟩

/-- The rows, and what follows the closing semicolon. -/
theorem BarLaw.rows (law : BarLaw whole segment) (table : Table) {chunk : List (List Value)}
    (notEmpty : chunk ≠ []) (calm : ∀ row ∈ chunk, ∀ part ∈ rowParts table row, part.Calm)
    {lead : List Char} (before : segment lead) (rest : List Char) :
    whole (lead ++ (rowsText table chunk ++ ';' :: rest)) ↔
      (∀ row ∈ chunk, ∀ part ∈ rowParts table row, part.Holds segment) ∧ whole rest := by
  have none : segment [] := law.calm [] (by simp) (by simp)
  have row : ∀ {lead : List Char}, segment lead → ∀ vals ∈ chunk, ∀ bar, isBar bar = true →
      ∀ after, (whole (lead ++ ((Write.row (rowParts table vals)).output.toList ++ bar :: after)) ↔
        (∀ part ∈ rowParts table vals, part.Holds segment) ∧ whole after) := by
    intro lead before vals member bar bars after
    have closing := law.cut [] after bar bars
    rw [List.nil_append] at closing
    rw [toList_output_row, List.cons_append, List.append_assoc, List.singleton_append,
      law.cut _ _ _ (by decide), law.parts (calm vals member), closing]
    simp only [before, none, true_and]
  induction chunk generalizing lead with
  | nil => exact absurd rfl notEmpty
  | cons vals others ih =>
    cases others with
    | nil =>
      rw [rowsText_singleton, row before vals (List.mem_singleton_self _) ';' (by decide),
        List.forall_mem_singleton]
    | cons next others =>
      have later := ih (List.cons_ne_nil _ _)
        (List.forall_mem_cons.mp calm).2 law.newline
        (fun before vals member => row before vals (List.mem_cons_of_mem _ member))
      rw [rowsText_cons, List.append_assoc, List.cons_append, List.cons_append,
        row before vals List.mem_cons_self ',' (by decide)]
      rw [List.forall_mem_cons (a := vals), and_assoc]
      exact and_congr Iff.rfl later

end Law

/-! ### Values -/

/-- Letters, digits and signs, and no comment among them. -/
def PlainText (text : List Char) : Prop :=
  (∀ c ∈ text, isPrinted c = true) ∧ ¬ ['-', '-'] <:+: text

theorem noDashes_of_tail {first : Char} {rest : List Char} (noDash : '-' ∉ rest) :
    ¬ ['-', '-'] <:+: first :: rest := by
  intro piece
  rcases List.infix_cons_iff.mp piece with begins | later
  · exact noDash ((List.cons_prefix_cons.mp begins).2.subset (List.mem_singleton_self _))
  · exact noDash (later.subset List.mem_cons_self)

theorem plainText_of_noDash {text : List Char} (printed : ∀ c ∈ text, isPrinted c = true)
    (noDash : '-' ∉ text) : PlainText text :=
  ⟨printed, fun piece => noDash (piece.subset List.mem_cons_self)⟩

theorem isPrinted_of_isDigit {c : Char} (digit : c.isDigit = true) : isPrinted c = true := by
  simp [isPrinted, Char.isAlphanum, digit]

theorem isDigit_toDigits {n : Nat} {c : Char} (member : c ∈ Nat.toDigits 10 n) :
    c.isDigit = true := Nat.isDigit_of_mem_toDigits (by decide) (by decide) member

theorem plainText_nat (n : Nat) : PlainText (toString n).toList := by
  have digits : (toString n).toList = Nat.toDigits 10 n := Nat.toList_repr
  rw [digits]
  refine plainText_of_noDash (fun c member => isPrinted_of_isDigit (isDigit_toDigits member)) ?_
  exact fun member => absurd (isDigit_toDigits member) (by decide)

theorem plainText_int (val : Int) : PlainText (toString val).toList := by
  cases val with
  | ofNat n => exact plainText_nat n
  | negSucc n =>
    have shape : (toString (Int.negSucc n)).toList = '-' :: (toString (n + 1)).toList := by
      show ("-" ++ toString (n + 1)).toList = _
      rw [String.toList_append]
      rfl
    obtain ⟨printed, -⟩ := plainText_nat (n + 1)
    have digits : (toString (n + 1)).toList = Nat.toDigits 10 (n + 1) := Nat.toList_repr
    rw [shape]
    refine ⟨?_, noDashes_of_tail ?_⟩
    · intro c member
      rcases List.mem_cons.mp member with rfl | inRest
      · decide
      · exact printed c inRest
    · rw [digits]
      exact fun member => absurd (isDigit_toDigits member) (by decide)

theorem hexDigit_printed : ∀ n : Fin 16,
    isPrinted (Nat.digitChar n) = true ∧ Nat.digitChar n ≠ '-' := by
  decide

theorem plainText_bytes (content : List UInt8) :
    PlainText ("0x" ++ String.join (content.map hexByte)).toList := by
  have digits : ∀ c ∈ (String.join (content.map hexByte)).toList,
      isPrinted c = true ∧ c ≠ '-' := by
    induction content with
    | nil => exact fun c member => absurd member List.not_mem_nil
    | cons byte rest ih =>
      intro c member
      rw [List.map_cons, String.join_cons, String.toList_append, List.mem_append] at member
      rcases member with inByte | inRest
      · rw [hexByte, String.toList_ofList] at inByte
        have small : byte.toNat < 256 := byte.toNat_lt
        rcases List.mem_cons.mp inByte with rfl | isLow
        · exact hexDigit_printed ⟨byte.toNat / 16, by omega⟩
        · rw [List.mem_singleton.mp isLow]
          exact hexDigit_printed ⟨byte.toNat % 16, by omega⟩
      · exact ih c inRest
  have all : ∀ c ∈ ("0x" ++ String.join (content.map hexByte)).toList,
      isPrinted c = true ∧ c ≠ '-' := by
    intro c member
    rw [String.toList_append, List.mem_append] at member
    rcases member with start | inDigits
    · rcases List.mem_cons.mp start with rfl | isX
      · decide
      · rw [List.mem_singleton.mp isX]
        decide
    · exact digits c inDigits
  exact plainText_of_noDash (fun c member => (all c member).1) fun member => (all _ member).2 rfl

def Part.Plain : Part → Prop
  | .literal _ _ => True
  | .plain text => PlainText text.toList

theorem plain_valuePart (dataType : String) (value : Value) : (valuePart dataType value).Plain := by
  cases value with
  | null => exact plainText_of_noDash (List.all_eq_true.mp (by decide)) (by decide)
  | bytes content text =>
    rw [valuePart]
    split
    · trivial
    · exact plainText_bytes content
  | int val => exact plainText_int val
  | float val => exact ⟨val.printed, val.noDashes⟩
  | bool val => cases val <;> exact plainText_of_noDash (List.all_eq_true.mp (by decide)) (by decide)
  | _ => trivial

theorem Part.Plain.calm {part : Part} (plain : part.Plain) : part.Calm := by
  cases part with
  | literal unicode body => trivial
  | plain text =>
    exact ⟨fun member => absurd (plain.1 _ member) (by decide),
      fun member => absurd (plain.1 _ member) (by decide)⟩

/-- What holds of the part of every value holds of the parts of a row. -/
theorem rowParts_of_valuePart {Holds : Part → Prop}
    (each : ∀ dataType value, Holds (valuePart dataType value)) {table : Table} {vals : List Value}
    {part : Part} (member : part ∈ rowParts table vals) : Holds part := by
  obtain ⟨entry, -, isPart⟩ := List.mem_filterMap.mp member
  split at isPart
  · exact absurd isPart (by simp)
  · rw [← Option.some.inj isPart]
    exact each _ _

/-- A text with one character doubled. -/
def doubled (quote : Char) (text : List Char) : List Char :=
  text.flatMap fun c => if c = quote then [quote, quote] else [c]

theorem toList_escapeMSSQL (s : String) : (escapeMSSQL s).toList = doubled '\'' s.toList := by
  have quotes : "''".toList = ['\'', '\''] := by decide
  have quote : "'".toList = ['\''] := by decide
  unfold escapeMSSQL replaceAll doubled
  rw [String.toList_ofList, quote, quotes, replaceChars_char]

theorem doubled_cons_self (quote : Char) (rest : List Char) :
    doubled quote (quote :: rest) = quote :: quote :: doubled quote rest := by
  unfold doubled
  rw [List.flatMap_cons, if_pos rfl]
  rfl

theorem doubled_cons_other {quote c : Char} (other : c ≠ quote) (rest : List Char) :
    doubled quote (c :: rest) = c :: doubled quote rest := by
  unfold doubled
  rw [List.flatMap_cons, if_neg other]
  rfl

variable {quote : Char}

theorem doubled_of_not_mem {text : List Char} (absent : quote ∉ text) :
    doubled quote text = text := by
  induction text with
  | nil => rfl
  | cons c rest ih =>
    rw [List.mem_cons, not_or] at absent
    rw [doubled_cons_other (Ne.symm absent.1), ih absent.2]

theorem mem_doubled {text : List Char} (member : quote ∈ text) : quote ∈ doubled quote text :=
  List.mem_flatMap.mpr ⟨quote, member, by simp⟩

theorem charLines_cons_other {c : Char} (other : c ≠ '\n') (rest : List Char) :
    charLines (c :: rest) = (charLines rest).modifyHead (c :: ·) := by
  unfold charLines
  rw [List.splitOnP_cons_eq_if_modifyHead, if_neg (by simpa using other)]

theorem charLines_newline (rest : List Char) : charLines ('\n' :: rest) = [] :: charLines rest :=
  splitOnP_cons_sep rfl rest

theorem charLines_doubled (notNewline : quote ≠ '\n') (text : List Char) :
    charLines (doubled quote text) = (charLines text).map (doubled quote) := by
  induction text with
  | nil => rfl
  | cons c rest ih =>
    by_cases newline : c = '\n'
    · rw [newline, doubled_cons_other (Ne.symm notNewline), charLines_newline, charLines_newline,
        ih]
      rfl
    · rw [charLines_cons_other newline]
      cases lines : charLines rest with
      | nil => exact absurd lines (List.splitOnP_ne_nil _ _)
      | cons head tail =>
        rw [lines] at ih
        by_cases isQuote : c = quote
        · rw [isQuote, doubled_cons_self, charLines_cons_other notNewline,
            charLines_cons_other notNewline, ih, List.modifyHead_cons,
            List.map_cons, List.map_cons, doubled_cons_self]
          rfl
        · rw [doubled_cons_other isQuote, charLines_cons_other newline, ih,
            List.modifyHead_cons, List.map_cons, List.map_cons, doubled_cons_other isQuote]
          rfl

/-- Doubling quotes neither makes a `GO` line nor spoils one. -/
theorem go_doubled (line : List Char) :
    isGOSeparator (String.ofList (doubled '\'' line)) = isGOSeparator (String.ofList line) := by
  by_cases quoted : '\'' ∈ line
  · have barred : ∀ {text : List Char}, '\'' ∈ text →
        isGOSeparator (String.ofList text) = false := fun member =>
      not_go_of_bar (by rwa [String.toList_ofList]) (by decide : isBar '\'' = true)
    rw [barred quoted, barred (mem_doubled quoted)]
  · rw [doubled_of_not_mem quoted]

theorem goInner_doubled_iff : GoInner (doubled '\'' text) ↔ GoInner text := by
  unfold GoInner
  rw [charLines_doubled (by decide), ← List.map_tail, ← List.map_dropLast]
  simp only [List.mem_map, forall_exists_index, and_imp, forall_apply_eq_imp_iff₂, go_doubled]

theorem noBracketDot_doubled_iff :
    NoBracketDot (doubled '\'' text) ↔ NoBracketDot text := by
  have starts : ∀ rest : List Char, ['.'] <+: doubled '\'' rest ↔ ['.'] <+: rest := by
    intro rest
    cases rest with
    | nil => rfl
    | cons c rest =>
      by_cases isQuote : c = '\''
      · rw [isQuote, doubled_cons_self]
        simp
      · rw [doubled_cons_other isQuote]
        simp
  unfold NoBracketDot
  rw [not_iff_not]
  induction text with
  | nil => rfl
  | cons c rest ih =>
    by_cases isQuote : c = '\''
    · rw [isQuote, doubled_cons_self, List.infix_cons_iff, List.infix_cons_iff,
        ih, List.infix_cons_iff (a := '\'')]
      simp [bracketDot]
    · rw [doubled_cons_other isQuote, List.infix_cons_iff, List.infix_cons_iff,
        ih, bracketDot, List.cons_prefix_cons, List.cons_prefix_cons, starts]

/-- A text value that neither cuts a batch nor holds what a rewrite looks for. -/
def TextClean (text : String) : Prop := GoInner text.toList ∧ NoBracketDot text.toList

/-- The text values: what is written between quotes. -/
def ValueClean (dataType : String) : Value → Prop
  | .bytes _ text => isStringLikeType dataType = true → TextClean text
  | .string val => TextClean val
  | .other val => TextClean val
  | _ => True

theorem holds_valuePart_iff (dataType : String) (value : Value) :
    (valuePart dataType value).Holds GoInner ∧ (valuePart dataType value).Holds NoBracketDot ↔
      ValueClean dataType value := by
  have escaped : ∀ (unicode : Bool) (text : String),
      (Part.literal unicode (escapeMSSQL text)).Holds GoInner ∧
        (Part.literal unicode (escapeMSSQL text)).Holds NoBracketDot ↔ TextClean text := by
    intro unicode text
    rw [Part.Holds, Part.Holds, TextClean, toList_escapeMSSQL, goInner_doubled_iff, noBracketDot_doubled_iff]
  cases value with
  | bytes content text =>
    rw [valuePart, ValueClean]
    by_cases stringLike : isStringLikeType dataType = true
    · rw [if_pos stringLike, escaped]
      simp [stringLike]
    · rw [if_neg stringLike]
      simp [stringLike, Part.Holds]
  | string val => exact escaped _ val
  | other val => exact escaped _ val
  | time val =>
    have calm : ']' ∉ val.text.toList ∧ '\n' ∉ val.text.toList :=
      ⟨fun member => absurd (val.printed _ member) (by decide),
        fun member => absurd (val.printed _ member) (by decide)⟩
    exact iff_of_true ⟨goTail_barLaw.calm _ calm.1 calm.2, noBracketDot_barLaw.calm _ calm.1 calm.2⟩
      trivial
  | _ => exact iff_of_true ⟨trivial, trivial⟩ trivial

end DbBackup.Engine.Mssql
