import DbBackup.Engine.Mssql.Rows

/-!
Owns how SQL Server lexes the `INSERT` statements of a dump.

Contract: the names and the numbers hold no literal, and every text value is one
(`rows_reach`). So the literals of an `INSERT` are shielded from every rewrite
exactly when none of them holds `].` (`shielded_insert_iff`).
-/

namespace DbBackup.Engine.Mssql

open Lib.GoString Lib.LineScan

/-! ### Names -/

/-- Lexing a text leads from one mode to another without a literal. -/
structure Lexes (before : Mode) (text : List Char) (after : Mode) : Prop where
  ends : run before text = after
  none : ∀ inLiteral ∈ mask before text, inLiteral = false

theorem Lexes.append {before middle after : Mode} {first second : List Char}
    (firstLexes : Lexes before first middle) (secondLexes : Lexes middle second after) :
    Lexes before (first ++ second) after := by
  refine ⟨by rw [run_append, firstLexes.ends, secondLexes.ends], ?_⟩
  intro inLiteral member
  rw [mask_append, firstLexes.ends, List.mem_append] at member
  rcases member with inFirst | inSecond
  · exact firstLexes.none inLiteral inFirst
  · exact secondLexes.none inLiteral inSecond

theorem Lexes.of_append {before after : Mode} {first second : List Char}
    (lexes : Lexes before (first ++ second) after) : Lexes before first (run before first) := by
  refine ⟨rfl, fun inLiteral member => lexes.none inLiteral ?_⟩
  rw [mask_append]
  exact List.mem_append_left _ member

theorem lexes_of_decide {before after : Mode} {text : List Char}
    (decided : run before text = after ∧ (mask before text).all (fun one => !one) = true) :
    Lexes before text after :=
  ⟨decided.1, fun inLiteral member => by simpa using List.all_eq_true.mp decided.2 inLiteral member⟩

theorem lexes_bracket (text : List Char) : Lexes .bracket (doubled ']' text) .bracket := by
  induction text with
  | nil => exact lexes_of_decide (by decide)
  | cons c rest ih =>
    by_cases isBracket : c = ']'
    · rw [isBracket, doubled_cons_self]
      have pair : Lexes .bracket [']', ']'] .bracket := lexes_of_decide (by decide)
      exact pair.append ih
    · rw [doubled_cons_other isBracket]
      have one : Lexes .bracket [c] .bracket :=
        ⟨by simp [run, Mode.next, isBracket], by simp [mask, Mode.next, isBracket]⟩
      exact one.append ih

theorem toList_quoteMSSQLIdent (s : String) :
    (quoteMSSQLIdent s).toList = ['['] ++ doubled ']' s.toList ++ [']'] := by
  have brackets : "]]".toList = [']', ']'] := by decide
  have closing : "]".toList = [']'] := by decide
  have opening : "[".toList = ['['] := by decide
  unfold quoteMSSQLIdent replaceAll doubled
  rw [String.toList_append, String.toList_append, opening, brackets, closing, String.toList_ofList,
    replaceChars_char]

theorem lexes_quoteMSSQLIdent (s : String) : Lexes .code (quoteMSSQLIdent s).toList .bracketEnd := by
  rw [toList_quoteMSSQLIdent]
  exact ((lexes_of_decide (by decide)).append (lexes_bracket s.toList)).append
    (lexes_of_decide (by decide))

theorem lexes_tableName (db table : String) : Lexes .code (tableName db table).toList .bracketEnd := by
  have dbo : Lexes .bracketEnd ".[dbo].".toList .code := lexes_of_decide (by decide)
  unfold tableName
  rw [String.toList_append, String.toList_append]
  exact ((lexes_quoteMSSQLIdent db).append dbo).append (lexes_quoteMSSQLIdent table)

theorem lexes_setIdentity (db table : String) (on : Bool) :
    Lexes .code (Write.setIdentity db table on).output.toList .code := by
  have start : Lexes .code "SET IDENTITY_INSERT ".toList .code := lexes_of_decide (by decide)
  have ending : Lexes .bracketEnd (if on then " ON;\n" else " OFF;\n").toList .code := by
    cases on <;> exact lexes_of_decide (by decide)
  change Lexes .code ("SET IDENTITY_INSERT " ++ tableName db table ++
    (if on then " ON;\n" else " OFF;\n")).toList .code
  rw [String.toList_append, String.toList_append]
  exact (start.append (lexes_tableName db table)).append ending

theorem lexes_names (names : List String) :
    Lexes .code ((", ".intercalate (names.map quoteMSSQLIdent)).toList ++ ") VALUES\n".toList)
      .code := by
  cases names with
  | nil => exact lexes_of_decide (by decide)
  | cons name others =>
    induction others generalizing name with
    | nil =>
      have ending : Lexes .bracketEnd ") VALUES\n".toList .code := lexes_of_decide (by decide)
      rw [List.map_singleton, String.intercalate_singleton]
      exact (lexes_quoteMSSQLIdent name).append ending
    | cons next others ih =>
      have comma : Lexes .bracketEnd ", ".toList .code := lexes_of_decide (by decide)
      rw [List.map_cons, List.map_cons, String.intercalate_cons_cons, String.toList_append,
        String.toList_append, List.append_assoc]
      exact ((lexes_quoteMSSQLIdent name).append comma).append (ih next)

theorem lexes_insertInto (db table : String) (cols : List String) :
    Lexes .code (Write.insertInto db table cols).output.toList .code := by
  have start : Lexes .code "INSERT INTO ".toList .code := lexes_of_decide (by decide)
  have opening : Lexes .bracketEnd " (".toList .code := lexes_of_decide (by decide)
  change Lexes .code ("INSERT INTO " ++ tableName db table ++ " (" ++
    ", ".intercalate (cols.map quoteMSSQLIdent) ++ ") VALUES\n").toList .code
  rw [String.toList_append, String.toList_append, String.toList_append, String.toList_append,
    List.append_assoc]
  exact ((start.append (lexes_tableName db table)).append opening).append (lexes_names cols)

/-! ### Rows -/

/-- Between the quotes of a literal every quote is doubled. -/
def Part.Escaped : Part → Prop
  | .literal _ body => ∃ raw, body.toList = doubled '\'' raw
  | .plain text => PlainText text.toList

theorem escaped_valuePart (dataType : String) (value : Value) :
    (valuePart dataType value).Escaped := by
  have plain := plain_valuePart dataType value
  cases value with
  | bytes content text =>
    rw [valuePart] at plain ⊢
    split
    · exact ⟨text.toList, toList_escapeMSSQL text⟩
    · rename_i other
      rw [if_neg other] at plain
      exact plain
  | string val => exact ⟨val.toList, toList_escapeMSSQL val⟩
  | other val => exact ⟨val.toList, toList_escapeMSSQL val⟩
  | time val =>
    refine ⟨val.text.toList, (doubled_of_not_mem ?_).symm⟩
    exact fun member => absurd (val.printed _ member) (by decide)
  | _ => exact plain

theorem run_literal_doubled (raw : List Char) : run .literal (doubled '\'' raw) = .literal := by
  induction raw with
  | nil => rfl
  | cons c rest ih =>
    by_cases isQuote : c = '\''
    · rw [isQuote, doubled_cons_self]
      exact ih
    · rw [doubled_cons_other isQuote, run, List.foldl_cons]
      have stays : Mode.next .literal c = .literal := if_neg isQuote
      rw [stays]
      exact ih

theorem codeNext_printed {c : Char} (printed : isPrinted c = true) (notDash : c ≠ '-') :
    codeNext c = .code := by
  have other : ∀ {x : Char}, isPrinted x = false → c ≠ x := by
    rintro x hidden rfl
    rw [printed] at hidden
    exact absurd hidden (by decide)
  unfold codeNext
  rw [if_neg (other (by decide)), if_neg (other (by decide)), if_neg (other (by decide)),
    if_neg notDash, if_neg (other (by decide))]

/-- After a number the lexer is in code, or has seen a dash. -/
theorem run_plainText {text : List Char} (plain : PlainText text) :
    run .code text = .code ∨ run .code text = .dash := by
  have both : ∀ (text : List Char), PlainText text →
      (run .code text = .code ∨ run .code text = .dash) ∧
        (text.head? ≠ some '-' → run .dash text = .code ∨ run .dash text = .dash) := by
    intro text
    induction text with
    | nil => exact fun _ => ⟨.inl rfl, fun _ => .inr rfl⟩
    | cons c rest ih =>
      intro ⟨printed, noDashes⟩
      have restPlain : PlainText rest := ⟨(List.forall_mem_cons.mp printed).2,
        fun piece => noDashes (piece.trans (List.suffix_cons c rest).isInfix)⟩
      obtain ⟨fromCode, fromDash⟩ := ih restPlain
      by_cases isDash : c = '-'
      · subst isDash
        have noSecond : rest.head? ≠ some '-' := by
          intro second
          cases rest with
          | nil => exact absurd second (by simp)
          | cons x others =>
            rw [List.head?_cons, Option.some.injEq] at second
            subst second
            exact noDashes ⟨[], others, rfl⟩
        exact ⟨fromDash noSecond, fun notDash => absurd rfl notDash⟩
      · have next := codeNext_printed (printed c List.mem_cons_self) isDash
        have afterCode : run .code (c :: rest) = run .code rest := by
          rw [run, List.foldl_cons]
          show run (codeNext c) rest = _
          rw [next]
        have afterDash : run .dash (c :: rest) = run .code rest := by
          rw [run, List.foldl_cons]
          show run (if c = '-' then .line else codeNext c) rest = _
          rw [if_neg isDash, next]
        rw [afterCode, afterDash]
        exact ⟨fromCode, fun _ => fromCode⟩
  exact (both text plain).1

theorem run_part {part : Part} (escaped : part.Escaped) {c : Char} (separates : c = ',' ∨ c = ')') :
    run .code (part.text.toList ++ [c]) = .code := by
  rw [run_append]
  cases part with
  | plain text =>
    rcases run_plainText escaped with ended | ended <;> rcases separates with rfl | rfl <;>
      (rw [Part.text, ended]; decide)
  | literal unicode body =>
    obtain ⟨raw, isRaw⟩ := escaped
    have opened : run .code (if unicode then "N'" else "'").toList = .literal := by
      cases unicode <;> decide
    have closed : run .literal "'".toList = .code := by decide
    have ended : run .code (Part.literal unicode body).text.toList = .code := by
      rw [Part.text, String.toList_append, String.toList_append, run_append, run_append, opened, isRaw,
        run_literal_doubled, closed]
    rw [ended]
    rcases separates with rfl | rfl <;> decide

/-- Every part of a row is reached in code. -/
theorem parts_reach {parts : List Part} (escaped : ∀ part ∈ parts, part.Escaped) :
    run .code ((", ".intercalate (parts.map Part.text)).toList ++ [')']) = .code ∧
      ∀ part ∈ parts, ∃ before after,
        (", ".intercalate (parts.map Part.text)).toList = before ++ part.text.toList ++ after ∧
          run .code before = .code := by
  cases parts with
  | nil => exact ⟨by decide, fun part member => absurd member List.not_mem_nil⟩
  | cons part others =>
    induction others generalizing part with
    | nil =>
      rw [List.map_singleton, String.intercalate_singleton]
      refine ⟨run_part (escaped part (List.mem_singleton_self _)) (.inr rfl), ?_⟩
      intro one member
      rw [List.mem_singleton.mp member]
      exact ⟨[], [], by simp, rfl⟩
    | cons next others ih =>
      obtain ⟨ends, reach⟩ := ih next
        (List.forall_mem_cons.mp escaped).2
      have comma : ", ".toList = [',', ' '] := by decide
      have shape : (", ".intercalate ((part :: next :: others).map Part.text)).toList =
          (part.text.toList ++ [',']) ++ ([' '] ++
            (", ".intercalate ((next :: others).map Part.text)).toList) := by
        rw [List.map_cons, List.map_cons, String.intercalate_cons_cons, String.toList_append,
          String.toList_append, comma, List.append_assoc, List.append_assoc]
        rfl
      have first : run .code (part.text.toList ++ [',']) = .code :=
        run_part (escaped part List.mem_cons_self) (.inl rfl)
      rw [shape]
      refine ⟨?_, ?_⟩
      · rw [List.append_assoc, run_append, first]
        exact ends
      · intro one member
        rcases List.mem_cons.mp member with rfl | later
        · exact ⟨[], [','] ++ ([' '] ++ (", ".intercalate ((next :: others).map Part.text)).toList),
            by simp, rfl⟩
        · obtain ⟨before, after, split, inCode⟩ := reach one later
          refine ⟨(part.text.toList ++ [',']) ++ ([' '] ++ before), after, ?_, ?_⟩
          · rw [split]
            simp only [List.append_assoc]
          · rw [run_append, first]
            exact inCode

theorem row_reach {parts : List Part} (escaped : ∀ part ∈ parts, part.Escaped) :
    run .code (Write.row parts).output.toList = .code ∧
      ∀ part ∈ parts, ∃ before after,
        (Write.row parts).output.toList = before ++ part.text.toList ++ after ∧
          run .code before = .code := by
  obtain ⟨ends, reach⟩ := parts_reach escaped
  rw [toList_output_row]
  refine ⟨ends, ?_⟩
  intro part member
  obtain ⟨before, after, split, inCode⟩ := reach part member
  exact ⟨'(' :: before, after ++ [')'], by rw [split]; simp, inCode⟩

theorem rows_reach (table : Table) {chunk : List (List Value)}
    (escaped : ∀ row ∈ chunk, ∀ part ∈ rowParts table row, part.Escaped) :
    ∀ row ∈ chunk, ∀ part ∈ rowParts table row, ∃ before after,
      rowsText table chunk = before ++ part.text.toList ++ after ∧ run .code before = .code := by
  induction chunk with
  | nil => exact fun row member => absurd member List.not_mem_nil
  | cons vals others ih =>
    obtain ⟨ends, reach⟩ := row_reach (escaped vals List.mem_cons_self)
    cases others with
    | nil =>
      intro row member part inRow
      rw [List.mem_singleton.mp member] at inRow
      rw [rowsText_singleton]
      exact reach part inRow
    | cons next others =>
      have later := ih (List.forall_mem_cons.mp escaped).2
      intro row member part inRow
      rw [rowsText_cons]
      rcases List.mem_cons.mp member with rfl | inOthers
      · obtain ⟨before, after, split, inCode⟩ := reach part inRow
        exact ⟨before, after ++ ',' :: '\n' :: rowsText table (next :: others),
          by rw [split, List.append_assoc _ _ (_ :: _)], inCode⟩
      · obtain ⟨before, after, split, inCode⟩ := later row inOthers part inRow
        refine ⟨(Write.row (rowParts table vals)).output.toList ++ ([',', '\n'] ++ before), after,
          ?_, ?_⟩
        · rw [split]
          simp
        · rw [run_append, ends, run_append]
          exact inCode

/-! ### Literals of an `INSERT` -/

theorem doubled_append (quote : Char) (first second : List Char) :
    doubled quote (first ++ second) = doubled quote first ++ doubled quote second :=
  List.flatMap_append

/-- What stands before the rows: names only, a bracket among them, and a line break at the end. -/
structure InsertFrame (frame : List Char) : Prop where
  lexes : Lexes .code frame .code
  opens : '[' ∈ frame
  ends : frame.getLast? = some '\n'

theorem mask_of_frame {frame rest : List Char} (isFrame : InsertFrame frame) {index : Nat}
    (inside : index < frame.length) : (mask .code (frame ++ rest))[index]? ≠ some true := by
  rw [mask_append, List.getElem?_append_left (by rwa [length_mask])]
  intro isTrue
  exact absurd (isFrame.lexes.none true (List.mem_of_getElem? isTrue)) (by decide)

/-- Without `].` in what follows, all that ends in `].` lies in the frame. -/
theorem inside_frame {frame rest before inner after : List Char} (isFrame : InsertFrame frame)
    (none : NoBracketDot rest)
    (shape : frame ++ rest = before ++ ('[' :: inner ++ [']', '.']) ++ after) :
    before.length + (inner.length + 3) ≤ frame.length := by
  have size : (before ++ ('[' :: inner ++ [']', '.'])).length = before.length + (inner.length + 3) := by
    simp
  rcases List.append_eq_append_iff.mp shape with ⟨part, split, isRest⟩ | ⟨part, isFrameSplit, -⟩
  · have ending : before ++ '[' :: inner ++ [']', '.'] = frame ++ part := by
      rw [← split]
      simp
    have noPart : part = [] := by
      by_contra something
      rcases List.append_eq_append_iff.mp ending with ⟨tail, frameSplit, isTail⟩ | ⟨tail, -, isPart⟩
      · -- The bracket and the dot would stand on both sides of the end of the frame.
        rcases tail with _ | ⟨c, _ | ⟨d, tail⟩⟩
        · refine none ⟨[], after, ?_⟩
          rw [isRest, ← List.nil_append part, ← isTail]
          rfl
        · rw [List.singleton_append, List.cons.injEq] at isTail
          have last := isFrame.ends
          rw [frameSplit, List.getLast?_append_of_ne_nil _ (List.cons_ne_nil _ _), ← isTail.1] at last
          exact absurd last (by decide)
        · rw [List.cons_append, List.cons_append, List.cons.injEq, List.cons.injEq] at isTail
          exact something (List.append_eq_nil_iff.mp isTail.2.2.symm).2
      · exact none ⟨tail, after, by rw [isRest, isPart]; rfl⟩
    rw [noPart, List.append_nil] at split
    rw [← size, split]
  · have lengths := congrArg List.length isFrameSplit
    rw [List.length_append, size] at lengths
    omega

theorem shielded_insert_iff {frame : List Char} (isFrame : InsertFrame frame) (table : Table)
    {chunk : List (List Value)} (notEmpty : chunk ≠ []) :
    Shielded (String.ofList (frame ++ (rowsText table chunk ++ [';']))) ↔
      ∀ row ∈ chunk, ∀ part ∈ rowParts table row, part.Holds NoBracketDot := by
  have escaped : ∀ row ∈ chunk, ∀ part ∈ rowParts table row, part.Escaped :=
    fun row _ part member => rowParts_of_valuePart escaped_valuePart member
  have calm : ∀ row ∈ chunk, ∀ part ∈ rowParts table row, part.Calm :=
    fun row _ part member => rowParts_of_valuePart (fun _ _ => (plain_valuePart _ _).calm) member
  constructor
  · intro shielded row inChunk part inRow
    cases part with
    | plain text => trivial
    | literal unicode body =>
      obtain ⟨raw, isRaw⟩ := escaped row inChunk _ inRow
      show NoBracketDot body.toList
      rw [isRaw, noBracketDot_doubled_iff]
      rintro ⟨start, tail, rawSplit⟩
      obtain ⟨before, after, split, inCode⟩ := rows_reach table escaped row inChunk _ inRow
      obtain ⟨names, more, frameSplit⟩ := List.append_of_mem isFrame.opens
      -- The lexer is inside the literal when it comes to the bracket of `].`.
      let quote : List Char := (if unicode then "N'" else "'").toList
      let reached : List Char := before ++ quote ++ doubled '\'' start
      let rest : List Char := doubled '\'' tail ++ ['\''] ++ after ++ [';']
      have text : (Part.literal unicode body).text.toList =
          quote ++ doubled '\'' start ++ bracketDot ++ doubled '\'' tail ++ ['\''] := by
        have closing : "'".toList = ['\''] := by decide
        have dot : doubled '\'' bracketDot = bracketDot := by decide
        rw [Part.text, String.toList_append, String.toList_append, isRaw, ← rawSplit, doubled_append,
          doubled_append, dot, closing]
        simp only [quote, List.append_assoc]
      have whole : frame ++ (rowsText table chunk ++ [';']) =
          (frame ++ reached) ++ (']' :: '.' :: rest) := by
        rw [split, text]
        simp [reached, rest, bracketDot]
      have inLiteral : run .code (frame ++ reached) = .literal := by
        have opened : run .code quote = .literal := by cases unicode <;> decide
        rw [run_append, isFrame.lexes.ends, run_append, run_append, inCode, opened,
          run_literal_doubled]
      have marked : (mask .code (frame ++ (rowsText table chunk ++ [';'])))[(frame ++ reached).length]? =
          some true := by
        rw [whole, mask_append, List.getElem?_append_right (by rw [length_mask]), length_mask,
          Nat.sub_self, inLiteral]
        rfl
      have quoteLength : 0 < quote.length := by cases unicode <;> decide
      have frameLength := congrArg List.length frameSplit
      rw [List.length_append, List.length_cons] at frameLength
      have reachedLength : (frame ++ reached).length = frame.length + reached.length :=
        List.length_append
      have innerLength : (more ++ reached).length = more.length + reached.length :=
        List.length_append
      refine shielded names (more ++ reached) rest ?_ ?_ (frame ++ reached).length ?_ ?_ ?_
      · rw [String.toList_ofList, whole, frameSplit]
        simp
      · intro nothing
        have noLength := congrArg List.length nothing
        simp only [reached, List.length_append, List.length_nil] at noLength
        omega
      · omega
      · omega
      · rw [String.toList_ofList]
        exact marked
  · intro clean before inner after shape something index low high
    have none : NoBracketDot (rowsText table chunk ++ [';']) := by
      have all := noBracketDot_barLaw.rows table notEmpty calm
        (noBracketDot_barLaw.calm [] (by simp) (by simp)) []
      rw [List.nil_append] at all
      exact all.mpr ⟨clean, noBracketDot_barLaw.calm [] (by simp) (by simp)⟩
    rw [String.toList_ofList] at shape ⊢
    have inside := inside_frame isFrame none shape
    exact mask_of_frame isFrame (by omega)

end DbBackup.Engine.Mssql
