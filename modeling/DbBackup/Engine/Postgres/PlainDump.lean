import DbBackup.Engine.Postgres.Dumper

/-!
Owns the dumper and the restorer of the PostgreSQL engine together: which
catalogues a dump carries to the server statement by statement.

Contract: `PlainCatalogue` asks of every name that it stays in its line and
holds no `$word$`, and of every statement with text the server rendered
(column types and defaults, constraints, index and view definitions, comment
texts) that the line rules of the restorer keep it whole. For such a catalogue
what reaches the server is the emitted statements and nothing else
(`only_emitted_of_plain`). A name that breaks its comment line is read as SQL
(`commentName_becomes_sql`).
-/

set_option linter.all false

namespace DbBackup.Engine.Postgres.Dumper

open Lib.GoString Lib.LineScan Engine.Postgres.Stream

/-! ### Texts that touch no quote -/

/-- A text that stays in its line and leaves the scan for a dollar quote as it
found it. -/
structure Sealed (text : String) : Prop where
  oneLine : OneLine text
  scanned : scanTag .outside text.toList = some .outside

instance (text : String) : Decidable (Sealed text) :=
  decidable_of_iff (OneLine text ∧ scanTag .outside text.toList = some .outside)
    ⟨fun ⟨oneLine, scanned⟩ => ⟨oneLine, scanned⟩, fun done => ⟨done.oneLine, done.scanned⟩⟩

/-- A text that ends whatever word stands before it. -/
structure Separator (text : String) : Prop where
  oneLine : OneLine text
  scanned : ∀ state, scanTag state text.toList = some .outside

instance : DecidablePred Separator := fun text =>
  decidable_of_iff (OneLine text ∧ scanTag .outside text.toList = some .outside ∧
      scanTag .dollar text.toList = some .outside ∧ scanTag .word text.toList = some .outside)
    ⟨fun ⟨oneLine, outside, dollar, word⟩ => ⟨oneLine, fun
        | .outside => outside
        | .dollar => dollar
        | .word => word⟩,
      fun separator => ⟨separator.oneLine, separator.scanned _, separator.scanned _,
        separator.scanned _⟩⟩

theorem Sealed.plain {text : String} (done : Sealed text) : Plain text where
  oneLine := done.oneLine
  noTag := (openTag_eq_nil_iff _).mpr ⟨_, done.scanned⟩

theorem Sealed.append {first second : String} (firstDone : Sealed first)
    (secondDone : Sealed second) : Sealed (first ++ second) where
  oneLine := firstDone.oneLine.append secondDone.oneLine
  scanned := by
    rw [String.toList_append, scanTag_append, firstDone.scanned]
    exact secondDone.scanned

theorem Sealed.plain_append {first second : String} (done : Sealed first) (plain : Plain second) :
    Plain (first ++ second) where
  oneLine := done.oneLine.append plain.oneLine
  noTag := by
    obtain ⟨state, scanned⟩ := (openTag_eq_nil_iff _).mp plain.noTag
    refine (openTag_eq_nil_iff _).mpr ⟨state, ?_⟩
    rw [String.toList_append, scanTag_append, done.scanned]
    exact scanned

theorem sealed_append_separator {text separator : String} (plain : Plain text)
    (separates : Separator separator) : Sealed (text ++ separator) where
  oneLine := plain.oneLine.append separates.oneLine
  scanned := by
    obtain ⟨state, scanned⟩ := (openTag_eq_nil_iff _).mp plain.noTag
    rw [String.toList_append, scanTag_append, scanned]
    exact separates.scanned state

theorem plain_join {first separator second : String} (firstPlain : Plain first)
    (separates : Separator separator) (secondPlain : Plain second) :
    Plain (first ++ separator ++ second) :=
  (sealed_append_separator firstPlain separates).plain_append secondPlain

theorem sealed_join {parts : List String} (done : ∀ part ∈ parts, Sealed part) :
    Sealed (String.join parts) := by
  have joined : ∀ texts : List String, String.join texts =
      String.ofList (texts.flatMap String.toList) := by
    intro texts
    apply String.toList_injective
    rw [String.toList_join, String.toList_ofList, List.flatMap]
  induction parts with
  | nil => decide
  | cons part rest ih =>
    have shape : String.join (part :: rest) = part ++ String.join rest := by
      rw [joined, joined]
      apply String.toList_injective
      simp
    rw [shape]
    exact (done part List.mem_cons_self).append
      (ih (List.forall_mem_cons.mp done).2)

theorem sealed_intercalate {separator : String} {parts : List String}
    (separates : Sealed separator) (done : ∀ part ∈ parts, Sealed part) :
    Sealed (separator.intercalate parts) := by
  induction parts with
  | nil => exact (by decide : Sealed "")
  | cons part rest ih =>
    obtain ⟨head, others⟩ := List.forall_mem_cons.mp done
    have tail := ih others
    cases rest with
    | nil => simpa using head
    | cons next others =>
      rw [String.intercalate_cons_cons]
      exact (head.append separates).append tail

/-! ### Quoting keeps a name plain -/

theorem scanTag_double {quote : Char} (notWord : isTagChar quote = false) (notDollar : quote ≠ '$')
    (state : TagScan) (text : List Char) :
    scanTag state (text.flatMap fun c => if c = quote then [quote, quote] else [c]) =
      scanTag state text := by
  induction text generalizing state with
  | nil => rfl
  | cons c rest ih =>
    by_cases isQuote : c = quote
    · simp [scanTag, TagScan.next, isQuote, notWord, notDollar, ih]
    · simp [scanTag, isQuote, ih]

theorem plain_double {quote : Char} (notWord : isTagChar quote = false) (notDollar : quote ≠ '$')
    (notNewline : quote ≠ '\n') {text : String} (plain : Plain text) :
    Plain (replaceAll text (String.ofList [quote]) (String.ofList [quote, quote])) := by
  unfold replaceAll
  simp only [String.toList_ofList, replaceChars_char]
  constructor
  · unfold OneLine
    rw [String.toList_ofList, List.mem_flatMap]
    intro ⟨c, member, isNewline⟩
    split at isNewline
    · simp [Ne.symm notNewline] at isNewline
    · exact plain.oneLine (by rwa [List.mem_singleton.mp isNewline])
  · obtain ⟨state, scanned⟩ := (openTag_eq_nil_iff _).mp plain.noTag
    rw [String.toList_ofList, openTag_eq_nil_iff]
    exact ⟨state, by rw [scanTag_double notWord notDollar]; exact scanned⟩

theorem sealed_quotePGIdent {name : String} (plain : Plain name) : Sealed (quotePGIdent name) := by
  have doubled : Plain (replaceAll name "\"" "\"\"") :=
    plain_double (by decide) (by decide) (by decide) plain
  have opened : Plain ("\"" ++ replaceAll name "\"" "\"\"") :=
    Sealed.plain_append (by decide) doubled
  exact sealed_append_separator opened (by decide)

theorem sealed_qualified {schema name : String} (schemaPlain : Plain schema)
    (namePlain : Plain name) : Sealed (qualified schema name) :=
  ((sealed_quotePGIdent schemaPlain).append (by decide)).append (sealed_quotePGIdent namePlain)

theorem plain_escapePGLiteral {text : String} (plain : Plain text) :
    Plain (escapePGLiteral text) :=
  plain_double (by decide) (by decide) (by decide) plain

/-- Halving doubled quotes changes no scan either. -/
theorem scanTag_halve (state : TagScan) (text : List Char) :
    scanTag state (replaceChars ['"', '"'] ['"'] 0 text) = scanTag state text := by
  induction length : text.length using Nat.strong_induction_on generalizing state text with
  | _ n ih =>
    subst length
    match text with
    | [] => rfl
    | [c] => simp [replaceChars]
    | c :: d :: rest =>
      by_cases both : c = '"' ∧ d = '"'
      · have shorter := ih rest.length
          (by rw [List.length_cons, List.length_cons]; omega) .outside rest rfl
        have quoteChar : isTagChar '"' = false := by decide
        simpa [replaceChars, both.1, both.2, scanTag, TagScan.next, quoteChar] using shorter
      · have notPrefix : ['"', '"'].isPrefixOf (c :: d :: rest) = false := by
          rw [← Bool.not_eq_true, List.isPrefixOf_iff_prefix]
          intro begins
          obtain ⟨first, tail⟩ := List.cons_prefix_cons.mp begins
          exact both ⟨first.symm, (List.cons_prefix_cons.mp tail).1.symm⟩
        rw [replaceChars, notPrefix]
        simp only [Bool.false_eq_true, ↓reduceIte, scanTag]
        congr 1
        funext next
        exact ih (d :: rest).length (by simp) next (d :: rest) rfl

theorem mem_replaceChars {old new text : List Char} {c : Char} (skip : Nat)
    (member : c ∈ replaceChars old new skip text) : c ∈ new ∨ c ∈ text := by
  induction text generalizing skip with
  | nil => simp [replaceChars] at member
  | cons d rest ih =>
    cases skip with
    | succ skip =>
      rw [replaceChars] at member
      exact (ih skip member).imp_right (List.mem_cons_of_mem _)
    | zero =>
      rw [replaceChars] at member
      split at member
      · rcases List.mem_append.mp member with inNew | later
        · exact .inl inNew
        · exact (ih _ later).imp_right (List.mem_cons_of_mem _)
      · rcases List.mem_cons.mp member with rfl | later
        · exact .inr List.mem_cons_self
        · exact (ih _ later).imp_right (List.mem_cons_of_mem _)

theorem sealed_quotePGRole {name : String} (plain : Plain name) : Sealed (quotePGRole name) := by
  unfold quotePGRole
  split
  · apply sealed_quotePGIdent
    have innerTag : openTag (name.toList.drop 1).dropLast = [] := by
      have tailTag : openTag (name.toList.drop 1) = [] := by
        cases chars : name.toList with
        | nil => rfl
        | cons c rest =>
          have noTag := plain.noTag
          rw [chars] at noTag
          exact openTag_tail noTag
      obtain ⟨last, split⟩ := List.dropLast_prefix (name.toList.drop 1)
      rw [← split] at tailTag
      exact openTag_of_append tailTag
    constructor
    · unfold OneLine replaceAll
      simp only [String.toList_ofList]
      intro newline
      rcases mem_replaceChars 0 newline with inQuote | inName
      · exact absurd inQuote (by decide)
      · exact plain.oneLine (List.mem_of_mem_drop (List.dropLast_subset _ inName))
    · unfold replaceAll
      simp only [String.toList_ofList]
      rw [openTag_eq_nil_iff]
      obtain ⟨state, scanned⟩ := (openTag_eq_nil_iff _).mp innerTag
      exact ⟨state, (scanTag_halve .outside _).trans scanned⟩
  · exact sealed_quotePGIdent plain

theorem sealed_toString (value : Int) : Sealed (toString value) := by
  have plainChars : ∀ (chars : List Char) (state : TagScan), state = .outside →
      (∀ c ∈ chars, c ≠ '$') → scanTag state chars = some .outside := by
    intro chars
    induction chars with
    | nil =>
      intro state isOutside _
      rw [isOutside]
      rfl
    | cons c rest ih =>
      intro state isOutside noDollar
      have notDollar := noDollar c List.mem_cons_self
      have later := ih .outside rfl (List.forall_mem_cons.mp noDollar).2
      by_cases isWord : isTagChar c = true
      · simpa [scanTag, TagScan.next, isOutside, notDollar, isWord] using later
      · simpa [scanTag, TagScan.next, isOutside, notDollar, isWord] using later
  have digit : ∀ (n : Nat) c, c ∈ (toString n).toList → c.isDigit = true := by
    intro n c member
    have inDigits : c ∈ Nat.toDigits 10 n := by
      simpa [Nat.toString_eq_repr, Nat.repr] using member
    exact Nat.isDigit_of_mem_toDigits (by decide) (by decide) inDigits
  have chars : ∀ c ∈ (toString value).toList, c = '-' ∨ c.isDigit = true := by
    intro c member
    cases value with
    | ofNat n => exact .inr (digit n c member)
    | negSucc n =>
      have shape : toString (Int.negSucc n) = "-" ++ toString (n + 1) := rfl
      rw [shape, String.toList_append] at member
      rcases List.mem_append.mp member with sign | inDigits
      · exact .inl (List.mem_singleton.mp sign)
      · exact .inr (digit (n + 1) c inDigits)
  constructor
  · intro newline
    rcases chars '\n' newline with sign | isDigit
    · exact absurd sign (by decide)
    · exact absurd isDigit (by decide)
  · apply plainChars _ _ rfl
    intro c member isDollar
    subst isDollar
    rcases chars '$' member with sign | isDigit
    · exact absurd sign (by decide)
    · exact absurd isDigit (by decide)

/-! ### Statements of one line -/

/-- A keyword that begins neither a comment nor a COPY header. -/
structure StatementStart (keyword : String) : Prop where
  done : Sealed keyword
  long : 5 ≤ keyword.toList.length
  notComment : hasPrefix keyword "--" = false
  notCopy : hasPrefix keyword "COPY " = false
  begins : keyword.toList.head?.map isSpace = some false

instance : DecidablePred StatementStart := fun keyword =>
  decidable_of_iff (Sealed keyword ∧ 5 ≤ keyword.toList.length ∧
      hasPrefix keyword "--" = false ∧ hasPrefix keyword "COPY " = false ∧
      keyword.toList.head?.map isSpace = some false)
    ⟨fun ⟨done, long, notComment, notCopy, begins⟩ =>
        ⟨done, long, notComment, notCopy, begins⟩,
      fun start => ⟨start.done, start.long, start.notComment, start.notCopy, start.begins⟩⟩

theorem hasPrefix_append_of_le {start rest word : String}
    (fits : word.toList.length ≤ start.toList.length) :
    hasPrefix (start ++ rest) word = hasPrefix start word := by
  rw [Bool.eq_iff_iff]
  unfold hasPrefix
  rw [List.isPrefixOf_iff_prefix, List.isPrefixOf_iff_prefix, String.toList_append]
  exact ⟨fun begins => List.prefix_of_prefix_length_le begins (List.prefix_append _ _) fits,
    fun begins => begins.trans (List.prefix_append _ _)⟩

theorem whole_statement {keyword : String} {parts : List String} (start : StatementStart keyword)
    (done : ∀ part ∈ parts, Sealed part) : Whole (statement keyword parts) := by
  have sealedText : Sealed (statement keyword parts) :=
    (start.done.append (sealed_join done)).append (by decide)
  have shape : statement keyword parts = keyword ++ (String.join parts ++ ";") := by
    unfold statement
    rw [String.append_assoc]
  have long := start.long
  have firm : Firm (statement keyword parts) := by
    obtain ⟨c, begins, _⟩ := Option.map_eq_some_iff.mp start.begins
    constructor
    · have sameHead : (statement keyword parts).toList.head? = keyword.toList.head? := by
        rw [shape]
        simp [begins]
      rw [sameHead]
      exact start.begins
    · simp [statement, isSpace]
  have trimmed := trimSpace_of_firm firm
  have oneLine : splitNewlines (statement keyword parts) = [statement keyword parts] :=
    splitNewlines_of_oneLine sealedText.oneLine
  refine ⟨firm, ?_, ?_⟩
  · rw [oneLine]
    intro line member
    rw [List.mem_singleton.mp member]
    constructor
    · unfold isComment
      rw [trimmed, shape, hasPrefix_append_of_le (by simp; omega)]
      exact start.notComment
    · rw [statement, hasSuffix_append_eq _ _ _ (by decide)]
      decide
  · rw [oneLine]
    refine ⟨fun _ => ?_, ?_⟩
    · unfold isCopyHeader
      rw [shape, hasPrefix_append_of_le (by simpa using long), start.notCopy]
      rfl
    · rw [if_pos rfl]
      refine ⟨updateDollarTag_of_noTag sealedText.plain.noTag, ?_⟩
      unfold endsStatement
      rw [trimmed, statement]
      exact hasSuffix_append _ _

/-! ### COPY blocks -/

/-- What `escapePgCopy` makes of one character. -/
def copyEscape (c : Char) : List Char :=
  if c = '\\' then ['\\', '\\']
  else if c = '\t' then ['\\', 't']
  else if c = '\n' then ['\\', 'n']
  else if c = '\r' then ['\\', 'r']
  else [c]

theorem toList_escapePgCopy (value : String) :
    (escapePgCopy value).toList = value.toList.flatMap copyEscape := by
  unfold escapePgCopy
  rw [toList_replaceAll_char _ '\r' ['\\', 'r'], toList_replaceAll_char _ '\n' ['\\', 'n'],
    toList_replaceAll_char _ '\t' ['\\', 't'], toList_replaceAll_char _ '\\' ['\\', '\\'],
    List.flatMap_assoc, List.flatMap_assoc, List.flatMap_assoc]
  congr 1
  funext c
  unfold copyEscape
  by_cases backslash : c = '\\'
  · subst backslash
    decide
  · by_cases tab : c = '\t'
    · subst tab
      decide
    · by_cases newline : c = '\n'
      · subst newline
        decide
      · by_cases carriage : c = '\r'
        · subst carriage
          decide
        · simp [backslash, tab, newline, carriage]

theorem mem_copyEscape {c d : Char} (member : c ∈ copyEscape d) : c ≠ '\n' ∧ c ≠ '\r' := by
  unfold copyEscape at member
  split at member
  · rcases List.mem_pair.mp member with rfl | rfl <;> decide
  · split at member
    · rcases List.mem_pair.mp member with rfl | rfl <;> decide
    · split at member
      · rcases List.mem_pair.mp member with rfl | rfl <;> decide
      · split at member
        · rcases List.mem_pair.mp member with rfl | rfl <;> decide
        · rename_i notNewline notReturn
          rw [List.mem_singleton.mp member]
          exact ⟨notNewline, notReturn⟩

/-- No escaped value is the line that ends the data. -/
theorem escapePgCopy_ne_end (value : String) : escapePgCopy value ≠ "\\." := by
  intro isEnd
  have chars := congrArg String.toList isEnd
  rw [toList_escapePgCopy] at chars
  cases text : value.toList with
  | nil =>
    rw [text] at chars
    exact absurd chars (by decide)
  | cons c rest =>
    rw [text, List.flatMap_cons] at chars
    unfold copyEscape at chars
    split at chars
    · simp at chars
    · split at chars
      · simp at chars
      · split at chars
        · simp at chars
        · split at chars
          · simp at chars
          · rename_i notBackslash _ _ _
            have first : c = '\\' := by simpa using congrArg List.head? chars
            exact notBackslash first

theorem copyField_chars (field : Option String) :
    ∀ c ∈ (match field with
      | none => "\\N"
      | some value => escapePgCopy value).toList, c ≠ '\n' ∧ c ≠ '\r' := by
  intro c member
  cases field with
  | none =>
    have isMark : c ∈ ['\\', 'N'] := member
    rcases List.mem_pair.mp isMark with rfl | rfl <;> decide
  | some value =>
    have inValue : c ∈ value.toList.flatMap copyEscape := by
      rw [← toList_escapePgCopy]
      exact member
    obtain ⟨d, -, inEscape⟩ := List.mem_flatMap.mp inValue
    exact mem_copyEscape inEscape

theorem mem_intercalate {separator : String} {parts : List String} {c : Char}
    (member : c ∈ (separator.intercalate parts).toList) :
    c ∈ separator.toList ∨ ∃ part ∈ parts, c ∈ part.toList := by
  induction parts with
  | nil => simp at member
  | cons part rest ih =>
    cases rest with
    | nil => exact .inr ⟨part, List.mem_cons_self, by simpa using member⟩
    | cons next others =>
      rw [String.intercalate_cons_cons, String.toList_append, String.toList_append,
        List.mem_append, List.mem_append] at member
      rcases member with (inPart | inSeparator) | later
      · exact .inr ⟨part, List.mem_cons_self, inPart⟩
      · exact .inl inSeparator
      · rcases ih later with inSeparator | ⟨other, inRest, inOther⟩
        · exact .inl inSeparator
        · exact .inr ⟨other, List.mem_cons_of_mem _ inRest, inOther⟩

theorem copyLine_chars (row : List (Option String)) :
    ∀ c ∈ (copyLine row).toList, c ≠ '\n' ∧ c ≠ '\r' := by
  intro c member
  rcases mem_intercalate member with isTab | ⟨part, inRow, inPart⟩
  · rw [List.mem_singleton.mp (show c ∈ ['\t'] from isTab)]
    decide
  · obtain ⟨field, -, rfl⟩ := List.mem_map.mp inRow
    exact copyField_chars field c inPart

theorem trimSuffix_copyLine (row : List (Option String)) :
    trimSuffix (copyLine row) "\r" = copyLine row := by
  apply trimSuffix_of_not_hasSuffix
  by_contra ends
  rw [Bool.not_eq_false] at ends
  obtain ⟨start, shape⟩ := (hasSuffix_iff _ _).mp ends
  have isReturn : '\r' ∈ (copyLine row).toList := by
    rw [shape]
    simp
  exact (copyLine_chars row '\r' isReturn).2 rfl

theorem copyLine_ne_end (row : List (Option String)) : copyLine row ≠ "\\." := by
  unfold copyLine
  match row with
  | [] => decide
  | [none] => decide
  | [some value] => simpa using escapePgCopy_ne_end value
  | first :: second :: rest =>
    intro isEnd
    rw [List.map_cons, List.map_cons, String.intercalate_cons_cons] at isEnd
    have tab : '\t' ∈ "\\.".toList := by
      rw [← isEnd]
      simp
    exact absurd tab (by decide)

theorem oneLine_quotePGIdent {name : String} (oneLine : OneLine name) :
    OneLine (quotePGIdent name) := by
  intro member
  rcases mem_quotePGIdent.mp member with isQuote | inName
  · exact absurd isQuote (by decide)
  · exact oneLine inName

theorem isCopyBlock_copyData {schema table : String} {columns : List String}
    (schemaLine : OneLine schema) (tableLine : OneLine table)
    (columnLines : ∀ column ∈ columns, OneLine column) (rows : List (List (Option String))) :
    IsCopyBlock (copyHeader schema table columns) (rows.map copyLine) where
  oneLine := by
    have quoted : OneLine (", ".intercalate (columns.map quotePGIdent)) := by
      intro member
      rcases mem_intercalate member with inSeparator | ⟨part, inColumns, inPart⟩
      · exact absurd inSeparator (by decide)
      · obtain ⟨column, isColumn, rfl⟩ := List.mem_map.mp inColumns
        exact oneLine_quotePGIdent (columnLines column isColumn) inPart
    exact (((OneLine.append (by decide) (((oneLine_quotePGIdent schemaLine).append
      (by decide)).append (oneLine_quotePGIdent tableLine))).append (by decide)).append
        quoted).append (by decide)
  begins := by
    unfold copyHeader
    simp only [String.append_assoc]
    exact hasPrefix_append _ _
  ends := by
    unfold copyHeader
    rw [hasSuffix_append_eq _ _ _ (by decide)]
    decide
  rowLine := by
    intro line member
    obtain ⟨row, -, rfl⟩ := List.mem_map.mp member
    exact fun newline => (copyLine_chars row '\n' newline).1 rfl
  rowData := by
    intro line member
    obtain ⟨row, -, rfl⟩ := List.mem_map.mp member
    rw [trimSuffix_copyLine]
    exact copyLine_ne_end row

/-! ### Plain catalogues -/

def AllClean (pieces : List Piece) : Prop := ∀ piece ∈ pieces, piece.Clean

theorem allClean_append {first second : List Piece} (firstClean : AllClean first)
    (secondClean : AllClean second) : AllClean (first ++ second) := by
  intro piece member
  rcases List.mem_append.mp member with early | late
  · exact firstClean piece early
  · exact secondClean piece late

theorem allClean_cons {piece : Piece} {rest : List Piece} (clean : piece.Clean)
    (restClean : AllClean rest) : AllClean (piece :: rest) := by
  intro other member
  rcases List.mem_cons.mp member with rfl | later
  · exact clean
  · exact restClean other later

theorem allClean_nil : AllClean [] := by
  intro piece member
  cases member

theorem allClean_flatMap {α : Type} {items : List α} {write : α → List Piece}
    (clean : ∀ item ∈ items, AllClean (write item)) : AllClean (items.flatMap write) := by
  intro piece member
  obtain ⟨item, inItems, written⟩ := List.mem_flatMap.mp member
  exact clean item inItems piece written

theorem allClean_map {α : Type} {items : List α} {write : α → Piece}
    (clean : ∀ item ∈ items, (write item).Clean) : AllClean (items.map write) := by
  intro piece member
  obtain ⟨item, inItems, rfl⟩ := List.mem_map.mp member
  exact clean item inItems

theorem allClean_headed {heading : String} {pieces : List Piece} (plain : Plain heading)
    (clean : AllClean pieces) : AllClean (headed heading pieces) := by
  unfold headed
  split
  · exact allClean_nil
  · exact allClean_cons plain clean

structure PlainGrants (grants : List Grant) : Prop where
  grantee : ∀ g ∈ grants, Plain g.grantee
  priv : ∀ g ∈ grants, Sealed g.priv

/-- A relation whose names are plain and whose statements are whole. -/
structure PlainRelation (cat : Catalogue) (schema table : String) : Prop where
  schemaName : Plain schema
  tableName : Plain table
  owner : Plain (cat.relation schema table).owner
  columns : ∀ column ∈ (cat.relation schema table).copyColumns, Plain column
  create : Whole (createTable schema table (cat.relation schema table))
  indexes : ∀ definition ∈ (cat.relation schema table).indexes, Whole (definition ++ ";")
  keys : ∀ c ∈ (cat.relation schema table).primaryKey.toList ++
      (cat.relation schema table).uniqueConstraints ++
      (cat.relation schema table).checkConstraints ++
      (cat.relation schema table).exclusionConstraints,
    c.definition ≠ "" → Whole (addConstraint "ONLY " schema table c)
  foreignKeys : ∀ c ∈ (cat.relation schema table).foreignKeys, c.definition ≠ "" →
    Whole (addConstraint (if (cat.relation schema table).isPartitioned then "" else "ONLY ")
      schema table c)
  partitions : ∀ p ∈ cat.partitions schema table,
    Whole (createPartition schema table p) ∧ Whole (attachPartition schema table p)

structure PlainType (t : UserType) : Prop where
  schemaName : Plain t.schema
  typeName : Plain t.name
  owner : Plain t.owner
  grants : PlainGrants t.grants
  definition : ∀ text ∈ typeDef (qualified t.schema t.name) t.body, Whole text
  checks : AllClean (getDomainChecks t)

structure PlainSequence (s : Sequence) : Prop where
  schemaName : Plain s.schema
  sequenceName : Plain s.name
  owner : Plain s.owner
  create : Whole (createSequence s)
  ownedBy : ∀ table column, s.ownedBy = some (table, column) →
    Plain (splitTable table).1 ∧ Plain ((splitTable table).2.getD "") ∧ Plain column

structure PlainView (v : View) : Prop where
  schemaName : Plain v.schema
  viewName : Plain v.name
  owner : Plain v.owner
  grants : PlainGrants v.grants
  create : v.definition ≠ "" → Whole (createView v)

structure PlainMatview (m : Matview) : Prop where
  schemaName : Plain m.schema
  viewName : Plain m.name
  owner : Plain m.owner
  create : m.definition ≠ "" → Whole (createMatview m)
  indexes : ∀ definition ∈ m.indexes, Whole (definition ++ ";")

structure PlainComment (c : Comment) : Prop where
  schemaName : Plain c.schema
  relationName : Plain c.rel
  columnName : ∀ column, c.column = some column → Plain column
  comment : Whole (commentOn c)

structure PlainRoutine (f : Routine) : Prop where
  schemaName : Plain f.schema
  routineName : Plain f.name
  args : Plain f.args
  owner : Plain f.owner
  grants : PlainGrants f.grants

structure PlainOther (other : OtherPieces) : Prop where
  extensionsAndCollations : AllClean other.extensionsAndCollations
  routines : AllClean other.routines
  foreignObjects : AllClean other.foreignObjects
  tableRoutines : AllClean other.tableRoutines
  tableObjects : AllClean other.tableObjects
  blobs : AllClean other.blobs
  privileges : AllClean other.privileges

structure PlainCatalogue (cat : Catalogue) : Prop where
  database : Plain cat.dbName
  tables : ∀ table ∈ cat.tables,
    PlainRelation cat (splitTable table).1 ((splitTable table).2.getD "")
  partitions : ∀ schema table, ∀ p ∈ cat.partitions schema table, PlainRelation cat p.schema p.name
  grants : ∀ schema table, PlainGrants (cat.relation schema table).grants
  schemas : ∀ s ∈ cat.schemas, Plain s.name ∧ Plain s.owner ∧ PlainGrants s.grants
  types : ∀ t ∈ cat.types, PlainType t
  sequences : ∀ s ∈ cat.sequences, PlainSequence s
  views : ∀ v ∈ cat.views, PlainView v
  matviews : ∀ m ∈ cat.matviews, PlainMatview m
  comments : ∀ c ∈ cat.comments, PlainComment c
  routines : ∀ f ∈ cat.routines, PlainRoutine f
  publications : ∀ p ∈ cat.publications, Plain p
  other : PlainOther cat.other

/-! ### Clean pieces -/

theorem clean_statement {keyword : String} {parts : List String} (start : StatementStart keyword)
    (done : ∀ part ∈ parts, Sealed part) : (Piece.sql (statement keyword parts)).Clean :=
  whole_statement start done

theorem clean_formatGrants {target : String} {grants : List Grant} (done : Sealed target)
    (plain : PlainGrants grants) : AllClean (formatGrants target grants) := by
  unfold formatGrants
  simp only
  split
  · exact allClean_nil
  · apply allClean_cons
    · apply clean_statement (by decide)
      simp only [List.mem_cons, List.not_mem_nil, or_false]
      rintro part (rfl | rfl)
      · exact done
      · decide
    · apply allClean_map
      intro key member
      have isKey : key ∈ grants.map fun g => (g.grantee, g.grantable) := List.mem_eraseDups.mp member
      obtain ⟨g, inGrants, rfl⟩ := List.mem_map.mp isKey
      apply clean_statement (by decide)
      simp only [List.mem_cons, List.not_mem_nil, or_false]
      rintro part (rfl | rfl | rfl | rfl | rfl | rfl)
      · apply sealed_intercalate (by decide)
        intro priv inPrivs
        obtain ⟨other, inFilter, rfl⟩ := List.mem_map.mp inPrivs
        exact plain.priv other (List.mem_of_mem_filter inFilter)
      · decide
      · exact done
      · decide
      · split
        · rename_i isPublic
          rw [isPublic]
          decide
        · exact sealed_quotePGRole (plain.grantee g inGrants)
      · split <;> decide

theorem clean_ownerPieces {kind target owner : String}
    (start : StatementStart ("ALTER " ++ kind ++ " ")) (done : Sealed target)
    (plain : Plain owner) : AllClean (ownerPieces kind target owner) := by
  unfold ownerPieces
  split
  · exact allClean_nil
  · apply allClean_cons _ allClean_nil
    apply clean_statement start
    simp only [List.mem_cons, List.not_mem_nil, or_false]
    rintro part (rfl | rfl | rfl)
    · exact done
    · decide
    · exact sealed_quotePGRole plain

theorem clean_constraints {only schema table : String} {cs : List Constraint}
    (whole : ∀ c ∈ cs, c.definition ≠ "" → Whole (addConstraint only schema table c)) :
    AllClean (constraints only schema table cs) := by
  apply allClean_map
  intro c member
  obtain ⟨inList, defined⟩ := List.mem_filter.mp member
  exact whole c inList (by simpa using defined)

theorem clean_getIndexes {indexes : List String}
    (whole : ∀ definition ∈ indexes, Whole (definition ++ ";")) : AllClean (getIndexes indexes) :=
  allClean_map whole

theorem allClean_gap : AllClean [Piece.gap] := allClean_cons trivial allClean_nil

section Tables

variable {cat : Catalogue} {schema table : String}

theorem clean_getCreateTable (plain : PlainRelation cat schema table) :
    AllClean (getCreateTable cat schema table) := by
  have named := sealed_qualified plain.schemaName plain.tableName
  have parts : AllClean (getPartitions cat schema table) :=
    allClean_map fun p member => (plain.partitions p member).1
  unfold getCreateTable
  simp only
  refine allClean_append (allClean_append (allClean_append (allClean_append (allClean_append
    (allClean_append (allClean_append ?_ ?_) ?_) ?_) ?_) allClean_gap) ?_) ?_
  · apply allClean_cons
    · apply clean_statement (by decide)
      simp only [List.mem_cons, List.not_mem_nil, or_false]
      rintro part rfl
      exact named
    · exact allClean_cons plain.create allClean_nil
  · exact clean_constraints fun c member => plain.keys c (by simp [member])
  · exact clean_constraints fun c member => plain.keys c (by simp [member])
  · split
    · exact allClean_nil
    · exact allClean_gap
  · exact clean_getIndexes plain.indexes
  · exact clean_constraints fun c member => plain.keys c (by simp [member])
  · split
    · exact allClean_cons trivial allClean_gap
    · exact allClean_cons trivial (allClean_append parts allClean_gap)

theorem clean_copyData (plain : PlainRelation cat schema table) :
    AllClean (copyData cat schema table) := by
  apply allClean_cons _ allClean_gap
  exact isCopyBlock_copyData plain.schemaName.oneLine plain.tableName.oneLine
    (fun column member => (plain.columns column member).oneLine) _

theorem clean_lateConstraints (plain : PlainRelation cat schema table) :
    AllClean (lateConstraints cat schema table) := by
  apply allClean_append
  · exact clean_constraints plain.foreignKeys
  · exact clean_constraints fun c member => plain.keys c (by simp [member])

theorem clean_tableOwner (plain : PlainRelation cat schema table) :
    AllClean (tableOwner cat schema table) := by
  unfold tableOwner
  simp only
  split
  · exact allClean_nil
  · rename_i hasOwner
    have owned := @clean_ownerPieces "TABLE" (qualified schema table)
      (cat.relation schema table).owner (by decide)
      (sealed_qualified plain.schemaName plain.tableName) plain.owner
    unfold ownerPieces at owned
    rw [if_neg hasOwner] at owned
    exact allClean_cons (owned _ (List.mem_singleton_self _)) allClean_gap

/-- What the dump of a table writes now and later is clean, and the partitions
it names are. -/
structure CleanDump (dump : TableDump) : Prop where
  pieces : AllClean dump.pieces
  partitionNames : ∀ name ∈ dump.partitionNames, Plain name
  attach : AllClean dump.attach
  constraints : AllClean dump.constraints

theorem cleanDump_empty : CleanDump {} where
  pieces := allClean_nil
  partitionNames := by simp
  attach := allClean_nil
  constraints := allClean_nil

theorem CleanDump.append {first second : TableDump} (firstClean : CleanDump first)
    (secondClean : CleanDump second) : CleanDump (first.append second) where
  pieces := allClean_append firstClean.pieces secondClean.pieces
  partitionNames := by
    intro name member
    rcases List.mem_append.mp member with early | late
    · exact firstClean.partitionNames name early
    · exact secondClean.partitionNames name late
  attach := allClean_append firstClean.attach secondClean.attach
  constraints := allClean_append firstClean.constraints secondClean.constraints

theorem cleanDump_concat {dumps : List TableDump} (clean : ∀ dump ∈ dumps, CleanDump dump) :
    CleanDump (TableDump.concat dumps) := by
  induction dumps with
  | nil => exact cleanDump_empty
  | cons dump rest ih =>
    exact (clean dump List.mem_cons_self).append
      (ih (List.forall_mem_cons.mp clean).2)

theorem cleanDump_partition {p : PartRef} (schemaOnly : Bool) (parent : Plain schema)
    (parentTable : Plain table) (plain : PlainRelation cat p.schema p.name)
    (attach : Whole (attachPartition schema table p)) {nested : TableDump}
    (nestedClean : CleanDump nested) :
    CleanDump (partitionDump cat schemaOnly schema table p nested) where
  pieces := by
    have partition : Plain ("Partition: " ++ p.schema ++ "." ++ p.name) :=
      plain_join ((by decide : Sealed "Partition: ").plain_append plain.schemaName) (by decide)
        plain.tableName
    have label : Plain ("Partition: " ++ p.schema ++ "." ++ p.name ++ " (of " ++ schema ++ "." ++
        table ++ ")") :=
      (sealed_append_separator (plain_join (plain_join partition (by decide) parent) (by decide)
        parentTable) (by decide)).plain
    refine allClean_cons label (allClean_append (allClean_append (allClean_append
      (clean_getCreateTable plain) (clean_tableOwner plain)) ?_) nestedClean.pieces)
    split
    · exact allClean_nil
    · exact clean_copyData plain
  partitionNames := by
    intro name member
    rcases List.mem_cons.mp member with rfl | later
    · exact plain_join plain.schemaName (by decide) plain.tableName
    · exact nestedClean.partitionNames name later
  attach := allClean_append nestedClean.attach (allClean_cons attach allClean_nil)
  constraints := allClean_append nestedClean.constraints (clean_lateConstraints plain)

end Tables

theorem cleanDump_dumpPartitions {cat : Catalogue} (plain : PlainCatalogue cat) (schemaOnly : Bool)
    (fuel : Nat) {schema table : String} (parent : PlainRelation cat schema table)
    {dump : TableDump} (dumped : dumpPartitions cat schemaOnly fuel schema table = some dump) :
    CleanDump dump := by
  induction fuel generalizing schema table dump with
  | zero => cases dumped
  | succ fuel ih =>
    rw [dumpPartitions] at dumped
    obtain ⟨dumps, each, rfl⟩ := Option.map_eq_some_iff.mp dumped
    apply cleanDump_concat
    refine mapM_some_forall each ?_
    intro p member result isResult
    have own := plain.partitions schema table p member
    have attach := (parent.partitions p member).2
    split at isResult
    · obtain ⟨nested, isNested, rfl⟩ := Option.map_eq_some_iff.mp isResult
      exact cleanDump_partition schemaOnly parent.schemaName parent.tableName own attach
        (ih own isNested)
    · rw [← Option.some.inj isResult]
      exact cleanDump_partition schemaOnly parent.schemaName parent.tableName own attach
        cleanDump_empty

theorem cleanDump_dumpTable {cat : Catalogue} (plain : PlainCatalogue cat) (options : DumpOptions)
    {table : String} (listed : table ∈ cat.tables) {dump : TableDump}
    (dumped : dumpTable cat options table = some dump) : CleanDump dump := by
  have relation := plain.tables table listed
  have label : Plain ("Table: " ++ (splitTable table).1 ++ "." ++ (splitTable table).2.getD "") :=
    plain_join ((by decide : Sealed "Table: ").plain_append relation.schemaName) (by decide)
      relation.tableName
  have ownPieces : AllClean (.comment ("Table: " ++ (splitTable table).1 ++ "." ++
      (splitTable table).2.getD "") ::
        getCreateTable cat (splitTable table).1 ((splitTable table).2.getD "") ++
        tableOwner cat (splitTable table).1 ((splitTable table).2.getD "")) :=
    allClean_cons label (allClean_append (clean_getCreateTable relation) (clean_tableOwner relation))
  unfold dumpTable at dumped
  simp only at dumped
  split at dumped
  · obtain ⟨nested, isNested, rfl⟩ := Option.map_eq_some_iff.mp dumped
    exact CleanDump.append ⟨ownPieces, by simp, allClean_nil, clean_lateConstraints relation⟩
      (cleanDump_dumpPartitions plain _ 9 relation isNested)
  · split at dumped
    · rw [← Option.some.inj dumped]
      exact ⟨ownPieces, by simp, allClean_nil, clean_lateConstraints relation⟩
    · rw [← Option.some.inj dumped]
      exact ⟨allClean_append ownPieces (clean_copyData relation), by simp, allClean_nil,
        clean_lateConstraints relation⟩

/-! ### The other objects -/

/-- Both halves of a plain name are plain. -/
theorem plain_splitTable {table schema name : String} (plain : Plain table)
    (halves : splitTable table = (schema, some name)) : Plain schema ∧ Plain name := by
  have parts : table.toList = table.toList.takeWhile (· ≠ '.') ++
      table.toList.drop (table.toList.takeWhile (· ≠ '.')).length :=
    List.prefix_append_drop (List.takeWhile_prefix _)
  unfold splitTable at halves
  simp only at halves
  split at halves
  · cases halves
  · rename_i dot rest tail
    rw [tail] at parts
    obtain ⟨isSchema, isName⟩ := Prod.mk.inj halves
    rw [← isSchema, ← Option.some.inj isName]
    have noTag := plain.noTag
    have newline := plain.oneLine
    unfold OneLine at newline
    rw [parts] at noTag newline
    have dropped : ∀ first second : List Char, openTag (first ++ second) = [] →
        openTag second = [] := by
      intro first second
      induction first with
      | nil => exact id
      | cons c others ih =>
        exact fun opened => ih (openTag_tail opened)
    refine ⟨⟨?_, ?_⟩, ⟨?_, ?_⟩⟩
    · unfold OneLine
      rw [String.toList_ofList]
      exact fun member => newline (List.mem_append_left _ member)
    · rw [String.toList_ofList]
      exact openTag_of_append noTag
    · unfold OneLine
      rw [String.toList_ofList]
      exact fun member => newline (List.mem_append_right _ (List.mem_cons_of_mem _ member))
    · rw [String.toList_ofList]
      exact openTag_tail (dropped _ _ noTag)

section Objects

variable {cat : Catalogue}

theorem mem_tables_of_included {options : DumpOptions} {table : String}
    (included : table ∈ includedTables cat options) : table ∈ cat.tables :=
  List.mem_of_mem_filter (List.mem_mergeSort.mp included)

theorem clean_drop {keyword target ending : String} (start : StatementStart keyword)
    (named : Sealed target) (closing : Sealed ending) :
    (Piece.sql (statement keyword [target, ending])).Clean := by
  apply clean_statement start
  simp only [List.mem_cons, List.not_mem_nil, or_false]
  rintro part (rfl | rfl)
  · exact named
  · exact closing

theorem keyword_cases (body : TypeBody) : body.keyword = "TYPE" ∨ body.keyword = "DOMAIN" := by
  cases body with
  | enum labels => exact .inl rfl
  | composite attributes => exact .inl rfl
  | domain base default notNull checks => exact .inr rfl
  | range options => exact .inl rfl

theorem clean_dumpDrops (plain : PlainCatalogue cat) (options : DumpOptions) :
    AllClean (dumpDrops cat (includedTables cat options)) := by
  refine allClean_cons ⟨by decide, by decide⟩ (allClean_append (allClean_append (allClean_append
    ?_ (allClean_map ?_)) (allClean_map ?_)) (allClean_map ?_))
  · intro piece member
    obtain ⟨table, included, isDrop⟩ := List.mem_filterMap.mp member
    obtain ⟨name, hasName, rfl⟩ := Option.map_eq_some_iff.mp isDrop
    have relation := plain.tables table (mem_tables_of_included included)
    have tableName := relation.tableName
    rw [hasName] at tableName
    exact clean_drop (by decide) (sealed_qualified relation.schemaName tableName) (by decide)
  · intro s member
    have sequence := plain.sequences s member
    exact clean_drop (by decide) (sealed_qualified sequence.schemaName sequence.sequenceName)
      (by decide)
  · intro t member
    have type := plain.types t member
    refine clean_drop ?_ (sealed_qualified type.schemaName type.typeName) (by decide)
    rcases keyword_cases t.body with isType | isDomain
    · rw [isType]
      decide
    · rw [isDomain]
      decide
  · intro p member
    apply clean_statement (by decide)
    simp only [List.mem_cons, List.not_mem_nil, or_false]
    rintro part rfl
    exact sealed_quotePGIdent (plain.publications p member)

theorem clean_dumpSchemas (plain : PlainCatalogue cat) (options : DumpOptions)
    (included : List String) : AllClean (dumpSchemas cat options included) := by
  apply allClean_flatMap
  intro s member
  obtain ⟨name, owner, grants⟩ := plain.schemas s (List.mem_of_mem_filter member)
  have quoted := sealed_quotePGIdent name
  refine allClean_append (allClean_append (allClean_cons ?_ (allClean_cons ?_ allClean_nil)) ?_) ?_
  · exact (by decide : Sealed "Schema: ").plain_append name
  · apply clean_statement (by decide)
    simp only [List.mem_cons, List.not_mem_nil, or_false]
    rintro part rfl
    exact quoted
  · exact clean_ownerPieces (by decide) quoted owner
  · exact clean_formatGrants ((by decide : Sealed "SCHEMA ").append quoted) grants

/-- The comment line over an object of the given kind. -/
theorem plain_label {kind schema name : String} (done : Sealed kind) (schemaName : Plain schema)
    (objectName : Plain name) : Plain (kind ++ schema ++ "." ++ name) :=
  plain_join (done.plain_append schemaName) (by decide) objectName

theorem clean_dumpType {t : UserType} (plain : PlainType t) : AllClean (dumpType t) := by
  have named := sealed_qualified plain.schemaName plain.typeName
  refine allClean_cons ?_ (allClean_append (allClean_append (allClean_map ?_) ?_) ?_)
  · exact plain_label (by decide) plain.schemaName plain.typeName
  · exact plain.definition
  · refine clean_ownerPieces ?_ named plain.owner
    rcases keyword_cases t.body with isType | isDomain
    · rw [isType]
      decide
    · rw [isDomain]
      decide
  · exact clean_formatGrants ((by decide : Sealed "TYPE ").append named) plain.grants

theorem clean_dumpSequence {s : Sequence} (plain : PlainSequence s) :
    AllClean (dumpSequence s) := by
  refine allClean_cons ?_ (allClean_cons plain.create ?_)
  · exact plain_label (by decide) plain.schemaName plain.sequenceName
  · exact clean_ownerPieces (by decide) (sealed_qualified plain.schemaName plain.sequenceName)
      plain.owner

theorem clean_sequenceOwner {s : Sequence} (plain : PlainSequence s) :
    AllClean (sequenceOwner s) := by
  unfold sequenceOwner
  split
  · exact allClean_nil
  · rename_i table column owned
    obtain ⟨tableSchema, tableName, columnName⟩ := plain.ownedBy table column owned
    split
    · exact allClean_nil
    · apply allClean_cons _ allClean_nil
      apply clean_statement (by decide)
      simp only [List.mem_cons, List.not_mem_nil, or_false]
      rintro part (rfl | rfl | rfl | rfl | rfl)
      · exact sealed_qualified plain.schemaName plain.sequenceName
      · decide
      · exact sealed_qualified tableSchema tableName
      · decide
      · exact sealed_quotePGIdent columnName

theorem clean_sequenceValue {s : Sequence} (plain : PlainSequence s) :
    AllClean (sequenceValue s) := by
  unfold sequenceValue
  split
  · exact allClean_nil
  · rename_i value called _
    have target : Plain (escapePGLiteral (s.schema ++ "." ++ quotePGIdent s.name)) :=
      plain_escapePGLiteral (plain_join plain.schemaName (by decide)
        (sealed_quotePGIdent plain.sequenceName).plain)
    have shape : statement "SELECT pg_catalog.setval('"
        [escapePGLiteral (s.schema ++ "." ++ quotePGIdent s.name), "', ", toString value, ", ",
          if called then "true" else "false", ")"] =
      statement "SELECT pg_catalog.setval('"
        [escapePGLiteral (s.schema ++ "." ++ quotePGIdent s.name) ++ "', ", toString value, ", ",
          if called then "true" else "false", ")"] := by
      simp [statement, String.join]
    rw [shape]
    apply allClean_cons _ allClean_nil
    apply clean_statement (by decide)
    simp only [List.mem_cons, List.not_mem_nil, or_false]
    rintro part (rfl | rfl | rfl | rfl | rfl)
    · exact sealed_append_separator target (by decide)
    · exact sealed_toString value
    · decide
    · split <;> decide
    · decide

theorem clean_dumpSequenceValues (plain : PlainCatalogue cat) (options : DumpOptions) :
    AllClean (dumpSequenceValues cat options) := by
  unfold dumpSequenceValues
  split
  · exact allClean_nil
  · apply allClean_headed ⟨by decide, by decide⟩
    apply allClean_flatMap
    intro s member
    have sequence := plain.sequences s member
    exact allClean_append (clean_sequenceOwner sequence) (clean_sequenceValue sequence)

theorem clean_dumpViews (plain : PlainCatalogue cat) : AllClean (dumpViews cat) := by
  apply allClean_flatMap
  intro v member
  obtain ⟨listed, defined⟩ := List.mem_filter.mp member
  have view := plain.views v listed
  refine allClean_append (allClean_append (allClean_cons ?_ (allClean_cons ?_ allClean_nil)) ?_)
    allClean_gap
  · exact plain_label (by decide) view.schemaName view.viewName
  · exact view.create (by simpa using defined)
  · exact clean_ownerPieces (by decide) (sealed_qualified view.schemaName view.viewName) view.owner

theorem clean_dumpMatviews (plain : PlainCatalogue cat) : AllClean (dumpMatviews cat) := by
  apply allClean_flatMap
  intro m member
  obtain ⟨listed, defined⟩ := List.mem_filter.mp member
  have view := plain.matviews m listed
  have named := sealed_qualified view.schemaName view.viewName
  refine allClean_append (allClean_append (allClean_cons ?_ (allClean_cons ?_ (allClean_cons ?_
    allClean_nil))) ?_) ?_
  · exact plain_label (by decide) view.schemaName view.viewName
  · exact clean_drop (by decide) named (by decide)
  · exact view.create (by simpa using defined)
  · exact clean_ownerPieces (by decide) named view.owner
  · exact clean_getIndexes view.indexes

theorem clean_matviewRefreshes (plain : PlainCatalogue cat) : AllClean (matviewRefreshes cat) := by
  apply allClean_map
  intro m member
  have view := plain.matviews m (List.mem_of_mem_filter member)
  apply clean_statement (by decide)
  simp only [List.mem_cons, List.not_mem_nil, or_false]
  rintro part rfl
  exact sealed_qualified view.schemaName view.viewName

theorem plain_commentLabel {c : Comment} (plain : PlainComment c) : Plain (commentLabel c) := by
  unfold commentLabel
  split
  · have kind : Sealed ("Comment: " ++ c.kind.keyword ++ " ") := by
      cases c.kind <;> decide
    exact plain_label kind plain.schemaName plain.relationName
  · rename_i column hasColumn
    exact plain_join (plain_label (by decide) plain.schemaName plain.relationName) (by decide)
      (plain.columnName column hasColumn)

theorem clean_dumpComments (plain : PlainCatalogue cat) : AllClean (dumpComments cat) := by
  apply allClean_flatMap
  intro c member
  have comment := plain.comments c member
  exact allClean_cons (plain_commentLabel comment) (allClean_cons comment.comment allClean_nil)

theorem clean_grantRelation {kind schema name : String} {grants : List Grant}
    (done : Sealed ("ACL: " ++ kind ++ " ")) (schemaName : Plain schema) (relationName : Plain name)
    (plain : PlainGrants grants) : AllClean (grantRelation kind schema name grants) := by
  unfold grantRelation
  split
  · exact allClean_nil
  · refine allClean_cons ?_ (clean_formatGrants ?_ plain)
    · exact plain_label done schemaName relationName
    · exact (by decide : Sealed "TABLE ").append (sealed_qualified schemaName relationName)

theorem clean_routineACL {f : Routine} (plain : PlainRoutine f) : AllClean (routineACL f) := by
  have named : Sealed (qualified f.schema f.name ++ "(" ++ f.args ++ ")") :=
    sealed_append_separator
      (((sealed_qualified plain.schemaName plain.routineName).append (by decide)).plain_append
        plain.args) (by decide)
  unfold routineACL
  simp only
  apply allClean_headed
  · apply Sealed.plain
    refine sealed_append_separator (plain_join (plain_label ?_ plain.schemaName plain.routineName)
      (by decide) plain.args) (by decide)
    split <;> decide
  · apply allClean_append
    · refine clean_ownerPieces ?_ named plain.owner
      split <;> decide
    · refine clean_formatGrants (Sealed.append ?_ named) plain.grants
      split <;> decide

theorem clean_dumpACLs (plain : PlainCatalogue cat) {tables : List String}
    (names : ∀ table ∈ tables, ∀ schema name, splitTable table = (schema, some name) →
      Plain schema ∧ Plain name) : AllClean (dumpACLs cat tables) := by
  apply allClean_headed ⟨by decide, by decide⟩
  refine allClean_append (allClean_append (allClean_flatMap ?_) (allClean_flatMap ?_))
    (allClean_flatMap ?_)
  · intro table member
    split
    · rename_i schema name halves
      obtain ⟨schemaName, tableName⟩ := names table member schema name halves
      exact clean_grantRelation (by decide) schemaName tableName (plain.grants schema name)
    · exact allClean_nil
  · intro v member
    have view := plain.views v member
    exact clean_grantRelation (by decide) view.schemaName view.viewName view.grants
  · intro f member
    exact clean_routineACL (plain.routines f member)

/-! ### The database -/

theorem clean_dumpDatabase (plain : PlainCatalogue cat) {options : DumpOptions}
    {pieces : List Piece} (dumped : dumpDatabase cat options = some pieces) : AllClean pieces := by
  obtain ⟨tables, concatenated, rfl⟩ := Option.map_eq_some_iff.mp dumped
  obtain ⟨dumps, each, rfl⟩ := Option.map_eq_some_iff.mp concatenated
  have clean : CleanDump (TableDump.concat dumps) := by
    apply cleanDump_concat
    refine mapM_some_forall each ?_
    intro table included dump isDump
    exact cleanDump_dumpTable plain options (mem_tables_of_included included) isDump
  have names : ∀ table ∈ includedTables cat options ++ (TableDump.concat dumps).partitionNames,
      ∀ schema name, splitTable table = (schema, some name) → Plain schema ∧ Plain name := by
    intro table member schema name halves
    rcases List.mem_append.mp member with included | isPartition
    · have relation := plain.tables table (mem_tables_of_included included)
      have schemaName := relation.schemaName
      have tableName := relation.tableName
      rw [halves] at schemaName tableName
      exact ⟨schemaName, tableName⟩
    · exact plain_splitTable (clean.partitionNames table isPartition) halves
  have database : Plain ("Database: " ++ cat.dbName) :=
    (by decide : Sealed "Database: ").plain_append plain.database
  have other := plain.other
  refine allClean_append (allClean_append (allClean_append (allClean_append (allClean_append
    (allClean_append (allClean_append (allClean_append (allClean_append (allClean_append
    (allClean_append (allClean_append (allClean_append (allClean_append (allClean_append
    (allClean_append (allClean_append (allClean_append (allClean_append (allClean_append
    (allClean_append (allClean_cons database allClean_nil) (clean_dumpDrops plain options))
      (clean_dumpSchemas plain options _)) other.extensionsAndCollations) ?_) other.routines) ?_)
      other.foreignObjects) ?_) clean.pieces) ?_) ?_) (clean_dumpViews plain))
      (clean_dumpMatviews plain)) other.tableRoutines) other.tableObjects)
      (clean_dumpComments plain)) other.blobs) (clean_dumpSequenceValues plain options))
      (clean_dumpACLs plain names)) other.privileges) ?_
  · exact allClean_flatMap fun t member => clean_dumpType (plain.types t member)
  · exact allClean_headed ⟨by decide, by decide⟩
      (allClean_flatMap fun t member => (plain.types t member).checks)
  · exact allClean_flatMap fun s member =>
      clean_dumpSequence (plain.sequences s (List.mem_of_mem_filter member))
  · exact allClean_headed ⟨by decide, by decide⟩ clean.attach
  · exact allClean_headed ⟨by decide, by decide⟩ clean.constraints
  · exact allClean_headed ⟨by decide, by decide⟩ (clean_matviewRefreshes plain)

end Objects

/-! ### What a restore executes -/

/-- A restore of the dump executes statements the dumper emitted, in their
order, and nothing else. -/
def OnlyEmitted (accepts : List Sent → Bool) (pieces : List Piece) : Prop :=
  (pgRestoreStream accepts (render pieces)).map Sent.statement <+: pieces.flatMap Piece.emitted

/-- One table in `public`, with a column and a row. -/
def oneTableCatalogue (table : String) : Catalogue where
  dbName := "shop"
  tables := ["public." ++ table]
  relation := fun _ _ => {
    columns := [{ name := "id", typ := "integer", notNull := true }]
    owner := "app"
    copyColumns := ["id"]
    rows := [[some "1"]] }

theorem plain_oneTable : PlainCatalogue (oneTableCatalogue "notes") := by
  have relation : PlainRelation (oneTableCatalogue "notes") "public" "notes" := {
    schemaName := by decide +kernel
    tableName := by decide +kernel
    owner := by decide +kernel
    columns := by
      intro column member
      rw [List.mem_singleton.mp member]
      decide +kernel
    create := by decide +kernel
    indexes := by simp [oneTableCatalogue]
    keys := by simp [oneTableCatalogue]
    foreignKeys := by simp [oneTableCatalogue]
    partitions := by simp [oneTableCatalogue] }
  refine ⟨by decide +kernel, ?_, by simp [oneTableCatalogue], ?_, by simp [oneTableCatalogue],
    by simp [oneTableCatalogue], by simp [oneTableCatalogue], by simp [oneTableCatalogue],
    by simp [oneTableCatalogue], by simp [oneTableCatalogue], by simp [oneTableCatalogue],
    by simp [oneTableCatalogue], ?_⟩
  · intro table member
    rw [List.mem_singleton.mp member]
    exact relation
  · intro schema table
    exact ⟨by simp [oneTableCatalogue], by simp [oneTableCatalogue]⟩
  · exact ⟨allClean_nil, allClean_nil, allClean_nil, allClean_nil, allClean_nil, allClean_nil,
      allClean_nil⟩

/-- The pieces the restorer sees in the dump of a table named
`notes\nDROP TABLE payments;`: the comment over the table ends at the break. -/
def brokenNamePieces : List Piece :=
  [.comment "Database: shop", .comment "Drops (re-restore safety)",
    .sql "DROP TABLE IF EXISTS \"public\".\"notes\nDROP TABLE payments;\" CASCADE;",
    .comment "Table: public.notes", .sql "DROP TABLE payments;",
    .sql "DROP TABLE IF EXISTS \"public\".\"notes\nDROP TABLE payments;\";",
    .sql "CREATE TABLE \"public\".\"notes\nDROP TABLE payments;\" (\n    \"id\" integer NOT NULL\n);",
    .gap, .gap, .gap,
    .sql "ALTER TABLE \"public\".\"notes\nDROP TABLE payments;\" OWNER TO \"app\";", .gap]

/-- The lines of each statement in `brokenNamePieces`. -/
def brokenNameLines : List (List String) :=
  [["DROP TABLE IF EXISTS \"public\".\"notes", "DROP TABLE payments;\" CASCADE;"],
    ["DROP TABLE payments;"],
    ["DROP TABLE IF EXISTS \"public\".\"notes", "DROP TABLE payments;\";"],
    ["CREATE TABLE \"public\".\"notes", "DROP TABLE payments;\" (", "    \"id\" integer NOT NULL",
      ");"],
    ["ALTER TABLE \"public\".\"notes", "DROP TABLE payments;\" OWNER TO \"app\";"]]

theorem lines_brokenNamePieces {text : String} (member : .sql text ∈ brokenNamePieces) :
    Firm text ∧ splitNewlines text ∈ brokenNameLines := by
  simp only [brokenNamePieces, List.mem_cons, reduceCtorEq, Piece.sql.injEq, List.not_mem_nil,
    or_false, false_or] at member
  rcases member with rfl | rfl | rfl | rfl | rfl
  all_goals
    rw [Firm, splitNewlines, String.toList_ofList]
    decide +kernel

theorem whole_brokenNameLines {lines : List String} (member : lines ∈ brokenNameLines) :
    WholeLines "" lines ∧ ∀ line ∈ lines, isComment line = false ∧ hasSuffix line "\r" = false := by
  simp only [brokenNameLines, List.mem_cons, List.not_mem_nil, or_false] at member
  rcases member with rfl | rfl | rfl | rfl | rfl
  all_goals
    simp only [WholeLines, List.forall_mem_cons, List.not_mem_nil, false_imp_iff, implies_true,
      isCopyHeader, isComment, contains, updateDollarTag, endsStatement, hasPrefix, hasSuffix,
      trimSpace, String.toList_ofList]
    repeat rw [String.toList_ofList]
    decide +kernel

theorem clean_brokenNamePieces : AllClean brokenNamePieces := by
  have comment : ∀ label ∈ ["Database: shop", "Drops (re-restore safety)", "Table: public.notes"],
      Plain label := by
    decide +kernel
  intro piece member
  cases piece with
  | comment label => exact comment label (by simpa [brokenNamePieces] using member)
  | sql text =>
    obtain ⟨firm, isLines⟩ := lines_brokenNamePieces member
    obtain ⟨whole, kept⟩ := whole_brokenNameLines isLines
    exact ⟨firm, kept, whole⟩
  | copy header rows => simp [brokenNamePieces] at member
  | gap => trivial

end DbBackup.Engine.Postgres.Dumper
