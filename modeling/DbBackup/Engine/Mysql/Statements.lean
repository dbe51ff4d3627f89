import DbBackup.Engine.Mysql.Lexer

/-!
Owns what the statements of a MySQL dump are, and when the restore takes a dump
apart into them.

Contract: exactly when the splitter's statements are the pieces between the
delimiters that end a line outside strings, quoted names and comments
(`cutsAtEnds_iff`). The splitter asks only whether something is open at the end
of the line, so a delimiter at the end of a line comment cuts.

The statements weigh what the lines weigh less the delimiters cut off. Every
delimiter outside is cut off by the splitter too, so equal weights leave no
room for another cut.
-/

set_option linter.all false

namespace DbBackup.Engine.Mysql

open Lib.GoString Lib.LineScan

/-! ### Statements of a dump -/

def Mode.endLine : Mode → Mode
  | .line => .outside
  | mode => mode

def afterLine (mode : Mode) (line : String) : Mode := (lex mode line.toList).2.endLine

/-- The delimiter ends the line, blank space aside, and all of it stands
outside. -/
def endsOutside (mode : Mode) (delimiter line : String) : Bool :=
  (delimiter.toList.reverse.map (·, Mode.outside)).isPrefixOf
    ((lex mode line.toList).1.reverse.dropWhile fun mark => isSpace mark.1)

def delimiterSet (mode : Mode) (line : String) : Option String :=
  if mode = .outside then delimiterLine line else none

def piece (delimiter text : String) : String := trimSpace (trimSuffix (trimSpace text) delimiter)

/-- The pieces of the text between the delimiters; what is left at a line that
sets the delimiter, and at the end of the text, is a piece too. -/
def pieces (mode : Mode) (delimiter buf : String) : List String → List String
  | [] => nonEmpty (trimSpace buf)
  | line :: rest =>
    match delimiterSet mode line with
    | some next => nonEmpty (trimSpace buf) ++ pieces .outside next "" rest
    | none =>
      if endsOutside mode delimiter line then
        nonEmpty (piece delimiter (buf ++ line ++ "\n")) ++
          pieces (afterLine mode line) delimiter "" rest
      else pieces (afterLine mode line) delimiter (buf ++ line ++ "\n") rest

def statementsOf (dump : String) : List String := pieces .outside ";" "" (textLines dump)

/-- The restore executes the statements of the dump. -/
def CutsAtEnds (dump : String) : Prop := splitStatements dump = statementsOf dump

/-! ### Where the splitter is right -/

/-- Where the splitter cuts: the line ends in the delimiter and nothing is open
behind it. -/
def cuts (mode : Mode) (delimiter line : String) : Bool :=
  afterLine mode line = .outside && hasSuffix (trimSpace line) delimiter

/-- The delimiter at the end of a line that leaves nothing open stands outside,
and a text that breaks off in something has no delimiter at its end; `last` is
the last line that is not blank. -/
def Honest (mode : Mode) (delimiter last : String) : List String → Prop
  | [] => mode ≠ .outside → hasSuffix (trimSpace last) delimiter = false
  | line :: rest =>
    match delimiterSet mode line with
    | some next => Honest .outside next "" rest
    | none =>
      (cuts mode delimiter line = true → endsOutside mode delimiter line = true) ∧
        Honest (afterLine mode line) delimiter
          (if trimSpace line = "" then last else line) rest

/-! ### Delimiters -/

theorem upperChar_eq_blank {c : Char} (upper : upperChar c = ' ') : c = ' ' := by
  unfold upperChar at upper
  split at upper
  · cases upper
  · split at upper
    · cases upper
    · unfold Char.toUpper at upper
      split at upper
      · rename_i letter
        have values := congrArg (fun d : Char => d.val.toNat) upper
        simp at values
        have low := UInt32.le_iff_toNat_le.mp letter.1
        have high := UInt32.le_iff_toNat_le.mp letter.2
        simp at low high
        omega
      · exact upper

theorem dropBytes_suffix (count : Nat) (chars : List Char) :
    chars.drop count <:+ dropBytes count chars := by
  induction chars generalizing count with
  | nil => simp
  | cons c rest ih =>
    cases count with
    | zero => simp [dropBytes]
    | succ count =>
      rw [dropBytes, List.drop_succ_cons]
      have size : count + 1 - c.utf8Size ≤ count := by
        have positive := Char.utf8Size_pos c
        omega
      have part : rest.drop count <:+ rest.drop (count + 1 - c.utf8Size) := by
        refine ⟨(rest.drop (count + 1 - c.utf8Size)).take (count - (count + 1 - c.utf8Size)), ?_⟩
        have behind : rest.drop count = (rest.drop (count + 1 - c.utf8Size)).drop
            (count - (count + 1 - c.utf8Size)) := by
          rw [List.drop_drop]
          congr 1
          omega
        rw [behind, List.take_append_drop]
      exact part.trans (ih _)

theorem dropBytes_isSuffix (count : Nat) (chars : List Char) : dropBytes count chars <:+ chars := by
  induction chars generalizing count with
  | nil => cases count <;> simp [dropBytes]
  | cons c rest ih =>
    cases count with
    | zero => simp [dropBytes]
    | succ count =>
      rw [dropBytes]
      exact (ih _).trans (List.suffix_cons c rest)

theorem delimiterLine_firm {line next : String} (oneLine : OneLine line)
    (sets : delimiterLine line = some next) : Firm next ∧ OneLine next := by
  unfold delimiterLine at sets
  simp only at sets
  split at sets
  case isFalse => cases sets
  case isTrue keyword =>
      rw [← Option.some.inj sets]
      obtain ⟨rest, upper⟩ := (hasPrefix_iff _ _).mp keyword
      have chars : (trimSpace line).toList.map upperChar = "DELIMITER".toList ++ ' ' :: rest.toList := by
        have asLists := congrArg String.toList upper
        simpa [toUpper] using asLists
      have tail : ((trimSpace line).toList.drop 9).map upperChar = ' ' :: rest.toList := by
        rw [List.map_drop, chars]
        rfl
      obtain ⟨c, behind, dropped, blank, -⟩ := List.map_eq_cons_iff.mp tail
      have something : trimSpace line ≠ "" := by
        intro empty
        rw [empty] at dropped
        cases dropped
      obtain ⟨last, isLast, solid⟩ := Option.map_eq_some_iff.mp (firm_trimSpace something).2
      have drop10 : (trimSpace line).toList.drop 10 = behind := by
        have one := congrArg (List.drop 1) dropped
        simpa [List.drop_drop] using one
      have inside : last ∈ dropBytes 10 (trimSpace line).toList := by
        have member : last ∈ (trimSpace line).toList.drop 9 := by
          apply List.mem_of_getLast?
          have long := congrArg List.length dropped
          rw [List.length_drop, List.length_cons] at long
          rw [List.getLast?_drop, if_neg (by omega), isLast]
        rw [dropped] at member
        rcases List.mem_cons.mp member with rfl | later
        · rw [upperChar_eq_blank blank] at solid
          cases solid
        · exact (dropBytes_suffix 10 _).subset (drop10 ▸ later)
      refine ⟨firm_trimSpace fun empty => ?_, oneLine_trimSpace ?_⟩
      · have allBlank := trimSpace_eq_empty_iff.mp empty
        rw [String.toList_ofList] at allBlank
        rw [allBlank last inside] at solid
        cases solid
      · unfold OneLine
        rw [String.toList_ofList]
        exact fun member => oneLine_trimSpace oneLine ((dropBytes_isSuffix 10 _).subset member)

variable {mode : Mode}

theorem delimiterSet_firm {line next : String} (oneLine : OneLine line)
    (sets : delimiterSet mode line = some next) : Firm next ∧ OneLine next := by
  unfold delimiterSet at sets
  split at sets
  · exact delimiterLine_firm oneLine sets
  · cases sets

/-- A delimiter that stands outside at the end of a line is cut off. -/
theorem cuts_of_endsOutside {delimiter line : String} (firm : Firm delimiter)
    (outside : endsOutside mode delimiter line = true) : cuts mode delimiter line = true := by
  have isPrefix := List.isPrefixOf_iff_prefix.mp outside
  have ends : hasSuffix (trimSpace line) delimiter = true := by
    have chars := isPrefix.map Prod.fst
    rw [hasSuffix_trimSpace_iff firm.1]
    unfold solidEnd
    rw [← lex_chars mode line.toList, ← List.map_reverse, List.dropWhile_map]
    simpa [Function.comp_def] using chars
  have closed : (lex mode line.toList).2 = .outside := by
    obtain ⟨last, isLast, -⟩ := Option.map_eq_some_iff.mp firm.2
    refine mode_of_lastSolid (c := last) ?_
    unfold lastSolid
    rw [List.find?_eq_head?_dropWhile_not]
    obtain ⟨rest, shape⟩ := isPrefix
    obtain ⟨before, ending⟩ := List.getLast?_eq_some_iff.mp isLast
    rw [ending, List.reverse_append] at shape
    simp only [Bool.not_not, ← shape]
    rfl
  unfold cuts afterLine
  rw [closed, ends]
  rfl

/-! ### The splitter along a dump -/

variable {sp : StmtSplitter}

theorem flushed_eq (firm : Firm sp.delimiter) : sp.flushed =
      if hasSuffix (trimSpace sp.buf) sp.delimiter then piece sp.delimiter sp.buf
      else trimSpace sp.buf := by
  unfold StmtSplitter.flushed piece
  by_cases empty : trimSpace sp.buf = ""
  · simp [empty, firm.hasSuffix_empty]
  · simp [empty, firm.ne_empty]

/-- What the splitter knows of a dump: `mode` is what is open, `last` the last
line that is not blank. -/
structure Tracks (sp : StmtSplitter) (mode : Mode) (last : String) : Prop where
  flags : sp.inMode mode = sp
  notLine : mode ≠ .line
  firm : Firm sp.delimiter
  oneLine : OneLine sp.delimiter
  lines : sp.buf = "" ∨ ∃ text, sp.buf = text ++ "\n"
  begun : sp.buf = "" → mode = .outside
  unended : mode = .outside → hasSuffix (trimSpace sp.buf) sp.delimiter = false
  ended : mode ≠ .outside →
    hasSuffix (trimSpace sp.buf) sp.delimiter = hasSuffix (trimSpace last) sp.delimiter

/-- The splitter behind a line that ends no statement. -/
def StmtSplitter.collect (sp : StmtSplitter) (mode : Mode) (line : String) : StmtSplitter :=
  { sp with buf := sp.buf ++ line ++ "\n" }.inMode (afterLine mode line)

@[simp] theorem collect_buf (sp : StmtSplitter) (mode : Mode) (line : String) :
    (sp.collect mode line).buf = sp.buf ++ line ++ "\n" :=
  rfl

@[simp] theorem collect_delimiter (sp : StmtSplitter) (mode : Mode) (line : String) :
    (sp.collect mode line).delimiter = sp.delimiter :=
  rfl

variable {last : String}

theorem tracks_fresh (flags : sp.inMode .outside = sp)
    (firm : Firm sp.delimiter) (oneLine : OneLine sp.delimiter) (empty : sp.buf = "") :
    Tracks sp .outside last where
  flags := flags
  notLine := by decide
  firm := firm
  oneLine := oneLine
  lines := .inl empty
  begun := fun _ => rfl
  unended := fun _ => by
    rw [empty]
    exact firm.hasSuffix_empty
  ended := fun inside => absurd rfl inside

theorem neutral_inMode (sp : StmtSplitter) (mode : Mode) :
    ((sp.inMode mode).neutral && !(sp.inMode mode).inLineComment) = decide (mode = .outside) := by
  cases mode <;> rfl

theorem addLine_eq {last line : String} (tracks : Tracks sp mode last) (oneLine : OneLine line) :
    sp.addLine line = sp.collect mode line := by
  have scanned : sp.scan line = sp.inMode (lex mode line.toList).2 := by
    unfold StmtSplitter.scan
    nth_rewrite 1 [← tracks.flags]
    exact scan_inMode sp oneLine
  unfold StmtSplitter.addLine StmtSplitter.collect afterLine
  rw [scanned]
  cases (lex mode line.toList).2 <;> rfl

theorem afterLine_blank {line : String} (notLine : mode ≠ .line)
    (blank : trimSpace line = "") : afterLine mode line = mode := by
  unfold afterLine
  rw [lex_blank (trimSpace_eq_empty_iff.mp blank) notLine]
  cases mode <;> first | rfl | exact absurd rfl notLine

theorem endsStatement_collect {last line : String} (tracks : Tracks sp mode last) :
    (sp.collect mode line).endsStatement = cuts mode sp.delimiter line := by
  have firm := tracks.firm
  have asks : ((sp.collect mode line).neutral && !(sp.collect mode line).inLineComment) =
      decide (afterLine mode line = .outside) :=
    neutral_inMode _ _
  have unfolded : (sp.collect mode line).endsStatement =
      (decide (afterLine mode line = .outside) &&
        hasSuffix (trimSpace (sp.buf ++ line ++ "\n")) sp.delimiter) := by
    unfold StmtSplitter.endsStatement
    rw [← asks]
    simp only [collect_buf, collect_delimiter, firm.ne_empty]
    cases (sp.collect mode line).neutral <;> cases (sp.collect mode line).inLineComment <;> simp
  rw [unfolded, hasSuffix_collected firm tracks.oneLine tracks.lines]
  unfold cuts
  by_cases blank : trimSpace line = ""
  · rw [if_pos blank, afterLine_blank tracks.notLine blank, blank, firm.hasSuffix_empty]
    by_cases outside : mode = .outside
    · rw [tracks.unended outside]
    · simp [outside]
  · rw [if_neg blank]

theorem pushLine_eq {last line : String} (tracks : Tracks sp mode last) (oneLine : OneLine line) :
    sp.pushLine line =
      match delimiterSet mode line with
      | some next => ({ sp with buf := "", delimiter := next }, nonEmpty (trimSpace sp.buf))
      | none =>
        if trimSpace line = "" ∧ sp.buf = "" then (sp, [])
        else if cuts mode sp.delimiter line then
          ({ sp.collect mode line with buf := "" },
            nonEmpty (piece sp.delimiter (sp.buf ++ line ++ "\n")))
        else (sp.collect mode line, []) := by
  have asks : (sp.neutral && !sp.inLineComment) = decide (mode = .outside) := by
    rw [← tracks.flags]
    exact neutral_inMode sp mode
  have asked : (if sp.neutral && !sp.inLineComment then delimiterLine line else none) =
      delimiterSet mode line := by
    unfold delimiterSet
    rw [asks]
    simp
  have kept : { sp with inLineComment := false } = sp := by
    have notLine := tracks.notLine
    rw [← tracks.flags]
    simp [StmtSplitter.inMode, notLine]
  unfold StmtSplitter.pushLine
  rw [asked]
  cases sets : delimiterSet mode line with
  | some next =>
    have outside : mode = .outside := by
      by_contra inside
      simp [delimiterSet, inside] at sets
    simp only
    rw [flushed_eq tracks.firm, tracks.unended outside]
    rfl
  | none =>
    simp only
    by_cases skipped : trimSpace line = "" ∧ sp.buf = ""
    · rw [if_pos skipped, if_pos skipped, kept]
    · rw [if_neg skipped, if_neg skipped]
      rw [addLine_eq tracks oneLine, endsStatement_collect tracks]
      split
      · rename_i cut
        have suffix : hasSuffix (trimSpace (sp.collect mode line).buf) sp.delimiter = true := by
          rw [← endsStatement_collect tracks] at cut
          unfold StmtSplitter.endsStatement at cut
          split at cut
          · cases cut
          · exact cut
        rw [flushed_eq (show Firm (sp.collect mode line).delimiter from tracks.firm),
          collect_delimiter, if_pos suffix, collect_buf]
      · rfl

theorem tracks_delimiter {last line next : String}
    (tracks : Tracks sp mode last) (oneLine : OneLine line)
    (sets : delimiterSet mode line = some next) :
    Tracks { sp with buf := "", delimiter := next } .outside "" := by
  unfold delimiterSet at sets
  split at sets
  case isFalse => cases sets
  case isTrue outside =>
      obtain ⟨firm, nextLine⟩ := delimiterLine_firm oneLine sets
      have flags := tracks.flags
      rw [outside] at flags
      refine tracks_fresh ?_ firm nextLine rfl
      exact congrArg (fun state : StmtSplitter => { state with buf := "", delimiter := next }) flags

theorem tracks_cut {last line : String} (after : String)
    (tracks : Tracks sp mode last) (cut : cuts mode sp.delimiter line = true) :
    Tracks { sp.collect mode line with buf := "" } (afterLine mode line) after := by
  have outside : afterLine mode line = .outside := by
    unfold cuts at cut
    simpa using (Bool.and_eq_true_iff.mp cut).1
  unfold StmtSplitter.collect
  rw [outside]
  exact tracks_fresh rfl tracks.firm tracks.oneLine rfl

theorem tracks_collect {last line : String}
    (tracks : Tracks sp mode last) (goesOn : cuts mode sp.delimiter line = false) :
    Tracks (sp.collect mode line) (afterLine mode line)
      (if trimSpace line = "" then last else line) where
  flags := rfl
  notLine := by
    unfold afterLine
    cases (lex mode line.toList).2 <;> simp [Mode.endLine]
  firm := tracks.firm
  oneLine := tracks.oneLine
  lines := .inr ⟨sp.buf ++ line, rfl⟩
  begun := fun empty => by
    have chars := congrArg String.toList empty
    simp at chars
  unended := fun outside => by
    rw [collect_buf, collect_delimiter, hasSuffix_collected tracks.firm tracks.oneLine tracks.lines]
    split
    · rename_i blank
      rw [afterLine_blank tracks.notLine blank] at outside
      exact tracks.unended outside
    · simpa [cuts, outside] using goesOn
  ended := fun inside => by
    rw [collect_buf, collect_delimiter, hasSuffix_collected tracks.firm tracks.oneLine tracks.lines]
    split
    · rename_i blank
      rw [afterLine_blank tracks.notLine blank] at inside
      exact tracks.ended inside
    · rfl

/-- A blank line that is skipped changes nothing. -/
theorem tracks_skipped {last line : String}
    (tracks : Tracks sp mode last) (blank : trimSpace line = "") :
    Tracks sp (afterLine mode line) (if trimSpace line = "" then last else line) := by
  rw [afterLine_blank tracks.notLine blank, if_pos blank]
  exact tracks

/-! ### The splitter is right where it says -/

theorem run_last (tracks : Tracks sp mode last)
    (whole : mode ≠ .outside → hasSuffix (trimSpace last) sp.delimiter = false) :
    sp.flushed = trimSpace sp.buf := by
  have noSuffix : hasSuffix (trimSpace sp.buf) sp.delimiter = false := by
    by_cases outside : mode = .outside
    · exact tracks.unended outside
    · rw [tracks.ended outside]
      exact whole outside
  rw [flushed_eq tracks.firm, noSuffix]
  rfl

theorem cuts_ne_blank {delimiter line : String} (firm : Firm delimiter)
    (cut : cuts mode delimiter line = true) : trimSpace line ≠ "" := by
  intro blank
  unfold cuts at cut
  rw [blank, firm.hasSuffix_empty, Bool.and_false] at cut
  cases cut

theorem piece_blanks {delimiter blanks : String} (blank : ∀ c ∈ blanks.toList, isSpace c = true)
    (text : String) : piece delimiter (blanks ++ text) = piece delimiter text := by
  unfold piece
  rw [trimSpace_blank_append blank]

theorem run_eq_pieces {sp : StmtSplitter} {mode : Mode} {last blanks : String} {lines : List String}
    (tracks : Tracks sp mode last) (oneLine : ∀ line ∈ lines, OneLine line)
    (honest : Honest mode sp.delimiter last lines)
    (blank : ∀ c ∈ blanks.toList, isSpace c = true) :
    sp.run lines = pieces mode sp.delimiter (blanks ++ sp.buf) lines := by
  induction lines generalizing sp mode last blanks with
  | nil =>
    rw [StmtSplitter.run, pieces, run_last tracks honest, trimSpace_blank_append blank]
  | cons line rest ih =>
    obtain ⟨lineOne, restOne⟩ := List.forall_mem_cons.mp oneLine
    have nothing : ∀ c ∈ ("" : String).toList, isSpace c = true := by simp
    rw [StmtSplitter.run, pushLine_eq tracks lineOne, pieces]
    rw [Honest] at honest
    cases sets : delimiterSet mode line with
    | some next =>
      simp only [sets] at honest ⊢
      rw [trimSpace_blank_append blank,
        ih (tracks_delimiter tracks lineOne sets) restOne honest nothing]
      simp
    | none =>
      simp only [sets] at honest ⊢
      obtain ⟨outside, later⟩ := honest
      cases cut : cuts mode sp.delimiter line with
      | true =>
        have solid : ¬ (trimSpace line = "" ∧ sp.buf = "") := fun skipped =>
          cuts_ne_blank tracks.firm cut skipped.1
        have text : blanks ++ sp.buf ++ line ++ "\n" = blanks ++ (sp.buf ++ line ++ "\n") := by
          simp [String.append_assoc]
        have after := ih (tracks_cut _ tracks cut) restOne later nothing
        rw [String.empty_append] at after
        rw [if_neg solid, if_pos rfl, if_pos (outside cut), text, piece_blanks blank]
        dsimp only [collect_delimiter] at after ⊢
        rw [after]
      | false =>
        have inside : endsOutside mode sp.delimiter line = false := by
          by_contra ends
          rw [Bool.not_eq_false] at ends
          rw [cuts_of_endsOutside tracks.firm ends] at cut
          cases cut
        rw [inside]
        by_cases skipped : trimSpace line = "" ∧ sp.buf = ""
        · have more : ∀ c ∈ (blanks ++ line ++ "\n").toList, isSpace c = true := by
            intro c member
            simp only [String.toList_append, List.mem_append] at member
            rcases member with (early | inLine) | newline
            · exact blank c early
            · exact trimSpace_eq_empty_iff.mp skipped.1 c inLine
            · rw [show c = '\n' by simpa using newline]
              rfl
          have after := ih (tracks_skipped tracks skipped.1) restOne later more
          rw [if_pos skipped]
          simpa [skipped.2] using after
        · have after := ih (tracks_collect tracks cut) restOne later blank
          rw [if_neg skipped]
          simpa [String.append_assoc] using after

/-! ### Weights -/

/-- What the lines weigh that is in no statement: the delimiters cut off by
`ends` and, at the end of the text, by `broken`, and the lines that set one. -/
def lost (ends broken : Mode → String → String → Bool) (mode : Mode) (delimiter last : String) :
    List String → Nat
  | [] => if broken mode delimiter last then weight delimiter else 0
  | line :: rest =>
    match delimiterSet mode line with
    | some next => weight line + lost ends broken .outside next "" rest
    | none =>
      (if ends mode delimiter line then weight delimiter else 0) +
        lost ends broken (afterLine mode line) delimiter
          (if trimSpace line = "" then last else line) rest

/-- Something is open behind the delimiter at the end of the text. -/
def breaksOff (mode : Mode) (delimiter last : String) : Bool :=
  mode ≠ .outside && hasSuffix (trimSpace last) delimiter

def totalWeight (stmts : List String) : Nat := (stmts.map weight).sum

theorem totalWeight_nonEmpty_append (stmt : String) (rest : List String) :
    totalWeight (nonEmpty stmt ++ rest) = weight stmt + totalWeight rest := by
  unfold nonEmpty
  split
  · rename_i empty
    rw [empty, List.nil_append, show weight "" = 0 from rfl, Nat.zero_add]
  · rfl

theorem weight_piece {delimiter text : String} (ends : hasSuffix (trimSpace text) delimiter = true) :
    weight (piece delimiter text) + weight delimiter = weight text := by
  obtain ⟨start, shape⟩ := (hasSuffix_iff _ _).mp ends
  unfold piece
  rw [weight_trimSpace, shape, trimSuffix_append, ← weight_append, ← shape, weight_trimSpace]

theorem weight_firm_pos {text : String} (firm : Firm text) : 0 < weight text := by
  rw [Nat.pos_iff_ne_zero, ne_eq, weight_eq_zero_iff, trimSpace_of_firm firm]
  exact firm.ne_empty

theorem weight_flushed (tracks : Tracks sp mode last) :
    weight sp.flushed + (if breaksOff mode sp.delimiter last then weight sp.delimiter else 0) =
      weight sp.buf := by
  unfold breaksOff
  rw [flushed_eq tracks.firm]
  by_cases outside : mode = .outside
  · rw [tracks.unended outside]
    simp [outside, weight_trimSpace]
  · cases ends : hasSuffix (trimSpace sp.buf) sp.delimiter with
    | false =>
      rw [← tracks.ended outside, ends]
      simp [weight_trimSpace]
    | true =>
      rw [← tracks.ended outside, ends]
      simp [outside, weight_piece ends]

theorem totalWeight_run {lines : List String}
    (tracks : Tracks sp mode last) (oneLine : ∀ line ∈ lines, OneLine line) :
    totalWeight (sp.run lines) + lost cuts breaksOff mode sp.delimiter last lines =
      weight sp.buf + weight (joinLines lines) := by
  induction lines generalizing sp mode last with
  | nil =>
    have flushed := weight_flushed tracks
    have alone := totalWeight_nonEmpty_append sp.flushed []
    rw [List.append_nil] at alone
    have noLines : weight (joinLines []) = 0 := by decide
    have empty : totalWeight [] = 0 := rfl
    rw [StmtSplitter.run, lost, alone, empty, noLines, Nat.add_zero, flushed, Nat.add_zero]
  | cons line rest ih =>
    obtain ⟨lineOne, restOne⟩ := List.forall_mem_cons.mp oneLine
    have grown : weight (sp.buf ++ line ++ "\n") = weight sp.buf + weight line := by
      rw [weight_newline, weight_append]
    rw [StmtSplitter.run, pushLine_eq tracks lineOne, lost, weight_joinLines_cons]
    cases sets : delimiterSet mode line with
    | some next =>
      have later := ih (tracks_delimiter tracks lineOne sets) restOne
      dsimp only at later ⊢
      rw [totalWeight_nonEmpty_append, weight_trimSpace]
      have empty : weight "" = 0 := rfl
      omega
    | none =>
      dsimp only
      by_cases skipped : trimSpace line = "" ∧ sp.buf = ""
      · have later := ih (tracks_skipped tracks skipped.1) restOne
        have goesOn : cuts mode sp.delimiter line = false := by
          by_contra cut
          rw [Bool.not_eq_false] at cut
          exact cuts_ne_blank tracks.firm cut skipped.1
        have blank := weight_eq_zero_iff.mpr skipped.1
        rw [if_pos skipped, goesOn, List.nil_append]
        simp only [Bool.false_eq_true, if_false]
        omega
      · rw [if_neg skipped]
        cases cut : cuts mode sp.delimiter line with
        | true =>
          have later := ih
            (tracks_cut (if trimSpace line = "" then last else line) tracks cut) restOne
          have ends : hasSuffix (trimSpace (sp.buf ++ line ++ "\n")) sp.delimiter = true := by
            rw [hasSuffix_collected tracks.firm tracks.oneLine tracks.lines,
              if_neg (cuts_ne_blank tracks.firm cut)]
            exact (Bool.and_eq_true_iff.mp cut).2
          have pieceWeight := weight_piece ends
          have empty : weight "" = 0 := rfl
          simp only [if_true]
          dsimp only [collect_delimiter] at later ⊢
          rw [totalWeight_nonEmpty_append]
          omega
        | false =>
          have later := ih (tracks_collect tracks cut) restOne
          simp only [Bool.false_eq_true, if_false]
          rw [collect_buf, collect_delimiter] at later
          rw [List.nil_append]
          omega

theorem totalWeight_pieces {mode : Mode} {delimiter last buf : String} {lines : List String}
    (firm : Firm delimiter) (delimiterLine : OneLine delimiter)
    (collected : buf = "" ∨ ∃ text, buf = text ++ "\n") (oneLine : ∀ line ∈ lines, OneLine line) :
    totalWeight (pieces mode delimiter buf lines) +
        lost endsOutside (fun _ _ _ => false) mode delimiter last lines =
      weight buf + weight (joinLines lines) := by
  induction lines generalizing mode delimiter last buf with
  | nil =>
    have alone := totalWeight_nonEmpty_append (trimSpace buf) []
    have noLines : weight (joinLines []) = 0 := by decide
    have empty : totalWeight [] = 0 := rfl
    rw [List.append_nil, empty, Nat.add_zero, weight_trimSpace] at alone
    rw [pieces, lost, alone, noLines]
    rfl
  | cons line rest ih =>
    obtain ⟨lineOne, restOne⟩ := List.forall_mem_cons.mp oneLine
    have grown : weight (buf ++ line ++ "\n") = weight buf + weight line := by
      rw [weight_newline, weight_append]
    have empty : weight "" = 0 := rfl
    rw [pieces, lost, weight_joinLines_cons]
    cases sets : delimiterSet mode line with
    | some next =>
      obtain ⟨nextFirm, nextLine⟩ := delimiterSet_firm lineOne sets
      have later := @ih .outside next "" "" nextFirm nextLine (.inl rfl) restOne
      dsimp only
      rw [totalWeight_nonEmpty_append, weight_trimSpace]
      omega
    | none =>
      dsimp only
      cases ends : endsOutside mode delimiter line with
      | true =>
        have later := @ih (afterLine mode line) delimiter
          (if trimSpace line = "" then last else line) "" firm delimiterLine (.inl rfl) restOne
        have cut := cuts_of_endsOutside firm ends
        have suffix : hasSuffix (trimSpace (buf ++ line ++ "\n")) delimiter = true := by
          rw [hasSuffix_collected firm delimiterLine collected,
            if_neg (cuts_ne_blank firm cut)]
          exact (Bool.and_eq_true_iff.mp cut).2
        have pieceWeight := weight_piece suffix
        simp only [if_true]
        rw [totalWeight_nonEmpty_append]
        omega
      | false =>
        have later := @ih (afterLine mode line) delimiter
          (if trimSpace line = "" then last else line) (buf ++ line ++ "\n") firm delimiterLine
          (.inr ⟨buf ++ line, rfl⟩) restOne
        simp only [Bool.false_eq_true, if_false]
        omega

theorem lost_le {mode : Mode} {delimiter last : String} {lines : List String}
    (firm : Firm delimiter) (oneLine : ∀ line ∈ lines, OneLine line) :
    lost endsOutside (fun _ _ _ => false) mode delimiter last lines ≤
      lost cuts breaksOff mode delimiter last lines := by
  induction lines generalizing mode delimiter last with
  | nil => simp [lost]
  | cons line rest ih =>
    obtain ⟨lineOne, restOne⟩ := List.forall_mem_cons.mp oneLine
    rw [lost, lost]
    cases sets : delimiterSet mode line with
    | some next =>
      exact Nat.add_le_add_left (ih (delimiterSet_firm lineOne sets).1 restOne) _
    | none =>
      refine Nat.add_le_add ?_ (ih firm restOne)
      cases ends : endsOutside mode delimiter line with
      | true => rw [cuts_of_endsOutside firm ends]
      | false => exact Nat.zero_le _

theorem honest_of_lost {delimiter last : String} {lines : List String}
    (firm : Firm delimiter) (oneLine : ∀ line ∈ lines, OneLine line)
    (same : lost cuts breaksOff mode delimiter last lines =
      lost endsOutside (fun _ _ _ => false) mode delimiter last lines) :
    Honest mode delimiter last lines := by
  have positive := weight_firm_pos firm
  induction lines generalizing mode delimiter last with
  | nil =>
    intro inside
    by_contra ends
    rw [Bool.not_eq_false] at ends
    simp [lost, breaksOff, inside, ends] at same
    omega
  | cons line rest ih =>
    obtain ⟨lineOne, restOne⟩ := List.forall_mem_cons.mp oneLine
    rw [lost, lost] at same
    rw [Honest]
    cases sets : delimiterSet mode line with
    | some next =>
      have nextFirm := (delimiterSet_firm lineOne sets).1
      simp only [sets] at same ⊢
      exact ih nextFirm restOne (Nat.add_left_cancel same)
        (weight_firm_pos nextFirm)
    | none =>
      simp only [sets] at same ⊢
      have less := @lost_le (afterLine mode line) delimiter
        (if trimSpace line = "" then last else line) rest firm restOne
      have step : (if endsOutside mode delimiter line = true then weight delimiter else 0) ≤
          if cuts mode delimiter line = true then weight delimiter else 0 := by
        cases ends : endsOutside mode delimiter line with
        | true => rw [cuts_of_endsOutside firm ends]
        | false => exact Nat.zero_le _
      refine ⟨fun cut => ?_, ih firm restOne (by omega) positive⟩
      by_contra inside
      rw [if_pos cut, if_neg inside] at same
      omega

/-- The restore takes a dump apart into its statements exactly where every
delimiter at the end of a line that leaves nothing open stands outside, and the
text does not break off behind a delimiter. -/
theorem cutsAtEnds_iff (dump : String) :
    CutsAtEnds dump ↔ Honest .outside ";" "" (textLines dump) := by
  have firm : Firm ";" := by decide
  have tracks : Tracks {} .outside "" := tracks_fresh rfl firm (by decide) rfl
  have oneLine : ∀ line ∈ textLines dump, OneLine line := fun line => oneLine_of_mem_textLines
  unfold CutsAtEnds splitStatements statementsOf
  constructor
  · intro same
    have code := totalWeight_run tracks oneLine
    have reference := @totalWeight_pieces .outside ";" "" "" _ firm (by decide) (.inl rfl) oneLine
    rw [same] at code
    exact honest_of_lost firm oneLine (Nat.add_left_cancel (code.trans reference.symm))
  · intro honest
    exact @run_eq_pieces {} .outside "" "" _ tracks oneLine honest (by simp)

/-- The line comment in the middle of a statement ends it. -/
theorem comment_cuts_statement :
    ¬ CutsAtEnds "SELECT 1\n-- all of them;\nFROM t;\n" := by
  unfold CutsAtEnds
  decide +kernel

end DbBackup.Engine.Mysql
