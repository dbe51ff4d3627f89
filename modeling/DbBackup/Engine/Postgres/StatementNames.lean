import DbBackup.Engine.Postgres.Dumper
import DbBackup.Lib.SqlName

/-!
Owns which relation a statement of a dump names, as PostgreSQL reads it: the name behind
the keywords of a DROP, CREATE, ALTER or COPY, and the `regclass` literal of a `setval`.

Contract: a name that the dumper quotes in both parts is read back, whatever it holds
(`readQualified_qualified`), and what a `setval` names is what its literal holds
(`setvalNamed_literal`).
-/

set_option linter.all false

namespace DbBackup.Engine.Postgres.StatementNames

open Engine.Postgres.Dumper Engine.Postgres.Stream Lib.GoString Lib.SqlName

/-! ### The reader -/

/-- The keywords in front of a relation's name. -/
def keywords : List String :=
  ["DROP TABLE IF EXISTS ", "CREATE TABLE ", "ALTER TABLE ", "COPY ", "DROP SEQUENCE IF EXISTS ",
    "CREATE SEQUENCE IF NOT EXISTS ", "ALTER SEQUENCE ", "CREATE OR REPLACE VIEW ", "ALTER VIEW ",
    "DROP MATERIALIZED VIEW IF EXISTS ", "CREATE MATERIALIZED VIEW ", "ALTER MATERIALIZED VIEW "]

def after (keyword text : List Char) : Option (List Char) :=
  if keyword.isPrefixOf text then some (text.drop keyword.length) else none

/-- `ALTER TABLE` takes `ONLY` before the name. -/
def skipOnly (text : List Char) : List Char :=
  (after "ONLY ".toList text).getD text

/-- A name of two parts. -/
abbrev RelName := List Char × List Char

def relationNamed (text : List Char) : Option RelName :=
  keywords.findSome? fun keyword =>
    (after keyword.toList text).bind fun rest => (readQualified (skipOnly rest)).map Prod.fst

def setvalStart : String := "SELECT pg_catalog.setval('"

def setvalNamed (text : List Char) : Option RelName :=
  (after setvalStart.toList text).bind fun rest =>
    (readQuoted '\'' rest).bind fun read => readRegclass read.1

/-- The relation a piece of the dump names. -/
def pieceNamed : Piece → Option RelName
  | .sql text => (setvalNamed text.toList).or (relationNamed text.toList)
  | .copy header _ => relationNamed header.toList
  | _ => none

/-! ### Keywords -/

theorem after_append (keyword rest : List Char) : after keyword (keyword ++ rest) = some rest := by
  rw [after, if_pos (List.isPrefixOf_iff_prefix.mpr (List.prefix_append keyword rest)),
    List.drop_left]

variable (rest : List Char)

theorem after_other {keyword other : List Char}
    (apart : ¬ other <+: keyword ∧ ¬ keyword <+: other) : after other (keyword ++ rest) = none := by
  rw [after, if_neg]
  intro starts
  rcases List.prefix_or_prefix_of_prefix (List.isPrefixOf_iff_prefix.mp starts)
    (List.prefix_append keyword rest) with shorter | longer
  · exact apart.1 shorter
  · exact apart.2 longer

theorem findSome_after {β : Type} {keyword rest : List Char} (read : List Char → Option β) :
    ∀ (words : List String), keyword ∈ words.map String.toList →
      (∀ word ∈ words, word.toList ≠ keyword →
        ¬ word.toList <+: keyword ∧ ¬ keyword <+: word.toList) →
      (words.findSome? fun word => (after word.toList (keyword ++ rest)).bind read) = read rest := by
  intro words
  induction words with
  | nil => exact fun member => absurd member List.not_mem_nil
  | cons word others ih =>
    intro member apart
    rw [List.findSome?_cons]
    by_cases same : word.toList = keyword
    · rw [same, after_append]
      cases result : read rest with
      | some value => simp only [Option.bind_some, result]
      | none =>
        simp only [Option.bind_some, result]
        rw [List.findSome?_eq_none_iff]
        intro other isOther
        by_cases again : other.toList = keyword
        · rw [again, after_append, Option.bind_some, result]
        · rw [after_other rest (apart other (List.mem_cons_of_mem _ isOther) again)]
          rfl
    · rw [after_other rest (apart word List.mem_cons_self same)]
      refine ih ?_ (List.forall_mem_cons.mp apart).2
      rcases List.mem_cons.mp member with isFirst | inRest
      · exact absurd isFirst.symm same
      · exact inRest

theorem keywords_apart : ∀ first ∈ keywords, ∀ second ∈ keywords,
    first.toList ≠ second.toList →
      first.toList.isPrefixOf second.toList = false ∧
        second.toList.isPrefixOf first.toList = false := by
  decide +kernel

theorem setval_apart : ∀ keyword ∈ keywords,
    keyword.toList.isPrefixOf setvalStart.toList = false ∧
      setvalStart.toList.isPrefixOf keyword.toList = false := by
  decide +kernel

theorem not_prefix_of_false {first second : List Char} (isFalse : first.isPrefixOf second = false) :
    ¬ first <+: second := by
  intro isPrefix
  rw [List.isPrefixOf_iff_prefix.mpr isPrefix] at isFalse
  exact Bool.noConfusion isFalse

variable {keyword : String}

theorem relationNamed_append (isKeyword : keyword ∈ keywords) (rest : List Char) :
    relationNamed (keyword.toList ++ rest) = (readQualified (skipOnly rest)).map Prod.fst := by
  refine findSome_after (fun more => (readQualified (skipOnly more)).map Prod.fst) keywords
    (List.mem_map_of_mem isKeyword) ?_
  intro word isWord differs
  obtain ⟨notShorter, notLonger⟩ := keywords_apart word isWord keyword isKeyword differs
  exact ⟨not_prefix_of_false notShorter, not_prefix_of_false notLonger⟩

theorem setvalNamed_keyword (isKeyword : keyword ∈ keywords)
    (rest : List Char) : setvalNamed (keyword.toList ++ rest) = none := by
  obtain ⟨notShorter, notLonger⟩ := setval_apart keyword isKeyword
  rw [setvalNamed, after_other rest ⟨not_prefix_of_false notLonger, not_prefix_of_false notShorter⟩]
  rfl

theorem relationNamed_setval :
    relationNamed (setvalStart.toList ++ rest) = none := by
  rw [relationNamed, List.findSome?_eq_none_iff]
  intro keyword isKeyword
  obtain ⟨notShorter, notLonger⟩ := setval_apart keyword isKeyword
  rw [after_other rest ⟨not_prefix_of_false notShorter, not_prefix_of_false notLonger⟩]
  rfl

/-! ### Quoted names -/

theorem toList_quotePGIdent_eq (name : String) : (quotePGIdent name).toList = quoted name.toList :=
  toList_quotePGIdent name

theorem toList_qualified (schema name : String) :
    (qualified schema name).toList = quoted schema.toList ++ '.' :: quoted name.toList := by
  rw [qualified, String.toList_append, String.toList_append, toList_quotePGIdent_eq,
    toList_quotePGIdent_eq, List.append_assoc]
  rfl

theorem skipOnly_only : skipOnly ("ONLY ".toList ++ rest) = rest := by
  rw [skipOnly, after_append]
  rfl

theorem skipOnly_quoted (chars rest : List Char) :
    skipOnly (quoted chars ++ rest) = quoted chars ++ rest := by
  have notOnly : after "ONLY ".toList (quoted chars ++ rest) = none := by
    rw [after, if_neg]
    have word : "ONLY ".toList = 'O' :: "NLY ".toList := by decide
    rw [word, quoted, List.cons_append, List.cons_append, List.isPrefixOf_cons_cons]
    simp
  rw [skipOnly, notOnly]
  rfl

/-- A piece of a name: text that is not empty. -/
structure ObjectName where
  text : String
  nonempty : text ≠ ""

theorem ObjectName.toList_ne_nil (name : ObjectName) : name.text.toList ≠ [] := by
  intro isNil
  exact name.nonempty (String.toList_injective isNil)

/-- The text behind a name does not go on with a quote. -/
def Apart (tail : List Char) : Prop :=
  tail.head? ≠ some '"'

theorem readQualified_qualified {schema name : String} (schemaSome : schema.toList ≠ [])
    (nameSome : name.toList ≠ []) {tail : List Char} (apart : Apart tail) :
    (readQualified (skipOnly ((qualified schema name).toList ++ tail))).map Prod.fst =
      some (schema.toList, name.toList) := by
  rw [toList_qualified, List.append_assoc, skipOnly_quoted, ← List.append_assoc,
    readQualified_quoted schemaSome nameSome apart]
  rfl

/-- The first part read is the first part written. -/
theorem schema_of_readQualified {schema : List Char} {rest : List Char} {named : RelName}
    (read : (readQualified (quoted schema ++ '.' :: rest)).map Prod.fst = some named) :
    named.1 = schema := by
  obtain ⟨whole, isWhole, rfl⟩ := Option.map_eq_some_iff.mp read
  rw [readQualified] at isWhole
  by_cases isEmpty : schema = []
  · have unread : readIdent (quoted schema ++ '.' :: rest) = none := by
      rw [isEmpty]
      rfl
    rw [unread] at isWhole
    cases isWhole
  · have dot : ('.' :: rest).head? ≠ some '"' := by
      intro same
      exact absurd (Option.some.inj same) (by decide)
    rw [readIdent_quoted isEmpty dot] at isWhole
    simp only at isWhole
    split at isWhole
    · rw [← Option.some.inj isWhole]
    · cases isWhole

theorem schema_of_relationNamed (isKeyword : keyword ∈ keywords)
    {schema name : String} {tail : List Char} {named : RelName}
    (read : relationNamed (keyword.toList ++ ((qualified schema name).toList ++ tail)) =
      some named) : named.1 = schema.toList := by
  rw [relationNamed_append isKeyword, toList_qualified, List.append_assoc, skipOnly_quoted] at read
  exact schema_of_readQualified read

/-! ### The literal of `setval` -/

theorem toList_escapePGLiteral (text : String) :
    (escapePGLiteral text).toList = doubled '\'' text.toList :=
  toList_replaceAll_char text '\'' ['\'', '\'']

theorem setvalNamed_literal (schema name : String) (tail : List Char) :
    setvalNamed (setvalStart.toList ++
        ((escapePGLiteral (schema ++ "." ++ quotePGIdent name)).toList ++ '\'' :: ',' :: tail)) =
      readRegclass (bareQualified schema.toList name.toList) := by
  have literal : (schema ++ "." ++ quotePGIdent name).toList =
      bareQualified schema.toList name.toList := by
    rw [String.toList_append, String.toList_append, toList_quotePGIdent_eq, List.append_assoc]
    rfl
  have ends : (',' :: tail).head? ≠ some '\'' := by
    intro same
    exact absurd (Option.some.inj same) (by decide)
  rw [setvalNamed, after_append, Option.bind_some, toList_escapePGLiteral, literal,
    readQuoted_doubled _ ends, Option.bind_some]

end DbBackup.Engine.Postgres.StatementNames
