import DbBackup.Lib.LineScan

/-!
Owns the statement splitter of the MySQL restore (`internal/database/engine/mysql/ops.go`):
a scanner that is carried from line to line, the delimiter in force, and the
text collected for the next statement.

A backslash in a string takes the next character with it, and the end of the
line where there is none; the source works on bytes, but all characters it
looks for are ASCII.
-/

namespace DbBackup.Engine.Mysql

open Lib.GoString Lib.LineScan

structure StmtSplitter where
  buf : String := ""
  delimiter : String := ";"
  inSingle : Bool := false
  inDouble : Bool := false
  inBacktick : Bool := false
  inLineComment : Bool := false
  inBlockComment : Bool := false
deriving DecidableEq

namespace StmtSplitter

def neutral (sp : StmtSplitter) : Bool :=
  !sp.inSingle && !sp.inDouble && !sp.inBacktick && !sp.inBlockComment

end StmtSplitter

/-- Two dashes count as a comment where a space, a tab, a carriage return or
the end of the line follows. -/
def startsLineComment : List Char → Bool
  | '#' :: _ => true
  | ['-', '-'] => true
  | '-' :: '-' :: c :: _ => c = ' ' || c = '\t' || c = '\r'
  | _ => false

namespace StmtSplitter

/-- The scan of a line; `skip` is set where the character at hand has been
read with the one before. -/
def scanFrom (sp : StmtSplitter) (skip : Bool) : List Char → StmtSplitter
  | [] => sp
  | c :: rest =>
    if skip then scanFrom sp false rest
    else if sp.inLineComment then scanFrom sp false rest
    else if sp.inBlockComment then
      if c = '*' ∧ rest.head? = some '/' then
        scanFrom { sp with inBlockComment := false } true rest
      else scanFrom sp false rest
    else if sp.inSingle then
      if c = '\\' then scanFrom sp true rest
      else if c = '\'' then
        if rest.head? = some '\'' then scanFrom sp true rest
        else scanFrom { sp with inSingle := false } false rest
      else scanFrom sp false rest
    else if sp.inDouble then
      if c = '\\' then scanFrom sp true rest
      else if c = '"' then scanFrom { sp with inDouble := false } false rest
      else scanFrom sp false rest
    else if sp.inBacktick then
      if c = '`' then scanFrom { sp with inBacktick := false } false rest
      else scanFrom sp false rest
    else if c = '\'' then scanFrom { sp with inSingle := true } false rest
    else if c = '"' then scanFrom { sp with inDouble := true } false rest
    else if c = '`' then scanFrom { sp with inBacktick := true } false rest
    else if startsLineComment (c :: rest) then scanFrom { sp with inLineComment := true } false rest
    else if c = '/' ∧ rest.head? = some '*' then
      scanFrom { sp with inBlockComment := true } true rest
    else scanFrom sp false rest

def scan (sp : StmtSplitter) (line : String) : StmtSplitter := sp.scanFrom false line.toList

def endsStatement (sp : StmtSplitter) : Bool :=
  if sp.delimiter = "" || !sp.neutral || sp.inLineComment then false
  else hasSuffix (trimSpace sp.buf) sp.delimiter

/-- The text of the statement, empty where there is none. -/
def flushed (sp : StmtSplitter) : String :=
  let s := trimSpace sp.buf
  if s = "" then ""
  else if sp.delimiter ≠ "" && hasSuffix s sp.delimiter then trimSpace (trimSuffix s sp.delimiter)
  else s

end StmtSplitter

/-- The text without its first bytes. -/
def dropBytes : Nat → List Char → List Char
  | 0, text => text
  | _, [] => []
  | count + 1, c :: rest => dropBytes (count + 1 - c.utf8Size) rest

/-- The delimiter a line sets. The keyword is looked for in upper case, and as
many bytes as it has are cut off the line as it stands. -/
def delimiterLine (line : String) : Option String :=
  let trimmed := trimSpace line
  if hasPrefix (toUpper trimmed) "DELIMITER " then
    some (trimSpace (String.ofList (dropBytes 10 trimmed.toList)))
  else none

/-- A statement counts unless it is empty. -/
def nonEmpty (stmt : String) : List String := if stmt = "" then [] else [stmt]

/-- The line scanned and collected. -/
def StmtSplitter.addLine (sp : StmtSplitter) (line : String) : StmtSplitter :=
  let sp := sp.scan line
  { sp with buf := sp.buf ++ line ++ "\n", inLineComment := false }

def StmtSplitter.pushLine (sp : StmtSplitter) (line : String) : StmtSplitter × List String :=
  match (if sp.neutral && !sp.inLineComment then delimiterLine line else none) with
  | some delimiter => ({ sp with buf := "", delimiter }, nonEmpty sp.flushed)
  | none =>
    if trimSpace line = "" ∧ sp.buf = "" then ({ sp with inLineComment := false }, [])
    else
      let sp := sp.addLine line
      if sp.endsStatement then ({ sp with buf := "" }, nonEmpty sp.flushed) else (sp, [])

/-- What the restore executes for the lines of a dump. -/
def StmtSplitter.run (sp : StmtSplitter) : List String → List String
  | [] => nonEmpty sp.flushed
  | line :: rest => (sp.pushLine line).2 ++ (sp.pushLine line).1.run rest

/-- The statements `Restore` takes a dump apart into. -/
def splitStatements (dump : String) : List String := ({} : StmtSplitter).run (textLines dump)

end DbBackup.Engine.Mysql
