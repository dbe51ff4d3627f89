import DbBackup.Lib.LineScan
import DbBackup.Lib.Scan

/-!
Owns the line protocol of a logical dump: the line that a row of a query result becomes, and the
lines of a dump that a restore forwards to the server.

`strconv.ParseFloat` followed by `FormatFloat` is the parameter `shortest`: the shortest decimal of
the number a text stands for. Texts are lists of characters.

Does not own the batches in which a restore sends the lines.
-/

namespace DbBackup.Engine.Influx.LineProtocol

open Lib Lib.GoString

/-- A cell of a row as the decoders leave it. -/
inductive Value where
  | null
  | bool (value : Bool)
  /-- A `json.Number`. -/
  | number (text : List Char)
  | text (text : List Char)
deriving DecidableEq

/-! ### Texts -/

def slashed (marks : List Char) (text : List Char) : List Char :=
  text.flatMap fun c => if c ∈ marks then ['\\', c] else [c]

def lpTagEscaper : List Char → List Char := slashed ['\\', ' ', ',', '=']

def lpStrEscaper : List Char → List Char := slashed ['\\', '"', ' ', ',', '=']

def boolText (value : Bool) : List Char := if value then "true".toList else "false".toList

def formatFloat (text : List Char) : List Char :=
  if text.any fun c => c = '.' ∨ c = 'e' ∨ c = 'E' then text else text ++ ".0".toList

def appendLineProtocolValue (shortest : List Char → Option (List Char)) : Value → List Char
  | .bool value => boolText value
  | .number text => (shortest text).elim text formatFloat
  | .text text => '"' :: (lpStrEscaper text ++ ['"'])
  | .null => "null".toList

def isIntLiteral : List Char → Bool
  | [] => false
  | c :: rest => (c.isDigit || c = '-') && rest.all Char.isDigit

def integerLiteral : Value → Option (List Char)
  | .number text => if isIntLiteral text then some text else none
  | _ => none

def formatTimestamp : Value → List Char
  | .number text => text
  | .text text => text
  | .bool value => boolText value
  | .null => "<nil>".toList

def stringifyTag : Value → List Char
  | .text text => text
  | .number text => text
  | .bool value => boolText value
  | .null => "<nil>".toList

/-! ### A line -/

abbrev Cell := List Char × Value

def timeColumn : List Char := "time".toList

def tagText (cell : Cell) : List Char :=
  ',' :: (lpTagEscaper cell.1 ++ '=' :: lpTagEscaper (stringifyTag cell.2))

section

variable (shortest : List Char → Option (List Char)) (tags : List Char → Bool)
  (ftypes : List Char → Option String)

def fieldText (cell : Cell) : List Char :=
  lpTagEscaper cell.1 ++ '=' ::
    match (if ftypes cell.1 = some "integer" then integerLiteral cell.2 else none) with
    | some literal => literal ++ ['i']
    | none => appendLineProtocolValue shortest cell.2

def isTag (cell : Cell) : Bool := cell.1 ≠ timeColumn && tags cell.1 && cell.2 ≠ .null

def isField (cell : Cell) : Bool := cell.1 ≠ timeColumn && !tags cell.1 && cell.2 ≠ .null

/-- The last column of the name wins, as in the loop. -/
def timestamp (cells : List Cell) : List Char :=
  cells.foldl (fun ts cell => if cell.1 = timeColumn then formatTimestamp cell.2 else ts) []

/-- `none` where no field was written. -/
def buildLineProtocolInto (measurement : List Char) (cells : List Cell) : Option (List Char) :=
  let fields := cells.filter (isField tags)
  let ts := timestamp cells
  if fields = [] then none
  else some (measurement ++ (cells.filter (isTag tags)).flatMap tagText ++
    ' ' :: [','].intercalate (fields.map (fieldText shortest ftypes)) ++
      if ts = [] then [] else ' ' :: ts)

end

/-! ### The lines a restore forwards -/

def maxLineBytes : Nat := 16 * 1024 * 1024

def passedBy (line : String) : Bool :=
  let trimmed := trimSpace line
  hasPrefix trimmed "#" || hasPrefix trimmed "//" || trimmed = "" ||
    hasPrefix (toUpper trimmed) "CREATE DATABASE"

def trimReturns (line : String) : String :=
  String.ofList (line.toList.reverse.dropWhile (· = '\r')).reverse

/-- `none` where the scanner fails on a line. -/
def forwarded (dump : String) : Option (List String) :=
  if (LineScan.textLines dump).all fun line => line.utf8ByteSize < maxLineBytes then
    some (((LineScan.textLines dump).map trimReturns).filter fun line => !passedBy line)
  else none

end DbBackup.Engine.Influx.LineProtocol
