import Mathlib.Data.Char

/-!
Owns shell patterns as Go's `path.Match` reads them: a pattern is a list of
terms, or malformed, and a malformed pattern matches nothing.

A star takes characters up to the next slash, a question mark one character
that is not a slash, and a class one character of any kind.
-/

namespace DbBackup.Lib.Glob

inductive Term where
  | star
  | anyChar
  | chars (negated : Bool) (ranges : List (Char × Char))
  | char (c : Char)
deriving DecidableEq

/-- `getEsc`: one end of a range. The pattern cannot end with it. -/
def getEsc : List Char → Option (Char × List Char)
  | [] => none
  | c :: rest =>
    if c = '-' ∨ c = ']' then none
    else
      match if c = '\\' then rest else c :: rest with
      | [] => none
      | [_] => none
      | d :: following => some (d, following)

/-- The ranges of a class, up to its closing bracket. Every range takes a
character, so the length of the text is fuel enough. -/
def scanRanges : Nat → List (Char × Char) → List Char → Option (List (Char × Char) × List Char)
  | 0, _, _ => none
  | fuel + 1, found, text =>
    if text.head? = some ']' ∧ found ≠ [] then some (found, text.tail)
    else
      (getEsc text).bind fun low =>
        if low.2.head? = some '-' then
          (getEsc low.2.tail).bind fun high =>
            scanRanges fuel (found ++ [(low.1, high.1)]) high.2
        else scanRanges fuel (found ++ [(low.1, low.1)]) low.2

/-- The term at the start of a pattern. -/
def scanTerm : List Char → Option (Term × List Char)
  | [] => none
  | '*' :: rest => some (.star, rest)
  | '?' :: rest => some (.anyChar, rest)
  | '\\' :: rest =>
    match rest with
    | [] => none
    | c :: following => some (.char c, following)
  | '[' :: rest =>
    let negated := rest.head? = some '^'
    let ranges := if negated then rest.tail else rest
    (scanRanges (ranges.length + 1) [] ranges).map fun scanned =>
      (.chars negated scanned.1, scanned.2)
  | c :: rest => some (.char c, rest)

/-- The terms of a pattern; every term takes a character. -/
def scanTerms : Nat → List Char → Option (List Term)
  | _, [] => some []
  | 0, _ => none
  | fuel + 1, text =>
    (scanTerm text).bind fun scanned => (scanTerms fuel scanned.2).map (scanned.1 :: ·)

/-- What a star can leave of a name. -/
def starRests : List Char → List (List Char)
  | [] => [[]]
  | c :: rest => (c :: rest) :: if c = '/' then [] else starRests rest

def matchTerms : List Term → List Char → Bool
  | [], name => name.isEmpty
  | .star :: terms, name => (starRests name).any (matchTerms terms)
  | .anyChar :: terms, name =>
    match name with
    | [] => false
    | c :: rest => c ≠ '/' && matchTerms terms rest
  | .chars negated ranges :: terms, name =>
    match name with
    | [] => false
    | c :: rest =>
      ((ranges.any fun range => range.1 ≤ c && c ≤ range.2) != negated) && matchTerms terms rest
  | .char expected :: terms, name =>
    match name with
    | [] => false
    | c :: rest => c = expected && matchTerms terms rest

/-- `path.Match`, whose error is no match. -/
def pathMatch (pattern name : String) : Bool :=
  match scanTerms pattern.toList.length pattern.toList with
  | none => false
  | some terms => matchTerms terms name.toList

end DbBackup.Lib.Glob
