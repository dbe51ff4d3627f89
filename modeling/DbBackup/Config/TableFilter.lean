import DbBackup.Lib.Glob

/-!
Owns the table filter of a job: `globMatchAny` of `internal/config/config.go`,
`SchemaOnly.Matches` and `TableFilter.Apply` of `internal/config/jobs.go`.

Does not own the names an engine calls `Apply` with.
-/

namespace DbBackup.Config

open Lib.Glob

def globMatchAny (patterns : List String) (s : String) : Bool :=
  patterns.any fun p => p = s || p = "*" || pathMatch p s

structure SchemaOnly where
  all : Bool := false
  tables : List String := []
deriving DecidableEq

def SchemaOnly.matches (s : SchemaOnly) (table : String) : Bool :=
  s.all || globMatchAny s.tables table

structure TableFilter where
  included : List String := []
  excluded : List String := []
  schemaOnly : SchemaOnly := {}
deriving DecidableEq

/-- The patterns in `Include` let a name pass. -/
def TableFilter.includes (f : TableFilter) (table : String) : Bool :=
  f.included.isEmpty || globMatchAny f.included table

/-- `Apply`: whether a table is dumped, and whether as schema only. -/
def TableFilter.apply (f : TableFilter) (table : String) : Bool × Bool :=
  if globMatchAny f.excluded table then (false, false)
  else if !f.includes table then (false, false)
  else (true, f.schemaOnly.matches table)

theorem TableFilter.apply_fst (f : TableFilter) (table : String) :
    (f.apply table).1 = (!globMatchAny f.excluded table && f.includes table) := by
  unfold TableFilter.apply
  cases globMatchAny f.excluded table <;> cases f.includes table <;> simp

theorem TableFilter.apply_snd (f : TableFilter) (table : String) :
    (f.apply table).2 = ((f.apply table).1 && f.schemaOnly.matches table) := by
  unfold TableFilter.apply
  cases globMatchAny f.excluded table <;> cases f.includes table <;> simp

end DbBackup.Config
