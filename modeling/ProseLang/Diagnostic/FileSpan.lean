/-!
# Spans within named files

A `FileSpan` is a byte range of a named file. Its end is never before its start: `FileSpan.ofRange`
raises the end where needed.
-/

namespace ProseLang

/-- A byte range of a named file, from `start` up to but not including `stop` (`SourceSpan`). -/
structure FileSpan where
  file : String
  start : Nat
  stop : Nat
  start_le_stop : start ≤ stop
deriving DecidableEq, Repr

namespace FileSpan

/-- The range between two offsets; an end before the start is raised to it (`SourceSpan::new`). -/
def ofRange (file : String) (start stop : Nat) : FileSpan :=
  ⟨file, start, max stop start, Nat.le_max_right ..⟩

/-- The number of bytes covered (`SourceSpan::len`). -/
def length (s : FileSpan) : Nat := s.stop - s.start

/-- Whether no byte is covered (`SourceSpan::is_empty`). -/
def isEmpty (s : FileSpan) : Bool := s.start = s.stop

/-- Whether the byte at `offset` is covered (`SourceSpan::contains`). -/
def contains (s : FileSpan) (offset : Nat) : Bool := s.start ≤ offset && offset < s.stop

/-- The smallest range that covers both; ranges of different files have none
(`SourceSpan::merge`). -/
def merge? (s t : FileSpan) : Option FileSpan :=
  if s.file = t.file then
    some ⟨s.file, min s.start t.start, max s.stop t.stop, by
      have := s.start_le_stop
      have := t.start_le_stop
      omega⟩
  else none

end FileSpan

/-- How a label marks its range (`LabelStyle`). -/
inductive LabelStyle
  /-- Underlined with the mark of the severity. -/
  | primary
  /-- Underlined with dashes. -/
  | secondary
deriving DecidableEq, Repr, Inhabited

/-- A range with a remark (`Label`). -/
structure Label where
  span : FileSpan
  message : String
  style : LabelStyle
deriving DecidableEq, Repr

/-- The main location of a diagnostic with all its labels (`MultiSpan`). -/
structure Marks where
  primary : Option FileSpan := none
  labels : List Label := []
deriving DecidableEq, Repr

namespace Marks

/-- A main location without labels (`MultiSpan::from_span`). -/
def ofSpan (s : FileSpan) : Marks := { primary := some s }

/-- Adds a primary label; the first one also gives the main location if there is none yet
(`MultiSpan::push_primary`). -/
def addPrimary (m : Marks) (span : FileSpan) (message : String) : Marks where
  primary := m.primary.or (some span)
  labels := m.labels ++ [⟨span, message, .primary⟩]

/-- Adds a secondary label (`MultiSpan::push_secondary`). -/
def addSecondary (m : Marks) (span : FileSpan) (message : String) : Marks where
  primary := m.primary
  labels := m.labels ++ [⟨span, message, .secondary⟩]

/-- Adds a label of either style. -/
def add (m : Marks) : LabelStyle → FileSpan → String → Marks
  | .primary => m.addPrimary
  | .secondary => m.addSecondary

/-- Whether nothing is marked (`MultiSpan::is_empty`). -/
def isEmpty (m : Marks) : Bool := m.primary.isNone && m.labels.isEmpty

end Marks

end ProseLang
