import ProseLang.Diagnostic.FileSpan
import ProseLang.Text.Lines

/-!
# Source texts by file name

`Sources` keeps the text of each file. A file span resolves to the lines and columns of its two
ends together with the text of the lines it touches.
-/

namespace ProseLang

/-- A file span with the lines and columns of its ends and the lines it touches (`ResolvedSpan`). -/
structure ResolvedSpan where
  span : FileSpan
  start : LineColumn
  stop : LineColumn
  lines : List (List Char)
deriving Repr

/-- Whether the two ends stand on different lines (`ResolvedSpan::is_multiline`). -/
def ResolvedSpan.isMultiline (r : ResolvedSpan) : Bool := r.start.line ≠ r.stop.line

/-- Texts by file name, the latest first (`SourceCache`). -/
structure Sources where
  files : List (String × String) := []

namespace Sources

/-- Adds a text; it hides an earlier one of the same name (`SourceCache::add_source`). -/
def add (s : Sources) (file text : String) : Sources := ⟨(file, text) :: s.files⟩

/-- The text of a file (`SourceCache::get_source`). -/
def get? (s : Sources) (file : String) : Option String := s.files.lookup file

/-- The lines and columns of a span in a text (`SourceCache::resolve_span`). An end inside a
character resolves to the end of the text. So a span may end on an earlier line than it starts on;
it then touches no line if its end is just one line up, and else every line from its start on. -/
def resolveIn (text : List Char) (span : FileSpan) : ResolvedSpan :=
  let start := lineColumnAt text span.start
  let stop := lineColumnAt text span.stop
  let rest := (textLines text).drop (start.line - 1)
  { span, start, stop
    lines := if stop.line + 1 < start.line then rest else rest.take (stop.line + 1 - start.line) }

/-- Resolves a span; a span of an unknown file has no resolution (`SourceCache::resolve_span`). -/
def resolve? (s : Sources) (span : FileSpan) : Option ResolvedSpan :=
  (s.get? span.file).map fun text ↦ resolveIn text.toList span

end Sources

end ProseLang
