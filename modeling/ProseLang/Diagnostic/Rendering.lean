import ProseLang.Diagnostic.Basic
import ProseLang.Diagnostic.Sources
import ProseLang.Text.Width

/-!
# Rendered diagnostics

`renderShort` gives a diagnostic on one line. `renderAll` gives the full form: each diagnostic
with the source lines it marks, and a summary. The full form is a list of fragments, each in one
style, possibly cut short by a source that is missing. A `Sink` of bounded capacity then takes the
fragments in.
-/

namespace ProseLang

/-- A text color. -/
inductive Color
  | red
  | yellow
  | cyan
  | green
  | blue
  | rgb (r g b : Nat)
deriving DecidableEq, Repr

/-- The palettes for severities. -/
inductive Palette
  | standard
  /-- Colors that stay apart under color blindness. -/
  | colorblind
deriving DecidableEq, Repr

/-- The color of a severity in a palette (`TerminalRenderer::severity_color`). -/
def Palette.color : Palette → Severity → Color
  | standard, .error => .red
  | standard, .warning => .yellow
  | standard, .note => .cyan
  | standard, .help => .green
  | colorblind, .error => .rgb 213 94 0
  | colorblind, .warning => .rgb 240 228 66
  | colorblind, .note => .rgb 0 114 178
  | colorblind, .help => .rgb 0 114 178

/-- How diagnostics are rendered; source lines wider than `maxWidth` are cut short
(`RenderConfig`). -/
structure RenderConfig where
  palette : Palette := .standard
  maxWidth : Nat := 120
deriving Repr

/-- A piece of output, plain or in bold color. -/
structure Fragment where
  color : Option Color
  text : String
deriving DecidableEq, Repr

/-- Why a rendering stopped (`DiagnosticError`). -/
inductive RenderError
  /-- The text of a file is not known. -/
  | sourceMissing (file : String)
  /-- The output takes no more bytes. -/
  | sinkFull
deriving DecidableEq, Repr

/-- The text of an error. -/
def RenderError.message : RenderError → String
  | sourceMissing file => "source file not found: " ++ file
  | sinkFull => "I/O error: sink is full"

/-- Fragments in order, and what stopped them, if anything did. -/
structure Rendering where
  fragments : List Fragment
  stopped : Option RenderError := none
deriving DecidableEq, Repr

namespace Rendering

/-- A rendering of given fragments. -/
def of (fragments : List Fragment) : Rendering := { fragments }

/-- One rendering after another; nothing follows one that stopped. -/
def append (a b : Rendering) : Rendering :=
  match a.stopped with
  | some _ => a
  | none => ⟨a.fragments ++ b.fragments, b.stopped⟩

/-- All the renderings up to and including the first one that stopped. -/
def concat (rs : List Rendering) : Rendering := rs.foldr append (of [])

/-- The characters written. -/
def text (r : Rendering) : String := String.join (r.fragments.map Fragment.text)

end Rendering

private def plain (text : String) : Fragment := ⟨none, text⟩

private def bold (color : Color) (text : String) : Fragment := ⟨some color, text⟩

private def spaces (n : Nat) : String := String.ofList (List.replicate n ' ')

/-- `file:line:column: severity: message`, as much of the location as is known (`render_short`). -/
def renderShort (d : Diagnostic) (sources : Sources) : String :=
  let rest := d.severity.text ++ ": " ++ d.message
  match d.marks.primary with
  | none => rest
  | some span =>
    match sources.resolve? span with
    | none => span.file ++ ": " ++ rest
    | some r =>
      span.file ++ ":" ++ toString r.start.line ++ ":" ++ toString r.start.column ++ ": " ++ rest

/-- The margin of a line, with the line's number if there is one
(`TerminalRenderer::write_gutter`). -/
private def gutter (width : Nat) (line : Option Nat) : Fragment :=
  let number := (line.map toString).getD ""
  bold .blue (spaces (width - number.length) ++ number ++ " |")

private def fitting (limit width : Nat) : List Char → List Char
  | [] => []
  | c :: line =>
    if limit < width + charWidth c then [] else c :: fitting limit (width + charWidth c) line

/-- The line itself if it fits, else as much of its start as leaves room for an ellipsis
(`TerminalRenderer::truncate`). -/
def shorten (maxWidth : Nat) (line : List Char) : List Char :=
  if displayWidth line ≤ maxWidth then line
  else fitting (maxWidth - 3) 0 line ++ ['.', '.', '.']

/-- What a range is underlined with (`primary_marker`). -/
private def markOf : Severity → Char
  | .error => '^'
  | .warning => '~'
  | .note => '-'
  | .help => '-'

/-- The marked lines of a range (`TerminalRenderer::write_snippet`). -/
private def snippet (config : RenderConfig) (width : Nat) (severity : Severity)
    (label : Option Label) (r : ResolvedSpan) : List Fragment :=
  match r.lines with
  | [] => []
  | line :: _ =>
    let pad := displayWidth (line.take (r.start.column - 1))
    let tail := line.drop (r.start.column - 1)
    let covered :=
      if r.isMultiline then tail else tail.take (r.stop.column - r.start.column)
    let count := max (displayWidth covered) 1
    let (mark, color) :=
      match (label.map Label.style).getD .primary with
      | .primary => (markOf severity, config.palette.color severity)
      | .secondary => ('-', Color.blue)
    let remark :=
      match label with
      | some l => if l.message.isEmpty then "" else " " ++ l.message
      | none => ""
    [ gutter width (some r.start.line),
      plain (" " ++ String.ofList (shorten config.maxWidth line) ++ "\n"),
      gutter width none,
      plain (" " ++ spaces pad),
      bold color (String.ofList (List.replicate count mark) ++ remark),
      plain "\n" ]

private def located (config : RenderConfig) (sources : Sources) (d : Diagnostic)
    (primary : FileSpan) : Rendering :=
  match sources.resolve? primary with
  | none => ⟨[], some (.sourceMissing primary.file)⟩
  | some r =>
    let width := max (toString r.stop.line).length 2
    let head :=
      [ plain (spaces width ++ "--> " ++ primary.file ++ ":" ++ toString r.start.line ++ ":"
          ++ toString r.start.column ++ "\n"),
        gutter width none,
        plain "\n" ]
    let snippets :=
      if d.marks.labels.isEmpty then snippet config width d.severity none r
      else d.marks.labels.flatMap fun label ↦
        match sources.resolve? label.span with
        | some s => snippet config width d.severity (some label) s
        | none => []
    .of (head ++ snippets)

/-- Severity, code and message (`TerminalRenderer::write_header`). -/
private def header (config : RenderConfig) (d : Diagnostic) : List Fragment :=
  let code := match d.code with
    | some code => "[" ++ code ++ "]"
    | none => ""
  [ bold (config.palette.color d.severity) (d.severity.text ++ code),
    plain (": " ++ d.message ++ "\n") ]

private def childLine (config : RenderConfig) (d : Diagnostic) : List Fragment :=
  [ plain "  = ",
    bold (config.palette.color d.severity) d.severity.text,
    plain (": " ++ d.message ++ "\n") ]

/-- One diagnostic in full: a header, the marked source lines, and the notes beneath it
(`TerminalRenderer::render`). -/
def render (config : RenderConfig) (sources : Sources) (d : Diagnostic) : Rendering :=
  let body := match d.marks.primary with
    | some primary => located config sources d primary
    | none => .of []
  .concat
    [ .of (header config d),
      body,
      .of (d.children.flatMap (childLine config) ++ [plain "\n"]) ]

private def counted (n : Nat) (word : String) : String :=
  toString n ++ " " ++ word ++ (if n = 1 then "" else "s")

/-- The number of errors, or of warnings if there is no error
(`TerminalRenderer::render_summary`). -/
def renderSummary (config : RenderConfig) (ds : List Diagnostic) : Rendering :=
  let errors := ds.countP Diagnostic.isError
  let warnings := ds.countP fun d ↦ d.severity = .warning
  if 0 < errors then
    .of [bold (config.palette.color .error) "error",
      plain (": " ++ counted errors "error" ++ " found\n")]
  else if 0 < warnings then
    .of [bold (config.palette.color .warning) "warning",
      plain (": " ++ counted warnings "warning" ++ " found\n")]
  else .of []

/-- Every diagnostic in full, then the summary (`TerminalRenderer::render_all`). -/
def renderAll (config : RenderConfig) (sources : Sources) (ds : List Diagnostic) : Rendering :=
  .append (.concat (ds.map (render config sources))) (renderSummary config ds)

namespace Rendering

private def joinRuns : List Fragment → List Fragment
  | [] => []
  | f :: rest =>
    if f.text.isEmpty then joinRuns rest
    else
      match joinRuns rest with
      | [] => [f]
      | g :: gs => if f.color = g.color then ⟨f.color, f.text ++ g.text⟩ :: gs else f :: g :: gs

/-- The fragments with neighbours of equal style made one and empty ones left out. -/
def runs (r : Rendering) : List Fragment := joinRuns r.fragments

/-- What a sink that takes `capacity` bytes in all makes of a rendering. Output that does not fit
comes before whatever would have stopped the rendering later. -/
def into (r : Rendering) (capacity : Option Nat) : Except RenderError (List Fragment) :=
  if capacity.any (· < r.text.utf8ByteSize) then .error .sinkFull
  else match r.stopped with
    | some e => .error e
    | none => .ok r.runs

end Rendering

end ProseLang
