import ProseLang.Canonical.SourceMap

/-!
# Documents

A document is text in pieces, some of which are marked with the place in the source that they are
written for. Its text and its source map are two readings of it. Main statement: walking through a
document ends where walking through its text ends (`stop_eq_after`).
-/

namespace ProseLang

/-- Text in pieces, with marks of where they come from (`Printer`). -/
inductive Doc
  | text (s : String)
  | append (a b : Doc)
  | mark (origin : Span) (d : Doc)

namespace Doc

instance : Append Doc where append := append

instance : Coe String Doc where coe := text

/-- No text. -/
def empty : Doc := text ""

/-- The end of a line (`Printer::newline`). -/
def newline : Doc := text "\n"

/-- Documents one after the other. -/
def concat : List Doc → Doc
  | [] => empty
  | d :: ds => d ++ concat ds

/-- Documents with a separator between them. -/
def separated (sep : String) : List Doc → Doc
  | [] => empty
  | [d] => d
  | d :: e :: ds => d ++ text sep ++ separated sep (e :: ds)

/-- The document of what may be missing. -/
def optional {α : Type} (f : α → Doc) : Option α → Doc
  | none => empty
  | some x => f x

/-- The text of a document. -/
def chars : Doc → List Char
  | text s => s.toList
  | append a b => a.chars ++ b.chars
  | mark _ d => d.chars

/-- The text of a document, written at the end of another text (`Printer::push`). -/
def writeTo (out : String) : Doc → String
  | text s => out ++ s
  | append a b => b.writeTo (a.writeTo out)
  | mark _ d => d.writeTo out

/-- The text of a document. -/
def render (d : Doc) : String := d.writeTo ""

/-- Where a document that starts at `p` ends. -/
def stop (p : Position) : Doc → Position
  | text s => p.after s.toList
  | append a b => b.stop (a.stop p)
  | mark _ d => d.stop p

/-- The marked stretches of a document that starts at `p` (`Printer::mapped`). Nothing is known
about a stretch that was written for nothing in the source. -/
def mappings (p : Position) : Doc → List Mapping
  | text _ => []
  | append a b => a.mappings p ++ b.mappings (a.stop p)
  | mark origin d =>
    d.mappings p ++ if origin.isNowhere then [] else [⟨⟨p, d.stop p⟩, origin⟩]

/-- The source map of a document. -/
def sourceMap (d : Doc) : SourceMap := ⟨d.mappings .start⟩

/-- Walking through a document ends where walking through its text ends. -/
theorem stop_eq_after (p : Position) (d : Doc) : d.stop p = p.after d.chars := by
  induction d generalizing p with
  | text s => rfl
  | append a b iha ihb => simp [stop, chars, iha, ihb]
  | mark origin d ih => exact ih p

/-- Writing puts the text of a document at the end. -/
theorem toList_writeTo (out : String) (d : Doc) :
    (d.writeTo out).toList = out.toList ++ d.chars := by
  induction d generalizing out with
  | text s => simp [writeTo, chars]
  | append a b iha ihb => simp [writeTo, chars, iha, ihb]
  | mark origin d ih => exact ih out

/-- What is rendered is the text of the document. -/
theorem toList_render (d : Doc) : d.render.toList = d.chars := by
  simp [render, toList_writeTo]

end Doc

end ProseLang
