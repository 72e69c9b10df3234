import ProseLang.Program.Visit
import ProseLang.Text.Slice
import ProseLang.Text.Split

/-!
# Highlighting

An editor colours stretches of a program by what they are. The stretches are read off the parts of
a program, so that a name is coloured as an agent only where an agent is meant. Literals that span
lines give one stretch for each line.

`Program.highlights` sorts them by place and keeps one for each place. Main statements: a kind is
found again by its number (`HighlightKind.getElem?_index`), and nothing is kept that was not there
(`mem_of_mem_firstOfEach`).
-/

namespace ProseLang

/-- What a stretch of a program is (`TokenType`). -/
inductive HighlightKind
  | keyword
  | operator
  | string
  | comment
  | number
  | agent
  | skill
  | variable
  | parameter
  | discretion
  | property
  | function
deriving DecidableEq, Repr

namespace HighlightKind

/-- Every kind, in the order by which editors number them (`TokenType::ALL`). -/
def all : List HighlightKind :=
  [.keyword, .operator, .string, .comment, .number, .agent, .skill, .variable, .parameter,
   .discretion, .property, .function]

/-- The name by which editors know a kind (`TokenType::lsp_type`). -/
def text : HighlightKind → String
  | keyword => "keyword"
  | operator => "operator"
  | string => "string"
  | comment => "comment"
  | number => "number"
  | agent => "agent"
  | skill => "skill"
  | .variable => "variable"
  | parameter => "parameter"
  | discretion => "discretion"
  | property => "property"
  | function => "function"

/-- The number of a kind (`TokenType::index`). -/
def index (k : HighlightKind) : Nat := all.idxOf k

/-- The list of kinds leaves none out. -/
theorem getElem?_index (k : HighlightKind) : all[k.index]? = some k := by
  cases k <;> decide

end HighlightKind

/-- What else can be said about a stretch (`modifiers`). -/
inductive HighlightModifier
  | declaration
  | readonly
  | definition
deriving DecidableEq, Repr

namespace HighlightModifier

/-- Every modifier, in the order of their bits. -/
def all : List HighlightModifier := [.declaration, .readonly, .definition]

/-- The name by which editors know a modifier. -/
def text : HighlightModifier → String
  | declaration => "declaration"
  | readonly => "readonly"
  | definition => "definition"

/-- The bit of a modifier, by the place of the modifier in the list of all. -/
def bit : HighlightModifier → Nat
  | declaration => 1
  | readonly => 2
  | definition => 4

end HighlightModifier

/-- A stretch of one line: the line counted from zero, start and length in UTF-16 units
(`SemanticToken`). -/
structure Highlight where
  line : Nat
  start : Nat
  length : Nat
  kind : HighlightKind
  modifiers : List HighlightModifier := []
deriving DecidableEq, Repr

namespace Highlight

/-- The bits of the modifiers. -/
def bits (h : Highlight) : Nat := h.modifiers.foldr (fun m n ↦ m.bit + n) 0

/-- A stretch, if it has a length (`TokenCollector::push`). -/
def nonempty (h : Highlight) : List Highlight := if h.length = 0 then [] else [h]

/-- What is written at a span on one line (`TokenCollector::span`). -/
def ofSpan (kind : HighlightKind) (s : Span) (modifiers : List HighlightModifier) :
    List Highlight :=
  if s.isNowhere || s.isMultiline then []
  else nonempty ⟨s.start.line - 1, s.start.column, s.stop.column - s.start.column, kind, modifiers⟩

/-- A name (`TokenCollector::ident`). -/
def ofIdent (kind : HighlightKind) (name : Ident) (modifiers : List HighlightModifier) :
    List Highlight :=
  ofSpan kind name.span modifiers

/-- Names without modifiers. -/
def ofIdents (kind : HighlightKind) (names : List Ident) : List Highlight :=
  names.flatMap fun name ↦ ofIdent kind name []

/-- A name that is declared where it stands. -/
def ofDeclared (kind : HighlightKind) (name : Ident) : List Highlight :=
  ofIdent kind name [.declaration]

/-- A reserved word at the start of a span (`TokenCollector::keyword`). -/
def ofKeyword (word : Keyword) (s : Span) : List Highlight :=
  if s.isNowhere then []
  else nonempty ⟨s.start.line - 1, s.start.column, utf16Length word.text.toList, .keyword, []⟩

/-- The lines of a text from the `n`th line on, the first of them starting at `column`. -/
def ofLines (kind : HighlightKind) (n column : Nat) : List (List Char) → List Highlight
  | [] => []
  | line :: lines =>
    let shown := if line.getLast? = some '\r' then line.dropLast else line
    nonempty ⟨n, column, utf16Length shown, kind, []⟩ ++ ofLines kind (n + 1) 0 lines

/-- A text that starts at `p` (`TokenCollector::text`). -/
def ofText (kind : HighlightKind) (p : Position) (text : List Char) : List Highlight :=
  if p.line = 0 then [] else ofLines kind (p.line - 1) p.column (splitAtChar '\n' text)

/-- The rest of a string from the byte `done` of its text on, which stands at `p`, with its names
(`TokenCollector::string`). A brace belongs to the text beside it. -/
def ofStringFrom (kind : HighlightKind) (s : StringLit) (done : Nat) (p : Position) :
    List Ident → List Highlight
  | [] => ((dropBytes? done s.raw.toList).map (ofText kind p)).getD []
  | name :: names =>
    let opening := name.span.start.offset - s.span.start.offset
    let closing := name.span.stop.offset - s.span.start.offset
    match sliceBytes? done (opening + 1) s.raw.toList with
    | none => ((dropBytes? done s.raw.toList).map (ofText kind p)).getD []
    | some before =>
      let named : Highlight :=
        ⟨name.span.start.line - 1, name.span.start.column + 1, utf16Length name.val.toList,
          .variable, []⟩
      let stop := name.span.stop
      ofText kind p before ++ named.nonempty
        ++ ofStringFrom kind s (closing - 1) ⟨stop.offset - 1, stop.line, stop.column - 1⟩ names

/-- A string with the names in it (`TokenCollector::string`). -/
def ofString (kind : HighlightKind) (s : StringLit) : List Highlight :=
  if s.span.isNowhere then [] else ofStringFrom kind s 0 s.span.start s.interpolations

/-- A model, if it is written as a string (`TokenCollector::model`). -/
def ofModel (m : Ident) : List Highlight :=
  if utf8Length m.val.toList < m.span.length then ofIdent .string m [] else []

/-- What something is highlighted with, if it is there. -/
def ofOption {α : Type} (f : α → List Highlight) (x : Option α) : List Highlight :=
  (x.map f).getD []

/-- The variable that a header binds (`TokenCollector::as_binding`). -/
def ofAsBinding (b : AsBinding) : List Highlight :=
  ofKeyword .as_ b.keyword ++ ofDeclared .parameter b.name

/-- A number (`TokenCollector::number`). -/
def ofNumber (n : Located Nat) : List Highlight := ofSpan .number n.span []

/-- A word that is written as a string. -/
def ofQuoted (s : Located String) : List Highlight := ofSpan .string s.span []

/-- The conditions of branches: `if`, and `elif` after the first (`TokenCollector::visit_if`). -/
def ofBranches : List Branch → List Highlight
  | [] => []
  | b :: branches =>
    ofKeyword .if_ b.keyword ++ branches.flatMap fun b ↦ ofKeyword .elif b.keyword

end Highlight

open Highlight in
/-- What is highlighted of a statement, apart from what is within it. -/
def Statement.highlights : Statement → List Highlight
  | .comment _ | .action _ => []
  | .importSkill i =>
    ofKeyword .import_ i.span ++ ofString .skill i.skill ++ ofKeyword .from_ i.fromKeyword
      ++ ofString .string i.source
  | .agent a =>
    ofKeyword .agent a.span ++ ofIdent .agent a.name [.declaration, .definition]
      ++ ofIdents .property a.keys ++ ofOption ofModel a.model ++ ofIdents .skill a.skills
  | .block b =>
    ofKeyword .block b.span ++ ofIdent .function b.name [.declaration, .definition]
      ++ b.params.flatMap (ofDeclared .parameter)
  | .binding .variable b => ofKeyword .let_ b.span ++ ofDeclared .variable b.name
  | .binding .constant b =>
    ofKeyword .const b.span ++ ofIdent .variable b.name [.declaration, .readonly]
  | .assignment b => ofIdent .variable b.name []
  | .parallel p =>
    ofKeyword .parallel p.span ++ ofIdents .property p.keys ++ ofOption ofQuoted p.join
      ++ ofOption ofQuoted p.onFail ++ ofOption ofNumber p.count
  | .repeated r => ofKeyword .repeat_ r.span ++ ofNumber r.count ++ ofOption ofAsBinding r.index
  | .forEach f =>
    (if f.isParallel then ofKeyword .parallel f.span else []) ++ ofKeyword .for_ f.forKeyword
      ++ ofDeclared .parameter f.item ++ ofOption (ofDeclared .parameter) f.index
      ++ ofKeyword .in_ f.inKeyword
  | .loop l =>
    ofKeyword .loop l.span ++ ofOption (fun c ↦ ofKeyword c.kind.keyword c.keyword) l.condition
      ++ ofOption ofAsBinding l.index ++ ofIdents .property l.keys
      ++ ofOption ofNumber l.maxIterations
  | .attempt t =>
    ofKeyword .try_ t.span
      ++ ofOption (fun h ↦ ofKeyword .catch_ h.span ++ ofOption ofAsBinding h.error) t.handler
      ++ ofOption (fun c ↦ ofKeyword .finally_ c.span) t.cleanup
  | .throw t => ofKeyword .throw t.span
  | .choice c =>
    ofKeyword .choice c.span ++ c.options.flatMap fun o ↦ ofKeyword .option o.span
  | .conditional c =>
    ofBranches c.branches ++ ofOption (fun b ↦ ofKeyword .else_ b.span) c.otherwise

open Highlight in
/-- What is highlighted of an action, apart from what is within it. -/
def Action.highlights : Action → List Highlight
  | .session s =>
    ofKeyword .session s.span ++ ofOption (ofDeclared .variable) s.name
      ++ ofOption (ofIdent .agent · []) s.agent ++ ofOption ofModel s.model
      ++ ofIdents .skill (s.skills.getD []) ++ ofIdents .property s.keys
      ++ ofOption ofNumber s.retry ++ ofOption ofQuoted s.backoff
      ++ ofOption (ofSpan .operator · []) s.arrow
  | .pipe _ => []
  | .doBlock b => ofKeyword .do_ b.span
  | .invoke i => ofKeyword .do_ i.span ++ ofIdent .function i.name []

open Highlight in
/-- What is highlighted of a pipe operation, apart from its body. -/
def OperationOf.highlights (o : Operation) : List Highlight :=
  (if o.span.isNowhere then []
    else [⟨o.span.start.line - 1, o.span.start.column, 1, .operator, []⟩])
    ++ ofSpan .function o.operator.span []
    ++ ofOption (ofDeclared .parameter) o.accumulator ++ ofOption (ofDeclared .parameter) o.item

open Highlight in
/-- What is highlighted of a part, apart from what is within it (`TokenCollector`). -/
def Visit.highlights : Visit → List Highlight
  | .statement s => s.highlights
  | .statementEnd => []
  | .action a => a.highlights
  | .operation o => o.highlights
  | .property p => ofIdent .property p.key []
  | .value (.number n) => ofSpan .number n.span []
  | .value (.object o) =>
    (o.entries.filter (·.value.isSome)).flatMap fun e ↦ ofIdent .property e.key []
  | .value _ => []
  | .context c => ofIdents .variable c.names
  | .string s => ofString .string s
  | .discretion d =>
    if d.span.isNowhere then [] else ofText .discretion d.span.start d.raw.toList
  | .reference name => ofIdent .variable name []

/-- The parts looked into for highlights: all but imports, whose strings have colours of their
own. -/
def highlightedInside : Visit → Bool
  | .statement (.importSkill _) => false
  | _ => true

namespace Highlight

/-- Whether a stretch starts no later than another. -/
def inOrder (a b : Highlight) : Bool := a.line < b.line || (a.line = b.line && a.start ≤ b.start)

/-- Whether two stretches start at the same place. -/
def samePlace (a b : Highlight) : Bool := a.line = b.line && a.start = b.start

/-- The first of each run of stretches at the same place, after one at the place of `last`. -/
def firstsAfter (last : Highlight) : List Highlight → List Highlight
  | [] => []
  | h :: hs => if last.samePlace h then firstsAfter last hs else h :: firstsAfter h hs

/-- The first of each run of stretches at the same place. -/
def firstOfEach : List Highlight → List Highlight
  | [] => []
  | h :: hs => h :: firstsAfter h hs

private theorem mem_of_mem_firstsAfter {last h : Highlight} {hs : List Highlight}
    (member : h ∈ firstsAfter last hs) : h ∈ hs := by
  induction hs generalizing last with
  | nil => exact member
  | cons g hs ih =>
    rw [firstsAfter] at member
    split at member
    · exact List.mem_cons_of_mem _ (ih member)
    · rcases List.mem_cons.1 member with rfl | member
      · exact List.mem_cons_self
      · exact List.mem_cons_of_mem _ (ih member)

/-- What is kept was there. -/
theorem mem_of_mem_firstOfEach {h : Highlight} {hs : List Highlight} (member : h ∈ firstOfEach hs) :
    h ∈ hs := by
  cases hs with
  | nil => exact member
  | cons g hs =>
    rcases List.mem_cons.1 member with rfl | member
    · exact List.mem_cons_self
    · exact List.mem_cons_of_mem _ (mem_of_mem_firstsAfter member)

end Highlight

/-- Every stretch of a program that is highlighted, in the order of the text
(`get_semantic_tokens`). -/
def Program.highlights (p : Program) : List Highlight :=
  let comments := p.comments.flatMap fun c ↦
    Highlight.ofText .comment c.span.start c.text.toList
  let parts := (bodyVisits highlightedInside p.statements).flatMap Visit.highlights
  Highlight.firstOfEach ((comments ++ parts).mergeSort Highlight.inOrder)

end ProseLang
