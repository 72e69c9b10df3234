import ProseLang.Canonical.Doc
import ProseLang.Program.Tree
import ProseLang.Text.Split

/-!
# Writing a program

`Program.doc` is the text of a program, with a mark for every part that has a place in the source.
Sessions are written on one line with their settings in braces; every other construct keeps its
block layout.
-/

namespace ProseLang

/-- How far a line is indented (`Printer`). -/
structure Indent where
  /-- The number of spaces for each level. -/
  unit : Nat
  level : Nat := 0

namespace Indent

/-- One level further. -/
def deeper (i : Indent) : Indent := { i with level := i.level + 1 }

/-- The spaces at the start of a line (`Printer::write_indent`). -/
def doc (i : Indent) : Doc := String.ofList (List.replicate (i.level * i.unit) ' ')

end Indent

/-- Whether a text is a name: it is made of name characters and of single hyphens between them, does
not start with a digit, and is no reserved word (`is_plain_identifier`). -/
def isPlainName (name : String) : Bool :=
  (name.toList.head?.any isNameStart)
    && (splitAtChar '-' name.toList).all (fun part ↦ !part.isEmpty && part.all isNameChar)
    && !isKeyword name

namespace Doc

/-- A name (`Printer::ident`). -/
def ident (name : Ident) : Doc := mark name.span name.val

/-- A string as it is written (`Printer::string`). -/
def string (s : StringLit) : Doc := mark s.span s.raw

/-- A text as a string (`Printer::quoted`). -/
def quoted (s : Located String) : Doc := mark s.span (StringLiteral.ofText s.val).raw

/-- A number. -/
def number (n : Located Nat) : Doc := mark n.span (toString n.val)

/-- A discretion as it is written. -/
def discretion (d : Discretion) : Doc := mark d.span d.raw

/-- Documents with commas between them (`Printer::comma_list`). -/
def commas (ds : List Doc) : Doc := separated ", " ds

/-- Documents in parentheses, or nothing. -/
def parenthesized (ds : List Doc) : Doc :=
  if ds.isEmpty then empty else text "(" ++ commas ds ++ text ")"

/-- The variable that a header binds (`Printer::as_binding`). -/
def asBinding (b : Option AsBinding) : Doc := optional (fun b ↦ text " as " ++ ident b.name) b

/-- A model: bare if it can be, otherwise as a string (`Printer::model`). -/
def model (m : Ident) : Doc := if isPlainName m.val then ident m else quoted m

/-- The names of skills (`Printer::skill_list`). -/
def skills (names : List Ident) : Doc := text "[" ++ commas (names.map quoted) ++ text "]"

/-- A context (`Printer::context`). -/
def context : Context → Doc
  | .implicit => empty
  | .empty => text "[]"
  | .single name => ident name
  | .list names => text "[" ++ commas (names.map ident) ++ text "]"
  | .object names => text "\x7b " ++ commas (names.map ident) ++ text " \x7d"

/-- A setting of a session. -/
def setting {α : Type} (key : String) (f : α → Doc) (x : Option α) : List Doc :=
  (x.map fun x ↦ text key ++ text ": " ++ f x).toList

/-- Settings in braces. -/
def braced (ds : List Doc) : Doc :=
  if ds.isEmpty then text "\x7b\x7d" else text "\x7b " ++ commas ds ++ text " \x7d"

/-- A session; `others` are the properties that sessions do not have (`Printer::session`). -/
def session (s : Session) (others : List Doc) : Doc :=
  let written := if s.context.isImplicit then none else some s.context
  mark s.span <|
    text "session" ++ optional (fun name ↦ text " " ++ ident name) s.name ++ text ": " ++
      braced (setting "agent" ident s.agent ++ setting "model" model s.model
        ++ setting "prompt" string s.prompt ++ setting "skills" skills s.skills
        ++ setting "context" context written ++ setting "retry" number s.retry
        ++ setting "backoff" quoted s.backoff ++ others)

/-- The header of a parallel block (`Printer::parallel`). -/
def parallelHeader (p : Parallel) : Doc :=
  let modifiers := (p.join.map quoted).toList ++ setting "on-fail" quoted p.onFail
    ++ setting "count" number p.count
  text "parallel" ++ (if modifiers.isEmpty then empty else text " " ++ parenthesized modifiers)
    ++ text ":\n"

/-- The header of a loop (`Printer::loop_block`). -/
def loopHeader (l : Loop) : Doc :=
  text "loop"
    ++ optional (fun c ↦
      text " " ++ text c.kind.keyword.text ++ text " " ++ text c.discretion.raw) l.condition
    ++ asBinding l.index
    ++ optional (fun n ↦ text " (max: " ++ number n ++ text ")") l.maxIterations
    ++ text ":\n"

/-- The header of a loop over a collection. -/
def forEachHeader (f : ForEach) (collection : Doc) : Doc :=
  text (if f.isParallel then "parallel for " else "for ") ++ ident f.item
    ++ optional (fun index ↦ text ", " ++ ident index) f.index
    ++ text " in " ++ collection ++ text ":\n"

/-- The header of a pipe operation. -/
def operationHeader (o : Operation) : Doc :=
  let names := match o.accumulator, o.item with
    | some accumulator, some item => [ident accumulator, ident item]
    | none, some item => [ident item]
    | _, none => []
  text "| " ++ text o.operator.val.text ++ parenthesized names ++ text ":\n"

end Doc

/-- Whether the text of a value ends its last line (`Printer::value_line`). -/
def Expr.endsLine : Expr → Bool
  | .action (.doBlock _) | .action (.pipe _) => true
  | _ => false

mutual

/-- A statement without its indentation (`Printer::statement_text`). -/
def Statement.doc (i : Indent) : Statement → Doc
  | .comment c => Doc.text c.text ++ Doc.newline
  | .importSkill m =>
    Doc.text "import " ++ Doc.string m.skill ++ Doc.text " from " ++ Doc.string m.source
      ++ Doc.newline
  | .agent ⟨name, model, prompt, skills, permissions, properties, _, _⟩ =>
    let line (key : String) (value : Doc) : Doc :=
      i.deeper.doc ++ Doc.text key ++ Doc.text ": " ++ value ++ Doc.newline
    Doc.text "agent " ++ Doc.ident name ++ Doc.text ":\n"
      ++ Doc.optional (fun m ↦ line "model" (Doc.model m)) model
      ++ Doc.optional (fun p ↦ line "prompt" (Doc.string p)) prompt
      ++ (if skills.isEmpty then Doc.empty else line "skills" (Doc.skills skills))
      ++ permissionsDoc i.deeper permissions
      ++ propertyLines i.deeper properties
  | .block ⟨name, params, body, _⟩ =>
    Doc.text "block " ++ Doc.ident name ++ Doc.parenthesized (params.map Doc.ident)
      ++ Doc.text ":\n" ++ bodyDoc i.deeper body
  | .binding kind ⟨name, value, _⟩ =>
    Doc.text kind.keyword.text ++ Doc.text " " ++ Doc.ident name ++ Doc.text " = "
      ++ value.doc i ++ (if value.endsLine then Doc.empty else Doc.newline)
  | .assignment ⟨name, value, _⟩ =>
    Doc.ident name ++ Doc.text " = "
      ++ value.doc i ++ (if value.endsLine then Doc.empty else Doc.newline)
  | .action a =>
    match a with
    | .session _ | .invoke _ => a.doc i ++ Doc.newline
    | .pipe _ | .doBlock _ => a.doc i
  | .parallel ⟨join, onFail, count, keys, body, span⟩ =>
    Doc.parallelHeader ⟨join, onFail, count, keys, [], span⟩ ++ bodyDoc i.deeper body
  | .repeated ⟨count, index, body, _⟩ =>
    Doc.text "repeat " ++ Doc.text (toString count.val) ++ Doc.asBinding index ++ Doc.text ":\n"
      ++ bodyDoc i.deeper body
  | .forEach ⟨item, index, collection, isParallel, forKeyword, inKeyword, body, span⟩ =>
    Doc.forEachHeader ⟨item, index, collection, isParallel, forKeyword, inKeyword, [], span⟩
      (collection.doc i) ++ bodyDoc i.deeper body
  | .loop ⟨condition, maxIterations, index, keys, body, span⟩ =>
    Doc.loopHeader ⟨condition, maxIterations, index, keys, [], span⟩ ++ bodyDoc i.deeper body
  | .attempt ⟨body, handler, cleanup, _⟩ =>
    Doc.text "try:\n" ++ bodyDoc i.deeper body ++ handlerDoc i handler ++ cleanupDoc i cleanup
  | .throw t =>
    Doc.text "throw" ++ Doc.optional (fun m ↦ Doc.text " " ++ Doc.string m) t.message
      ++ Doc.newline
  | .choice ⟨criteria, options, _⟩ =>
    Doc.text "choice " ++ Doc.text criteria.raw ++ Doc.text ":\n" ++ optionsDoc i.deeper options
  | .conditional ⟨branches, otherwise, _⟩ =>
    branchesDoc i (Doc.text "if ") branches ++ otherwiseDoc i otherwise

/-- The lines of a body (`Printer::body`). -/
def bodyDoc (i : Indent) : List Statement → Doc
  | [] => Doc.empty
  | s :: body => i.doc ++ Doc.mark s.span (s.doc i) ++ bodyDoc i body

/-- The lines of a handler (`Printer::try_block`). -/
def handlerDoc (i : Indent) : Option Handler → Doc
  | none => Doc.empty
  | some ⟨error, body, span⟩ =>
    i.doc ++ Doc.mark span
      (Doc.text "catch" ++ Doc.asBinding error ++ Doc.text ":\n" ++ bodyDoc i.deeper body)

/-- The lines of what runs in any case (`Printer::try_block`). -/
def cleanupDoc (i : Indent) : Option Body → Doc
  | none => Doc.empty
  | some ⟨body, span⟩ =>
    i.doc ++ Doc.mark span (Doc.text "finally:\n" ++ bodyDoc i.deeper body)

/-- The lines of what runs if no condition holds. -/
def otherwiseDoc (i : Indent) : Option Body → Doc
  | none => Doc.empty
  | some ⟨body, _⟩ => i.doc ++ Doc.text "else:\n" ++ bodyDoc i.deeper body

/-- The lines of the options of a choice. -/
def optionsDoc (i : Indent) : List ChoiceOption → Doc
  | [] => Doc.empty
  | ⟨label, body, span⟩ :: options =>
    i.doc ++ Doc.mark span
      (Doc.text "option " ++ Doc.string label ++ Doc.text ":\n" ++ bodyDoc i.deeper body)
      ++ optionsDoc i options

/-- The lines of conditional branches. `lead` is what stands before the first condition; the others
are on lines of their own. -/
def branchesDoc (i : Indent) (lead : Doc) : List Branch → Doc
  | [] => Doc.empty
  | ⟨_, condition, body, _⟩ :: branches =>
    lead ++ Doc.text condition.raw ++ Doc.text ":\n" ++ bodyDoc i.deeper body
      ++ branchesDoc i (i.doc ++ Doc.text "elif ") branches

/-- An action; `doBlock` and `pipe` end their last line. -/
def Action.doc (i : Indent) : Action → Doc
  | .session ⟨name, prompt, agent, model, skills, context, retry, backoff, properties, keys,
      arrow, span⟩ =>
    Doc.session ⟨name, prompt, agent, model, skills, context, retry, backoff, [], keys, arrow, span⟩
      (inlineProperties i properties)
  | .pipe ⟨input, operations, _⟩ =>
    input.doc i ++ (if input.endsLine then Doc.empty else Doc.newline)
      ++ operationsDoc i.deeper operations
  | .doBlock ⟨body, _⟩ => Doc.text "do:\n" ++ bodyDoc i.deeper body
  | .invoke ⟨name, args, _⟩ =>
    Doc.text "do " ++ Doc.ident name ++ Doc.parenthesized (valueDocs i args)

/-- The lines of pipe operations (`Printer::pipe`). -/
def operationsDoc (i : Indent) : List Operation → Doc
  | [] => Doc.empty
  | ⟨operator, item, accumulator, body, span⟩ :: operations =>
    i.doc ++ Doc.mark span
      (Doc.operationHeader ⟨operator, item, accumulator, [], span⟩ ++ bodyDoc i.deeper body)
      ++ operationsDoc i operations

/-- A value (`Printer::expr`). -/
def Expr.doc (i : Indent) : Expr → Doc
  | .action a =>
    match a with
    | .session _ => a.doc i
    | .pipe _ | .doBlock _ | .invoke _ => Doc.mark a.span (a.doc i)
  | .string s => Doc.string s
  | .number n => Doc.ident n
  | .ident name => Doc.ident name
  | .array ⟨items, span⟩ =>
    Doc.mark span (Doc.text "[" ++ Doc.commas (valueDocs i items) ++ Doc.text "]")
  | .object ⟨entries, span⟩ => Doc.mark span (Doc.braced (entryDocs i entries))
  | .discretion d => Doc.discretion d

/-- Values one by one. -/
def valueDocs (i : Indent) : List Expr → List Doc
  | [] => []
  | e :: es => e.doc i :: valueDocs i es

/-- The entries of an object one by one. -/
def entryDocs (i : Indent) : List Entry → List Doc
  | [] => []
  | ⟨key, some value⟩ :: es => (Doc.ident key ++ Doc.text ": " ++ value.doc i) :: entryDocs i es
  | ⟨key, none⟩ :: es => Doc.ident key :: entryDocs i es

/-- The lines of the permissions of an agent. -/
def permissionsDoc (i : Indent) : Option (List Property) → Doc
  | none => Doc.empty
  | some properties => i.doc ++ Doc.text "permissions:\n" ++ propertyLines i.deeper properties

/-- The lines of properties (`Printer::property_line`). -/
def propertyLines (i : Indent) : List Property → Doc
  | [] => Doc.empty
  | ⟨key, value, span⟩ :: properties =>
    i.doc ++ Doc.mark span (Doc.ident key ++ value.lines i) ++ propertyLines i properties

/-- What follows the key of a property on a line of its own (`Printer::property_line`). -/
def PropertyValue.lines (i : Indent) : PropertyValue → Doc
  | .expr e => Doc.text ": " ++ e.doc i ++ (if e.endsLine then Doc.empty else Doc.newline)
  | .context c => Doc.text ": " ++ Doc.context c ++ Doc.newline
  | .nested properties => Doc.text ":\n" ++ propertyLines i.deeper properties

/-- Properties on one line, one by one (`Printer::inline_property`). -/
def inlineProperties (i : Indent) : List Property → List Doc
  | [] => []
  | ⟨key, value, _⟩ :: properties =>
    (Doc.ident key ++ Doc.text ": " ++ value.inline i) :: inlineProperties i properties

/-- The value of a property on one line; a group of properties is written like an object
(`Printer::inline_property`). -/
def PropertyValue.inline (i : Indent) : PropertyValue → Doc
  | .expr e => e.doc i
  | .context c => Doc.context c
  | .nested properties =>
    Doc.text "\x7b " ++ Doc.commas (inlineProperties i properties) ++ Doc.text " \x7d"

end

/-- The text of a program with `width` spaces for each level of indentation, but at least one
(`print_program`). -/
def Program.doc (p : Program) (width : Nat) : Doc := bodyDoc { unit := max 1 width } p.statements

end ProseLang
