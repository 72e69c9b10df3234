import ProseLang.Program.Tree
import ProseLang.Text.Whitespace
import ProseLang.Token.Layout

/-!
# Leaving out comments

Comments are left out of a source text (`stripSource`) or of a program (`Program.withoutComments`).
In a text, a line that holds nothing but a comment goes with it, and so do the blanks before any
other comment.
-/

namespace ProseLang

/-! ## In a text -/

/-- What remains of some lexemes, written backwards in front of `kept`, which is what remains of the
text before them, backwards too (`strip_comments`). While `skipping`, all is left out up to the end
of a line. -/
def stripLexemes (kept : List Char) (skipping : Bool) : List LexemeAt → List Char
  | [] => kept
  | l :: ls =>
    if skipping then
      match l.text.dropWhile (· ≠ '\n') with
      | [] => stripLexemes kept true ls
      | _ :: rest => stripLexemes (rest.reverse ++ kept) false ls
    else if l.lexeme = .comment then
      if (kept.takeWhile (· ≠ '\n')).all isWhite then
        stripLexemes (kept.dropWhile (· ≠ '\n')) true ls
      else stripLexemes (kept.dropWhile isWhite) false ls
    else stripLexemes (l.text.reverse ++ kept) false ls

/-- The comments among lexemes (`StrippedComment`). -/
def lexemeComments (ls : List LexemeAt) : List Comment :=
  ls.filterMap fun l ↦ if l.lexeme = .comment then some ⟨String.ofList l.text, l.span⟩ else none

/-- A source text without its comments, and the comments (`strip_comments`). -/
def stripSource (source : String) : String × List Comment :=
  let ls := lexemes .start source.toList
  (String.ofList (stripLexemes [] false ls).reverse, lexemeComments ls)

/-! ## In a program -/

/-- Whether a statement is a comment. -/
def Statement.isComment : Statement → Bool
  | comment _ => true
  | _ => false

mutual

/-- A statement without the comments in its bodies (`retain_statements`). What a session, an agent
or the collection of a loop holds stays as it is. -/
def Statement.withoutComments : Statement → Statement
  | .block ⟨name, params, body, span⟩ => .block ⟨name, params, bodyWithoutComments body, span⟩
  | .binding kind ⟨name, value, span⟩ => .binding kind ⟨name, value.withoutComments, span⟩
  | .assignment ⟨name, value, span⟩ => .assignment ⟨name, value.withoutComments, span⟩
  | .action a => .action a.withoutComments
  | .parallel ⟨join, onFail, count, keys, body, span⟩ =>
    .parallel ⟨join, onFail, count, keys, bodyWithoutComments body, span⟩
  | .repeated ⟨count, index, body, span⟩ => .repeated ⟨count, index, bodyWithoutComments body, span⟩
  | .forEach ⟨item, index, collection, isParallel, forKeyword, inKeyword, body, span⟩ =>
    .forEach ⟨item, index, collection, isParallel, forKeyword, inKeyword,
      bodyWithoutComments body, span⟩
  | .loop ⟨condition, maxIterations, index, keys, body, span⟩ =>
    .loop ⟨condition, maxIterations, index, keys, bodyWithoutComments body, span⟩
  | .attempt ⟨body, handler, cleanup, span⟩ =>
    .attempt ⟨bodyWithoutComments body, handlerWithoutComments handler,
      clauseWithoutComments cleanup, span⟩
  | .choice ⟨criteria, options, span⟩ => .choice ⟨criteria, optionsWithoutComments options, span⟩
  | .conditional ⟨branches, otherwise, span⟩ =>
    .conditional ⟨branchesWithoutComments branches, clauseWithoutComments otherwise, span⟩
  | .comment c => .comment c
  | .importSkill i => .importSkill i
  | .agent a => .agent a
  | .throw t => .throw t

/-- A body without comments (`retain_statements`). -/
def bodyWithoutComments : List Statement → List Statement
  | [] => []
  | s :: body =>
    if s.isComment then bodyWithoutComments body else s.withoutComments :: bodyWithoutComments body

/-- A handler without comments. -/
def handlerWithoutComments : Option Handler → Option Handler
  | none => none
  | some ⟨error, body, span⟩ => some ⟨error, bodyWithoutComments body, span⟩

/-- A clause that has a body only, without comments. -/
def clauseWithoutComments : Option Body → Option Body
  | none => none
  | some ⟨body, span⟩ => some ⟨bodyWithoutComments body, span⟩

/-- The options of a choice without comments. -/
def optionsWithoutComments : List ChoiceOption → List ChoiceOption
  | [] => []
  | ⟨label, body, span⟩ :: options =>
    ⟨label, bodyWithoutComments body, span⟩ :: optionsWithoutComments options

/-- Conditional branches without comments. -/
def branchesWithoutComments : List Branch → List Branch
  | [] => []
  | ⟨keyword, condition, body, span⟩ :: branches =>
    ⟨keyword, condition, bodyWithoutComments body, span⟩ :: branchesWithoutComments branches

/-- An action without the comments in its bodies. -/
def Action.withoutComments : Action → Action
  | .session s => .session s
  | .pipe ⟨input, operations, span⟩ =>
    .pipe ⟨input.withoutComments, operationsWithoutComments operations, span⟩
  | .doBlock ⟨body, span⟩ => .doBlock ⟨bodyWithoutComments body, span⟩
  | .invoke ⟨name, args, span⟩ => .invoke ⟨name, valuesWithoutComments args, span⟩

/-- Pipe operations without the comments in their bodies (`retain_in_pipe`). -/
def operationsWithoutComments : List Operation → List Operation
  | [] => []
  | ⟨operator, item, accumulator, body, span⟩ :: operations =>
    ⟨operator, item, accumulator, bodyWithoutComments body, span⟩
      :: operationsWithoutComments operations

/-- A value without the comments in its bodies (`retain_in_expr`). -/
def Expr.withoutComments : Expr → Expr
  | .action a => .action a.withoutComments
  | .array ⟨items, span⟩ => .array ⟨valuesWithoutComments items, span⟩
  | .object ⟨entries, span⟩ => .object ⟨entriesWithoutComments entries, span⟩
  | .string s => .string s
  | .number n => .number n
  | .ident name => .ident name
  | .discretion d => .discretion d

/-- Values without the comments in their bodies. -/
def valuesWithoutComments : List Expr → List Expr
  | [] => []
  | e :: es => e.withoutComments :: valuesWithoutComments es

/-- The entries of an object without the comments in their bodies. -/
def entriesWithoutComments : List Entry → List Entry
  | [] => []
  | ⟨key, some value⟩ :: es => ⟨key, some value.withoutComments⟩ :: entriesWithoutComments es
  | ⟨key, none⟩ :: es => ⟨key, none⟩ :: entriesWithoutComments es

end

/-- A program without comments (`strip_program_comments`). -/
def Program.withoutComments (p : Program) : Program :=
  { p with statements := bodyWithoutComments p.statements, comments := [] }

end ProseLang
