import ProseLang.Canonical.Compilation
import ProseLang.Diagnostic.Registry
import ProseLang.Editor.Deltas
import ProseLang.Editor.Problem
import ProseLang.Report
import ProseLang.Text.LineIndex
import ProseLang.Proofs.Canonical.Idempotence
import ProseLang.Proofs.Canonical.Marks
import ProseLang.Proofs.Grammar.Locality
import ProseLang.Proofs.Token.LayoutGrammar
import ProseLang.Proofs.Token.Partition
import ProseLang.Proofs.Grammar.Coverage
import ProseLang.Proofs.Validation.Scoping
import ProseLang.Proofs.Canonical.Validity
import ProseLang.Proofs.Validation.Reordering
import ProseLang.Proofs.Canonical.Hygiene
import ProseLang.Proofs.Canonical.Usage
import ProseLang.Proofs.Token.Indentation
import ProseLang.Proofs.Grammar.Totality
import ProseLang.Proofs.Grammar.Wording
import ProseLang.Proofs.Grammar.Comments
import ProseLang.Proofs.Grammar.LineEndings
import ProseLang.Proofs.Canonical.Kept
import ProseLang.Proofs.Canonical.Agents
import ProseLang.Proofs.Canonical.LeafEntries
import ProseLang.Proofs.Canonical.Contexts
import ProseLang.Proofs.Canonical.Numbering
import ProseLang.Proofs.Validation.Positions
import ProseLang.Proofs.Editor.Highlights
import ProseLang.Proofs.Token.Stripped
import ProseLang.Proofs.Canonical.CodeText
import ProseLang.Proofs.Editor.Wire
import ProseLang.Proofs.Canonical.Highlights
import ProseLang.Proofs.Token.Strings
import ProseLang.Proofs.Grammar.Accounts
import ProseLang.Proofs.Validation.Options
import ProseLang.Proofs.Validation.Enumeration
import ProseLang.Proofs.Canonical.MovedAgents
import ProseLang.Proofs.Diagnostic.Resolution
import ProseLang.Proofs.Token.Braces
import ProseLang.Proofs.Text.LineIndex
import ProseLang.Proofs.Grammar.Levels
import ProseLang.Proofs.Validation.Neutrality
