import OpsLang.Main
import OpsLang.Json.Reader
import OpsLang.Json.TreeReader
import OpsLang.Numeral.Binary64
import OpsLang.Store.Memory
import OpsLang.Proofs.Reading
import OpsLang.Proofs.Termination
import OpsLang.Proofs.Agreement
import OpsLang.Proofs.Canonical.Expr
import OpsLang.Proofs.Canonical.File
import OpsLang.Proofs.Precedence
import OpsLang.Proofs.Rereading.File
import OpsLang.Proofs.Parenthesized.File
import OpsLang.Proofs.Mending.File
import OpsLang.Proofs.Tiling
import OpsLang.Proofs.ErrorCap
import OpsLang.Proofs.OpenBlocks.File
import OpsLang.Proofs.Reports.File
import OpsLang.Proofs.Resumption.File
import OpsLang.Proofs.Counting.Exact
import OpsLang.Proofs.Height
import OpsLang.Proofs.Highlighting.File
import OpsLang.Proofs.Highlighting.Bounds
import OpsLang.Proofs.WellFormed
import OpsLang.Proofs.Appending.Shift
import OpsLang.Proofs.Separated
import OpsLang.Proofs.Faults
import OpsLang.Proofs.Lines
import OpsLang.Proofs.Glued
import OpsLang.Proofs.Json.Trees
import OpsLang.Proofs.Commands
import OpsLang.Proofs.WordClasses
import OpsLang.Proofs.Blaming
import OpsLang.Proofs.Forking.File
import OpsLang.Proofs.Expecting
import OpsLang.Proofs.Entries.Text
import OpsLang.Proofs.Relining.File
import OpsLang.Proofs.ArraySize
import OpsLang.Proofs.Parenthesized.Fewest
import OpsLang.Proofs.Padding.File
import OpsLang.Proofs.NumberValue
import OpsLang.Proofs.Lexemes
import OpsLang.Proofs.Storing
import OpsLang.Proofs.Tracing.File
import OpsLang.Proofs.Rooting
import OpsLang.Proofs.Stalling
import OpsLang.Proofs.Json.Stored
import OpsLang.Proofs.Appending.Quoted
