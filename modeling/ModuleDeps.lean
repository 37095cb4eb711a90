import ModuleDeps.Cache
import ModuleDeps.Config.Toml
import ModuleDeps.FileSystem.Memory
import ModuleDeps.FileSystem.Tree
import ModuleDeps.Proofs.Path.Names
import ModuleDeps.Proofs.Path.Text
import ModuleDeps.Proofs.Discovery.Visit
import ModuleDeps.Proofs.Discovery.Pending
import ModuleDeps.Proofs.Discovery.Closure
import ModuleDeps.Proofs.Discovery.Agreement
import ModuleDeps.Proofs.Discovery.Termination
import ModuleDeps.Proofs.Cache.Answer
import ModuleDeps.Proofs.Cache.Soundness
import ModuleDeps.Proofs.Grammar.Derivation
import ModuleDeps.Proofs.Grammar.Reading
import ModuleDeps.Proofs.Grammar.Yield
import ModuleDeps.Proofs.Grammar.Exactness
import ModuleDeps.Proofs.Lexing.Lexeme
import ModuleDeps.Proofs.Lexing.Spelling
import ModuleDeps.Proofs.Grammar.Formation
import ModuleDeps.Proofs.Writing.Order
import ModuleDeps.Proofs.Writing.Text
import ModuleDeps.Proofs.Grammar.Rereading
import ModuleDeps.Proofs.Writing.RoundTrip
import ModuleDeps.Proofs.Lexing.Cutting
import ModuleDeps.Proofs.Lexing.Exactness
import ModuleDeps.Proofs.Path.Directory
import ModuleDeps.Proofs.Discovery.Spelling
import ModuleDeps.Proofs.Discovery.Reuse
import ModuleDeps.Proofs.FileSystem.Memory
import ModuleDeps.Proofs.FileSystem.Staleness
import ModuleDeps.Proofs.Discovery.Reads
import ModuleDeps.Proofs.Cache.Table
import ModuleDeps.Proofs.Cache.Bookkeeping
import ModuleDeps.Proofs.Cache.Trust
import ModuleDeps.Proofs.Module.Declared
import ModuleDeps.Proofs.Module.Members
import ModuleDeps.Proofs.Module.Image
import ModuleDeps.Proofs.Module.References
import ModuleDeps.Proofs.Discovery.Worklist
import ModuleDeps.Proofs.Discovery.DepthFirst
import ModuleDeps.Proofs.Discovery.Revalidation
import ModuleDeps.Proofs.Discovery.Effort
import ModuleDeps.Proofs.Discovery.Report
import ModuleDeps.Proofs.Cache.Eviction
import ModuleDeps.Proofs.Cache.Repeat
import ModuleDeps.Proofs.Cache.Frame
import ModuleDeps.Proofs.Path.Canonical
import ModuleDeps.Proofs.Grammar.Lookahead
import ModuleDeps.Proofs.Grammar.Completion
import ModuleDeps.Proofs.Lexing.Lines
import ModuleDeps.Proofs.Writing.Concatenation
import ModuleDeps.Proofs.Module.Mentions
import ModuleDeps.Proofs.Grammar.EndOfInput
import ModuleDeps.Proofs.Path.Reference
import ModuleDeps.Text.Slice
import ModuleDeps.Token.Scanner
import ModuleDeps.Proofs.Text.Utf8
import ModuleDeps.Proofs.Text.Slice
import ModuleDeps.Proofs.Lexing.Scanner
import ModuleDeps.Module.Builder
import ModuleDeps.Proofs.Grammar.Denotation
