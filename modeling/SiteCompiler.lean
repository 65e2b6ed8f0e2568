import SiteCompiler.Token
import SiteCompiler.Token.Reading
import SiteCompiler.Token.Scan
import SiteCompiler.Record
import SiteCompiler.Program
import SiteCompiler.Program.Fault
import SiteCompiler.Program.OpenBlock
import SiteCompiler.Program.Progress
import SiteCompiler.Program.Parse
import SiteCompiler.Lines
import SiteCompiler.Stylesheet
import SiteCompiler.Markup
import SiteCompiler.Script.Literal
import SiteCompiler.Script
import SiteCompiler.Site
import SiteCompiler.Compile
import SiteCompiler.FileTree
import SiteCompiler.FileTree.Fault
import SiteCompiler.FileTree.Path
import SiteCompiler.FileTree.Operation
import SiteCompiler.Build
import SiteCompiler.CommandLine
import SiteCompiler.Main
import SiteCompiler.Proofs.Lexical.Rules
import SiteCompiler.Proofs.Lexical.Numeral
import SiteCompiler.Proofs.Lexical.Front
import SiteCompiler.Proofs.Lexical.Scan
import SiteCompiler.Proofs.Lexical.Shape
import SiteCompiler.Proofs.Lexical.Span
import SiteCompiler.Proofs.Lexical.Cursor
import SiteCompiler.Proofs.Lexical.Restart
import SiteCompiler.Proofs.Grammar.Continues
import SiteCompiler.Proofs.Grammar.Block
import SiteCompiler.Proofs.Grammar.Places
import SiteCompiler.Proofs.Grammar.Program
import SiteCompiler.Proofs.Lexical.Printing
import SiteCompiler.Proofs.Image.WellFormed
import SiteCompiler.Proofs.Image.Spelling
import SiteCompiler.Proofs.Image.Source
import SiteCompiler.Proofs.Grammar.Opened
import SiteCompiler.Proofs.Image.Body
import SiteCompiler.Proofs.Grammar.Refusals
import SiteCompiler.Proofs.Grammar.Inside
import SiteCompiler.Proofs.Grammar.Outline
import SiteCompiler.Proofs.Grammar.Unambiguous
import SiteCompiler.Proofs.Grammar.Account
import SiteCompiler.Proofs.Grammar.Noise
import SiteCompiler.Proofs.Grammar.Beginning
import SiteCompiler.Proofs.Grammar.Quotes
import SiteCompiler.Proofs.Grammar.Descent
import SiteCompiler.Proofs.Grammar.Agreement
import SiteCompiler.Proofs.Grammar.Calls
import SiteCompiler.Proofs.Compile.Safety
import SiteCompiler.Proofs.Compile.Records
import SiteCompiler.Proofs.Compile.Layout
import SiteCompiler.Proofs.Lexical.Seam
import SiteCompiler.Proofs.Lexical.Faults
import SiteCompiler.Proofs.Grammar.Behind
import SiteCompiler.Proofs.Compile.Concatenation
import SiteCompiler.Proofs.Compile.Sides
import SiteCompiler.Proofs.Files.Names
import SiteCompiler.Proofs.Files.Walks
import SiteCompiler.Proofs.Files.Directories
import SiteCompiler.Proofs.Files.Places
import SiteCompiler.Proofs.Files.Writing
import SiteCompiler.Proofs.Build.SiteFiles
import SiteCompiler.Proofs.Build.Publication
import SiteCompiler.Proofs.Build.Failure
import SiteCompiler.Proofs.Build.Stopped
import SiteCompiler.Proofs.Command.Runs
import SiteCompiler.Proofs.Command.EntryPoints
import SiteCompiler.Proofs.Script.Values
import SiteCompiler.Proofs.Script.Literals
import SiteCompiler.Proofs.Script.Nesting
import SiteCompiler.Proofs.Script.ClassBody
import SiteCompiler.Proofs.Script.Statements
import SiteCompiler.Proofs.Script.Methods
import SiteCompiler.Proofs.Markup.Tags
import SiteCompiler.Proofs.Page.References
