import ChordSheet.Text.Blank
import ChordSheet.Text.Lines
import ChordSheet.Text.Integer
import ChordSheet.Text.Hidden
import ChordSheet.Text.Quoted
import ChordSheet.Naming
import ChordSheet.Fault
import ChordSheet.Pitch
import ChordSheet.Note
import ChordSheet.Chord
import ChordSheet.Chord.Quality
import ChordSheet.Chord.Sounding
import ChordSheet.Chord.Standard
import ChordSheet.Metadata.Entry
import ChordSheet.Metadata
import ChordSheet.Lexeme
import ChordSheet.Token
import ChordSheet.Diagnostic
import ChordSheet.Reader
import ChordSheet.Document
import ChordSheet.Document.OfTokens
import ChordSheet.Document.Tree
import ChordSheet.Document.Transposition
import ChordSheet.Document.Extraction
import ChordSheet.Render.Sheet
import ChordSheet.Render.Html
import ChordSheet.Render
import ChordSheet.Json
import ChordSheet.Dump
import ChordSheet.Cli.Argument
import ChordSheet.Cli.Command
import ChordSheet.Cli.Disk
import ChordSheet.Cli.Run
import ChordSheet.Main
import ChordSheet.Proofs.Text.Ends
import ChordSheet.Proofs.Text.Lines
import ChordSheet.Proofs.Grammar.Line
import ChordSheet.Proofs.Grammar.Simulation
import ChordSheet.Proofs.Metadata.First
import ChordSheet.Proofs.Metadata.Unknown
import ChordSheet.Proofs.Grammar.Written
import ChordSheet.Proofs.Grammar.Trimmed
import ChordSheet.Proofs.Sheet.Arrangement
import ChordSheet.Proofs.Chord.Spelling
import ChordSheet.Proofs.Chord.Symbol
import ChordSheet.Proofs.Chord.Rereading
import ChordSheet.Proofs.Document.Items
import ChordSheet.Proofs.Sheet.Layout
import ChordSheet.Proofs.Document.Lines
import ChordSheet.Proofs.Sheet.Rereading
import ChordSheet.Proofs.Sheet.NormalForm
import ChordSheet.Proofs.Document.Leaves
import ChordSheet.Proofs.Document.Trees
import ChordSheet.Proofs.Document.Total
import ChordSheet.Proofs.Markup.Reader
import ChordSheet.Proofs.Markup.Fragment
import ChordSheet.Proofs.Document.Headings
import ChordSheet.Proofs.Chord.Transposition
import ChordSheet.Proofs.Document.Transposition
import ChordSheet.Proofs.Sheet.Metadata
import ChordSheet.Proofs.Chord.Hearing
import ChordSheet.Proofs.Chord.Standard
import ChordSheet.Proofs.Chord.Sounding
import ChordSheet.Proofs.Grammar.Independence
import ChordSheet.Proofs.Sheet.Outline
import ChordSheet.Proofs.Document.Parsing
import ChordSheet.Proofs.Sheet.Transposition
import ChordSheet.Proofs.Chord.Division
import ChordSheet.Proofs.Sheet.Diagnostics
import ChordSheet.Proofs.Cli.Disk
import ChordSheet.Proofs.Cli.Run
import ChordSheet.Proofs.Grammar.Lexemes
import ChordSheet.Proofs.Markup.Titles
import ChordSheet.Proofs.Metadata.Line
import ChordSheet.Proofs.Metadata.Entries
import ChordSheet.Proofs.Document.Dump
import ChordSheet.Proofs.Grammar.Registers
import ChordSheet.Proofs.Grammar.Invariants
import ChordSheet.Proofs.Sheet.CleanUp
