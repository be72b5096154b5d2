import HtmlMinifier.CommandLine.Argument
import HtmlMinifier.CommandLine.Item
import HtmlMinifier.CommandLine.Keyword
import HtmlMinifier.CommandLine.Settings
import HtmlMinifier.Console
import HtmlMinifier.Document
import HtmlMinifier.FileTree.Basic
import HtmlMinifier.FileTree.Fault
import HtmlMinifier.FileTree.Path
import HtmlMinifier.FileTree.Storage
import HtmlMinifier.Halt
import HtmlMinifier.Main
import HtmlMinifier.Markup.Comment
import HtmlMinifier.Markup.Element
import HtmlMinifier.Number.Binary64
import HtmlMinifier.Number.Decimal
import HtmlMinifier.Profile
import HtmlMinifier.Proofs.AggressiveContent
import HtmlMinifier.Proofs.ArgumentReading
import HtmlMinifier.Proofs.BlockComments
import HtmlMinifier.Proofs.BlockDocument
import HtmlMinifier.Proofs.BlockedPaths
import HtmlMinifier.Proofs.CommentScan
import HtmlMinifier.Proofs.CommentedMarkup
import HtmlMinifier.Proofs.CommentedScripts
import HtmlMinifier.Proofs.ConditionalComments
import HtmlMinifier.Proofs.CutComments
import HtmlMinifier.Proofs.DirectoryChain
import HtmlMinifier.Proofs.ElementSearch
import HtmlMinifier.Proofs.Flattening
import HtmlMinifier.Proofs.GapPass
import HtmlMinifier.Proofs.GapRule
import HtmlMinifier.Proofs.HeldMarks
import HtmlMinifier.Proofs.IdleSteps
import HtmlMinifier.Proofs.JoinedCode
import HtmlMinifier.Proofs.KeptLines
import HtmlMinifier.Proofs.KeptWords
import HtmlMinifier.Proofs.LastSemicolons
import HtmlMinifier.Proofs.LineBreaks
import HtmlMinifier.Proofs.LineComments
import HtmlMinifier.Proofs.LineEdge
import HtmlMinifier.Proofs.LineEndings
import HtmlMinifier.Proofs.NamesakeElements
import HtmlMinifier.Proofs.NormalScripts
import HtmlMinifier.Proofs.NormalStylesheets
import HtmlMinifier.Proofs.OptionSpellings
import HtmlMinifier.Proofs.PathSteps
import HtmlMinifier.Proofs.PlainMarkup
import HtmlMinifier.Proofs.PrintedNumbers
import HtmlMinifier.Proofs.Provenance
import HtmlMinifier.Proofs.Publishing
import HtmlMinifier.Proofs.RepeatedPasses
import HtmlMinifier.Proofs.Reporting
import HtmlMinifier.Proofs.Rerun
import HtmlMinifier.Proofs.ScanOffsets
import HtmlMinifier.Proofs.ScriptLines
import HtmlMinifier.Proofs.Search
import HtmlMinifier.Proofs.SettingsChoice
import HtmlMinifier.Proofs.SingleSpaces
import HtmlMinifier.Proofs.StableElements
import HtmlMinifier.Proofs.StructuredLayout
import HtmlMinifier.Proofs.StylesheetGaps
import HtmlMinifier.Proofs.TagGaps
import HtmlMinifier.Proofs.TagWords
import HtmlMinifier.Proofs.TrailingBlanks
import HtmlMinifier.Proofs.TreeGrowth
import HtmlMinifier.Proofs.TreeWalk
import HtmlMinifier.Proofs.WordSearch
import HtmlMinifier.Publish
import HtmlMinifier.Savings
import HtmlMinifier.Script
import HtmlMinifier.Stylesheet
import HtmlMinifier.Text.Blank
import HtmlMinifier.Text.Enclosure
import HtmlMinifier.Text.Gap
import HtmlMinifier.Text.Line
import HtmlMinifier.Text.Offset
import HtmlMinifier.Text.Pattern
import HtmlMinifier.Text.Word
