import StyleAudit.Audit.Error
import StyleAudit.Audit.Inspection
import StyleAudit.Audit.JsonForm
import StyleAudit.Audit.MediaType
import StyleAudit.Audit.PickQueue
import StyleAudit.Audit.Run
import StyleAudit.Audit.RunReport
import StyleAudit.Audit.Sheet
import StyleAudit.Audit.Sizes
import StyleAudit.Audit.Survey
import StyleAudit.Audit.Walk
import StyleAudit.CommandLine.Options
import StyleAudit.CommandLine.Outcome
import StyleAudit.CommandLine.Tables
import StyleAudit.Css.Compact
import StyleAudit.Css.ComponentValue
import StyleAudit.Css.Lexer
import StyleAudit.Css.Nesting
import StyleAudit.Css.Numeral
import StyleAudit.Css.Reading
import StyleAudit.Css.Source
import StyleAudit.Css.Stylesheet
import StyleAudit.Css.Token
import StyleAudit.Files.Path
import StyleAudit.Files.Tree
import StyleAudit.Findings.Grouping
import StyleAudit.Findings.Kind
import StyleAudit.Findings.Record
import StyleAudit.Json.Printer
import StyleAudit.Json.Reader
import StyleAudit.Json.Value
import StyleAudit.Main
import StyleAudit.Number.Binary64
import StyleAudit.Number.Decimal
import StyleAudit.Proofs.AcceptedSelectors
import StyleAudit.Proofs.AgreedNames
import StyleAudit.Proofs.AgreedStrings
import StyleAudit.Proofs.AppendedSources
import StyleAudit.Proofs.AsciiSearches
import StyleAudit.Proofs.BarredReading
import StyleAudit.Proofs.BoundedReading
import StyleAudit.Proofs.Buckets
import StyleAudit.Proofs.ByteCuts
import StyleAudit.Proofs.ByteScans
import StyleAudit.Proofs.Characters
import StyleAudit.Proofs.CompactAgain
import StyleAudit.Proofs.CompactReading
import StyleAudit.Proofs.CompleteReports
import StyleAudit.Proofs.CompoundWords
import StyleAudit.Proofs.ConsistentUses
import StyleAudit.Proofs.CursorLists
import StyleAudit.Proofs.CursorReading
import StyleAudit.Proofs.CursorSteps
import StyleAudit.Proofs.EditRanges
import StyleAudit.Proofs.EncodedText
import StyleAudit.Proofs.EndMarks
import StyleAudit.Proofs.Excerpts
import StyleAudit.Proofs.ExchangedClauses
import StyleAudit.Proofs.ExtractedTexts
import StyleAudit.Proofs.FaithfulChains
import StyleAudit.Proofs.FaultPlaces
import StyleAudit.Proofs.FittedProgress
import StyleAudit.Proofs.FoundPseudos
import StyleAudit.Proofs.GrammarForms
import StyleAudit.Proofs.GuardedText
import StyleAudit.Proofs.HandedPicks
import StyleAudit.Proofs.IdleRules
import StyleAudit.Proofs.ImportantDeclarations
import StyleAudit.Proofs.ImportantMarks
import StyleAudit.Proofs.InsertedComments
import StyleAudit.Proofs.InspectionCourse
import StyleAudit.Proofs.JoinedLists
import StyleAudit.Proofs.LawfulSelectors
import StyleAudit.Proofs.LineEnds
import StyleAudit.Proofs.LineOrder
import StyleAudit.Proofs.LocalNames
import StyleAudit.Proofs.LocalReading
import StyleAudit.Proofs.LoneCompounds
import StyleAudit.Proofs.LongestNumerals
import StyleAudit.Proofs.Lookahead
import StyleAudit.Proofs.MarredRepair
import StyleAudit.Proofs.MarredRules
import StyleAudit.Proofs.MarredSelectors
import StyleAudit.Proofs.MovedTokens
import StyleAudit.Proofs.NegatedArguments
import StyleAudit.Proofs.NestedNodes
import StyleAudit.Proofs.OrderedNames
import StyleAudit.Proofs.Outlines
import StyleAudit.Proofs.PaddedReading
import StyleAudit.Proofs.Phrases
import StyleAudit.Proofs.PositionArguments
import StyleAudit.Proofs.PositionNotation
import StyleAudit.Proofs.PositionText
import StyleAudit.Proofs.PseudoSites
import StyleAudit.Proofs.ReadingSteps
import StyleAudit.Proofs.RecordedCalls
import StyleAudit.Proofs.RecordedImports
import StyleAudit.Proofs.Registers
import StyleAudit.Proofs.RemovedCompounds
import StyleAudit.Proofs.RemovedPseudos
import StyleAudit.Proofs.RepairProgress
import StyleAudit.Proofs.RepairRounds
import StyleAudit.Proofs.RepairedDamage
import StyleAudit.Proofs.ReportReading
import StyleAudit.Proofs.RestatedRules
import StyleAudit.Proofs.RootScope
import StyleAudit.Proofs.RuleSweeps
import StyleAudit.Proofs.RunRecords
import StyleAudit.Proofs.SelectorListWriting
import StyleAudit.Proofs.SelectorSegments
import StyleAudit.Proofs.SelectorWords
import StyleAudit.Proofs.SelectorWriting
import StyleAudit.Proofs.SettledSources
import StyleAudit.Proofs.SheetSelectors
import StyleAudit.Proofs.ShiftedReading
import StyleAudit.Proofs.ShownFindings
import StyleAudit.Proofs.SiteRepair
import StyleAudit.Proofs.SourceCursor
import StyleAudit.Proofs.SourceReading
import StyleAudit.Proofs.SourceSteps
import StyleAudit.Proofs.SourceTokens
import StyleAudit.Proofs.SpacedAttributes
import StyleAudit.Proofs.SpelledNodes
import StyleAudit.Proofs.StoppedAudits
import StyleAudit.Proofs.StoppedWalks
import StyleAudit.Proofs.StyledReports
import StyleAudit.Proofs.SuppressedRemarks
import StyleAudit.Proofs.SurveyedDirectories
import StyleAudit.Proofs.SurveyedFiles
import StyleAudit.Proofs.ThinnedNodes
import StyleAudit.Proofs.TightenedParts
import StyleAudit.Proofs.TightenedText
import StyleAudit.Proofs.TiledSources
import StyleAudit.Proofs.TokenCursor
import StyleAudit.Proofs.TokenLookahead
import StyleAudit.Proofs.TokenPieces
import StyleAudit.Proofs.TokenRows
import StyleAudit.Proofs.TokenSpans
import StyleAudit.Proofs.Trimming
import StyleAudit.Proofs.UnclosedBlocks
import StyleAudit.Proofs.UnmarkedSources
import StyleAudit.Proofs.UnquotedReading
import StyleAudit.Proofs.WholeNames
import StyleAudit.Proofs.WrittenNodes
import StyleAudit.Report.Line
import StyleAudit.Report.Progress
import StyleAudit.Report.Remarks
import StyleAudit.Report.Section
import StyleAudit.Report.Text
import StyleAudit.Selector.Basic
import StyleAudit.Selector.Chain
import StyleAudit.Selector.Edit
import StyleAudit.Selector.Fault
import StyleAudit.Selector.Grammar
import StyleAudit.Selector.Position
import StyleAudit.Selector.PseudoName
import StyleAudit.Selector.Repair
import StyleAudit.Text.Blank
import StyleAudit.Text.Escape
import StyleAudit.Text.LowerCase
import StyleAudit.Text.NaturalOrder
import StyleAudit.Text.Scan
import StyleAudit.Text.Utf8
import StyleAudit.Vocabulary.Basic
import StyleAudit.Vocabulary.Bundled
import StyleAudit.Vocabulary.Table
import StyleAudit.Vocabulary.Use
