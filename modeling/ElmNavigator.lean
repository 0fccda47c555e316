import ElmNavigator.CommandLine
import ElmNavigator.Disk.Listing
import ElmNavigator.Disk.Tree
import ElmNavigator.Glob.Basic
import ElmNavigator.Glob.Matching
import ElmNavigator.Json.Basic
import ElmNavigator.Json.Form
import ElmNavigator.Json.Number
import ElmNavigator.Json.Reader
import ElmNavigator.Json.Shape
import ElmNavigator.Json.Writer
import ElmNavigator.Main
import ElmNavigator.Place.FileUri
import ElmNavigator.Place.Path
import ElmNavigator.Place.Uri
import ElmNavigator.Proofs.Syntax.Chunks
import ElmNavigator.Proofs.Syntax.MaskedText
import ElmNavigator.Proofs.Syntax.RuleLogic
import ElmNavigator.Proofs.Text.Blanks
import ElmNavigator.Proofs.Text.Measures
import ElmNavigator.Server.Capabilities
import ElmNavigator.Server.Connection
import ElmNavigator.Server.Message
import ElmNavigator.Server.Protocol
import ElmNavigator.Syntax.Chunk
import ElmNavigator.Syntax.Grammar
import ElmNavigator.Syntax.Masking
import ElmNavigator.Syntax.Outline
import ElmNavigator.Syntax.Parse
import ElmNavigator.Syntax.Rule
import ElmNavigator.Text.Alphabetic
import ElmNavigator.Text.Basic
import ElmNavigator.Text.CharClass
import ElmNavigator.Text.CodePoints
import ElmNavigator.Text.Hex
import ElmNavigator.Text.Lines
import ElmNavigator.Text.Lowercase
import ElmNavigator.Text.Numeric
import ElmNavigator.Text.Uppercase
import ElmNavigator.Text.Utf8
import ElmNavigator.Workspace.Definition
import ElmNavigator.Workspace.Files
import ElmNavigator.Workspace.ModuleLookup
import ElmNavigator.Workspace.Overlay
import ElmNavigator.Workspace.Session
import ElmNavigator.Workspace.Settings
import ElmNavigator.Workspace.SourceDirs
import ElmNavigator.Workspace.Symbol
import ElmNavigator.Workspace.SymbolIndex
import ElmNavigator.Workspace.SymbolQuery
import ElmNavigator.Workspace.Table
import ElmNavigator.Workspace.Word
import ElmNavigator.Proofs.Syntax.WrittenNames
import ElmNavigator.Proofs.Syntax.NamePlaces
import ElmNavigator.Proofs.Place.NormalPaths
import ElmNavigator.Proofs.Place.PathTexts
import ElmNavigator.Proofs.Workspace.IndexConsistency
import ElmNavigator.Proofs.Workspace.CacheCoherence
import ElmNavigator.Proofs.Place.UriRoundTrip
import ElmNavigator.Proofs.Disk.Entries
import ElmNavigator.Proofs.Disk.PathsBelow
import ElmNavigator.Proofs.Disk.Resolution
import ElmNavigator.Proofs.Disk.WorkspaceTree
import ElmNavigator.Proofs.Disk.ListingLimits
import ElmNavigator.Proofs.Disk.ListedFiles
import ElmNavigator.Proofs.Glob.ModuleFiles
import ElmNavigator.Proofs.Workspace.TrackedIndex
import ElmNavigator.Proofs.Workspace.IncrementalScan
import ElmNavigator.Proofs.Disk.PrunedListing
import ElmNavigator.Proofs.Syntax.ChunkSeams
import ElmNavigator.Proofs.Syntax.AlignedReading
import ElmNavigator.Proofs.Syntax.AlignedGrammar
import ElmNavigator.Proofs.Syntax.AppendedDeclarations
import ElmNavigator.Proofs.Syntax.Respacing
import ElmNavigator.Proofs.Syntax.InvisibleComments
import ElmNavigator.Proofs.Text.Letters
import ElmNavigator.Proofs.Syntax.ForwardReading
import ElmNavigator.Proofs.Syntax.Layouts
import ElmNavigator.Proofs.Syntax.LayoutTexts
import ElmNavigator.Proofs.Syntax.LayoutReading
import ElmNavigator.Proofs.Syntax.LayoutRoundTrip
import ElmNavigator.Proofs.Syntax.NameOrder
import ElmNavigator.Proofs.Text.LineOffsets
import ElmNavigator.Proofs.Workspace.DocumentSymbols
import ElmNavigator.Proofs.Workspace.LookupAnswers
import ElmNavigator.Proofs.Workspace.DefinitionLayers
import ElmNavigator.Proofs.Syntax.ModuleNames
import ElmNavigator.Proofs.Workspace.DefinitionScope
import ElmNavigator.Proofs.Workspace.UnsavedEdits
import ElmNavigator.Proofs.Workspace.EditLog
import ElmNavigator.Proofs.Workspace.Exclusion
import ElmNavigator.Proofs.Workspace.QueryHistory
import ElmNavigator.Proofs.Workspace.EditPositions
import ElmNavigator.Proofs.Workspace.OpenedDocuments
import ElmNavigator.Proofs.Syntax.KeywordChunks
import ElmNavigator.Proofs.Server.ParameterForms
import ElmNavigator.Proofs.Server.Conversation
import ElmNavigator.Proofs.Workspace.RememberedMisses
import ElmNavigator.Proofs.Workspace.ScanProgress
import ElmNavigator.Proofs.Workspace.ListingLog
import ElmNavigator.Proofs.Workspace.QueryAnswers
import ElmNavigator.Proofs.Syntax.MaskGeometry
import ElmNavigator.Proofs.Syntax.MaskedOpeners
import ElmNavigator.Proofs.Syntax.TypeLayouts
import ElmNavigator.Proofs.Workspace.NameInvalidation
import ElmNavigator.Proofs.Syntax.ScannerCuts
import ElmNavigator.Proofs.Syntax.RepeatedMasking
import ElmNavigator.Proofs.Syntax.NestedComments
import ElmNavigator.Proofs.Text.ClampedPositions
import ElmNavigator.Proofs.Workspace.DocumentEdits
import ElmNavigator.Proofs.Workspace.WordRuns
import ElmNavigator.Proofs.Syntax.ErrorPlaces
import ElmNavigator.Proofs.Workspace.EventOrder
import ElmNavigator.Proofs.Workspace.ModuleSearch
import ElmNavigator.Proofs.Place.LexicalPaths
import ElmNavigator.Proofs.Place.AcceptedUris
import ElmNavigator.Proofs.Workspace.FileKeys
import ElmNavigator.Proofs.Workspace.PrintedAnswers
import ElmNavigator.Proofs.Syntax.ChunkCover
