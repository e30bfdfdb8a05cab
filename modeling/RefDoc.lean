import RefDoc.Category
import RefDoc.Decl
import RefDoc.DocComment
import RefDoc.File.Discovery
import RefDoc.File.Path
import RefDoc.File.Tree
import RefDoc.Json.Basic
import RefDoc.Json.Printer
import RefDoc.Main
import RefDoc.Nesting
import RefDoc.Pattern.Basic
import RefDoc.Pattern.Find
import RefDoc.Pattern.Match
import RefDoc.Pattern.Preference
import RefDoc.Proofs.Choice
import RefDoc.Proofs.CleanDoc
import RefDoc.Proofs.Context
import RefDoc.Proofs.Grammar
import RefDoc.Proofs.PathSegments
import RefDoc.Proofs.Reading
import RefDoc.Proofs.Search
import RefDoc.Proofs.Trim
import RefDoc.Reference.Artifact
import RefDoc.Reference.Entry
import RefDoc.Reference.Export
import RefDoc.Reference.Page
import RefDoc.Run.Argument
import RefDoc.Run.Extraction
import RefDoc.Run.Generate
import RefDoc.Run.Log
import RefDoc.Run.Program
import RefDoc.Run.Settings
import RefDoc.Scan.Function
import RefDoc.Scan.Piece
import RefDoc.Scan.Size
import RefDoc.Scan.Source
import RefDoc.Scan.Struct
import RefDoc.Text.Blank
import RefDoc.Text.Place
import RefDoc.Text.Split
import RefDoc.Text.Terminal
import RefDoc.Text.Word
import RefDoc.Proofs.Capture
import RefDoc.Proofs.Depth
import RefDoc.Proofs.Layout
import RefDoc.Proofs.FieldRoundTrip
import RefDoc.Proofs.StructRoundTrip
import RefDoc.Proofs.ParamRoundTrip
import RefDoc.Proofs.Opening
import RefDoc.Proofs.FunctionRoundTrip
import RefDoc.Proofs.WellFormed
import RefDoc.Proofs.Correspondence
import RefDoc.Proofs.Padding
import RefDoc.Proofs.RootSpelling
import RefDoc.Proofs.AttributeLine
import RefDoc.Proofs.Crlf
import RefDoc.Proofs.LineEnd
import RefDoc.Proofs.LineEndCheck
import RefDoc.Proofs.LineEndRecord
import RefDoc.Proofs.ByteOrder
import RefDoc.Proofs.TreeNodes
import RefDoc.Proofs.SourceListing
import RefDoc.Proofs.JsonReader
import RefDoc.Proofs.CatalogImport
import RefDoc.Proofs.PageAgreement
import RefDoc.Proofs.TreeWrites
import RefDoc.Proofs.RunEffect
import RefDoc.Proofs.AttributeContent
import RefDoc.Proofs.ReturnType
import RefDoc.Proofs.Collecting
import RefDoc.Proofs.SuccessiveRuns
import RefDoc.Proofs.Rescan
import RefDoc.Proofs.DocBlock
import RefDoc.Proofs.FieldExtent
import RefDoc.Proofs.LineNumber
import RefDoc.Proofs.ImplHead
import RefDoc.Proofs.SizeMethod
import RefDoc.Proofs.Grouping
import RefDoc.Proofs.TopLevel
import RefDoc.Proofs.BracketMatching
