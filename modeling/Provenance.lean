import Provenance.Text.Blank
import Provenance.Text.Utf8.RoundTrip
import Provenance.Path.Join
import Provenance.Language
import Provenance.NameRule
import Provenance.Fault
import Provenance.Cancellation.Signal
import Provenance.Cancellation.Registry
import Provenance.Evidence
import Provenance.Syntax.Tree
import Provenance.Header.Tree
import Provenance.SourceFile
import Provenance.Cache
import Provenance.Scan.Report
import Provenance.Disk
import Provenance.Glob.Engine
import Provenance.Session
import Provenance.Report.Listing
import Provenance.Report.Encoding
import Provenance.CommandLine.Arguments
import Provenance.CommandLine.Outcome
import Provenance.Main
import Provenance.Proofs.Syntax.CursorWalk
import Provenance.Proofs.Scan.Classification
import Provenance.Proofs.Scan.LibraryPath
import Provenance.Proofs.Scan.Justified
import Provenance.Proofs.Session.Transparency
import Provenance.Proofs.Cache.FirstInsert
import Provenance.Proofs.Scan.Collected
import Provenance.Proofs.Cancellation.AllOrNothing
import Provenance.Proofs.Scan.Interrupted
import Provenance.Proofs.Scan.AnyOrder
import Provenance.Proofs.Session.CacheContents
import Provenance.Proofs.Detection.EntryPoints
import Provenance.Proofs.Scan.Failing
import Provenance.Proofs.Text.AsciiBytes
import Provenance.Proofs.Path.Spelling
import Provenance.Proofs.FileSystem.Stepwise
import Provenance.Proofs.Scan.RootSpelling
import Provenance.Proofs.Report.Counts
import Provenance.Proofs.Json.Legible
import Provenance.Proofs.Report.Faithful
import Provenance.Proofs.CommandLine.Spelling
import Provenance.Proofs.CommandLine.Endings
import Provenance.Proofs.Glob.Meaning
import Provenance.Proofs.Scan.Excluded
import Provenance.Proofs.Text.AsciiStretches
import Provenance.Proofs.Text.AsciiCase
import Provenance.Proofs.Detection.RawNames
import Provenance.Proofs.Detection.FirstMarkers
import Provenance.Proofs.FileSystem.Reading
import Provenance.Proofs.Cancellation.Families
import Provenance.Proofs.Header.Lexing
import Provenance.Proofs.Detection.FirstToken
import Provenance.Proofs.Header.Displaced
import Provenance.Proofs.Detection.ByteOrderMark
import Provenance.Proofs.Syntax.PlacedOrder
import Provenance.Proofs.Detection.DirectiveLines
import Provenance.Proofs.Syntax.LineOrigins
import Provenance.Proofs.Detection.LineEndings
import Provenance.Proofs.Detection.MarkerLaw
