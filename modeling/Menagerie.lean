import Menagerie.Bytes
import Menagerie.Bytes.Address
import Menagerie.Bytes.Text
import Menagerie.Compiler
import Menagerie.Cue
import Menagerie.Directory
import Menagerie.Error
import Menagerie.Event
import Menagerie.Expr
import Menagerie.Graph
import Menagerie.Graph.Declaration
import Menagerie.Graph.Sample
import Menagerie.Graph.Violation
import Menagerie.Image
import Menagerie.Kind
import Menagerie.Layout
import Menagerie.Machine
import Menagerie.ModuleText
import Menagerie.Narration
import Menagerie.Numeral
import Menagerie.Offset
import Menagerie.PartitionPoint
import Menagerie.Program
import Menagerie.Random.ChaCha
import Menagerie.Random.Recipe
import Menagerie.Random.Source
import Menagerie.Record
import Menagerie.Session
import Menagerie.Text.Printable
import Menagerie.Traced
import Menagerie.View
import Menagerie.Proofs.Encoding
import Menagerie.Proofs.Texts
import Menagerie.Proofs.WordAccess
import Menagerie.Proofs.SpanSearch
import Menagerie.Proofs.Fields
import Menagerie.Proofs.Slices
import Menagerie.Proofs.Tiling
import Menagerie.Proofs.LoneRecords
import Menagerie.Proofs.Placement
import Menagerie.Proofs.Arrangement
import Menagerie.Proofs.Reading
import Menagerie.Proofs.Contents
import Menagerie.Proofs.Settling
import Menagerie.Proofs.Patching
import Menagerie.Proofs.SpanScan
import Menagerie.Proofs.Addressing
import Menagerie.Proofs.RoundTrip
import Menagerie.Proofs.AddressCode
import Menagerie.Proofs.Walk
import Menagerie.Proofs.Emission
import Menagerie.Proofs.Execution
import Menagerie.Proofs.Narrating
import Menagerie.Proofs.Acceptance
import Menagerie.Proofs.Reports
import Menagerie.Proofs.FirstFault
import Menagerie.Proofs.Refusals
import Menagerie.Proofs.Truthfulness
import Menagerie.Proofs.Contention
import Menagerie.Proofs.Aftermath
import Menagerie.Proofs.ModuleReading
import Menagerie.Proofs.Stopping
import Menagerie.Proofs.Padding
import Menagerie.Proofs.StaleImages
import Menagerie.Proofs.Limits
import Menagerie.Proofs.Trace
import Menagerie.Proofs.NameLiterals
import Menagerie.Proofs.Remainders
import Menagerie.Proofs.Declaring
import Menagerie.Proofs.Draws
import Menagerie.Proofs.RandomGraphs
import Menagerie.Proofs.FirstEntries
