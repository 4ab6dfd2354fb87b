import Novl.Library.TailStack
import Novl.Library.SplitWord
import Novl.Convert
import Novl.Effect
import Novl.Plan
import Novl.Bookkeeping
import Novl.Passes
import Novl.DryRun
import Novl.FinalImage
import Novl.Pairing
import Novl.Overlay
import Novl.Table
import Novl.Layout
import Novl.Conversion
import Novl.RoundTrip
import Novl.BaseIndependence
import Novl.EntryOrder
import Novl.NamedBytes
import Novl.MovingBytes
import Novl.TableCompleteness
import Novl.LoadSafety
import Novl.RelocationListing
import Novl.Stops
import Novl.ImageAccess
import Novl.Halves
import Novl.Jumps
import Novl.Calls
import Novl.HighEntries
import Novl.ListInvariant
import Novl.Alignment
import Novl.Messages
import Novl.Opprintf
import Novl.Decoder
import Novl.Disassembly
import Novl.Library.Bracketed
import Novl.Unmoved
import Novl.ConvertedListing
import Novl.DisassemblyText
import Novl.PrintedListing
import Novl.SizeFormat
import Novl.PrintedTables
import Novl.Options
import Novl.Library.LoggedRun
import Novl.ConversionMessages
import Novl.Reports
import Novl.Libelf
import Novl.ElfFormat
import Novl.FileSafety
import Novl.FileMessages
import Novl.Commands
import Novl.RunMessages
import Novl.ConvertedRuns
