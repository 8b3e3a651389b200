import Dedisbench.Bench.Run
import Dedisbench.Lib.Tally
import Dedisbench.Scan.Defs
import Dedisbench.Scan.Counters
import Dedisbench.Scan.Merge
import Dedisbench.Lib.Cut
import Dedisbench.Scan.Extract
import Dedisbench.Scan.Print
import Dedisbench.Scan.Cumulative
import Dedisbench.Scan.RoundTrip
import Dedisbench.Bench.Offsets
import Dedisbench.Bench.Loop
import Dedisbench.Bench.Pace
import Dedisbench.Scan.Kept
import Dedisbench.Bench.Tracker
import Dedisbench.Bench.Mixed
import Dedisbench.Lib.Paths
import Dedisbench.Scan.Search
import Dedisbench.Scan.ScansOnce
import Dedisbench.Scan.Setup
import Dedisbench.Bench.OutputDist
import Dedisbench.Lib.Occur
import Dedisbench.Bench.Distout
import Dedisbench.Generator.Assign
import Dedisbench.Bench.Slots
import Dedisbench.Bench.Startup
import Dedisbench.Bench.Recognise
import Dedisbench.Bench.Reported
import Dedisbench.Bench.Config
import Dedisbench.Bench.Options
import Dedisbench.Bench.Seeds
import Dedisbench.Generator.BlockModel
import Dedisbench.Generator.Shares
import Dedisbench.Generator.Estimate
import Dedisbench.Generator.Lines
import Dedisbench.Bench.Regenerate
import Dedisbench.Bench.Uniform
import Dedisbench.Bench.Rates
import Dedisbench.Bench.SizeRun
import Dedisbench.Bench.Files
import Dedisbench.Bench.SlotCount
import Dedisbench.Scan.Ranges
import Dedisbench.Bench.Accesses
import Dedisbench.Scan.Tail
import Dedisbench.Scan.SizeList
import Dedisbench.Bench.Sizes
import Dedisbench.Scan.RemoveDir
import Dedisbench.Scan.Power
import Dedisbench.Lib.Lagged
import Dedisbench.Random.Sfmt
import Dedisbench.Random.Stream
import Dedisbench.Lib.XorShift
import Dedisbench.Random.Seeding
import Dedisbench.Random.Calls
import Dedisbench.Random.Draws
import Dedisbench.Scan.Folder
import Dedisbench.Bench.Measured
import Dedisbench.Lib.Interleave
import Dedisbench.Bench.Steps
import Dedisbench.Bench.Interleaved
