import Keleusma.Arena.Admission
import Keleusma.Arena.Relocation
import Keleusma.Arena.Refusals
import Keleusma.Safety.CheckedWidths
import Keleusma.Safety.Initialisation
import Keleusma.Safety.Structured
import Keleusma.Safety.Operands
import Keleusma.Safety.Elision
import Keleusma.Safety.TrapFree
import Keleusma.Wire.Outvoting
import Keleusma.Wire.Scrubbing
import Keleusma.Wire.Indexing
import Keleusma.Framing.Signatures
import Keleusma.Framing.OpcodeCodec
import Keleusma.Schema.RoundTrip
import Keleusma.Schema.DataRoundTrip
import Keleusma.Logic.BreadthFirst
import Keleusma.Swap.Atomicity
import Keleusma.Swap.Heads
import Keleusma.Lowering.ScalarShift
import Keleusma.Store.Service
import Keleusma.Scheduler.Wakeups
import Keleusma.Layout.Agreement
import Keleusma.Safety.TableEffects
import Keleusma.Wire.Hostile
import Keleusma.Safety.AlwaysYielding
import Keleusma.Logic.Separated
import Keleusma.Refinement.Interval
import Keleusma.Refinement.Lattice
import Keleusma.Logic.Descent
import Keleusma.Verify.Fixpoint
import Keleusma.Scheduler.Restarts
import Keleusma.Safety.CallDepth
import Keleusma.Safety.Timing
import Keleusma.Safety.StackBound
import Keleusma.Safety.Productivity
import Keleusma.Logic.Marking
import Keleusma.Verify.ResumeCycles
import Keleusma.Verify.Walks
import Keleusma.Safety.Resumes
import Keleusma.Safety.HostEntries
import Keleusma.Matching.Exhaustive
import Keleusma.Matching.LiteralTypes
