import Mair.Recurrence.Containment
import Mair.Recurrence.Operands
import Mair.MopIr.Covering
import Mair.MopIr.Minimality
import Mair.LoopCheck.Cyclic
import Mair.LoopCheck.Indicator
import Mair.LoopCheck.Preservation
import Mair.LoopCheck.Representatives
import Mair.Relocate.Iterations
import Mair.Relocate.Reuse
import Mair.SingleThread.Hidden
import Mair.StackRace.Escape
import Mair.StackRace.TypeGraphs
import Mair.Vfork.Restore
import Mair.AsanAllocator.Confusion
import Mair.Platform.Acceptance
import Mair.Platform.Gaps
import Mair.Platform.Soundness
import Mair.LongJump.Environments
import Mair.LongJump.IgnoreState
import Mair.LongJump.ShadowStack
import Mair.Interceptor.Mmap
import Mair.Interceptor.NestedScopes
import Mair.Interceptor.StringCopies
import Mair.Malloc.Contract
import Mair.UbsanTagging.Coverage
import Mair.Compiler.ArrayBounds
import Mair.Compiler.ErrorAt
import Mair.Compiler.GroupExtraction
import Mair.Compiler.Mentions
import Mair.Compiler.RtFaithful
import Mair.Compiler.SpecAgreement
import Mair.RaceDetector.Exactness
import Mair.RaceDetector.Pieces
import Mair.AsanPoisoning.Layouts
import Mair.AsanPoisoning.Queries
