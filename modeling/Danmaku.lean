import Danmaku.Pattern.Load
import Danmaku.Stage
import Danmaku.Proofs.Engine.Termination
import Danmaku.Proofs.Engine.Trailing
import Danmaku.Proofs.Engine.Depth
import Danmaku.Proofs.Engine.Soundness
import Danmaku.Proofs.Expression.Evaluator
import Danmaku.Proofs.Engine.Trace
import Danmaku.Proofs.Pattern.Labels
import Danmaku.Proofs.Engine.Scope
import Danmaku.Proofs.Engine.Leftovers
import Danmaku.Proofs.Engine.Independence
import Danmaku.Proofs.Engine.Interleaving
import Danmaku.Proofs.Expression.Cache
import Danmaku.Proofs.Stage.Idle
import Danmaku.Proofs.Engine.Headings
import Danmaku.Proofs.Pattern.Types
import Danmaku.Proofs.Engine.Policy
import Danmaku.Proofs.Engine.Repetition
import Danmaku.Proofs.Engine.Ceiling
import Danmaku.Proofs.Engine.Sums
import Danmaku.Proofs.Engine.Turns
import Danmaku.Proofs.Engine.Waits
import Danmaku.Proofs.Engine.Failures
import Danmaku.Proofs.Engine.Draws
import Danmaku.Proofs.Expression.Mentions
import Danmaku.Proofs.Expression.Failure
import Danmaku.Proofs.Engine.Axes
import Danmaku.Proofs.Stage.Arrival
import Danmaku.Proofs.Engine.Courses
import Danmaku.Proofs.Geometry.Turning
import Danmaku.Proofs.Engine.Overflow
