import ShenRc.Runtime.Balance
import ShenRc.Runtime.Policy
import ShenRc.Emit.Quoted
import ShenRc.Tier.Serialize
import ShenRc.Tier.Consistent
import ShenRc.KL.RoundTrip
import ShenRc.Emit.Certificate
import ShenRc.Hash.Keys
import ShenRc.Runtime.EqualWalk
import ShenRc.Primitive.Order
import ShenRc.Runtime.Trace
import ShenRc.Primitive.Dependencies
import ShenRc.Eval.PlanSound
import ShenRc.Constant.Replays
import ShenRc.Reader.Path
import ShenRc.Chaining.Buckets
import ShenRc.Runtime.PlanTable
import ShenRc.Runtime.StaticTable
import ShenRc.Capture.Coverage
import ShenRc.Eta.Template
import ShenRc.Runtime.BookRuns
import ShenRc.Interpret.Plans
import ShenRc.Replay.Session
import ShenRc.Replay.Accepted
import ShenRc.Emit.FrameCode
import ShenRc.Runtime.CallDepth
import ShenRc.Runtime.OutOfMemory
