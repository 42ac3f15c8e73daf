import Fuel.KvPool.Atomicity
import Fuel.KvPool.ContentIndex
import Fuel.IR.Dispatch
import Fuel.IR.Realize
import Fuel.IR.Bundles
import Fuel.IR.MatMulGradient
import Fuel.IR.Streaming
import Fuel.IR.ViewLayouts
import Fuel.IR.Compact
import Fuel.Inference.Reservations
import Fuel.Dispatch.EvictionRun
import Fuel.Jit.Canonical
import Fuel.Jit.RoundTrip
import Fuel.Inference.PrefixCache
import Fuel.Jit.Commute
import Fuel.Inference.SessionCapacity
import Fuel.KvPool.LruOrder
import Fuel.Inference.Noninterference
import Fuel.Decode.PlanRuns
import Fuel.Jit.DimEval
import Fuel.Inference.NgramDraft
import Fuel.Inference.DrainOrder
import Fuel.IR.LayoutWalks
import Fuel.IR.Views
import Fuel.Dispatch.PlacementRuns
import Fuel.IR.RunSchedule
