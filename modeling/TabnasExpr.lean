import TabnasExpr.Accepted
import TabnasExpr.ArenaHandles
import TabnasExpr.Climbing
import TabnasExpr.CyclicGuard
import TabnasExpr.DepthBudget
import TabnasExpr.EarlyEvaluation
import TabnasExpr.EvaluatedMarks
import TabnasExpr.EvaluationFold
import TabnasExpr.EvaluatorCalls
import TabnasExpr.ExportedPrattify
import TabnasExpr.ArenaRewrite
import TabnasExpr.NodeCount
import TabnasExpr.OverLimit
import TabnasExpr.Parens
import TabnasExpr.PortAgreement
import TabnasExpr.PowerOrder
import TabnasExpr.Realize
import TabnasExpr.RealizeSimplify
import TabnasExpr.Simplify
import TabnasExpr.SingleSlot
import TabnasExpr.SuffixPlacement
import TabnasExpr.TableResolution
import TabnasExpr.TernaryCondition
import TabnasExpr.TernaryFrames
import TabnasExpr.UserOperators
import TabnasExpr.Clib.Linearizable
import TabnasExpr.Clib.Progress
import TabnasExpr.Clib.Sessions
import TabnasExpr.Clib.Unsafe
import TabnasExpr.Rules.Cost
import TabnasExpr.Rust.Options
import TabnasExpr.Go.EvaluatedSet
import TabnasExpr.Go.OrderedTrees
import TabnasExpr.Go.TwoSimplifiers
import TabnasExpr.Render.Canonical
import TabnasExpr.Render.Inverse
import TabnasExpr.Render.Protocol
import TabnasExpr.Render.Refusal
import TabnasExpr.Render.Position
