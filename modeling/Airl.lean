import Airl.Bytecode.Scope
import Airl.Solver.Z3CacheSoundness
import Airl.Channels.RtOverlap
import Airl.Channels.VmReceives
import Airl.Correctness.Primitives
import Airl.Correctness.TailCalls
import Airl.Bytecode.Symbols
import Airl.Lowering.Agreement
import Airl.Types.UnificationLaw
import Airl.Types.Exhaustiveness
import Airl.Parser.Conservation
import Airl.Lowering.Destructuring
import Airl.Driver.GateLaw
import Airl.Bootstrap.Gate
import Airl.Bootstrap.TypecheckLaw
import Airl.Types.ScopeLaw
import Airl.Types.BranchLaw
import Airl.Syntax.LexerLaw
import Airl.Runtime.Radix
import Airl.Runtime.FormatTime
import Airl.Runtime.EqualityLaw
import Airl.Policy.Scan
import Airl.Runtime.Sandbox
import Airl.Driver.ResolverLaw
import Airl.Driver.Fmt
import Airl.Stdlib.NativeLists
import Airl.Stdlib.Groups
import Airl.Stdlib.Path
import Airl.Airgrep.Context
import Airl.Airq.Sorting
import Airl.Airq.Format
import Airl.Airq.Paths
import Airl.Stdlib.Pbkdf2
import Airl.Agent.Client
import Airl.Agent.Connection
import Airl.Channels.RtProgress
import Airl.Channels.VmProgress
import Airl.Correctness.Containment
