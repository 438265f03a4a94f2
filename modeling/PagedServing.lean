import PagedServing.Engine.Acceptance
import PagedServing.Engine.Accounting
import PagedServing.Engine.Answers
import PagedServing.Engine.CpuAnswers
import PagedServing.Engine.DecodeErrors
import PagedServing.Engine.InFlight
import PagedServing.Engine.Limits
import PagedServing.Engine.Logprobs
import PagedServing.Engine.Outcomes
import PagedServing.Engine.Rejections
import PagedServing.Engine.Retention
import PagedServing.Engine.Retries
import PagedServing.Engine.SpecialTokens
import PagedServing.Engine.TinyLlmCalls
import PagedServing.Engine.Trace
import PagedServing.Engine.Truncation
import PagedServing.Executor.Capacity
import PagedServing.Executor.Simulation
import PagedServing.KvCache.Atomicity
import PagedServing.KvCache.Pool
import PagedServing.Loadgen.Harness
import PagedServing.Loadgen.Roundtrip
import PagedServing.Loadgen.Sse
import PagedServing.Scheduler.Admission
import PagedServing.Scheduler.Exhaustion
import PagedServing.Scheduler.Lifecycle
import PagedServing.Scheduler.Reserve
import PagedServing.Scheduler.Scan
import PagedServing.Scheduler.Victims
import PagedServing.Server.Candidates
import PagedServing.Server.ChatPrompts
import PagedServing.Server.Disconnects
import PagedServing.Server.Requests
import PagedServing.Server.ResponseLogprobs
import PagedServing.Server.Service
import PagedServing.Server.Sleep
import PagedServing.Server.Snapshots
import PagedServing.Server.StreamOutcome
