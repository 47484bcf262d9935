import Albedo.Runtime.Client
import Albedo.Runtime.Subscriptions
import Albedo.Forge.Budget
import Albedo.Runtime.NoLeak
import Albedo.Forge.ClientView
import Albedo.Forge.Atomicity
import Albedo.Forge.Authors
import Albedo.Forge.Owner
import Albedo.Forge.Schema
import Albedo.Library.Json
import Albedo.Jobs.Fanout
import Albedo.Jobs.Poison
import Albedo.Library.VirtualScheduling
import Albedo.Shutter.Limiter
import Albedo.Forge.Splice
import Albedo.Forge.Interleaving
import Albedo.Forge.Partition
import Albedo.Jobs.Fires
import Albedo.Aperture.Idempotency
import Albedo.Reserve.Replay
import Albedo.Forge.Evolution
import Albedo.Auth.Identity
import Albedo.Auth.Takeover
import Albedo.Runtime.SlotLifetime
import Albedo.Routing.Guard
import Albedo.Routing.RoundTrip
import Albedo.Runtime.Topics
import Albedo.Ir.Action
import Albedo.Runtime.Muxer
import Albedo.Runtime.FrameTick
import Albedo.Forms.Deferred
import Albedo.Forms.Payload
import Albedo.Library.DepthFirst
import Albedo.Scan.Edges
import Albedo.Scan.Incremental
import Albedo.Scan.Rebuild
import Albedo.Hooks.Once
import Albedo.Runtime.ArenaRuns
import Albedo.Runtime.InternTables
import Albedo.Upload.Safety
import Albedo.OAuth.Flows
import Albedo.Fetch.Answers
import Albedo.Shutter.RetryAfter
import Albedo.Shutter.TokenBucket
import Albedo.Runtime.Accounts
import Albedo.Confinement.Replay
import Albedo.Render.ReadBack
import Albedo.Render.Reload
import Albedo.Actions.Gated
import Albedo.Manifest.Apart
import Albedo.Forge.Isolation
import Albedo.Forge.Shortcut
import Albedo.Runtime.LaneRanges
import Albedo.Jobs.Sleep
import Albedo.Jobs.Effects
import Albedo.Auth.MailBudget
import Albedo.Forms.PlainForm
import Albedo.Forms.ReturnPath
import Albedo.Middleware.Outcome
import Albedo.Ir.DecodeFrame
import Albedo.Markdown.Page
import Albedo.Render.Attributes
import Albedo.Aperture.Egress
import Albedo.Analysis.CriticalPath
import Albedo.Upload.Serve
import Albedo.Routing.Layouts
import Albedo.Library.Holes
import Albedo.Library.UrlBase
import Albedo.Aperture.Credential
import Albedo.Aperture.Address
