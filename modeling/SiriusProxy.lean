import SiriusProxy.Lib.Rotation
import SiriusProxy.Lib.Recent
import SiriusProxy.Lib.Rows
import SiriusProxy.Lib.Run
import SiriusProxy.Lib.Window
import SiriusProxy.Lib.Effect
import SiriusProxy.Lib.OrderedMap
import SiriusProxy.Lib.Permits
import SiriusProxy.Lib.Reads
import SiriusProxy.Lib.JsonText
import SiriusProxy.Lib.Jsonb
import SiriusProxy.Lib.Tar
import SiriusProxy.Lib.Worklist
import SiriusProxy.Lib.Bytes
import SiriusProxy.Lib.Cbc
import SiriusProxy.Error
import SiriusProxy.Text
import SiriusProxy.Region
import SiriusProxy.Health.Path
import SiriusProxy.Health.Breaker
import SiriusProxy.Login.State
import SiriusProxy.Login.Budget
import SiriusProxy.Login.Allowed
import SiriusProxy.Sdk.Session
import SiriusProxy.Sdk.Events
import SiriusProxy.Sdk.Restart
import SiriusProxy.Sdk.Shared
import SiriusProxy.Sdk.Kept
import SiriusProxy.Health.Account
import SiriusProxy.Health.Signal
import SiriusProxy.Health.Bookkeeping
import SiriusProxy.Health.Withdrawal
import SiriusProxy.Health.WithdrawalRun
import SiriusProxy.Outbox.Types
import SiriusProxy.Outbox.Store
import SiriusProxy.Outbox.StoreSpec
import SiriusProxy.Outbox.Ledger
import SiriusProxy.Outbox.Durable
import SiriusProxy.Outbox.Fair
import SiriusProxy.Outbox.Once
import SiriusProxy.Dispatch.Jobs
import SiriusProxy.Dispatch.Worker
import SiriusProxy.Dispatch.Pass
import SiriusProxy.Dispatch.AtMostOnce
import SiriusProxy.Dispatch.Answers
import SiriusProxy.Client.Resources
import SiriusProxy.Client.Snapshot
import SiriusProxy.SingleFlight
import SiriusProxy.ResponseCache
import SiriusProxy.Routing.Call
import SiriusProxy.Routing.Quiet
import SiriusProxy.Routing.Peer
import SiriusProxy.Routing.Router
import SiriusProxy.Routing.Breaker
import SiriusProxy.Routing.OneDispatch
import SiriusProxy.Protocol.Descriptor
import SiriusProxy.Protocol.Contract
import SiriusProxy.Protocol.Extends
import SiriusProxy.Protocol.Compatible
import SiriusProxy.Protocol.Reload
import SiriusProxy.Master.Manifest
import SiriusProxy.Master.Registry
import SiriusProxy.Master.Sizes
import SiriusProxy.Master.Disk
import SiriusProxy.Master.History
import SiriusProxy.Master.Prepare
import SiriusProxy.Master.Import
import SiriusProxy.Master.Store
import SiriusProxy.Master.Chain
import SiriusProxy.Master.Publish
import SiriusProxy.Master.Retention
import SiriusProxy.Master.Fading
import SiriusProxy.Master.Interleaved
import SiriusProxy.Master.Crossing
import SiriusProxy.Master.Consistent
import SiriusProxy.Master.Pages
import SiriusProxy.Master.Converge
import SiriusProxy.Master.Sync
import SiriusProxy.Master.Current
import SiriusProxy.Master.Bundle
import SiriusProxy.Master.Mirror
import SiriusProxy.Master.Stored
import SiriusProxy.Master.Events
import SiriusProxy.Master.Republish
import SiriusProxy.Master.Hops
import SiriusProxy.Master.Owner
import SiriusProxy.Rijndael.Field
import SiriusProxy.Rijndael.Standard
import SiriusProxy.Rijndael.Cipher
import SiriusProxy.Rijndael.Schedule
import SiriusProxy.Rijndael.Block
import SiriusProxy.Rijndael.Decrypt
import SiriusProxy.Client.Refresh
import SiriusProxy.Master.Git
import SiriusProxy.Lib.Lines
import SiriusProxy.Master.Adopt
import SiriusProxy.AccessLog
import SiriusProxy.Lib.Polled
import SiriusProxy.Master.Admission
import SiriusProxy.Pool
import SiriusProxy.RedisCache
import SiriusProxy.Lib.JsonTokens
import SiriusProxy.Master.Reindent
import SiriusProxy.Client.Agreement
import SiriusProxy.Sdk.Signals
import SiriusProxy.Master.Recognize
import SiriusProxy.Lib.Ancestry
import SiriusProxy.Lib.Commands
import SiriusProxy.Lib.Retry
import SiriusProxy.Lib.Triple
import SiriusProxy.Master.Remote
import SiriusProxy.Master.Forward
import SiriusProxy.Master.Landed
import SiriusProxy.Master.Follow
import SiriusProxy.Master.Undisturbed
import SiriusProxy.Master.Branches
import SiriusProxy.Lib.Base64
import SiriusProxy.ClientAuth.Token
import SiriusProxy.ClientAuth.Authorize
import SiriusProxy.ClientAuth.Backed
import SiriusProxy.Master.Update
import SiriusProxy.Master.Requests
import SiriusProxy.Master.Provenance
import SiriusProxy.Master.Settle
import SiriusProxy.Client.Catalog
import SiriusProxy.Client.Fresh
import SiriusProxy.Client.Paced
