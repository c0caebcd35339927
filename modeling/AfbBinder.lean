import AfbBinder.Lib.Runs
import AfbBinder.Lib.Lists
import AfbBinder.Lib.Bsearch
import AfbBinder.Lib.Cstrings
import AfbBinder.Lib.Updates
import AfbBinder.Lib.Reader
import AfbBinder.Lib.Le32
import AfbBinder.Lib.Chunks
import AfbBinder.Lib.Json
import AfbBinder.Lib.Unused
import AfbBinder.Lib.Traces
import AfbBinder.Lib.Chains
import AfbBinder.Lib.Words
import AfbBinder.Lib.Insertions
import AfbBinder.Lib.Shortcuts
import AfbBinder.Jobs.Model
import AfbBinder.Jobs.Invariant
import AfbBinder.Jobs.Schedule
import AfbBinder.Jobs.Remains
import AfbBinder.Jobs.Counters
import AfbBinder.Jobs.Sections
import AfbBinder.Jobs.Ownership
import AfbBinder.Jobs.Terminate
import AfbBinder.Jobs.Nested
import AfbBinder.Jobs.Aborts
import AfbBinder.Apiset.Model
import AfbBinder.Apiset.Search
import AfbBinder.Apiset.Start
import AfbBinder.Apiset.StartOrder
import AfbBinder.Apiset.Names
import AfbBinder.Apiset.Links
import AfbBinder.Apiset.Enumeration
import AfbBinder.Apiset.Shared
import AfbBinder.Apiset.Contents
import AfbBinder.Apiset.Shares
import AfbBinder.Apiset.Dangling
import AfbBinder.Apiset.Cycles
import AfbBinder.Apiset.StartAll
import AfbBinder.Sessions.Model
import AfbBinder.Sessions.Lifecycle
import AfbBinder.Sessions.Cleanup
import AfbBinder.Sessions.Effects
import AfbBinder.Sessions.Closing
import AfbBinder.Sessions.Cookies
import AfbBinder.Sessions.Destruction
import AfbBinder.Sessions.Releases
import AfbBinder.Contexts.Model
import AfbBinder.Contexts.Disconnect
import AfbBinder.Contexts.Verbs
import AfbBinder.Contexts.Chains
import AfbBinder.Request.Model
import AfbBinder.Request.ReplyOnce
import AfbBinder.Calls.Sync
import AfbBinder.Events.Model
import AfbBinder.Events.Watches
import AfbBinder.Events.Subscriptions
import AfbBinder.Events.Ids
import AfbBinder.ProtoWs.Buffers
import AfbBinder.ProtoWs.Messages
import AfbBinder.ProtoWs.Reading
import AfbBinder.ProtoWs.RoundTrip
import AfbBinder.ProtoWs.Malformed
import AfbBinder.ProtoWs.Calls
import AfbBinder.ProtoWs.CallOutcome
import AfbBinder.ProtoWs.Pending
import AfbBinder.Websock.Model
import AfbBinder.Websock.Decoder
import AfbBinder.Websock.Payload
import AfbBinder.Websock.Chunked
import AfbBinder.Websock.Interface
import AfbBinder.Websock.Frames
import AfbBinder.Websock.FrameTrip
import AfbBinder.Websock.CloseFrame
import AfbBinder.Websock.Buffer
import AfbBinder.Websock.Reassembly
import AfbBinder.Wsj1.Model
import AfbBinder.Wsj1.Scan
import AfbBinder.Wsj1.RoundTrip
import AfbBinder.Wsj1.Calls
import AfbBinder.Wsj1.Answers
import AfbBinder.Stub.Model
import AfbBinder.Stub.Replicas
import AfbBinder.Stub.Reordered
import AfbBinder.Stub.Proto
import AfbBinder.Stub.CallRefs
import AfbBinder.Stub.Describing
import AfbBinder.Paths.Subpath
import AfbBinder.Connections.Model
import AfbBinder.Connections.Lives
import AfbBinder.WrapJson.Sorting
import AfbBinder.Contexts.Descriptions
import AfbBinder.Locale.Model
import AfbBinder.Locale.Cache
import AfbBinder.Locale.References
import AfbBinder.HookFlags.Tables
import AfbBinder.HookFlags.Names
import AfbBinder.HookFlags.Texts
import AfbBinder.Hsrv.Handlers
import AfbBinder.Hsrv.Offers
import AfbBinder.Exports.EventHandlers
import AfbBinder.Trace.Model
import AfbBinder.Trace.Drops
import AfbBinder.WrapJson.Base64
import AfbBinder.WrapJson.Formats
import AfbBinder.WrapJson.Objects
import AfbBinder.WrapJson.Packing
import AfbBinder.WrapJson.Unpacking
import AfbBinder.WrapJson.Items
import AfbBinder.WrapJson.Trips
import AfbBinder.Aws.Writev
import AfbBinder.Lib.Checked
import AfbBinder.Wsj1.Bounds
import AfbBinder.Locale.Containers
import AfbBinder.Lib.Buffers
import AfbBinder.Locale.Opening
import AfbBinder.Locale.Tags
import AfbBinder.Locale.Orders
import AfbBinder.Locale.Blanks
import AfbBinder.Lib.Ledgers
import AfbBinder.Lib.Loops
import AfbBinder.WrapJson.PackRuns
import AfbBinder.WrapJson.Blocks
import AfbBinder.WrapJson.Cleanup
import AfbBinder.WrapJson.Shapes
import AfbBinder.WrapJson.Readings
import AfbBinder.WrapJson.UnpackRuns
import AfbBinder.WrapJson.Prefixes
import AfbBinder.WrapJson.Skipping
import AfbBinder.WrapJson.Meanings
import AfbBinder.WrapJson.Packings
import AfbBinder.WrapJson.RoundTrips
import AfbBinder.WrapJson.Strictness
import AfbBinder.WrapJson.Parsings
import AfbBinder.WrapJson.Checking
import AfbBinder.Exports.Requires
import AfbBinder.Lib.Scanf
import AfbBinder.Exports.Verbs
import AfbBinder.Creds.Model
import AfbBinder.Creds.Exchange
import AfbBinder.Lib.Forms
import AfbBinder.Hsrv.Queries
import AfbBinder.Hsrv.Posts
import AfbBinder.Hsrv.Tails
import AfbBinder.HookFlags.Known
import AfbBinder.Trace.Descriptions
import AfbBinder.Trace.Readings
import AfbBinder.Trace.Installs
import AfbBinder.Trace.Adds
import AfbBinder.Websock.Unmasking
import AfbBinder.WrapJson.Nesting
import AfbBinder.WrapJson.Formatting
import AfbBinder.Verbose.Masks
import AfbBinder.Lib.CrLf
import AfbBinder.WsClient.Model
import AfbBinder.WsClient.Lines
import AfbBinder.WsClient.Headers
import AfbBinder.WsClient.Responses
import AfbBinder.WsClient.Acceptance
import AfbBinder.Wsj1.Exchange
import AfbBinder.Websock.Streams
import AfbBinder.ProtoWs.Transport
import AfbBinder.Jobs.EventLoop
import AfbBinder.Lib.Forests
import AfbBinder.Request.Subcalls
import AfbBinder.Request.Endings
import AfbBinder.WsClient.Requests
import AfbBinder.Hsrv.Upgrade
import AfbBinder.WsClient.Handshake
import AfbBinder.Events.Relays
import AfbBinder.Hsrv.Suspensions
