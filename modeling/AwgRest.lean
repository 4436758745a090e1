import AwgRest.Lib.Program
import AwgRest.Lib.Interleaving
import AwgRest.Lib.Discipline
import AwgRest.Lib.Cyclic
import AwgRest.Lib.Transactions
import AwgRest.Lib.Text
import AwgRest.Lib.Base64
import AwgRest.Netip
import AwgRest.Ipam
import AwgRest.Ipam.Allocate
import AwgRest.Domain
import AwgRest.Profile
import AwgRest.SpecialJunk
import AwgRest.Render
import AwgRest.Executor
import AwgRest.Fake
import AwgRest.Api.Types
import AwgRest.Crypto
import AwgRest.Crypto.Canonical
import AwgRest.Worker.Config
import AwgRest.RoundTrip.Lines
import AwgRest.RoundTrip.Peers
import AwgRest.RoundTrip.Server
import AwgRest.RoundTrip.Order
import AwgRest.RoundTrip.Interface
import AwgRest.Store.Rows
import AwgRest.Store.Session
import AwgRest.Store.Statements
import AwgRest.Store.World
import AwgRest.Repo
import AwgRest.Api.Auth
import AwgRest.Api.Service
import AwgRest.Worker.Apply
import AwgRest.Bootstrap
import AwgRest.Store.Acts
import AwgRest.System
import AwgRest.Discipline.Local
import AwgRest.Discipline.Rules
import AwgRest.Discipline.Requests
import AwgRest.Discipline.Workers
import AwgRest.Discipline.Commands
import AwgRest.Store.Profiles
import AwgRest.Store.Replay
import AwgRest.Invariant.Link
import AwgRest.Invariant.Tables
import AwgRest.Invariant.Peers
import AwgRest.Invariant.History
import AwgRest.Invariant.Lifecycle
import AwgRest.Invariant.Addresses
import AwgRest.Invariant.ServerAddress
import AwgRest.Invariant.Idempotency
import AwgRest.Invariant.Leases
import AwgRest.Invariant.Jobs
import AwgRest.Invariant.OneWorker
import AwgRest.Invariant.Settlement
import AwgRest.Invariant.Backoff
import AwgRest.Invariant.Runtime
import AwgRest.Invariant.Revocation
import AwgRest.Invariant.Convergence
import AwgRest.Requests.Reads
import AwgRest.Requests.Answer
import AwgRest.Requests.Allocation
import AwgRest.NodeAgent
import AwgRest.RoundTrip.PrivateKey
import AwgRest.RoundTrip.Redaction
import AwgRest.RoundTrip.Splice
import AwgRest.Lib.Strconv
import AwgRest.Dump
import AwgRest.RoundTrip.Dump
import AwgRest.Migration
import AwgRest.Lib.Url
import AwgRest.Lib.Json
import AwgRest.FakeExecutor
import AwgRest.NodeAgent.Peers
import AwgRest.RoundTrip.Agent
import AwgRest.Invariant.PrivateKey
import AwgRest.Discipline.Tenancy
import AwgRest.Invariant.Tenancy
import AwgRest.Requests.Isolation
import AwgRest.Requests.Outcome
import AwgRest.Requests.Expiry
import AwgRest.Requests.Secrets
import AwgRest.Invariant.Replay
import AwgRest.RateLimit
import AwgRest.RateLimit.Bound
import AwgRest.RateLimit.RetryAfter
import AwgRest.RoundTrip.Sanitize
import AwgRest.RoundTrip.IntRange
import AwgRest.Lib.Net
import AwgRest.RoundTrip.Endpoint
import AwgRest.FirstStart
import AwgRest.FirstStart.Repair
import AwgRest.Provisioning
import AwgRest.Provisioning.Protocol
import AwgRest.Provisioning.Files
import AwgRest.Provisioning.Ledger
import AwgRest.Provisioning.Atomic
import AwgRest.Lib.Traces
import AwgRest.Lib.Front
import AwgRest.Auth.Token
import AwgRest.Server.Config
import AwgRest.Auth.Acceptance
import AwgRest.Auth.Issue
import AwgRest.Api.Problem
import AwgRest.Http
import AwgRest.Http.Reads
import AwgRest.Http.Refinement
import AwgRest.Invariant.Accounts
import AwgRest.Http.Confinement
import AwgRest.Http.Answers
import AwgRest.Http.Disclosure
import AwgRest.RateLimit.Window
import AwgRest.Http.Throttle
import AwgRest.Lib.Triples
import AwgRest.Lib.Waiting
import AwgRest.Discipline.Ordering
import AwgRest.Invariant.Deadlock
import AwgRest.Lib.FileSystem
import AwgRest.Cli
import AwgRest.Cli.Ownership
import AwgRest.Cli.Provenance
import AwgRest.Cli.Leftovers
