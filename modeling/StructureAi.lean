import StructureAi.Auth.Families
import StructureAi.Auth.ReuseAlarms
import StructureAi.Authorization.LexicalAuthority
import StructureAi.Authorization.PolicyCycles
import StructureAi.Authorization.PolicyDecision
import StructureAi.Cqrs.MemoryIdempotency
import StructureAi.Dotenv.ExpansionOrder
import StructureAi.Dotenv.LossyValues
import StructureAi.Dotenv.Rendering
import StructureAi.EventSourcing.EventRegistry
import StructureAi.EventSourcing.HistoryImportSplit
import StructureAi.EventSourcing.ImportChecksum
import StructureAi.EventSourcing.Inbox
import StructureAi.EventSourcing.OutboxClaims
import StructureAi.EventSourcing.OutboxDrain
import StructureAi.EventSourcing.OutboxRelay
import StructureAi.EventSourcing.Partition
import StructureAi.EventSourcing.ProjectionExact
import StructureAi.EventSourcing.ProjectionRebuild
import StructureAi.EventSourcing.ProjectionRun
import StructureAi.EventSourcing.SnapshotErasure
import StructureAi.Fixtures.Plan
import StructureAi.Fixtures.PlanOrder
import StructureAi.Foundation.DependencyOrder
import StructureAi.Foundation.JsonGrammar
import StructureAi.Foundation.Markup
import StructureAi.Foundation.Percent
import StructureAi.Foundation.Separated
import StructureAi.Foundation.Url
import StructureAi.Grpc.Answers
import StructureAi.Grpc.Server
import StructureAi.Http.RateLimitAgreement
import StructureAi.Http.RateLimitBudget
import StructureAi.Http.RedisChunks
import StructureAi.Http.RetryAfter
import StructureAi.Http.RouteLabelExact
import StructureAi.Http.StaticConfinement
import StructureAi.Identity.Base32
import StructureAi.Identity.CborExact
import StructureAi.Identity.EcdsaSignatures
import StructureAi.Identity.OneTimeTokens
import StructureAi.Identity.PasskeyAssertions
import StructureAi.Identity.PepperRotation
import StructureAi.Identity.SecondFactorRules
import StructureAi.Identity.SessionSlots
import StructureAi.Identity.TenantIsolation
import StructureAi.Jobs.CronFields
import StructureAi.Jobs.RareSchedules
import StructureAi.Jobs.RecurReplacement
import StructureAi.Jobs.RecurringJobs
import StructureAi.Jobs.UtcSchedule
import StructureAi.Jobs.ZoneSchedules
import StructureAi.Mailer.DotStuffing
import StructureAi.Mailer.Dsn
import StructureAi.Mailer.DsnCredentials
import StructureAi.Mailer.SmtpConfinement
import StructureAi.Migrations.Convergence
import StructureAi.Nisshi.EventStoreOrder
import StructureAi.Nisshi.Frames
import StructureAi.Nisshi.RecordBatchRoundTrip
import StructureAi.Nisshi.SignedVarints
import StructureAi.Observability.Logging
import StructureAi.Observability.Redaction
import StructureAi.Postgres.Agreement
import StructureAi.Postgres.ConflictReports
import StructureAi.Postgres.ExpiringClaims
import StructureAi.Postgres.FeedOrder
import StructureAi.Postgres.IdempotencyStore
import StructureAi.Runtime.ShutdownDrain
import StructureAi.Sqlite.Agreement
import StructureAi.Sqlite.OutboxAgreement
import StructureAi.Storage.FailedPuts
import StructureAi.Storage.S3
import StructureAi.Storage.S3Disposition
import StructureAi.Storage.S3Listing
import StructureAi.Storage.S3Requests
import StructureAi.Storage.S3Upload
import StructureAi.Storage.SigV4Encoding
import StructureAi.Storage.SignatureMatch
import StructureAi.Viewmodel.RowRoundTrip
import StructureAi.Viewmodel.ViewModel
import StructureAi.Viewmodel.ViewStore
