import Backbone.Auth.Idempotency
import Backbone.Auth.Rotation
import Backbone.Auth.Spellings
import Backbone.Auth.TokenKinds
import Backbone.Authorization.RemovedAccess
import Backbone.Cache.Agreement
import Backbone.Cache.Interleaved
import Backbone.Core.BatchIds
import Backbone.Core.BatchPreview
import Backbone.Core.ConfigBus
import Backbone.Core.EnvVars
import Backbone.Core.FieldVisibility
import Backbone.Core.ListTotals
import Backbone.Core.ModuleRegistry
import Backbone.Core.PatchKeys
import Backbone.Core.RowRule
import Backbone.Jobs.FieldText
import Backbone.Jobs.NextTimes
import Backbone.Jobs.PgInsert
import Backbone.Jobs.PgSync
import Backbone.Jobs.Recurring
import Backbone.Jobs.Slots
import Backbone.Messaging.BusRuns
import Backbone.Messaging.Dispatch
import Backbone.Notification.Attempts
import Backbone.Orm.BuiltQuery
import Backbone.Orm.BulkInsert
import Backbone.Orm.CompanyFilters
import Backbone.Orm.EqualitySpellings
import Backbone.Orm.FoldedNames
import Backbone.Orm.InlinedQuery
import Backbone.Orm.MigrationRuns
import Backbone.Orm.ParamOrder
import Backbone.Orm.Placeholders
import Backbone.Orm.PreviousPage
import Backbone.Orm.RequestScope
import Backbone.Orm.SortSpellings
import Backbone.Outbox.Delivery
import Backbone.Outbox.HeadOfLine
import Backbone.Persistence.Adapters
import Backbone.Persistence.ConstraintNames
import Backbone.Persistence.PermanentDelete
import Backbone.Queue.DeduplicationCache
import Backbone.Queue.ExactlyOnce
import Backbone.Queue.FifoBatch
import Backbone.Queue.FifoWindows
import Backbone.Queue.Manager
import Backbone.Queue.NoDeadlock
import Backbone.Queue.Redelivery
import Backbone.RateLimit.CounterExpiry
import Backbone.RateLimit.Forwarding
import Backbone.RateLimit.ResetAt
import Backbone.RateLimit.WindowBound
import Backbone.Storage.Listing
import Backbone.Tenant.Cancelled
import Backbone.Tenant.Dsn
import Backbone.Tenant.Eviction
import Backbone.Tenant.Resolve
import Backbone.Workflow.Compensation
import Backbone.Workflow.EvalPanics
import Backbone.Workflow.Events
import Backbone.Workflow.Failures
import Backbone.Workflow.StepLog
import Backbone.Workflow.Sweep
