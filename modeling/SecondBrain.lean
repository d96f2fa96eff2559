import SecondBrain.Auth.Jwt
import SecondBrain.Auth.JwtLaws
import SecondBrain.Auth.Keys
import SecondBrain.Auth.KeysProtocol
import SecondBrain.Framework.Daily
import SecondBrain.Framework.DailyRepair
import SecondBrain.Framework.DailyRuns
import SecondBrain.Framework.DailySections
import SecondBrain.Framework.DateGrammar
import SecondBrain.Framework.DateParsing
import SecondBrain.Framework.DateWriting
import SecondBrain.Framework.Dates
import SecondBrain.Framework.Dispatch
import SecondBrain.Framework.FileNames
import SecondBrain.Framework.Instants
import SecondBrain.Framework.LocalDates
import SecondBrain.Framework.Metadata
import SecondBrain.Framework.MetadataConfinement
import SecondBrain.Framework.Records
import SecondBrain.Framework.Registry
import SecondBrain.Framework.Schema
import SecondBrain.Framework.SchemaComments
import SecondBrain.Framework.SchemaComposition
import SecondBrain.Framework.SchemaDepth
import SecondBrain.Framework.SchemaTree
import SecondBrain.Framework.SectionLens
import SecondBrain.Library.Binary64
import SecondBrain.Library.Blocks
import SecondBrain.Library.Calendar
import SecondBrain.Library.Directories
import SecondBrain.Library.FileSystem
import SecondBrain.Library.FileSystemLaws
import SecondBrain.Library.FileSystemSteps
import SecondBrain.Library.History
import SecondBrain.Library.Json
import SecondBrain.Library.JsonSchema
import SecondBrain.Library.JsonStrings
import SecondBrain.Library.Lines
import SecondBrain.Library.Lists
import SecondBrain.Library.LockOrder
import SecondBrain.Library.Marks
import SecondBrain.Library.Passages
import SecondBrain.Library.Program
import SecondBrain.Library.Recording
import SecondBrain.Library.Regex
import SecondBrain.Library.Schedules
import SecondBrain.Library.Search
import SecondBrain.Library.SortedMap
import SecondBrain.Library.Substitution
import SecondBrain.Library.Traversal
import SecondBrain.Library.WeakLocks
import SecondBrain.Runtime.Calls
import SecondBrain.Runtime.ConflictScan
import SecondBrain.Runtime.Freshness
import SecondBrain.Runtime.Listing
import SecondBrain.Runtime.ListingLaws
import SecondBrain.Runtime.ListingRuns
import SecondBrain.Runtime.SkillPrivacy
import SecondBrain.Runtime.SkillReload
import SecondBrain.Runtime.Skills
import SecondBrain.Runtime.ToolCalls
import SecondBrain.Runtime.ToolLocks
import SecondBrain.Runtime.ToolOrder
import SecondBrain.Runtime.ToolRuns
import SecondBrain.Runtime.Tools
import SecondBrain.Runtime.Walks
import SecondBrain.Server.Arguments
import SecondBrain.Server.Authority
import SecondBrain.Server.Calls
import SecondBrain.Server.Mcp
import SecondBrain.Server.Observability
import SecondBrain.Server.Ocr
import SecondBrain.Server.Runs
import SecondBrain.Server.ToolRegistry
import SecondBrain.Server.Tools
import SecondBrain.Text
import SecondBrain.Vault.Admission
import SecondBrain.Vault.Audit
import SecondBrain.Vault.AuditRetention
import SecondBrain.Vault.AuditRotation
import SecondBrain.Vault.Calls
import SecondBrain.Vault.Conflicts
import SecondBrain.Vault.Deletions
import SecondBrain.Vault.Footprint
import SecondBrain.Vault.Frontmatter
import SecondBrain.Vault.FrontmatterEncoding
import SecondBrain.Vault.FrontmatterRoundTrip
import SecondBrain.Vault.Index
import SecondBrain.Vault.IndexPrivacy
import SecondBrain.Vault.IndexQueries
import SecondBrain.Vault.Markdown
import SecondBrain.Vault.Operations
import SecondBrain.Vault.Path
import SecondBrain.Vault.PathExactness
import SecondBrain.Vault.PathLaws
import SecondBrain.Vault.Policy
import SecondBrain.Vault.PolicyLaws
import SecondBrain.Vault.Reader
import SecondBrain.Vault.Resolution
import SecondBrain.Vault.Trash
import SecondBrain.Vault.TrashPlaces
import SecondBrain.Vault.Writer
import SecondBrain.Vault.WriterAtomicity
import SecondBrain.Vault.WriterAuditing
import SecondBrain.Vault.WriterLocks
import SecondBrain.Vault.WriterOutline
import SecondBrain.Vault.WriterRuns
import SecondBrain.Vault.WriterSecrecy
import SecondBrain.Vault.WriterSteps
