import Ceres.Library.Bytes
import Ceres.Library.Run
import Ceres.Library.Wildcard
import Ceres.Library.Page
import Ceres.Library.Sql
import Ceres.Library.Calendar
import Ceres.Library.Month
import Ceres.Library.Dict
import Ceres.Library.Backtrack
import Ceres.Library.Folders
import Ceres.Library.Utf8
import Ceres.Library.Lines
import Ceres.Database.Timestamp
import Ceres.Data.Json
import Ceres.Data.Binary
import Ceres.Data.Struct
import Ceres.Data.Schema
import Ceres.Data.BinaryEngines
import Ceres.Connection.Ordering
import Ceres.Database.Writer
import Ceres.Database.Selector
import Ceres.Database.Branches
import Ceres.Database.Tables
import Ceres.Database.Cells
import Ceres.Database.Filter
import Ceres.Database.Expansion
import Ceres.Database.Load
import Ceres.Database.EntityLoad
import Ceres.Address
import Ceres.Grammar
import Ceres.Exporter.Span
import Ceres.Exporter.Archive
import Ceres.Exporter.Runs
import Ceres.Exporter.Live
import Ceres.Exporter.WholeFile
import Ceres.Exporter.LineWriter
import Ceres.Exporter.Formats
import Ceres.Exporter.LineFile
import Ceres.Exporter.Pending
import Ceres.Exporter.Tiling
import Ceres.Exporter.Torn
import Ceres.Paths.Template
import Ceres.Paths.Layout
import Ceres.Paths.ReadBack
import Ceres.Exporter.Path
import Ceres.Exporter.Plan
import Ceres.Component.TaskManager
import Ceres.Component.Naming
import Ceres.Component.JobManager
import Ceres.Component.Playback
import Ceres.Component.Tree
import Ceres.Component.References
import Ceres.Component.Propagate
import Ceres.Console.Feed
import Ceres.Console.FeedStore
import Ceres.Server.Workspaces
import Ceres.Server.Auth
import Ceres.Console.Draft
import Ceres.Console.EditSession
import Ceres.Media.Reader
import Ceres.Server.Uploads
import Ceres.Library.FileSystem
import Ceres.Server.Files
import Ceres.Server.FileWrites
import Ceres.Console.Layout
import Ceres.Console.Preview
import Ceres.Console.Association
import Ceres.Server.Merge
import Ceres.Server.Access
import Ceres.Library.Forest
import Ceres.Component.Reconcile
import Ceres.Component.Schedule
import Ceres.Database.Patterns
import Ceres.Database.Subsample
import Ceres.Database.Parsed
import Ceres.Database.Upsert
import Ceres.Database.Matcher
import Ceres.Database.Ranges
import Ceres.Database.Agreement
import Ceres.Server.Cookie
import Ceres.Data.Encodings
import Ceres.Console.FreshIds
import Ceres.Server.Paging
import Ceres.Server.Certificate
import Ceres.Database.Email
import Ceres.Console.Chunked
import Ceres.Console.Regroup
import Ceres.Media.Timeline
import Ceres.Media.Outages
import Ceres.Media.Nal
import Ceres.Webrtc.Queue
import Ceres.Webrtc.ParameterSets
import Ceres.Webrtc.Session
import Ceres.Config.TimeDelta
import Ceres.Exporter.Netcdf
import Ceres.Timing.Sdelta
import Ceres.Timing.Suffixes
import Ceres.Utilities.OrderedSet
import Ceres.Data.CsvRows
import Ceres.Media.FrameOrder
