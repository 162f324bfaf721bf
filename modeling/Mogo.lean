import Mogo.BeamSearch
import Mogo.Blocks
import Mogo.CacheRoom
import Mogo.CallbackScope
import Mogo.Callbacks
import Mogo.CancelSafety
import Mogo.CaptionFile
import Mogo.CaptionWrap
import Mogo.CatalogKeys
import Mogo.Collections
import Mogo.CollectionsRun
import Mogo.ColumnCoverage
import Mogo.ColumnDiscovery
import Mogo.Confinement
import Mogo.Conservation
import Mogo.Csv
import Mogo.CsvHeader
import Mogo.DeclaredKeys
import Mogo.Deliverables
import Mogo.Discovery
import Mogo.EntryLinks
import Mogo.EpisodeKeys
import Mogo.Fidelity
import Mogo.FolderContents
import Mogo.Following
import Mogo.FreshName
import Mogo.FreshRows
import Mogo.Handler
import Mogo.Healing
import Mogo.Idempotence
import Mogo.Isolation
import Mogo.JobLifecycle
import Mogo.JsNumber
import Mogo.Kahn
import Mogo.KeyPrecedence
import Mogo.KeyedList
import Mogo.Liveness
import Mogo.Migrate
import Mogo.Naming
import Mogo.Numeral
import Mogo.NumeralText
import Mogo.OldIdIndex
import Mogo.OneUpload
import Mogo.Page
import Mogo.Paging
import Mogo.Pass1
import Mogo.Pass1Run
import Mogo.Pass2
import Mogo.Pass2Run
import Mogo.PassOrder
import Mogo.Phases
import Mogo.Plan
import Mogo.PlannedNames
import Mogo.PocketBase
import Mogo.PosixPath
import Mogo.Preservation
import Mogo.PromptContext
import Mogo.Publishing
import Mogo.Rerun
import Mogo.RowIdentity
import Mogo.SchemaAgreement
import Mogo.SchemaDelivery
import Mogo.Script
import Mogo.Server
import Mogo.ServerSteps
import Mogo.Session
import Mogo.SharedCounter
import Mogo.SourceCleanup
import Mogo.SourcePaging
import Mogo.TableOrder
import Mogo.Transcription
import Mogo.Transition
import Mogo.TypeInference
import Mogo.TypeMapping
import Mogo.UploadGuard
import Mogo.Upsert
import Mogo.Value
import Mogo.VideoFilter
import Mogo.WhisperOutput
