import MiniDB.Library.ByteSequence
import MiniDB.Library.Framing
import MiniDB.Library.PosixFile
import MiniDB.Library.Memory
import MiniDB.Library.Refinement
import MiniDB.Library.FiniteMap
import MiniDB.Library.KeyedList
import MiniDB.Library.Traversal
import MiniDB.Library.Heap
import MiniDB.Common.Type
import MiniDB.Storage.WriteAheadLog
import MiniDB.Storage.Frame
import MiniDB.Storage.LogContents
import MiniDB.Storage.LogUpdates
import MiniDB.Storage.LogRefinement
import MiniDB.Storage.Recovery
import MiniDB.Storage.RejectedAppend
import MiniDB.Storage.CrashCut
import MiniDB.JsonPro.Value
import MiniDB.Core.Record
import MiniDB.Core.Page
import MiniDB.Core.Table
import MiniDB.Core.TableOperations
import MiniDB.Core.TableIndex
import MiniDB.Library.TwoLevelIndex
import MiniDB.Core.TableWiring
import MiniDB.Core.TableConsistency
import MiniDB.Core.TableRefinement
import MiniDB.Core.Decoding
import MiniDB.Core.RoundTrip
import MiniDB.Core.Database
import MiniDB.Core.DatabaseLoading
import MiniDB.Core.LoadAtomicity
import MiniDB.Core.DatabaseConsistency
import MiniDB.Core.DatabaseRuns
import MiniDB.Core.DatabaseRoundTrip
import MiniDB.Engine.QueryEngine
import MiniDB.Core.DatabaseIdentity
import MiniDB.Engine.ImportExport
import MiniDB.Common.FileIO
import MiniDB.Engine.BufferPool
import MiniDB.Engine.CleanPages
import MiniDB.Engine.IdentitySurvival
import MiniDB.Common.AtomicWrite
import MiniDB.Common.ReadFile
import MiniDB.Common.WriteSite
import MiniDB.Core.Directory
import MiniDB.Core.IdHistory
import MiniDB.Core.LoadIntegrity
import MiniDB.Core.Requirements
import MiniDB.Engine.Concurrency
import MiniDB.Engine.DatabaseExport
import MiniDB.Engine.ImportBoundary
import MiniDB.Engine.LosslessExport
import MiniDB.Engine.ParallelBatches
import MiniDB.Library.Durability
import MiniDB.Library.PosixDisk
import MiniDB.Storage.CrashDurability
import MiniDB.Engine.SortComparison
import MiniDB.Library.ShiftRegister
import MiniDB.Storage.Checksum
import MiniDB.Storage.BurstCorruption
import MiniDB.Storage.FrameArithmetic
import MiniDB.Storage.ShortReads
import MiniDB.Engine.DecodingTargets
import MiniDB.Engine.IdNumbers
import MiniDB.Engine.RejectedDocuments
import MiniDB.Core.CounterResume
import MiniDB.Core.RecordChanges
import MiniDB.Core.UnsavedChanges
import MiniDB.Engine.PageSeparation
import MiniDB.Library.Sorting
import MiniDB.Library.Keyset
import MiniDB.Core.SchemaLanguage
import MiniDB.Engine.QueryScans
import MiniDB.Engine.SortedColumn
import MiniDB.Engine.Pagination
import MiniDB.Engine.ImportIds
import MiniDB.Common.SlotArray
import MiniDB.Common.SlotReads
import MiniDB.Engine.EvictFetch
import MiniDB.Engine.PageNumbers
import MiniDB.Engine.Compaction
import MiniDB.Engine.ImportPrefix
import MiniDB.Storage.BitwiseChecksum
import MiniDB.Common.ConcurrentSaves
import MiniDB.Core.LeakedSlots
import MiniDB.Library.OwnObjects
import MiniDB.Storage.LogLifetime
import MiniDB.Common.ConcurrentReads
import MiniDB.Engine.QueryMap
import MiniDB.Engine.ParallelIndexes
import MiniDB.Engine.ParallelRoundTrip
import MiniDB.Examples.PlaceOrder
import MiniDB.Library.Volume
import MiniDB.Common.PowerLoss
import MiniDB.Engine.DatabaseFiles
import MiniDB.Engine.NormalForm
import MiniDB.Library.Ownership
import MiniDB.Core.TableExchange
import MiniDB.Core.DatabaseLifetimes
import MiniDB.Common.SlotDamage
import MiniDB.Storage.LogHandles
import MiniDB.Storage.HandleRefinement
import MiniDB.Core.TableObject
import MiniDB.Core.PagePointers
import MiniDB.Core.PointerLoads
import MiniDB.Core.TableLifetimes
