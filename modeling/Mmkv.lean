import Mmkv.CallRuns
import Mmkv.KeyedStore
import Mmkv.AvlTree
import Mmkv.RehashTables
import Mmkv.TreeHashTable
import Mmkv.TreeHashTableRuns
import Mmkv.HashTable
import Mmkv.EffectPrograms
import Mmkv.ByteReaders
import Mmkv.VarintCodes
import Mmkv.FrameStreams
import Mmkv.CStrings
import Mmkv.Dictionaries
import Mmkv.HashCollections
import Mmkv.Vset
import Mmkv.MessageComponents
import Mmkv.Database
import Mmkv.Commands
import Mmkv.DataViews
import Mmkv.DatabaseStates
import Mmkv.CommandKeys
import Mmkv.PlainRuns
import Mmkv.DatabaseChanges
import Mmkv.LazyExpiration
import Mmkv.ExpirationInvariant
import Mmkv.KeyIndependence
import Mmkv.FailedCommands
import Mmkv.ReferenceStore
import Mmkv.Requests
import Mmkv.RequestKeys
import Mmkv.ReadRequests
import Mmkv.RequestCodec
import Mmkv.RawRequests
import Mmkv.ResponseCodec
import Mmkv.Framing
import Mmkv.ServerMessages
import Mmkv.ServerReplies
import Mmkv.DatabaseManager
import Mmkv.EvenShares
import Mmkv.ShardController
import Mmkv.PendingConfigurations
import Mmkv.ConcurrentJoins
import Mmkv.RequestLog
import Mmkv.Recovery
import Mmkv.StoredValues
import Mmkv.MapResponses
import Mmkv.KeyEvents
import Mmkv.Replacement
import Mmkv.Shards
import Mmkv.Migration
import Mmkv.ShardRequests
import Mmkv.VsetAgreement
import Mmkv.Partitioning
import Mmkv.AvlBalance
import Mmkv.AvlPointers
import Mmkv.AvlRemoval
import Mmkv.AvlOperations
import Mmkv.AvlReuse
import Mmkv.AvlMultimap
import Mmkv.AvlUniqueKeys
import Mmkv.BucketBalance
import Mmkv.Blist
import Mmkv.BlistRuns
import Mmkv.Slist
import Mmkv.RecencyCaches
import Mmkv.LfuCache
import Mmkv.LfuPolicy
import Mmkv.RecencyPolicies
import Mmkv.CNumbers
import Mmkv.Tokenizer
import Mmkv.SplitStringView
import Mmkv.Comparators
import Mmkv.Translator
import Mmkv.LockedShards
import Mmkv.IncrementalDoubling
import Mmkv.TableGrowth
import Mmkv.AvlCounts
import Mmkv.AvlWalk
import Mmkv.VsetRanges
import Mmkv.TableIterators
import Mmkv.SetAliasing
import Mmkv.TableCounts
import Mmkv.VsetOrders
import Mmkv.VsetRanks
import Mmkv.ListCommands
import Mmkv.KeyLifetimes
import Mmkv.DeleteReports
