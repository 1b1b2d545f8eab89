import ContactDiscovery.Lib.Bitonic
import ContactDiscovery.Lib.BitonicSorted
import ContactDiscovery.Lib.Fold
import ContactDiscovery.Lib.Count
import ContactDiscovery.Lib.Ring
import ContactDiscovery.Lib.LongDivision
import ContactDiscovery.Lib.InvariantDivision
import ContactDiscovery.Lib.Redraw
import ContactDiscovery.Lib.Keyed
import ContactDiscovery.Lib.Buckets
import ContactDiscovery.Util
import ContactDiscovery.Division
import ContactDiscovery.Fixedset
import ContactDiscovery.AciPniUakHelpers
import ContactDiscovery.Ratelimit
import ContactDiscovery.Enclave
import ContactDiscovery.ClientLifecycle
import ContactDiscovery.PathOram.TreePath
import ContactDiscovery.PathOram.Stash
import ContactDiscovery.PathOram.BuildPath
import ContactDiscovery.PathOram.Oram
import ContactDiscovery.PathOram.Sizing
import ContactDiscovery.PathOram.Provenance
import ContactDiscovery.PathOram.Access
import ContactDiscovery.PathOram.Invariant
import ContactDiscovery.PathOram.Refinement
import ContactDiscovery.PathOram.OramPositionMap
import ContactDiscovery.PathOram.Oblivious
import ContactDiscovery.Ohtable
import ContactDiscovery.OhtableData
import ContactDiscovery.ShardedOhtable
import ContactDiscovery.ShardedLookup
import ContactDiscovery.Disclosure
import ContactDiscovery.Limits.CosmosTokenRateLimiter
import ContactDiscovery.Limits.RedisLeakyBucketRateLimiter
import ContactDiscovery.Noise
import ContactDiscovery.ShardQueue
