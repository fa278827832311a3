import ModelFs.Bitfield
import ModelFs.OriginId
import ModelFs.Sidecar
import ModelFs.Cached
import ModelFs.Invalidate
import ModelFs.Entry
import ModelFs.EntryMarks
import ModelFs.EntryRequest
import ModelFs.EntryRead
import ModelFs.EntryServe
import ModelFs.Lib.RefCount
import ModelFs.Table
import ModelFs.TableLife
import ModelFs.Inodes
import ModelFs.Lib.Spelling
import ModelFs.InodesKernel
import ModelFs.Manifest
import ModelFs.Sections
import ModelFs.Isolation
import ModelFs.BitStorage
import ModelFs.Publish
import ModelFs.Hydrate
import ModelFs.HydrateClaims
import ModelFs.HydrateMarks
import ModelFs.Disk
import ModelFs.Punch
import ModelFs.Builders
import ModelFs.Fills
import ModelFs.TableDesc
import ModelFs.Persist
import ModelFs.Control
import ModelFs.Lib.Bytes
import ModelFs.Paths
import ModelFs.PeerRequest
import ModelFs.Inflight
import ModelFs.ManifestCodec
import ModelFs.Install
import ModelFs.InodesHandover
import ModelFs.Lib.Json
import ModelFs.Handover
import ModelFs.MountCache
import ModelFs.Artifacts
import ModelFs.Reload
import ModelFs.ManifestBytes
import ModelFs.Lib.NameCalls
import ModelFs.Retry
import ModelFs.Catalog
import ModelFs.CachedCands
import ModelFs.ManifestLoad
import ModelFs.PeerReply
import ModelFs.WriteThrough
import ModelFs.Cull
import ModelFs.Readdir
import ModelFs.HaveCache
import ModelFs.FetchCands
import ModelFs.CullSample
import ModelFs.CullOne
import ModelFs.Sweep
import ModelFs.Lib.Merge
import ModelFs.Overlap
import ModelFs.Numbers
import ModelFs.Update
import ModelFs.ReadSlots
import ModelFs.ProbeClaims
import ModelFs.HaveExchange
import ModelFs.Pull
import ModelFs.LeaseDoc
import ModelFs.Lib.JsonText
import ModelFs.StateRead
import ModelFs.SwapFiles
import ModelFs.ImageSwap
import ModelFs.Lib.Throttle
import ModelFs.Lib.Pool
import ModelFs.PeerServer
import ModelFs.Outages
import ModelFs.ProbeWire
import ModelFs.StatusDoc
import ModelFs.Heartbeat
import ModelFs.Membership
import ModelFs.DataExchange

