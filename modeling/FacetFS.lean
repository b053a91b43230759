import FacetFS.SmbExclusion
import FacetFS.SmbCreate
import FacetFS.SmbRename
import FacetFS.NfsLockBounds
import FacetFS.NfsLockReplay
import FacetFS.NfsFailures
import FacetFS.NfsBounds
import FacetFS.NfsFileUse
import FacetFS.NfsOpenArgs
import FacetFS.NfsExclusiveCreate
import FacetFS.NfsCreateTruth
import FacetFS.NfsCreateCleanup
import FacetFS.NfsShareRace
import FacetFS.NfsHandles
import FacetFS.NfsReadDir
import FacetFS.CacheCrash
import FacetFS.CacheInterleaving
import FacetFS.CachePunch
import FacetFS.CacheAttributes
import FacetFS.MemFS
import FacetFS.CacheDownloader
import FacetFS.CacheJanitor
import FacetFS.CacheLoad
import FacetFS.CachePaths
import FacetFS.NfsAttr
import FacetFS.NfsCompound
import FacetFS.SmbChain
import FacetFS.SmbListing
import FacetFS.WebdavRefusal
