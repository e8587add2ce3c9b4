import Freighter.Auth.Durable
import Freighter.Auth.Provenance
import Freighter.Server.Tarballs
import Freighter.FsIndex.Origin
import Freighter.Server.Downloads
import Freighter.Server.Framing
import Freighter.Server.Handlers
import Freighter.Server.Publish
import Freighter.Server.Ownership
import Freighter.Lib.Table
import Freighter.Lib.Transaction
import Freighter.Pg.Model
import Freighter.Pg.Release
import Freighter.Pg.Consistent
import Freighter.Pg.Sparse
import Freighter.FsIndex.Catalog
import Freighter.Index.Agreement
import Freighter.FsIndex.Versions
import Freighter.FsIndex.Republish
import Freighter.Index.Existence
import Freighter.Server.Routes
import Freighter.Server.Unauthorized
import Freighter.Auth.CfAccess
import Freighter.Lib.Interleaving
import Freighter.Lib.Versioned
import Freighter.Pg.Concurrent
import Freighter.Pg.Independent
import Freighter.Server.Spelling
import Freighter.Auth.Registration
import Freighter.Lib.FileTree
import Freighter.Storage.Fs
import Freighter.Storage.Listing
import Freighter.Lib.Paging
import Freighter.Storage.Objects
import Freighter.FsIndex.Browse
import Freighter.FsIndex.LockMap
import Freighter.Auth.Removal
import Freighter.Auth.FailedSave
import Freighter.Lib.BufWriter
import Freighter.Lib.JsonPieces
import Freighter.Auth.OwnersFile
import Freighter.Lib.StableSort
import Freighter.Types.Normalize
import Freighter.Server.Metadata
import Freighter.FsIndex.Releases
import Freighter.Server.Layout
import Freighter.FsIndex.Search
import Freighter.Types.Precedence
import Freighter.FsIndex.Listing
import Freighter.Lib.Query
import Freighter.Pg.Search
import Freighter.Pg.Listing
import Freighter.Server.Search
import Freighter.Index.MaxVersion
import Freighter.Pg.About
import Freighter.Auth.Base64Serde
import Freighter.Auth.CfBackend
import Freighter.Storage.CrateKeys
import Freighter.Storage.System
import Freighter.Storage.Inside
import Freighter.FsIndex.Progress
import Freighter.Server.Progress
import Freighter.Server.Registry
import Freighter.Server.Refinement
import Freighter.Server.Lifetime
import Freighter.Server.MetadataStorage
import Freighter.Server.OnDisk
import Freighter.Lib.Linearize
import Freighter.Server.AtOnce
import Freighter.Server.Stands
import Freighter.Server.Linearizable
import Freighter.Server.Accounts
import Freighter.Server.Access
import Freighter.Server.Entitled
import Freighter.Server.Provenance
import Freighter.Lib.Replace
import Freighter.Client.Url
import Freighter.Server.Router
import Freighter.Client.Requests
import Freighter.Client.ReadsBack
