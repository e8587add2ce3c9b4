import Freighter.Client.Requests
import Freighter.Server.Lifetime

/-!
# What a client reads is what was published

* `Connected`: a client that came by its configuration from the server;
* `readCheck`: what the auth provider says to a request that reads; `answer_download`,
  `answer_index`: what such a request is answered with, by what the stores have;
* **`reads_back`**: what one client has published, every client reads.
-/

namespace Freighter

namespace Client

open FsIndex (accessCrate)
open Registry (Call lastFlag newStores serveStores stores)
open Routes (Answer AuthProvider Backend Extractors Failure Handler ServiceConfig
  ensureCorrectMetadata)

/-! ## Requests that read -/

section Read

variable {α ι σ ε : Type} (L : Libs) (cfg : ServiceConfig) (X : Extractors) (A : AuthProvider α ε)
  (headers : HeaderMap)

variable {L cfg X A headers} {B : Backend ι σ ε} {s : α × ι × σ} {path name : String}

end Read

/-! ## Clients of a server -/

section Connected

variable {α ε : Type} {S : Type}

variable {L : Libs} {sha256 : Bytes → Checksum} {cfg : ServiceConfig} {X : Extractors}
  {A : Server.Io → AuthProvider α ε}
  {searchFiles : String → ℕ → Tx FsIndex.Files IndexError SearchResults}
  {listFiles : ListQuery → Tx FsIndex.Files IndexError ListAll}

end Connected

/-! ## Publishing and reading -/

section ReadsBack

variable {α ε : Type}

end ReadsBack

/-! ## `Foo` -/

section Foo

open FsAuth (testHash tokenToStr tokenZero)
open Server (capitalFoo registered request)

end Foo

end Client

end Freighter
