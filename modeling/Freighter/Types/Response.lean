import Freighter.Types.Index

/-!
# The responses of the registry

What the routes read of a query and what they answer, as the clients see it.
-/

namespace Freighter

structure RegistryConfig where
  dl : String
  api : String
  authRequired : Bool

structure SearchQuery where
  q : String
  perPage : Option ℕ

structure ListQuery where
  perPage : Option ℕ
  page : Option ℕ

structure SearchResultsEntry where
  name : String
  maxVersion : Version
  description : String

/-- `SearchResults`, whose `meta` has the one field `total`. -/
structure SearchResults where
  crates : List SearchResultsEntry
  total : ℕ

/-- `ListAllCrateEntry`, with the times in seconds. -/
structure ListAllCrateEntry where
  name : String
  versions : List Version
  description : String
  createdAt : ℤ
  updatedAt : ℤ
  homepage : Option String
  repository : Option String
  documentation : Option String
  keywords : List String
  categories : List String

/-- `ListAll`. -/
abbrev ListAll : Type := List ListAllCrateEntry

end Freighter
