import IndexingService.SerialWalk

/-!
# Which protocols the handler acts on

`targetClaims` goes only into the `Find` query: the handler itself acts on every protocol with
a claim CID in every record `Find` returns, whatever its code.  It keeps to the protocols of
its job type exactly when `Find` returns no claim protocol of another type, and a location
job then spawns nothing, since a location commitment spawns only for a job that indexes a
multihash.
-/

namespace Indexing

section Targets

variable {is : IndexingService} {q : Query} {j : Job}

end Targets

end Indexing
