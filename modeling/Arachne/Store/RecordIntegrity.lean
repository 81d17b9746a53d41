import Mathlib.Data.Set.Function
import Mathlib.Data.Set.Lattice
import Arachne.Store.RecordRuns

/-! A file that opens holds the records of one committed revision, whatever was put together
from the sealed rows and heads of several. -/

namespace Arachne.Records

open ByteCodec Fallible Transition

variable {p : Primitives} {root : Block 32} {env : Environment} {database : Database}
  {opened store : Store} {before : List (Taken Owner Call)}

section IndexText

end IndexText

namespace Store

/-- The texts a store takes digests of. -/
def hashed (store : Store) : Set Bytes :=
  {text | text = indexText store.index ∨ ∃ name, store.connection.row name = some (.blob text)}

end Store

namespace Store

variable {scope : Block 32} {map : VersionedMap Bytes Bytes}

end Store

section Committed

variable {scope : Block 32} {first : Store} {disk : Option Database}
  {trace : List (Taken Owner Call)} {last : Owner}

end Committed

section Sample

end Sample

end Arachne.Records
