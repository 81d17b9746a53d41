import Mathlib.Data.String.Basic
import Arachne.Lib.ByteCodec
import Arachne.Lib.Keyed
import Arachne.Lib.VersionedMap

/-! Encrypted, atomic local records in an SQLite file. The file is kept as what its two tables
hold; what the operating system and SQLite may refuse in one call is an argument of the call. -/

namespace Arachne.Records

open ByteCodec Fallible

def maxRecordBytes : Nat := 1024 * 1024

def maxKeyBytes : Nat := 1024

def overhead : Nat := 12 + 16

/-- SHA-256, HKDF and AES-256-GCM. -/
structure Primitives where
  sha256 : Bytes → Block 32
  hkdf : (root scope : Block 32) → Option (Block 32)
  encrypt : (key : Block 32) → (nonce : Block 12) → (aad plain : Bytes) → Option Bytes
  decrypt : (key : Block 32) → (nonce : Block 12) → (aad sealed : Bytes) → Option Bytes

structure Primitives.Lawful (p : Primitives) : Prop where
  decrypt_encrypt : ∀ {key nonce aad plain sealed},
    p.encrypt key nonce aad plain = some sealed → p.decrypt key nonce aad sealed = some plain
  length_encrypt : ∀ {key nonce aad plain sealed},
    p.encrypt key nonce aad plain = some sealed → sealed.length = plain.length + 16
  length_decrypt : ∀ {key nonce aad plain sealed},
    p.decrypt key nonce aad sealed = some plain → sealed.length = plain.length + 16
  encrypts : ∀ key nonce aad plain, plain.length ≤ maxRecordBytes →
    ∃ sealed, p.encrypt key nonce aad plain = some sealed

/-- A column value. The store reads blobs only. -/
inductive Cell where
  | blob (bytes : Bytes)
  | other (encoded : Bytes)
deriving DecidableEq

def Cell.asBlob : Cell → Outcome Bytes
  | .blob bytes => .ok bytes
  | .other _ => .error "Invalid column type"

structure Row where
  name : Cell
  sealed : Cell
deriving DecidableEq

def recordSchema : String :=
  "CREATE TABLE records (name BLOB PRIMARY KEY, sealed BLOB NOT NULL) WITHOUT ROWID"

def headSchema : String :=
  "CREATE TABLE head (id INTEGER PRIMARY KEY CHECK(id=0), sealed BLOB NOT NULL)"

/-- What a database file holds: the schema by table name, the row of the head table and the rows
of the record table. -/
structure Database where
  schema : OrderedMap String String
  head : Option Cell
  records : List Row
  primaryKey : (records.map Row.name).Nodup

namespace Database

def empty : Database := ⟨OrderedMap.empty, none, [], List.nodup_nil⟩

/-- `SELECT sealed FROM records WHERE name=?1`. -/
def row (database : Database) (name : Bytes) : Option Cell :=
  (Keyed.lookup Row.name (.blob name) database.records).map Row.sealed

def upsert (database : Database) (name sealed : Bytes) : Database :=
  { database with
    records := Keyed.put Row.name ⟨.blob name, .blob sealed⟩ database.records
    primaryKey := Keyed.nodup_put database.primaryKey }

def delete (database : Database) (name : Bytes) : Database :=
  { database with
    records := database.records.filter fun row => row.name ≠ .blob name
    primaryKey := (List.filter_sublist.map Row.name).nodup database.primaryKey }

end Database

inductive Statement where
  | createTable (name sql : String)
  | insertHead (sealed : Bytes)
  | updateHead (sealed : Bytes)
  | upsert (name sealed : Bytes)
  | delete (name : Bytes)

def Database.execute (database : Database) : Statement → Database
  | .createTable name sql => { database with schema := database.schema.insert name sql }
  | .insertHead sealed => { database with head := some (.blob sealed) }
  | .updateHead sealed => { database with head := database.head.map fun _ => .blob sealed }
  | .upsert name sealed => database.upsert name sealed
  | .delete name => database.delete name

/-- What the system does in one call: the nonces it draws, and the database operations that
fail, by their position in the call. -/
structure Environment where
  nonce : Nat → Option (Block 12)
  fault : Nat → Option String

/-- An operation that fails when the environment says so. -/
def failing : Option String → Outcome Unit
  | none => .ok ()
  | some message => .error message

/-- The statements of a transaction, then its `COMMIT`. When one of them fails the transaction
is dropped with the changes made so far. -/
def Database.run (fault : Nat → Option String) (position : Nat) (database : Database) :
    List Statement → Outcome Database
  | [] => do
      failing (fault position)
      pure database
  | statement :: statements => do
      failing (fault position)
      run fault (position + 1) (database.execute statement) statements

def Database.transaction (fault : Nat → Option String) (position : Nat) (database : Database)
    (statements : List Statement) : Outcome Database := do
  failing (fault position)
  database.run fault (position + 1) statements

abbrev Index := OrderedMap Bytes (Block 32)

def entryText (entry : Bytes × Block 32) : Bytes :=
  beBytes 4 entry.1.length ++ entry.1 ++ entry.2.val

/-- What the digest of an index is taken of. -/
def indexText (index : Index) : Bytes :=
  utf8 "data-fabric/record-index/v1" ++ index.entries.flatMap entryText

def indexDigest (p : Primitives) (index : Index) : Block 32 := p.sha256 (indexText index)

def ValidKey (name : Bytes) : Prop := name ≠ [] ∧ name.length ≤ maxKeyBytes

instance (name : Bytes) : Decidable (ValidKey name) := inferInstanceAs (Decidable (_ ∧ _))

def validateKey (name : Bytes) : Outcome Unit := failIf (¬ ValidKey name) "invalid record key"

def aad (scope : Block 32) (kind : UInt8) (name : Bytes) : Bytes :=
  utf8 "data-fabric/record/v1" ++ scope.val ++ [kind] ++ beBytes 4 name.length ++ name

section Sealing

variable (p : Primitives) (key scope : Block 32)

def sealRecord (nonce : Option (Block 12)) (kind : UInt8) (name plain : Bytes) : Outcome Bytes := do
  let nonce ← orFail nonce "record randomness failed"
  let ciphertext ← orFail (p.encrypt key nonce (aad scope kind name) plain)
    "record protection failed"
  pure (nonce.val ++ ciphertext)

def unsealRecord (kind : UInt8) (name sealed : Bytes) : Outcome Bytes :=
  if h : sealed.length < overhead then .error "truncated encrypted record"
  else
    let nonce : Block 12 := ⟨sealed.take 12, by
      rw [List.length_take]
      unfold overhead at h
      omega⟩
    orFail (p.decrypt key nonce (aad scope kind name) (sealed.drop 12))
      "record authentication failed"

/-- The plaintext of the head: a revision and the digest of the index at it. -/
def headPlain (revision : U64) (index : Index) : Bytes :=
  beBytes 8 revision.val ++ (indexDigest p index).val

def sealHead (nonce : Option (Block 12)) (revision : U64) (index : Index) : Outcome Bytes :=
  sealRecord p key scope nonce 0 [] (headPlain p revision index)

variable {p key scope}

variable {nonce : Option (Block 12)} {kind : UInt8} {name plain sealed : Bytes}

theorem sealRecord_eq_ok : sealRecord p key scope nonce kind name plain = .ok sealed ↔
      ∃ drawn ciphertext, nonce = some drawn ∧
        p.encrypt key drawn (aad scope kind name) plain = some ciphertext ∧
        sealed = drawn.val ++ ciphertext := by
  simp only [sealRecord, bind_eq_ok, orFail_eq_ok, pure_eq_ok]
  constructor
  · rintro ⟨drawn, hdrawn, ciphertext, hciphertext, rfl⟩
    exact ⟨drawn, ciphertext, hdrawn, hciphertext, rfl⟩
  · rintro ⟨drawn, ciphertext, hdrawn, hciphertext, rfl⟩
    exact ⟨drawn, hdrawn, ciphertext, hciphertext, rfl⟩

theorem length_of_sealRecord (hp : p.Lawful)
    (h : sealRecord p key scope nonce kind name plain = .ok sealed) :
    sealed.length = overhead + plain.length := by
  obtain ⟨drawn, ciphertext, _, hciphertext, rfl⟩ := sealRecord_eq_ok.mp h
  rw [List.length_append, drawn.property, hp.length_encrypt hciphertext, overhead]
  omega

theorem unsealRecord_of_sealRecord (hp : p.Lawful)
    (h : sealRecord p key scope nonce kind name plain = .ok sealed) :
    unsealRecord p key scope kind name sealed = .ok plain := by
  have hlength := length_of_sealRecord hp h
  obtain ⟨drawn, ciphertext, _, hciphertext, rfl⟩ := sealRecord_eq_ok.mp h
  have hshort : ¬ (drawn.val ++ ciphertext).length < overhead := by omega
  have htake : (drawn.val ++ ciphertext).take 12 = drawn.val := List.take_left' drawn.property
  have hdrop : (drawn.val ++ ciphertext).drop 12 = ciphertext := List.drop_left' drawn.property
  rw [unsealRecord, dif_neg hshort]
  simp only [htake, hdrop, hp.decrypt_encrypt hciphertext, orFail_some]

end Sealing

/-- One exclusive owner of the file. -/
structure Store where
  connection : Database
  key : Block 32
  scope : Block 32
  revision : U64
  index : Index

/-- The digests of all rows by name, or the first row that the store cannot accept. -/
def indexRows (p : Primitives) (index : Index) : List Row → Outcome Index
  | [] => .ok index
  | row :: rows => do
      let name ← row.name.asBlob
      let sealed ← row.sealed.asBlob
      validateKey name
      failIf (¬ (overhead ≤ sealed.length ∧ sealed.length ≤ overhead + maxRecordBytes))
        "invalid encrypted record size"
      indexRows p (index.insert name (p.sha256 sealed)) rows

def deriveKey (p : Primitives) (root scope : Block 32) : Outcome (Block 32) :=
  orFail (p.hkdf root scope) "storage key derivation failed"

namespace Store

variable (p : Primitives)

/-- A new file: the schema and the head of revision 0. -/
def create (env : Environment) (root scope : Block 32) : Outcome Store := do
  failing (env.fault 1)
  let key ← deriveKey p root scope
  let head ← sealHead p key scope (env.nonce 0) 0 OrderedMap.empty
  let database ← Database.empty.transaction env.fault 2
    [.createTable "records" recordSchema, .createTable "head" headSchema, .insertHead head]
  pure ⟨database, key, scope, 0, OrderedMap.empty⟩

/-- An existing file: every row is authenticated through the head before the store is handed
out. -/
def load (env : Environment) (database : Database) (root scope : Block 32) : Outcome Store := do
  failing (env.fault 0)
  failing (env.fault 1)
  let key ← deriveKey p root scope
  failing (env.fault 2)
  failIf (database.schema.entries ≠ [("head", headSchema), ("records", recordSchema)])
    "unexpected record store schema"
  failing (env.fault 3)
  let cell ← orFail database.head "record head missing"
  let sealed ← cell.asBlob
  failIf (sealed.length ≠ overhead + 40) "invalid record head"
  let head ← unsealRecord p key scope 0 [] sealed
  failing (env.fault 4)
  let index ← indexRows p OrderedMap.empty database.records
  failIf (head.drop 8 ≠ (indexDigest p index).val) "record set authentication failed"
  pure ⟨database, key, scope, u64OfBytes (head.take 8), index⟩

/-- `Store::open`. The second part is the file afterwards: an attempt to create one that fails
leaves it without tables. -/
def openPath (env : Environment) (disk : Option Database) (root scope : Block 32) :
    Outcome Store × Option Database :=
  match disk with
  | none =>
      match env.fault 0 with
      | some message => (.error message, none)
      | none =>
          match create p env root scope with
          | .error message => (.error message, some Database.empty)
          | .ok store => (.ok store, some store.connection)
  | some database => (load p env database root scope, some database)

/-- Keys of the accepted index that begin with the stem, in byte order. -/
def keys (store : Store) (stem : Bytes) : List Bytes :=
  (store.index.keys.filter fun name => stem ≤ name).takeWhile fun name => stem.isPrefixOf name

def get (fault : Option String) (store : Store) (name : Bytes) : Outcome (Option Bytes) := do
  validateKey name
  failing fault
  let value ← (store.connection.row name).mapM Cell.asBlob
  match store.index.find? name, value with
  | none, none => pure none
  | some expected, some sealed =>
      if expected = p.sha256 sealed then
        some <$> unsealRecord p store.key store.scope 1 name sealed
      else .error "record differs from accepted head"
  | _, _ => .error "record differs from accepted head"

def sealValue (store : Store) (nonce : Option (Block 12)) (name : Bytes) :
    Option Bytes → Outcome (Option Bytes)
  | none => pure none
  | some value => do
      failIf (maxRecordBytes < value.length) "record exceeds byte budget"
      some <$> sealRecord p store.key store.scope nonce 1 name value

/-- The loop of `commit` over the changes: the sealed changes and the index after them. -/
def stage (env : Environment) (store : Store) (position : Nat) (names : List Bytes)
    (index : Index) : List (Change Bytes Bytes) → Outcome (List (Change Bytes Bytes) × Index)
  | [] => pure ([], index)
  | (name, value) :: changes => do
      validateKey name
      failIf (name ∈ names) "duplicate record change"
      let sealed ← sealValue p store (env.nonce position) name value
      let staged ← stage env store (position + 1) (name :: names)
        (index.change (name, sealed.map p.sha256)) changes
      pure ((name, sealed) :: staged.1, staged.2)

def statement : Change Bytes Bytes → Statement
  | (name, some sealed) => .upsert name sealed
  | (name, none) => .delete name

/-- What a commit computes before its transaction: the new revision, the sealed changes, the
new index and the new head. -/
def prepare (env : Environment) (store : Store) (expectedRevision : U64)
    (changes : List (Change Bytes Bytes)) :
    Outcome (U64 × List (Change Bytes Bytes) × Index × Bytes) := do
  failIf (expectedRevision ≠ store.revision) "stale record revision"
  failing (env.fault 0)
  let cell ← orFail store.connection.head "Query returned no rows"
  let sealed ← cell.asBlob
  let prior ← unsealRecord p store.key store.scope 0 [] sealed
  failIf (prior.length ≠ 40 ∨ prior.take 8 ≠ beBytes 8 store.revision.val ∨
    prior.drop 8 ≠ (indexDigest p store.index).val) "record head differs from accepted state"
  let revision ← orFail (checkedSucc store.revision) "record revision exhausted"
  let staged ← stage p env store 0 [] store.index changes
  let head ← sealHead p store.key store.scope (env.nonce changes.length) revision staged.2
  pure (revision, staged.1, staged.2, head)

/-- `Store::commit`: the result and the owner afterwards. -/
def commit (env : Environment) (store : Store) (expectedRevision : U64)
    (changes : List (Change Bytes Bytes)) : Outcome U64 × Store :=
  match prepare p env store expectedRevision changes with
  | .error message => (.error message, store)
  | .ok (revision, sealed, index, head) =>
      match store.connection.transaction env.fault 1
        (sealed.map statement ++ [.updateHead head]) with
      | .error message => (.error message, store)
      | .ok database =>
          (.ok revision,
            { store with connection := database, index := index, revision := revision })

end Store

end Arachne.Records
