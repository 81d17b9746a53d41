import Arachne.Lib.Transition
import Arachne.Store.Records

/-! The store refines a map with a revision number: over any sequence of commits, failures and
reopenings it answers as the map does. -/

namespace Arachne.Records

open ByteCodec Fallible Transition Keyed

variable {p : Primitives} {index index' : Index} {records : OrderedMap Bytes Bytes}
  {store store' : Store} {env : Environment} {map : VersionedMap Bytes Bytes} {root : Block 32}
  {revision : U64} {nonce : Option (Block 12)}

section Statements

theorem failing_eq_ok {fault : Option String} {u : Unit} :
    failing fault = .ok u ↔ fault = none := by
  cases fault <;> simp [failing]

variable {fault : Nat → Option String} {position : Nat} {database' : Database}
  {statements : List Statement}

theorem Database.run_eq_ok {database : Database}
    (h : database.run fault position statements = .ok database') :
    database' = statements.foldl Database.execute database := by
  induction statements generalizing position database with
  | nil =>
    simp only [run, bind_eq_ok, pure_eq_ok] at h
    obtain ⟨_, _, rfl⟩ := h
    rfl
  | cons statement statements ih =>
    simp only [run, bind_eq_ok] at h
    obtain ⟨_, _, hrun⟩ := h
    exact ih hrun

theorem Database.run_of_no_fault (hfault : ∀ i, fault i = none) (position : Nat)
    (database : Database) (statements : List Statement) : database.run fault position statements =
      .ok (statements.foldl Database.execute database) := by
  induction statements generalizing position database with
  | nil => simp [run, failing, hfault, pure, Except.pure]
  | cons statement statements ih => simp [run, failing, hfault, ih]

theorem Database.transaction_eq_ok {database : Database}
    (h : database.transaction fault position statements = .ok database') :
    database' = statements.foldl Database.execute database := by
  simp only [transaction, bind_eq_ok] at h
  obtain ⟨_, _, hrun⟩ := h
  exact run_eq_ok hrun

theorem Database.transaction_of_no_fault (hfault : ∀ i, fault i = none) (position : Nat)
    (database : Database) (statements : List Statement) :
    database.transaction fault position statements =
      .ok (statements.foldl Database.execute database) := by
  simp [transaction, failing, hfault, run_of_no_fault hfault]

variable (database : Database) (name : Bytes)

theorem Database.row_upsert (sealed name' : Bytes) :
    (database.upsert name sealed).row name' =
      if name = name' then some (.blob sealed) else database.row name' := by
  simp only [row, upsert, lookup_put, Cell.blob.injEq]
  by_cases hname : name = name'
  · simp [hname]
  · simp [hname, Ne.symm hname]

theorem Database.row_delete (name' : Bytes) :
    (database.delete name).row name' = if name = name' then none else database.row name' := by
  obtain ⟨schema, head, records, hkey⟩ := database
  simp only [row, delete]
  clear hkey
  induction records with
  | nil => simp [lookup]
  | cons first records ih =>
    by_cases hfirst : first.name = .blob name
    · by_cases hname : name = name'
      · simpa [hfirst, hname] using ih
      · simpa [lookup, List.find?_cons, hfirst, hname] using ih
    · by_cases hfound : first.name = .blob name'
      · have hname : name ≠ name' := fun heq => hfirst (heq ▸ hfound)
        simp [lookup, hfound, Ne.symm hname, hname]
      · simpa [lookup, List.find?_cons, hfirst, hfound] using ih

theorem Database.row_execute_statement (change : Change Bytes Bytes) (name' : Bytes) :
    (database.execute (Store.statement change)).row name' =
      if change.1 = name' then change.2.map Cell.blob else database.row name' := by
  obtain ⟨name, value⟩ := change
  cases value with
  | none => exact database.row_delete name name'
  | some sealed => exact database.row_upsert name sealed name'

theorem Database.names_execute_statement (change : Change Bytes Bytes)
    (h : ∀ row ∈ database.records, ∃ name, row.name = .blob name) :
    ∀ row ∈ (database.execute (Store.statement change)).records, ∃ name, row.name = .blob name := by
  intro row hrow
  obtain ⟨name, value⟩ := change
  cases value with
  | none => exact h row (List.mem_filter.mp hrow).1
  | some sealed =>
    rcases mem_put hrow with rfl | hold
    · exact ⟨name, rfl⟩
    · exact h row hold

theorem Database.head_execute_statement (change : Change Bytes Bytes) :
    (database.execute (Store.statement change)).head = database.head ∧
      (database.execute (Store.statement change)).schema = database.schema := by
  obtain ⟨name, value⟩ := change
  cases value <;> exact ⟨rfl, rfl⟩

end Statements

/-- How one name is kept: nowhere, or sealed in its row with the digest in the index. -/
inductive Kept (p : Primitives) (key scope : Block 32) (name : Bytes) :
    Option Cell → Option (Block 32) → Option Bytes → Prop where
  | absent : Kept p key scope name none none none
  | present {sealed value : Bytes} (hname : ValidKey name)
      (hsize : overhead ≤ sealed.length ∧ sealed.length ≤ overhead + maxRecordBytes)
      (hopen : unsealRecord p key scope 1 name sealed = .ok value) :
      Kept p key scope name (some (.blob sealed)) (some (p.sha256 sealed)) (some value)

/-- Rows and index keep exactly these records. -/
structure KeptAll (p : Primitives) (key scope : Block 32) (database : Database) (index : Index)
    (records : OrderedMap Bytes Bytes) : Prop where
  entry : ∀ name,
    Kept p key scope name (database.row name) (index.find? name) (records.find? name)
  names : ∀ row ∈ database.records, ∃ name, row.name = .blob name

/-- The store is at this revision of the map. -/
structure Store.Holds (p : Primitives) (store : Store) (map : VersionedMap Bytes Bytes) :
    Prop where
  revision : store.revision.val = map.revision
  kept : KeptAll p store.key store.scope store.connection store.index map.records
  schema : store.connection.schema.entries = [("head", headSchema), ("records", recordSchema)]
  head : ∃ sealed, store.connection.head = some (.blob sealed) ∧ sealed.length = overhead + 40 ∧
    unsealRecord p store.key store.scope 0 [] sealed =
      .ok (headPlain p store.revision store.index)

section Kept

variable {key scope : Block 32} {database : Database}

variable {name : Bytes} {value sealed : Option Bytes}

theorem kept_iff {cell : Option Cell} {digest : Option (Block 32)} :
    Kept p key scope name cell digest value ↔
      cell = none ∧ digest = none ∧ value = none ∨
      ∃ sealed plain, ValidKey name ∧
        (overhead ≤ sealed.length ∧ sealed.length ≤ overhead + maxRecordBytes) ∧
        unsealRecord p key scope 1 name sealed = .ok plain ∧ cell = some (.blob sealed) ∧
        digest = some (p.sha256 sealed) ∧ value = some plain := by
  constructor
  · intro h
    cases h with
    | absent => exact .inl ⟨rfl, rfl, rfl⟩
    | present hname hsize hopens => exact .inr ⟨_, _, hname, hsize, hopens, rfl, rfl, rfl⟩
  · rintro (⟨rfl, rfl, rfl⟩ | ⟨sealed, plain, hname, hsize, hopens, rfl, rfl, rfl⟩)
    · exact .absent
    · exact .present hname hsize hopens

theorem KeptAll.change (h : KeptAll p key scope database index records)
    (hnew : Kept p key scope name (sealed.map Cell.blob) (sealed.map p.sha256) value) :
    KeptAll p key scope (database.execute (Store.statement (name, sealed)))
      (index.change (name, sealed.map p.sha256)) (records.change (name, value)) where
  entry := by
    intro name'
    rw [database.row_execute_statement, OrderedMap.find?_change, OrderedMap.find?_change]
    by_cases hname : name = name'
    · subst hname
      simpa using hnew
    · simpa [hname] using h.entry name'
  names := database.names_execute_statement (name, sealed) h.names

theorem Store.sealValue_kept (hp : p.Lawful) (hname : ValidKey name)
    (h : store.sealValue p nonce name value = .ok sealed) :
    Kept p store.key store.scope name (sealed.map Cell.blob) (sealed.map p.sha256) value := by
  cases value with
  | none =>
    simp only [sealValue, pure_eq_ok] at h
    subst h
    exact .absent
  | some value =>
    simp only [sealValue, bind_eq_ok, failIf_eq_ok, map_eq_ok, not_lt] at h
    obtain ⟨_, hbudget, packet, hpacket, rfl⟩ := h
    have hlength := length_of_sealRecord hp hpacket
    exact .present hname (by omega) (unsealRecord_of_sealRecord hp hpacket)

theorem Store.stage_kept (hp : p.Lawful) {position : Nat} {names : List Bytes}
    {changes sealed : List (Change Bytes Bytes)}
    (h : store.stage p env position names index changes = .ok (sealed, index'))
    (hkept : KeptAll p store.key store.scope database index records) :
    KeptAll p store.key store.scope
        ((sealed.map Store.statement).foldl Database.execute database) index'
        (records.changeAll changes) := by
  induction changes generalizing position names index sealed database records with
  | nil =>
    simp only [stage, pure_eq_ok, Prod.mk.injEq] at h
    obtain ⟨rfl, rfl⟩ := h
    exact hkept
  | cons change changes ih =>
    obtain ⟨name, value⟩ := change
    simp only [stage, validateKey, bind_eq_ok, failIf_eq_ok, not_not, pure_eq_ok,
      Prod.mk.injEq] at h
    obtain ⟨_, hname, _, _, packet, hpacket, ⟨rest, after⟩, hrest, rfl, rfl⟩ := h
    have hfirst := hkept.change (sealValue_kept hp hname hpacket)
    have hall := ih hrest hfirst
    exact hall

theorem foldl_statement_frame (sealed : List (Change Bytes Bytes)) (database : Database) :
    ((sealed.map Store.statement).foldl Database.execute database).head = database.head ∧
      ((sealed.map Store.statement).foldl Database.execute database).schema = database.schema := by
  induction sealed generalizing database with
  | nil => exact ⟨rfl, rfl⟩
  | cons change sealed ih =>
    obtain ⟨hhead, hschema⟩ := database.head_execute_statement change
    obtain ⟨hhead', hschema'⟩ := ih (database.execute (Store.statement change))
    exact ⟨hhead'.trans hhead, hschema'.trans hschema⟩

end Kept

section Heads

variable {key scope : Block 32}

theorem length_headPlain (revision : U64) (index : Index) :
    (headPlain p revision index).length = 40 := by
  rw [headPlain, List.length_append, beBytes_length, (indexDigest p index).property]

theorem take_headPlain (revision : U64) (index : Index) :
    (headPlain p revision index).take 8 = beBytes 8 revision.val :=
  List.take_left' (beBytes_length 8 revision.val)

theorem drop_headPlain (revision : U64) (index : Index) :
    (headPlain p revision index).drop 8 = (indexDigest p index).val :=
  List.drop_left' (beBytes_length 8 revision.val)

theorem sealHead_opens (hp : p.Lawful) {sealed : Bytes}
    (h : sealHead p key scope nonce revision index = .ok sealed) : sealed.length = overhead + 40 ∧
      unsealRecord p key scope 0 [] sealed = .ok (headPlain p revision index) := by
  constructor
  · rw [length_of_sealRecord hp h, length_headPlain]
  · exact unsealRecord_of_sealRecord hp h

end Heads

namespace Store

variable {scope : Block 32}

theorem create_holds (hp : p.Lawful) (h : create p env root scope = .ok store) :
    store.Holds p VersionedMap.new := by
  simp only [create, bind_eq_ok, pure_eq_ok] at h
  obtain ⟨_, _, key, _, head, hhead, database, hdatabase, rfl⟩ := h
  have hfinal := Database.transaction_eq_ok hdatabase
  subst hfinal
  obtain ⟨hlength, hopens⟩ := sealHead_opens hp hhead
  exact {
    revision := rfl
    kept := { entry := fun _ => .absent, names := fun row hrow => by cases hrow }
    schema := by
      change ((OrderedMap.empty.insert "records" recordSchema).insert "head" headSchema).entries = _
      decide
    head := ⟨head, rfl, hlength, hopens⟩ }

variable {expected : U64} {changes : List (Change Bytes Bytes)}

theorem prepare_eq_ok {sealed : List (Change Bytes Bytes)} {head : Bytes}
    (h : store.prepare p env expected changes = .ok (revision, sealed, index, head)) :
    expected = store.revision ∧ checkedSucc store.revision = some revision ∧
      store.stage p env 0 [] store.index changes = .ok (sealed, index) ∧
      sealHead p store.key store.scope (env.nonce changes.length) revision index = .ok head := by
  simp only [prepare, bind_eq_ok, failIf_eq_ok, ne_eq, not_not, orFail_eq_ok, pure_eq_ok,
    Prod.mk.injEq] at h
  obtain ⟨_, hexpected, _, _, _, _, _, _, _, _, _, _, _, hrevision, ⟨_, _⟩, hstage, _, hhead, rfl,
    rfl, rfl, rfl⟩ := h
  exact ⟨hexpected, hrevision, hstage, hhead⟩

theorem commit_error {message : String}
    (h : store.commit p env expected changes = (.error message, store')) : store' = store := by
  rw [commit] at h
  split at h
  · exact (Prod.mk.inj h).2.symm
  · split at h
    · exact (Prod.mk.inj h).2.symm
    · cases h

/-- A commit that succeeds was made against the current revision and applies all its changes. -/
theorem Holds.commit_ok (hp : p.Lawful) (hholds : store.Holds p map)
    (h : store.commit p env expected changes = (.ok revision, store')) :
    ∃ map', map.commit expected.val changes = some map' ∧ revision.val = map'.revision ∧
      store'.Holds p map' ∧ store'.key = store.key ∧ store'.scope = store.scope := by
  rw [commit] at h
  split at h
  · cases h
  · rename_i revision' sealed index head hprepare
    split at h
    · cases h
    · rename_i database hdatabase
      cases h
      obtain ⟨rfl, hrevision, hstage, hhead⟩ := prepare_eq_ok hprepare
      have hfinal := Database.transaction_eq_ok hdatabase
      rw [List.foldl_append] at hfinal
      subst hfinal
      obtain ⟨hlength, hopens⟩ := sealHead_opens hp hhead
      obtain ⟨hframe, hschema⟩ := foldl_statement_frame sealed store.connection
      have hkept := stage_kept hp hstage hholds.kept
      obtain ⟨old, hold, _⟩ := hholds.head
      have hnumber : revision.val = map.revision + 1 := by
        rw [checkedSucc_val hrevision, hholds.revision]
      refine ⟨_, VersionedMap.commit_eq_some.mpr ⟨hholds.revision, rfl⟩, hnumber, ?_, rfl, rfl⟩
      exact {
        revision := hnumber
        kept := { entry := hkept.entry, names := hkept.names }
        schema := by
          have hentries := hholds.schema
          rw [← hschema] at hentries
          exact hentries
        head := by
          refine ⟨head, ?_, hlength, hopens⟩
          change Option.map _ _ = _
          rw [hframe, hold]
          rfl }

end Store

section Index

/-- A row that the store accepts. -/
def Row.Sound (row : Row) : Prop :=
  ∃ name sealed, row = ⟨.blob name, .blob sealed⟩ ∧ ValidKey name ∧
    overhead ≤ sealed.length ∧ sealed.length ≤ overhead + maxRecordBytes

/-- The digest of a row, where it is a blob. -/
def rowDigest (p : Primitives) : Cell → Option (Block 32)
  | .blob sealed => some (p.sha256 sealed)
  | .other _ => none

variable {rows : List Row}

theorem indexRows_eq_ok (h : indexRows p index rows = .ok index')
    (hnodup : (rows.map Row.name).Nodup) : (∀ row ∈ rows, row.Sound) ∧ ∀ name, index'.find? name =
      match lookup Row.name (.blob name) rows with
      | some row => rowDigest p row.sealed
      | none => index.find? name := by
  induction rows generalizing index with
  | nil =>
    simp only [indexRows, Except.ok.injEq] at h
    subst h
    exact ⟨fun row hrow => (nomatch hrow), fun name => rfl⟩
  | cons row rows ih =>
    obtain ⟨cell, cell'⟩ := row
    cases cell with
    | other => simp [indexRows, Cell.asBlob] at h
    | blob name =>
      cases cell' with
      | other => simp [indexRows, Cell.asBlob] at h
      | blob sealed =>
        simp only [indexRows, Cell.asBlob, validateKey, bind_eq_ok, Except.ok.injEq,
          exists_eq_left', failIf_eq_ok, not_not] at h
        obtain ⟨_, hname, _, hsize, hrest⟩ := h
        rw [List.map_cons, List.nodup_cons] at hnodup
        obtain ⟨hsound, hfind⟩ := ih hrest hnodup.2
        refine ⟨?_, ?_⟩
        · rw [List.forall_mem_cons]
          exact ⟨⟨name, sealed, rfl, hname, hsize⟩, hsound⟩
        · intro name'
          rw [hfind name']
          by_cases heq : name = name'
          · subst heq
            have hnone : lookup Row.name (.blob name) rows = none := by
              rw [lookup_eq_none]
              intro row hrow hname'
              have hmem : row.name ∈ rows.map Row.name := List.mem_map_of_mem hrow
              rw [hname'] at hmem
              exact hnodup.1 hmem
            rw [hnone]
            simp [lookup, rowDigest]
          · simp [lookup, heq, OrderedMap.find?_insert]

theorem indexRows_of_sound (h : ∀ row ∈ rows, row.Sound) (index : Index) :
    ∃ index', indexRows p index rows = .ok index' := by
  induction rows generalizing index with
  | nil => exact ⟨index, rfl⟩
  | cons row rows ih =>
    rw [List.forall_mem_cons] at h
    obtain ⟨⟨name, sealed, rfl, hname, hsize⟩, hrest⟩ := h
    obtain ⟨index', hindex'⟩ := ih hrest (index.insert name (p.sha256 sealed))
    refine ⟨index', ?_⟩
    simp [indexRows, Cell.asBlob, validateKey, hname, hsize, hindex']

theorem find?_indexRows {database : Database}
    (h : indexRows p OrderedMap.empty database.records = .ok index) (name : Bytes) :
    index.find? name = (database.row name).bind (rowDigest p) := by
  rw [(indexRows_eq_ok h database.primaryKey).2 name, Database.row]
  cases lookup Row.name (Cell.blob name) database.records <;> rfl

variable {key scope : Block 32} {database : Database}

theorem KeptAll.sound (h : KeptAll p key scope database index records) :
    ∀ row ∈ database.records, row.Sound := by
  intro row hrow
  obtain ⟨name, hname⟩ := h.names row hrow
  have hlookup := lookup_of_mem database.primaryKey hrow
  have hfound : database.row name = some row.sealed := by
    rw [Database.row, ← hname, hlookup, Option.map_some]
  rcases kept_iff.mp (h.entry name) with ⟨hnone, _⟩ | ⟨sealed, _, hvalid, hsize, _, hcell, _⟩
  · rw [hfound] at hnone
    cases hnone
  · rw [hfound] at hcell
    refine ⟨name, sealed, ?_, hvalid, hsize⟩
    rw [← hname, ← Option.some.inj hcell]

theorem KeptAll.indexRows_eq (h : KeptAll p key scope database index records) :
    indexRows p OrderedMap.empty database.records = .ok index := by
  obtain ⟨index', hindex'⟩ := indexRows_of_sound (p := p) h.sound OrderedMap.empty
  rw [hindex']
  congr 1
  apply OrderedMap.ext
  intro name
  rw [find?_indexRows hindex']
  rcases kept_iff.mp (h.entry name) with
    ⟨hcell, hdigest, _⟩ | ⟨sealed, _, _, _, _, hcell, hdigest, _⟩
  · rw [hcell, hdigest]
    rfl
  · rw [hcell, hdigest]
    rfl

end Index

namespace Store

variable {scope : Block 32}

theorem Holds.load_eq (hholds : store.Holds p map) (hkey : p.hkdf root scope = some store.key)
    (hscope : store.scope = scope) (hfault : ∀ i, env.fault i = none) :
    load p env store.connection root scope = .ok store := by
  obtain ⟨sealed, hhead, hlength, hopens⟩ := hholds.head
  subst hscope
  have hindex := hholds.kept.indexRows_eq
  simp only [load, hfault, failing, ok_bind, deriveKey, hkey, orFail_some, hholds.schema,
    ne_eq, not_true_eq_false, failIf_of_not (fun h : False => h), hhead,
    Cell.asBlob, hlength, hopens, hindex, drop_headPlain, take_headPlain, u64OfBytes_beBytes]
  rfl

theorem load_eq_ok {database : Database} (h : load p env database root scope = .ok store) :
    p.hkdf root scope = some store.key ∧ store.scope = scope ∧ store.connection = database ∧
      indexRows p OrderedMap.empty database.records = .ok store.index ∧
      ∃ sealed head, database.head = some (.blob sealed) ∧ sealed.length = overhead + 40 ∧
        unsealRecord p store.key scope 0 [] sealed = .ok head ∧
        store.revision = u64OfBytes (head.take 8) ∧
        head.drop 8 = (indexDigest p store.index).val := by
  simp only [load, deriveKey, bind_eq_ok, orFail_eq_ok, failIf_eq_ok, ne_eq, not_not,
    pure_eq_ok] at h
  obtain ⟨_, _, _, _, key, hkey, _, _, _, _, _, _, cell, hcell, sealed, hsealed, _, hlength, head,
    hopens, _, _, index, hindex, _, hdigest, rfl⟩ := h
  cases cell with
  | other => simp [Cell.asBlob] at hsealed
  | blob bytes =>
    simp only [Cell.asBlob, Except.ok.injEq] at hsealed
    subst hsealed
    exact ⟨hkey, rfl, rfl, hindex, bytes, head, hcell, hlength, hopens, rfl, hdigest⟩

theorem Holds.get_eq (hholds : store.Holds p map) (name : Bytes) :
    store.get p none name =
      if ValidKey name then .ok (map.records.find? name) else .error "invalid record key" := by
  rw [get, validateKey]
  split
  · rename_i hname
    rw [failIf_of_not (not_not.mpr hname)]
    rcases kept_iff.mp (hholds.kept.entry name) with
      ⟨hcell, hdigest, hvalue⟩ | ⟨sealed, plain, _, _, hopens, hcell, hdigest, hvalue⟩
    · rw [hcell, hdigest, hvalue]
      rfl
    · simp only [ok_bind, failing, hcell, hdigest, hvalue, Option.mapM_some, Cell.asBlob]
      change (if _ = _ then _ else _) = _
      rw [if_pos rfl, hopens]
      rfl
  · rename_i hname
    rw [failIf_of hname]
    rfl

theorem Holds.index_keys (hholds : store.Holds p map) : store.index.keys = map.records.keys := by
  refine List.Perm.eq_of_pairwise (fun a b _ _ hab hba => absurd hba hab.not_gt)
    store.index.keys_sorted map.records.keys_sorted ?_
  refine (List.perm_ext_iff_of_nodup store.index.keys_nodup map.records.keys_nodup).mpr ?_
  intro name
  rw [OrderedMap.mem_keys_iff, OrderedMap.mem_keys_iff]
  rcases kept_iff.mp (hholds.kept.entry name) with
    ⟨_, hdigest, hvalue⟩ | ⟨_, _, _, _, _, _, hdigest, hvalue⟩
  · simp [hdigest, hvalue]
  · simp [hdigest, hvalue]

theorem Holds.keys_eq (hholds : store.Holds p map) (stem : Bytes) :
    store.keys stem = map.records.keys.filter fun name => stem.isPrefixOf name := by
  rw [keys, takeWhile_range_eq_filter stem store.index.keys_sorted, hholds.index_keys]

end Store

/-- A call in which the system refuses nothing. -/
structure Environment.Faultless (env : Environment) : Prop where
  fault : ∀ i, env.fault i = none
  nonce : ∀ i, ∃ nonce, env.nonce i = some nonce

/-- A batch of changes that the store takes: valid keys, none twice, values within the budget. -/
structure ValidChanges (changes : List (Change Bytes Bytes)) : Prop where
  key : ∀ change ∈ changes, ValidKey change.1
  budget : ∀ change ∈ changes, ∀ value, change.2 = some value → value.length ≤ maxRecordBytes
  distinct : (changes.map Prod.fst).Nodup

namespace Store

theorem exists_sealRecord (hp : p.Lawful) (henv : env.Faultless) (key scope : Block 32)
    (position : Nat) (kind : UInt8) (name : Bytes) {plain : Bytes}
    (hplain : plain.length ≤ maxRecordBytes) :
    ∃ sealed, sealRecord p key scope (env.nonce position) kind name plain = .ok sealed := by
  obtain ⟨nonce, hnonce⟩ := henv.nonce position
  obtain ⟨ciphertext, hciphertext⟩ := hp.encrypts key nonce (aad scope kind name) plain hplain
  exact ⟨_, sealRecord_eq_ok.mpr ⟨nonce, ciphertext, hnonce, hciphertext, rfl⟩⟩

theorem exists_sealValue_iff (hp : p.Lawful) (henv : env.Faultless) (position : Nat)
    (name : Bytes) (value : Option Bytes) :
    (∃ sealed, store.sealValue p (env.nonce position) name value = .ok sealed) ↔
      ∀ plain, value = some plain → plain.length ≤ maxRecordBytes := by
  cases value with
  | none => simp [sealValue]
  | some plain =>
    simp only [sealValue, bind_eq_ok, failIf_eq_ok, map_eq_ok, not_lt, Option.some.injEq,
      forall_eq']
    constructor
    · rintro ⟨_, _, hbudget, _⟩
      exact hbudget
    · intro hbudget
      obtain ⟨sealed, hsealed⟩ :=
        exists_sealRecord hp henv store.key store.scope position 1 name hbudget
      exact ⟨some sealed, (), hbudget, sealed, hsealed, rfl⟩

theorem exists_stage_iff (hp : p.Lawful) (henv : env.Faultless) (position : Nat)
    (names : List Bytes) (index : Index) (changes : List (Change Bytes Bytes)) :
    (∃ staged, store.stage p env position names index changes = .ok staged) ↔
      ValidChanges changes ∧ ∀ change ∈ changes, change.1 ∉ names := by
  induction changes generalizing position names index with
  | nil =>
    refine ⟨fun _ => ⟨⟨by simp, by simp, by simp⟩, by simp⟩, fun _ => ⟨_, rfl⟩⟩
  | cons change changes ih =>
    obtain ⟨name, value⟩ := change
    constructor
    · rintro ⟨staged, hstaged⟩
      simp only [stage, validateKey, bind_eq_ok, failIf_eq_ok, not_not, pure_eq_ok] at hstaged
      obtain ⟨_, hname, _, hfresh, sealed, hsealed, rest, hrest, _⟩ := hstaged
      have hbudget := (exists_sealValue_iff hp henv position name value).mp ⟨sealed, hsealed⟩
      obtain ⟨hvalid, hothers⟩ := (ih _ _ _).mp ⟨rest, hrest⟩
      have hdistinct : name ∉ changes.map Prod.fst := by
        intro hmem
        obtain ⟨other, hother, heq⟩ := List.mem_map.mp hmem
        exact hothers other hother (heq ▸ List.mem_cons_self)
      refine ⟨⟨?_, ?_, ?_⟩, ?_⟩
      · exact List.forall_mem_cons.mpr ⟨hname, hvalid.key⟩
      · exact List.forall_mem_cons.mpr ⟨hbudget, hvalid.budget⟩
      · exact List.nodup_cons.mpr ⟨hdistinct, hvalid.distinct⟩
      · refine List.forall_mem_cons.mpr ⟨hfresh, ?_⟩
        intro other hother hmem
        exact hothers other hother (List.mem_cons_of_mem _ hmem)
    · rintro ⟨hvalid, hfresh⟩
      rw [List.forall_mem_cons] at hfresh
      have hdistinct := List.nodup_cons.mp hvalid.distinct
      obtain ⟨sealed, hsealed⟩ := (exists_sealValue_iff hp henv position name value).mpr
        (hvalid.budget _ List.mem_cons_self)
      have hrest : ∀ other ∈ changes, other.1 ∉ name :: names := by
        intro other hother hmem
        rcases List.mem_cons.mp hmem with heq | hold
        · have hmem' : other.1 ∈ changes.map Prod.fst := List.mem_map_of_mem hother
          rw [heq] at hmem'
          exact hdistinct.1 hmem'
        · exact hfresh.2 other hother hold
      have htail : ValidChanges changes := {
        key := fun other hother => hvalid.key other (List.mem_cons_of_mem _ hother)
        budget := fun other hother => hvalid.budget other (List.mem_cons_of_mem _ hother)
        distinct := hdistinct.2 }
      obtain ⟨staged, hstaged⟩ := (ih (position + 1) (name :: names)
        (index.change (name, sealed.map p.sha256))).mpr ⟨htail, hrest⟩
      refine ⟨((name, sealed) :: staged.1, staged.2), ?_⟩
      simp only [stage, validateKey, bind_eq_ok, failIf_eq_ok, not_not, pure_eq_ok]
      exact ⟨(), hvalid.key _ List.mem_cons_self, (), hfresh.1, sealed, hsealed, staged, hstaged,
        rfl⟩

/-- When the system refuses nothing, a commit succeeds exactly if it is made against the current
revision, which is not the last one, with a valid batch. -/
theorem Holds.commit_ok_iff (hp : p.Lawful) (hholds : store.Holds p map) (henv : env.Faultless)
    (expected : U64) (changes : List (Change Bytes Bytes)) :
    (∃ revision store', store.commit p env expected changes = (.ok revision, store')) ↔
      expected = store.revision ∧ store.revision.val + 1 < 2 ^ 64 ∧ ValidChanges changes := by
  constructor
  · rintro ⟨revision, store', h⟩
    rw [commit] at h
    split at h
    · cases h
    · rename_i revision' sealed index head hprepare
      obtain ⟨hexpected, hrevision, hstage, _⟩ := prepare_eq_ok hprepare
      refine ⟨hexpected, ?_, ((exists_stage_iff hp henv 0 [] _ changes).mp ⟨_, hstage⟩).1⟩
      rw [← checkedSucc_val hrevision]
      exact revision'.isLt
  · rintro ⟨rfl, hlast, hvalid⟩
    obtain ⟨old, hold, _, hopens⟩ := hholds.head
    obtain ⟨⟨sealed, index⟩, hstage⟩ := (exists_stage_iff hp henv 0 [] store.index changes).mpr
      ⟨hvalid, by simp⟩
    have hrevision : checkedSucc store.revision = some ⟨store.revision.val + 1, hlast⟩ :=
      dif_pos hlast
    have hplain : (headPlain p ⟨store.revision.val + 1, hlast⟩ index).length ≤ maxRecordBytes := by
      rw [length_headPlain]
      decide
    obtain ⟨head, hhead⟩ :=
      exists_sealRecord hp henv store.key store.scope changes.length 0 [] hplain
    have hprepare : store.prepare p env store.revision changes =
        .ok (⟨store.revision.val + 1, hlast⟩, sealed, index, head) := by
      simp only [prepare, bind_eq_ok, failIf_eq_ok, ne_eq, not_not, orFail_eq_ok, pure_eq_ok,
        failing_eq_ok]
      refine ⟨(), trivial, (), henv.fault 0, _, hold, old, rfl, _, hopens, (), ?_, _, hrevision, _,
        hstage, head, hhead, rfl⟩
      rw [length_headPlain, take_headPlain, drop_headPlain]
      simp
    rw [commit, hprepare]
    simp only [Database.transaction_of_no_fault henv.fault]
    exact ⟨_, _, rfl⟩

end Store

/-- Who has the file: a store, or nobody. -/
inductive Owner where
  | opened (store : Store)
  | closed (database : Database)

inductive Call where
  | commit (env : Environment) (expectedRevision : U64) (changes : List (Change Bytes Bytes))
      (result : Outcome U64)
  | close
  | reopen (env : Environment)

inductive RecordStep (p : Primitives) (root scope : Block 32) : Owner → Call → Owner → Prop where
  | commit {env : Environment} {store store' : Store} {expected : U64}
      {changes : List (Change Bytes Bytes)} {result : Outcome U64}
      (h : store.commit p env expected changes = (result, store')) :
      RecordStep p root scope (.opened store) (.commit env expected changes result)
        (.opened store')
  | close {store : Store} :
      RecordStep p root scope (.opened store) .close (.closed store.connection)
  | reopen {env : Environment} {database : Database} {store : Store} {disk : Option Database}
      (h : Store.openPath p env (some database) root scope = (.ok store, disk)) :
      RecordStep p root scope (.closed database) (.reopen env) (.opened store)
  | refused {env : Environment} {database database' : Database} {message : String}
      (h : Store.openPath p env (some database) root scope = (.error message, some database')) :
      RecordStep p root scope (.closed database) (.reopen env) (.closed database')

/-- What a call does to the abstract map: an accepted commit makes the next revision. -/
def Call.apply (map : VersionedMap Bytes Bytes) : Call → VersionedMap Bytes Bytes
  | .commit _ expected changes (.ok _) => (map.commit expected.val changes).getD map
  | .commit _ _ _ (.error _) => map
  | .close => map
  | .reopen _ => map

/-- The abstract map after the calls of a run. -/
def mapAfter (trace : List (Taken Owner Call)) : VersionedMap Bytes Bytes :=
  trace.foldl (fun map taken => taken.label.apply map) VersionedMap.new

/-- The owner, or the file it left, is at this revision of the map. -/
def Owner.Holds (p : Primitives) (root scope : Block 32) (map : VersionedMap Bytes Bytes)
    (owner : Owner) : Prop :=
  ∃ store : Store, (owner = .opened store ∨ owner = .closed store.connection) ∧
    store.Holds p map ∧ p.hkdf root scope = some store.key ∧ store.scope = scope

section Runs

variable {scope : Block 32}

variable {owner owner' : Owner} {trace : List (Taken Owner Call)} {disk : Option Database}

theorem Store.load_of_holds (hholds : store.Holds p map)
    (hkey : p.hkdf root scope = some store.key) (hscope : store.scope = scope)
    (h : Store.load p env store.connection root scope = .ok store') : store' = store := by
  have hfree : load p ⟨fun _ => none, fun _ => none⟩ store.connection root scope = .ok store :=
    hholds.load_eq hkey hscope fun _ => rfl
  obtain ⟨hkey', hscope', hconnection, hindex, sealed, head, hhead, _, hopens, hrevision, _⟩ :=
    load_eq_ok h
  obtain ⟨hkey'', _, _, hindex'', sealed'', head'', hhead'', _, hopens'', hrevision'', _⟩ :=
    load_eq_ok hfree
  obtain ⟨connection, key, scope', revision, index⟩ := store
  obtain ⟨connection', key', scope'', revision', index'⟩ := store'
  simp only at *
  subst hconnection
  have hkeys : key' = key := Option.some.inj (hkey'.symm.trans hkey)
  have hsealed : sealed = sealed'' := by
    have hcells := hhead.symm.trans hhead''
    simpa using hcells
  subst hkeys hsealed
  have hheads : head = head'' := ok_unique hopens hopens''
  have hindexes : index' = index := ok_unique hindex hindex''
  subst hheads hindexes
  rw [hrevision, hrevision'', hscope', hscope]

theorem Owner.Holds.step (hp : p.Lawful) {call : Call} (hholds : owner.Holds p root scope map)
    (hstep : RecordStep p root scope owner call owner') :
    owner'.Holds p root scope (call.apply map) := by
  obtain ⟨held, howner, hstore, hkey, hscope⟩ := hholds
  cases hstep with
  | @commit env store store' expected changes result h =>
    rcases howner with heq | heq
    · cases heq
      cases result with
      | ok revision =>
        obtain ⟨map', hmap', _, hholds', hkey', hscope'⟩ := hstore.commit_ok hp h
        refine ⟨store', .inl rfl, ?_, hkey' ▸ hkey, hscope'.trans hscope⟩
        simpa [Call.apply, hmap'] using hholds'
      | error message =>
        have heq := Store.commit_error h
        exact ⟨store', .inl rfl, heq ▸ hstore, heq ▸ hkey, heq ▸ hscope⟩
    · cases heq
  | close =>
    rcases howner with heq | heq
    · cases heq
      exact ⟨held, .inr rfl, hstore, hkey, hscope⟩
    · cases heq
  | @reopen env database store disk h =>
    rcases howner with heq | heq
    · cases heq
    · cases heq
      have hload := (Prod.mk.inj h).1
      have hsame := Store.load_of_holds hstore hkey hscope hload
      exact ⟨held, .inl (hsame ▸ rfl), hstore, hkey, hscope⟩
  | @refused env database database' message h =>
    rcases howner with heq | heq
    · cases heq
    · cases heq
      have hdisk := Option.some.inj (Prod.mk.inj h).2
      exact ⟨held, .inr (hdisk ▸ rfl), hstore, hkey, hscope⟩

theorem Owner.Holds.run (hp : p.Lawful) (hholds : owner.Holds p root scope map)
    (hrun : Run (RecordStep p root scope) owner trace owner') :
    owner'.Holds p root scope (trace.foldl (fun map taken => taken.label.apply map) map) := by
  induction hrun generalizing map with
  | nil => exact hholds
  | cons hstep _ ih => exact ih (hholds.step hp hstep)

theorem Store.openPath_none_eq_ok (h : openPath p env none root scope = (.ok store, disk)) :
    create p env root scope = .ok store := by
  rw [openPath] at h
  split at h
  · cases h
  · split at h
    · cases h
    · rename_i store' hcreate
      cases h
      exact hcreate

theorem Store.create_keys (h : create p env root scope = .ok store) :
    p.hkdf root scope = some store.key ∧ store.scope = scope := by
  simp only [create, deriveKey, bind_eq_ok, orFail_eq_ok, pure_eq_ok] at h
  obtain ⟨_, _, key, hkey, _, _, _, _, rfl⟩ := h
  exact ⟨hkey, rfl⟩

theorem mapAfter_holds (hp : p.Lawful) {first : Store} {last : Owner}
    (hopen : Store.openPath p env none root scope = (.ok first, disk))
    (hrun : Run (RecordStep p root scope) (.opened first) trace last) :
    last.Holds p root scope (mapAfter trace) := by
  have hcreate := Store.openPath_none_eq_ok hopen
  obtain ⟨hkey, hscope⟩ := Store.create_keys hcreate
  exact Owner.Holds.run hp ⟨first, .inl rfl, Store.create_holds hp hcreate, hkey, hscope⟩ hrun

end Runs

/-- The store answers as the map does. -/
structure Store.Answers (p : Primitives) (store : Store) (map : VersionedMap Bytes Bytes) :
    Prop where
  revision : store.revision.val = map.revision
  get : ∀ name, store.get p none name =
    if ValidKey name then .ok (map.records.find? name) else .error "invalid record key"
  keys : ∀ stem, store.keys stem = map.records.keys.filter fun name => stem.isPrefixOf name

/-- What a commit may do at a revision of the map. -/
structure Store.Commits (p : Primitives) (store : Store) (map : VersionedMap Bytes Bytes) :
    Prop where
  accepted : ∀ env expected changes revision store',
    store.commit p env expected changes = (.ok revision, store') →
      ∃ map', map.commit expected.val changes = some map' ∧ revision.val = map'.revision ∧
        store'.Answers p map'
  refused : ∀ env expected changes message store',
    store.commit p env expected changes = (.error message, store') → store' = store
  accepts : ∀ env expected changes, env.Faultless →
    ((∃ revision store', store.commit p env expected changes = (.ok revision, store')) ↔
      expected.val = map.revision ∧ map.revision + 1 < 2 ^ 64 ∧ ValidChanges changes)

/-- What opening a file again may do at a revision of the map. -/
structure Reopens (p : Primitives) (root scope : Block 32) (database : Database)
    (map : VersionedMap Bytes Bytes) : Prop where
  accepted : ∀ env store disk,
    Store.openPath p env (some database) root scope = (.ok store, disk) →
      disk = some database ∧ store.Answers p map
  refused : ∀ env message disk,
    Store.openPath p env (some database) root scope = (.error message, disk) →
      disk = some database
  accepts : ∀ env, env.Faultless →
    ∃ store, Store.openPath p env (some database) root scope = (.ok store, some database)

theorem Store.Holds.answers (h : store.Holds p map) : store.Answers p map where
  revision := h.revision
  get := h.get_eq
  keys := h.keys_eq

theorem Store.Holds.commits (hp : p.Lawful) (h : store.Holds p map) : store.Commits p map where
  accepted := by
    intro env expected changes revision store' hcommit
    obtain ⟨map', hmap', hrevision, hholds', _, _⟩ := h.commit_ok hp hcommit
    exact ⟨map', hmap', hrevision, hholds'.answers⟩
  refused := fun _ _ _ _ _ hcommit => commit_error hcommit
  accepts := by
    intro env expected changes henv
    rw [h.commit_ok_iff hp henv, Fin.ext_iff, h.revision]

section Sample

/-- A stand-in for the primitives: the digest tells texts apart by their length, and a sealed
text is the text with a tag. -/
def samplePrimitives : Primitives where
  sha256 text := ⟨List.replicate 32 (UInt8.ofNat text.length), List.length_replicate⟩
  hkdf root _ := some root
  encrypt _ _ _ plain := some (plain ++ List.replicate 16 0)
  decrypt _ _ _ sealed :=
    if 16 ≤ sealed.length ∧ sealed.drop (sealed.length - 16) = List.replicate 16 0 then
      some (sealed.take (sealed.length - 16))
    else none

theorem samplePrimitives_lawful : samplePrimitives.Lawful where
  decrypt_encrypt := by
    intro key nonce aad plain sealed h
    cases h
    simp [samplePrimitives]
  length_encrypt := by
    intro key nonce aad plain sealed h
    cases h
    simp
  length_decrypt := by
    intro key nonce aad plain sealed h
    simp only [samplePrimitives, Option.ite_none_right_eq_some, Option.some.injEq] at h
    obtain ⟨⟨hlength, _⟩, rfl⟩ := h
    rw [List.length_take]
    omega
  encrypts := fun _ _ _ plain _ => ⟨_, rfl⟩

def sampleEnvironment : Environment := ⟨fun _ => some (zeroBlock 12), fun _ => none⟩

def sampleHead (revision : U64) (index : Index) : Bytes :=
  List.replicate 12 0 ++ (headPlain samplePrimitives revision index ++ List.replicate 16 0)

/-- A store as it is created. -/
def sampleStore : Store :=
  ⟨((Database.empty.execute (.createTable "records" recordSchema)).execute
      (.createTable "head" headSchema)).execute (.insertHead (sampleHead 0 OrderedMap.empty)),
    zeroBlock 32, zeroBlock 32, 0, OrderedMap.empty⟩

/-- An empty value as it is sealed. -/
def sampleSealed : Bytes := List.replicate 12 0 ++ ([] ++ List.replicate 16 0)

def sampleIndex : Index := OrderedMap.empty.insert [1] (samplePrimitives.sha256 sampleSealed)

/-- The store after one record with an empty value. -/
def sampleCommitted : Store :=
  { sampleStore with
    connection := (sampleStore.connection.execute (.upsert [1] sampleSealed)).execute
      (.updateHead (sampleHead 1 sampleIndex))
    index := sampleIndex
    revision := 1 }

theorem sampleStore_opened :
    Store.openPath samplePrimitives sampleEnvironment none (zeroBlock 32) (zeroBlock 32) =
      (.ok sampleStore, some sampleStore.connection) := rfl

theorem sampleStore_commit : sampleStore.commit samplePrimitives sampleEnvironment 0
    [([1], some [])] = (.ok 1, sampleCommitted) := by
  rfl

/-- The record is committed, the file closed and opened again. -/
def sampleTrace : List (Taken Owner Call) :=
  [⟨.opened sampleStore, .commit sampleEnvironment 0 [([1], some [])] (.ok 1),
      .opened sampleCommitted⟩,
    ⟨.opened sampleCommitted, .close, .closed sampleCommitted.connection⟩,
    ⟨.closed sampleCommitted.connection, .reopen sampleEnvironment, .opened sampleCommitted⟩]

theorem sampleTrace_run : Run (RecordStep samplePrimitives (zeroBlock 32) (zeroBlock 32))
    (.opened sampleStore) sampleTrace (.opened sampleCommitted) := by
  have hreopen : Store.openPath samplePrimitives sampleEnvironment (some sampleCommitted.connection)
      (zeroBlock 32) (zeroBlock 32) = (.ok sampleCommitted, some sampleCommitted.connection) := rfl
  exact .cons (.commit sampleStore_commit) (.cons .close (.cons (.reopen hreopen) (.nil _)))

end Sample

/-- Over any commits, failures and reopenings of a new store, the owner answers as the abstract
map does, and its next commit or reopening does what the map's would do. -/
theorem store_refines {p : Primitives} {root scope : Block 32} (hp : p.Lawful)
    {env : Environment} {first : Store} {disk : Option Database}
    {trace : List (Taken Owner Call)} {last : Owner}
    (hopen : Store.openPath p env none root scope = (.ok first, disk))
    (hrun : Run (RecordStep p root scope) (.opened first) trace last) :
    (∀ store, last = .opened store →
      store.Answers p (mapAfter trace) ∧ store.Commits p (mapAfter trace)) ∧
    ∀ database, last = .closed database → Reopens p root scope database (mapAfter trace) := by
  obtain ⟨held, howner, hheld, hkey, hscope⟩ := mapAfter_holds hp hopen hrun
  constructor
  · intro store hstore
    rcases howner with heq | heq
    · cases hstore.symm.trans heq
      exact ⟨hheld.answers, hheld.commits hp⟩
    · cases hstore.symm.trans heq
  · intro database hdatabase
    rcases howner with heq | heq
    · cases hdatabase.symm.trans heq
    · cases hdatabase.symm.trans heq
      exact {
        accepted := by
          intro env store disk hreopen
          obtain ⟨hload, hdisk⟩ := Prod.mk.inj hreopen
          rw [Store.load_of_holds hheld hkey hscope hload]
          exact ⟨hdisk.symm, hheld.answers⟩
        refused := fun env message disk hreopen => (Prod.mk.inj hreopen).2.symm
        accepts := by
          intro env henv
          refine ⟨held, ?_⟩
          change (Store.load _ _ _ _ _, _) = _
          rw [hheld.load_eq hkey hscope henv.fault] }

theorem store_refines_reopened :
    sampleCommitted.Answers samplePrimitives (mapAfter sampleTrace) ∧
      sampleCommitted.get samplePrimitives none [1] = .ok (some []) ∧
      (mapAfter sampleTrace).revision = 1 :=
  ⟨((store_refines samplePrimitives_lawful sampleStore_opened sampleTrace_run).1 _ rfl).1, rfl, rfl⟩

end Arachne.Records
