import MiniDB.Core.Directory
import MiniDB.Core.SchemaValidity
import MiniDB.Engine.DatabaseExport
import MiniDB.Engine.IdentitySurvival

/-!
# What an export loses

An export adds the identifier of a record to its data under the key `id`, and an import
takes that key out again. Data that has a member of its own under that key does not come
back: a table, or a database, is restored exactly if no live record has one.
-/

namespace MiniDB.Engine

open MiniDB.Common MiniDB.JsonPro MiniDB.Core Memory Refinement

/-- A schema-checked change of a table by a record with a small identifier and an object as
data, or a deletion. -/
def Plain : TableCall → Prop
  | .insertRecord record | .updateRecord record =>
    record.id.toNat < 2 ^ 31 ∧ record.data.isObject = true
  | .deleteRecord _ => True
  | _ => False

/-- What such calls establish: distinct valid records with small identifiers and objects as
data. -/
structure Exportable (t : Table) : Prop where
  /-- Live records are distinct. -/
  separated : t.Separated
  /-- Live records satisfy the schema. -/
  valid : t.Valid
  /-- Identifiers are small. -/
  small : ∀ r ∈ t.liveRecords, r.id.toNat < 2 ^ 31
  /-- The data are objects. -/
  object : ∀ r ∈ t.liveRecords, r.data.isObject = true

/-- A new table is exportable. -/
theorem exportable_new (name : String) (id : TableID) (schema : List ColumnDef) :
    Exportable (Table.new name id schema) where
  separated := Table.separated_new name id schema
  valid _ h := absurd h List.not_mem_nil
  small _ h := absurd h List.not_mem_nil
  object _ h := absurd h List.not_mem_nil

section Calls

variable [InsertPolicy]

/-- Plain calls keep a table exportable. -/
theorem Exportable.call {t t' : Table} (h : Exportable t) {c : TableCall} (hplain : Plain c)
    {response : TableResponse} (hcall : t.call c = .ok (response, t')) : Exportable t' := by
  have hvalid := h.valid.call hcall
  cases c with
  | insertRecord record =>
    obtain rfl : (t.insertRecord record).2 = t' := congrArg Prod.snd (Except.ok.inj hcall)
    obtain ⟨_, ⟨hlive, _⟩ | ⟨_, _, left, right, _, hbefore, hafter, _⟩⟩ :=
      t.insertRecord_effect record
    · refine ⟨h.separated.insertRecord record, hvalid, ?_, ?_⟩
      · rw [hlive]
        exact h.small
      · rw [hlive]
        exact h.object
    · have hsmall := h.small
      have hobject := h.object
      rw [hbefore, List.forall_mem_append] at hsmall hobject
      refine ⟨h.separated.insertRecord record, hvalid, ?_, ?_⟩
      · rw [hafter, List.forall_mem_append, List.forall_mem_cons]
        exact ⟨hsmall.1, hplain.1, hsmall.2⟩
      · rw [hafter, List.forall_mem_append, List.forall_mem_cons]
        exact ⟨hobject.1, hplain.2, hobject.2⟩
  | updateRecord record =>
    obtain rfl : (t.updateRecord record).2 = t' := congrArg Prod.snd (Except.ok.inj hcall)
    obtain ⟨_, _, hlive | ⟨_, left, r, right, _, hbefore, hafter⟩⟩ := t.updateRecord_effect record
    · refine ⟨h.separated.updateRecord record, hvalid, ?_, ?_⟩
      · rw [hlive]
        exact h.small
      · rw [hlive]
        exact h.object
    · have hsmall := h.small
      have hobject := h.object
      rw [hbefore, List.forall_mem_append, List.forall_mem_cons] at hsmall hobject
      refine ⟨h.separated.updateRecord record, hvalid, ?_, ?_⟩
      · rw [hafter, List.forall_mem_append, List.forall_mem_cons]
        exact hsmall
      · rw [hafter, List.forall_mem_append, List.forall_mem_cons]
        exact ⟨hobject.1, hplain.2, hobject.2.2⟩
  | deleteRecord id =>
    obtain rfl : (t.deleteRecord id).2 = t' := congrArg Prod.snd (Except.ok.inj hcall)
    have hmem : ∀ r ∈ (t.deleteRecord id).2.liveRecords, r ∈ t.liveRecords := by
      obtain ⟨_, ⟨hlive, _⟩ | ⟨left, r, right, _, hbefore, hafter, _⟩⟩ := t.deleteRecord_effect id
      · rw [hlive]
        exact fun _ hmem => hmem
      · rw [hbefore, hafter]
        exact fun _ hmem => (List.sublist_cons_self r right).append_left left |>.mem hmem
    exact ⟨h.separated.deleteRecord id, hvalid, fun r hr => h.small r (hmem r hr),
      fun r hr => h.object r (hmem r hr)⟩
  | _ => cases hplain

/-- Runs of plain calls keep a table exportable. -/
theorem Exportable.run {t t' : Table} (h : Exportable t) {calls : List TableCall}
    (hplain : ∀ c ∈ calls, Plain c) {responses : List TableResponse}
    (hrun : Refinement.run Table.call t calls = .ok (responses, t')) : Exportable t' := by
  induction calls generalizing t responses with
  | nil =>
    cases hrun
    exact h
  | cons c calls ih =>
    rw [List.forall_mem_cons] at hplain
    obtain ⟨response, rest, middle, hfirst, hrest, _⟩ := run_cons_eq_ok hrun
    exact ih (h.call hplain.1 hfirst) hplain.2 hrest

end Calls

/-- What is exported of a record whose data is an object. -/
def exported (r : Record) : Json :=
  match r.data with
  | .object members => .object (Json.setMember "id" (.ofInt (toInt32 r.getID.toNat)) members)
  | other => other

/-- Records with objects as data are exported. -/
theorem mapM_exportEntry {records : List Record}
    (h : ∀ r ∈ records, r.data.isObject = true) :
    records.mapM exportEntry = .ok (records.map exported) := by
  induction records with
  | nil => rfl
  | cons r records ih =>
    rw [List.forall_mem_cons] at h
    have hentry : exportEntry r = .ok (exported r) := by
      unfold exportEntry exported Json.set
      cases hdata : r.data with
      | object members => rfl
      | _ =>
        rw [hdata] at h
        cases h.1
    rw [List.mapM_cons, hentry, ih h.2]
    rfl

/-- Taking the member `id` out changes an object exactly if it has one. -/
theorem withoutId_eq_iff {data : Json} (h : data.isObject = true) :
    withoutId data = data ↔ data.contains "id" = false := by
  cases data with
  | object members =>
    unfold withoutId Json.contains Json.member?
    rw [Json.object.injEq, Option.isSome_eq_false_iff, Option.isNone_iff_eq_none,
      List.lookup_eq_none_iff, List.filter_eq_self]
    refine forall₂_congr fun member _ => ?_
    rw [decide_eq_true_eq, bne_iff_ne, ne_comm]
  | _ => cases h

/-- The data of distinct live records depend on the records, not on their order. -/
theorem contents_of_perm {t t' : Table} (hnodup : (t.liveRecords.map Record.id).Nodup)
    (hperm : t'.liveRecords.Perm t.liveRecords) : t'.contents = t.contents := by
  have hnodup' : (t'.liveRecords.map Record.id).Nodup := (hperm.map Record.id).nodup_iff.mpr hnodup
  apply FiniteMap.ext
  funext id
  unfold Table.contents
  dsimp only
  congr 1
  apply Option.ext
  intro r
  rw [KeyedList.lookup_eq_some Record.id hnodup, KeyedList.lookup_eq_some Record.id hnodup',
    hperm.mem_iff]

/-- A live record is found among the contents. -/
theorem contents_of_mem {t : Table} (hnodup : (t.liveRecords.map Record.id).Nodup) {r : Record}
    (hr : r ∈ t.liveRecords) : t.contents.get? r.id = some r.data := by
  unfold Table.contents
  dsimp only
  rw [(KeyedList.lookup_eq_some Record.id hnodup).mpr ⟨hr, rfl⟩]
  rfl

section Restoring

variable [InsertPolicy]

/-- Importing the exported records of a table into an empty one restores their data exactly if
no record has a member `id`. -/
theorem Exportable.import_iff {t empty : Table} (h : Exportable t) (hempty : empty.Consistent)
    (hnone : empty.liveRecords = []) (hschema : empty.schema = t.schema) :
    (∃ t', importTable (.array (t.liveRecords.map exported)) empty = .ok .OK t' ∧
        t'.contents = t.contents) ↔
      ∀ r ∈ t.liveRecords, r.data.contains "id" = false := by
  have hstart := imported_of_empty hempty hnone
  have hentries := mapM_exportEntry h.object
  have himported : (∀ r ∈ t.liveRecords, (stored r).validate t.schema = .OK) →
      ∃ t', importTable (.array (t.liveRecords.map exported)) empty = .ok .OK t' ∧
        (t'.liveRecords.map Record.id).Nodup ∧
        t'.liveRecords.Perm (t.liveRecords.map stored) := by
    intro hvalid
    have hfresh : ∀ r ∈ t.liveRecords, r.id ∉ empty.liveRecords.map Record.id := by
      rw [hnone]
      exact fun _ _ => List.not_mem_nil
    obtain ⟨entries, t', hexport, himport, h', hperm⟩ := importEntries_of_small h.object h.small
      h.separated.nodup hfresh (hschema ▸ hvalid) hstart 0
    rw [hentries] at hexport
    cases hexport
    rw [hnone, List.append_nil] at hperm
    exact ⟨t', himport, h'.receptive.nodup, hperm⟩
  constructor
  · rintro ⟨t', himport, hcontents⟩ r hr
    obtain ⟨_, hvalid⟩ := imported_of_importEntries hentries hstart himport
    rw [hschema] at hvalid
    obtain ⟨t₁, himport₁, hnodup, hperm⟩ := himported hvalid
    rw [himport] at himport₁
    cases himport₁
    have hstored : stored r ∈ t'.liveRecords := hperm.mem_iff.mpr (List.mem_map_of_mem hr)
    have hafter : t'.contents.get? r.id = some (withoutId r.data) :=
      contents_of_mem hnodup hstored
    rw [hcontents, contents_of_mem h.separated.nodup hr] at hafter
    exact (withoutId_eq_iff (h.object r hr)).mp (Option.some.inj hafter).symm
  · intro hkept
    have hdata : ∀ r ∈ t.liveRecords, withoutId r.data = r.data := fun r hr =>
      (withoutId_eq_iff (h.object r hr)).mpr (hkept r hr)
    have hsame : t.liveRecords.map stored = t.liveRecords := by
      conv_rhs => rw [← List.map_id t.liveRecords]
      apply List.map_congr_left
      intro r hr
      unfold stored Record.new
      rw [hdata r hr, ← Table.deleted_of_mem_liveRecords hr, id_eq]
    have hvalid : ∀ r ∈ t.liveRecords, (stored r).validate t.schema = .OK := by
      intro r hr
      rw [@Record.validate_congr (stored r) r (hdata r hr)]
      exact h.valid r hr
    obtain ⟨t', himport, _, hperm⟩ := himported hvalid
    rw [hsame] at hperm
    exact ⟨t', himport, contents_of_perm h.separated.nodup hperm⟩

variable [JsonText]

/-- Importing what a table exports into an empty table succeeds and restores the data of every
record. -/
def TableRestored (t empty : Table) : Prop :=
  ∃ text t', exportTableToJson t = .ok text ∧ importTableFromJson text empty = .ok .OK t' ∧
    t'.contents = t.contents

/-- An exportable table is restored exactly if no record has a member `id`. -/
theorem Exportable.restored_iff {t empty : Table} (h : Exportable t) (hempty : empty.Consistent)
    (hnone : empty.liveRecords = []) (hschema : empty.schema = t.schema)
    (htext : ∀ entries, exportRecords (t.getPages.flatMap Page.records) = .ok entries →
      JsonText.parse (JsonText.dump (.array entries)) = .ok (.array entries)) :
    TableRestored t empty ↔ ∀ r ∈ t.liveRecords, r.data.contains "id" = false := by
  have hexport : exportRecords (t.getPages.flatMap Page.records) =
      .ok (t.liveRecords.map exported) := by
    rw [exportRecords_pages, mapM_exportEntry h.object]
  have hparse := htext _ hexport
  have htable : exportTableToJson t =
      .ok (JsonText.dump (.array (t.liveRecords.map exported))) := by
    unfold exportTableToJson
    rw [hexport]
    rfl
  rw [← h.import_iff hempty hnone hschema]
  unfold TableRestored
  rw [htable]
  constructor
  · rintro ⟨text, t', htextOf, himport, hcontents⟩
    cases htextOf
    unfold importTableFromJson at himport
    rw [lift_bind_of_ok hparse] at himport
    exact ⟨t', himport, hcontents⟩
  · rintro ⟨t', himport, hcontents⟩
    refine ⟨_, t', rfl, ?_, hcontents⟩
    unfold importTableFromJson
    rw [lift_bind_of_ok hparse]
    exact himport

/-- Under the name of every table of a database the other has an empty table with its schema. -/
def Prepared (db copy : Database) : Prop :=
  ∀ address ∈ db.tables, ∀ t, db.heap.get? address = some t → ∃ address' empty,
    copy.getTable t.name = some address' ∧ copy.heap.get? address' = some empty ∧
      empty.liveRecords = [] ∧ empty.schema = t.schema

/-- Importing what a database exports into another one succeeds and restores the data of every
record of every table. -/
def DatabaseRestored (db copy : Database) : Prop :=
  ∃ text copy', exportDatabaseToJson db = .ok text ∧
    importDatabaseFromJson (.OK, text) copy = .ok .OK copy' ∧
    ∀ address ∈ db.tables, ∀ t, db.heap.get? address = some t → ∃ address' t',
      copy'.getTable t.name = some address' ∧ copy'.heap.get? address' = some t' ∧
        t'.contents = t.contents

/-- The member that a table is exported to. -/
def exportedMember (t : Table) : String × Json := (t.name, .array (t.liveRecords.map exported))

omit [InsertPolicy] [JsonText] in
/-- What a database of tables with objects as data is exported to. -/
theorem exportTables_linked {db : Database} {entries : List Database.Entry}
    (h : db.Linked entries)
    (hobject : ∀ entry ∈ entries, ∀ r ∈ entry.2.liveRecords, r.data.isObject = true) :
    exportTables Json.emptyObject (entries.map Prod.snd) =
      .ok (.object ((entries.map Prod.snd).map exportedMember)) := by
  have hexport : ∀ t ∈ entries.map Prod.snd, exportRecords (t.getPages.flatMap Page.records) =
      .ok (t.liveRecords.map exported) := by
    rw [List.forall_mem_map]
    intro entry hentry
    rw [exportRecords_pages, mapM_exportEntry (hobject entry hentry)]
  have hnames : (([] : List (String × Json)).map Prod.fst ++
      (entries.map Prod.snd).map Table.name).Nodup := by
    rw [List.map_nil, List.nil_append, List.map_map]
    exact h.names
  exact exportTables_eq hexport hnames

omit [InsertPolicy] [JsonText] in
/-- An import finds the table that was prepared for a member. -/
private theorem Prepared.exists_entry {db copy : Database} {entries copies : List Database.Entry}
    (hprepared : Prepared db copy) (h : db.Linked entries) (hcopy : copy.Linked copies)
    {entry : Database.Entry} (hentry : entry ∈ entries) :
    ∃ other ∈ copies, other.2.name = entry.2.name ∧ other.2.liveRecords = [] ∧
      other.2.schema = entry.2.schema := by
  have haddress : entry.1 ∈ db.tables := h.tables ▸ List.mem_map_of_mem hentry
  obtain ⟨address', empty, hget, hheap, hnone, hschema⟩ :=
    hprepared entry.1 haddress entry.2 (h.heap hentry)
  rcases @Database.Wired.getTable _ _ hcopy.wired entry.2.name with ⟨hmissing, _⟩ |
    ⟨other, hother, hname, hfound⟩
  · rw [hmissing] at hget
    cases hget
  · rw [hfound] at hget
    cases hget
    have htable := hcopy.heap hother
    rw [hheap] at htable
    cases htable
    exact ⟨other, hother, hname, hnone, hschema⟩

omit [InsertPolicy] in
/-- The text that a database of tables with objects as data is exported to. -/
private theorem exportDatabaseToJson_linked {db : Database} {entries : List Database.Entry}
    (hread : db.tables.mapM db.heap.read = .ok (entries.map Prod.snd))
    (hexport : exportTables Json.emptyObject (entries.map Prod.snd) =
      .ok (.object ((entries.map Prod.snd).map exportedMember))) :
    exportDatabaseToJson db =
      .ok (JsonText.dump (.object ((entries.map Prod.snd).map exportedMember))) := by
  unfold exportDatabaseToJson
  rw [hread]
  change (exportTables Json.emptyObject (entries.map Prod.snd) >>= _) = _
  rw [hexport]
  rfl

/-- The text of an object is imported member by member. -/
private theorem importDatabaseFromJson_object {text : List UInt8} {members : List (String × Json)}
    (hparse : JsonText.parse text = .ok (.object members)) (copy : Database) :
    importDatabaseFromJson (.OK, text) copy = importTables members copy := by
  unfold importDatabaseFromJson
  dsimp only
  rw [lift_bind_of_ok hparse]
  rfl

omit [JsonText] in
/-- What the tables of a database are exported to is imported exactly if each member can be
imported into the table of its name, and this table is then found as that import leaves it. -/
private theorem importTables_exported {db copy : Database} {entries copies : List Database.Entry}
    (h : db.Linked entries) (hcopy : copy.Linked copies) (hprepared : Prepared db copy) :
    ((∃ copy', importTables ((entries.map Prod.snd).map exportedMember) copy = .ok .OK copy') ↔
      ∀ entry ∈ entries, ∀ other ∈ copies, other.2.name = entry.2.name →
        ∃ t, importTable (.array (entry.2.liveRecords.map exported)) other.2 = .ok .OK t) ∧
    ∀ copy', importTables ((entries.map Prod.snd).map exportedMember) copy = .ok .OK copy' →
      ∀ entry ∈ entries, ∀ other ∈ copies, other.2.name = entry.2.name → ∀ t,
        importTable (.array (entry.2.liveRecords.map exported)) other.2 = .ok .OK t →
          copy'.getTable entry.2.name = some other.1 ∧ copy'.heap.get? other.1 = some t := by
  have hkeys : (((entries.map Prod.snd).map exportedMember).map Prod.fst).Nodup := by
    rw [List.map_map, List.map_map]
    exact h.names
  have hnamed : ∀ member ∈ (entries.map Prod.snd).map exportedMember,
      ∃ other ∈ copies, other.2.name = member.1 := by
    rw [List.forall_mem_map, List.forall_mem_map]
    intro entry hentry
    obtain ⟨other, hother, hname, _⟩ := hprepared.exists_entry h hcopy hentry
    exact ⟨other, hother, hname⟩
  obtain ⟨hsucceeds, hleaves⟩ := importTables_spec hcopy hkeys hnamed
  rw [List.forall_mem_map, List.forall_mem_map] at hsucceeds
  refine ⟨hsucceeds, ?_⟩
  intro copy' himported entry hentry other hother hname t ht
  obtain ⟨entries', hlinked, _, hmembers⟩ := hleaves copy' himported
  have hmember : exportedMember entry.2 ∈ (entries.map Prod.snd).map exportedMember :=
    List.mem_map_of_mem (List.mem_map_of_mem hentry)
  have hmem := hmembers _ hmember other hother hname t ht
  have hget := hlinked.wired.getTable_of_mem hmem
  dsimp only at hget
  rw [(importTable_grows ht).name, hname] at hget
  exact ⟨hget, hlinked.heap hmem⟩

/-- A database of exportable tables is restored exactly if no record has a member `id`. -/
theorem databaseRestored_iff {db copy : Database} {entries copies : List Database.Entry}
    (h : db.Linked entries) (hexportable : ∀ entry ∈ entries, Exportable entry.2)
    (hcopy : copy.Consistent copies) (hprepared : Prepared db copy)
    (htext : ∀ tables envelope, db.tables.mapM db.heap.read = .ok tables →
      exportTables Json.emptyObject tables = .ok envelope →
      JsonText.parse (JsonText.dump envelope) = .ok envelope) :
    DatabaseRestored db copy ↔
      ∀ entry ∈ entries, ∀ r ∈ entry.2.liveRecords, r.data.contains "id" = false := by
  have hread : db.tables.mapM db.heap.read = .ok (entries.map Prod.snd) := by
    rw [h.tables]
    exact Database.mapM_read fun entry hentry => h.heap hentry
  have hexport := exportTables_linked h fun entry hentry => (hexportable entry hentry).object
  have hfile := exportDatabaseToJson_linked hread hexport
  have himport := importDatabaseFromJson_object (htext _ _ hread hexport) copy
  obtain ⟨hsucceeds, hfound⟩ := importTables_exported h hcopy.linked hprepared
  unfold DatabaseRestored
  rw [hfile]
  constructor
  · rintro ⟨text, copy', htextOf, himported, hrestored⟩ entry hentry
    cases htextOf
    rw [himport] at himported
    obtain ⟨other, hother, hname, hnone, hschema⟩ := hprepared.exists_entry h hcopy.linked hentry
    obtain ⟨t, ht⟩ := hsucceeds.mp ⟨copy', himported⟩ entry hentry other hother hname
    obtain ⟨hget, hheap⟩ := hfound copy' himported entry hentry other hother hname t ht
    obtain ⟨address, t', hget', hheap', hcontents⟩ := hrestored entry.1
      (h.tables ▸ List.mem_map_of_mem hentry) entry.2 (h.heap hentry)
    rw [hget] at hget'
    cases hget'
    rw [hheap] at hheap'
    cases hheap'
    exact ((hexportable entry hentry).import_iff (hcopy.consistent hother) hnone hschema).mp
      ⟨t, ht, hcontents⟩
  · intro hkept
    have htables : ∀ entry ∈ entries, ∀ other ∈ copies, other.2.name = entry.2.name →
        ∃ t, importTable (.array (entry.2.liveRecords.map exported)) other.2 = .ok .OK t ∧
          t.contents = entry.2.contents := by
      intro entry hentry other hother hname
      obtain ⟨prepared, hmem, hsame, hnone, hschema⟩ :=
        hprepared.exists_entry h hcopy.linked hentry
      rw [List.inj_on_of_nodup_map hcopy.names hother hmem (hname.trans hsame.symm)]
      exact ((hexportable entry hentry).import_iff (hcopy.consistent hmem) hnone hschema).mpr
        (hkept entry hentry)
    obtain ⟨copy', himported⟩ := hsucceeds.mpr fun entry hentry other hother hname => by
      obtain ⟨t, ht, _⟩ := htables entry hentry other hother hname
      exact ⟨t, ht⟩
    refine ⟨_, copy', rfl, himport.trans himported, ?_⟩
    intro address haddress t ht
    rw [h.tables] at haddress
    obtain ⟨entry, hentry, rfl⟩ := List.mem_map.mp haddress
    rw [h.heap hentry] at ht
    cases ht
    obtain ⟨other, hother, hname, _⟩ := hprepared.exists_entry h hcopy.linked hentry
    obtain ⟨t', ht', hcontents⟩ := htables entry hentry other hother hname
    obtain ⟨hget, hheap⟩ := hfound copy' himported entry hentry other hother hname t' ht'
    exact ⟨other.1, t', hget, hheap, hcontents⟩

end Restoring

section Changes

variable [InsertPolicy]

/-- A table made by plain calls only. -/
def MadeByChanges (t : Table) : Prop :=
  ∃ name id schema calls responses, (∀ c ∈ calls, Plain c) ∧
    Refinement.run Table.call (Table.new name id schema) calls = .ok (responses, t)

/-- A database made by creating and dropping tables and by plain calls on them. -/
def DatabaseMadeByChanges (db : Database) : Prop :=
  ∃ name calls responses, (∀ pointer c, .through pointer c ∈ calls → Plain c) ∧
    Along Database.directoryCall Database.PointerHeld (Database.new name) calls ∧
    Refinement.run Database.directoryCall (Database.new name) calls = .ok (responses, db) ∧
    creations calls responses < 2 ^ 32

/-- Tables made by plain calls are exportable. -/
theorem MadeByChanges.exportable {t : Table} (h : MadeByChanges t) : Exportable t := by
  obtain ⟨name, id, schema, calls, responses, hplain, hrun⟩ := h
  exact (exportable_new name id schema).run hplain hrun

/-- Databases made by plain calls are linked and their tables exportable. -/
theorem DatabaseMadeByChanges.exportable {db : Database} (h : DatabaseMadeByChanges db) :
    ∃ entries, db.Linked entries ∧ ∀ entry ∈ entries, Exportable entry.2 := by
  obtain ⟨name, calls, responses, hplain, hheld, hrun, hroom⟩ := h
  have hstart : (Database.new name).nextTableId.toNat = 0 := rfl
  obtain ⟨entries, d, hfollows, hmirrors⟩ := (Database.Mirrors.new name).run hheld hrun
    (by rw [hstart, Nat.zero_add]; exact hroom)
  have hslots := Directory.calls_of_follows hfollows hplain (by simp)
  refine ⟨entries, hmirrors.linked, fun entry hentry => ?_⟩
  cases hslot : d.get? entry.2.name with
  | none => exact absurd rfl ((hmirrors.keys entry.2.name).mp hslot entry hentry)
  | some slot =>
    obtain ⟨t, hmem, hname, _, hcalls⟩ := hmirrors.slots hslot
    have hsame := List.inj_on_of_nodup_map hmirrors.linked.names hentry hmem hname.symm
    rw [hsame]
    exact (exportable_new _ slot.id slot.schema).run (hslots _ slot hslot) hcalls

/-- A table made by plain calls comes back from its export into an empty table with its schema
exactly if no live record has a member of its own under the key `id`, and so does a database
made by such calls into one that has the same tables, empty. -/
theorem exports_lossless_iff [JsonText] {t empty : Table} (ht : MadeByChanges t)
    (hempty : empty.Consistent) (hnone : empty.liveRecords = []) (hschema : empty.schema = t.schema)
    (htable : ∀ entries, exportRecords (t.getPages.flatMap Page.records) = .ok entries →
      JsonText.parse (JsonText.dump (.array entries)) = .ok (.array entries))
    {db copy : Database} {copies : List Database.Entry} (hdb : DatabaseMadeByChanges db)
    (hcopy : copy.Consistent copies) (hprepared : Prepared db copy)
    (hdatabase : ∀ tables envelope, db.tables.mapM db.heap.read = .ok tables →
      exportTables Json.emptyObject tables = .ok envelope →
      JsonText.parse (JsonText.dump envelope) = .ok envelope) :
    (TableRestored t empty ↔ ∀ r ∈ t.liveRecords, r.data.contains "id" = false) ∧
    (DatabaseRestored db copy ↔ ∀ address ∈ db.tables, ∀ t, db.heap.get? address = some t →
      ∀ r ∈ t.liveRecords, r.data.contains "id" = false) := by
  refine ⟨ht.exportable.restored_iff hempty hnone hschema htable, ?_⟩
  obtain ⟨entries, hlinked, hexportable⟩ := hdb.exportable
  rw [databaseRestored_iff hlinked hexportable hcopy hprepared hdatabase]
  constructor
  · intro hkept address haddress t ht
    rw [hlinked.tables] at haddress
    obtain ⟨entry, hentry, rfl⟩ := List.mem_map.mp haddress
    rw [hlinked.heap hentry] at ht
    cases ht
    exact hkept entry hentry
  · intro hkept entry hentry
    exact hkept entry.1 (hlinked.tables ▸ List.mem_map_of_mem hentry) entry.2
      (hlinked.heap hentry)

end Changes

/-- A table and a database with one record come back. -/
theorem exports_lossless_iff_pen :
    letI : InsertPolicy := ⟨true⟩
    letI := arrayAndObject [.object [("item", .string "pen"), ("id", .ofInt 7)]]
      [("orders", .array [.object [("item", .string "pen"), ("id", .ofInt 7)]])]
    let record := Record.new 7 (.object [("item", .string "pen")])
    ∃ t db copy, (Table.new "orders" 0 []).insertRecord record = (.OK, t) ∧
      Refinement.run Database.directoryCall (Database.new "shop")
        [.createTable "orders" [], .through 0 (.insertRecord record)] =
          .ok ([.status .OK, .table (.status .OK)], db) ∧
      (Database.new "copy").createTable "orders" [] = (.OK, copy) ∧
      TableRestored t (Table.new "copy" 1 []) ∧ DatabaseRestored db copy := by
  let _ : InsertPolicy := ⟨true⟩
  let _ := arrayAndObject [.object [("item", .string "pen"), ("id", .ofInt 7)]]
      [("orders", .array [.object [("item", .string "pen"), ("id", .ofInt 7)]])]
  let record := Record.new 7 (.object [("item", .string "pen")])
  have hheld : Along Database.directoryCall Database.PointerHeld (Database.new "shop")
      [.createTable "orders" [], .through 0 (.insertRecord record)] := by
    refine ⟨trivial, fun _ db h => ?_⟩
    obtain rfl := congrArg Prod.snd (Except.ok.inj h)
    exact ⟨List.mem_singleton_self 0, fun _ _ _ => trivial⟩
  have hplain : Plain (.insertRecord record) := ⟨by decide, rfl⟩
  obtain ⟨t, hinsert, hlive, hschema, hname⟩ :
      ∃ t, (Table.new "orders" 0 []).insertRecord record = (.OK, t) ∧ t.liveRecords = [record] ∧
        t.schema = [] ∧ t.name = "orders" := ⟨_, rfl, rfl, rfl, rfl⟩
  obtain ⟨db, hrun, htables, hheap⟩ : ∃ db, Refinement.run Database.directoryCall
      (Database.new "shop") [.createTable "orders" [], .through 0 (.insertRecord record)] =
        .ok ([.status .OK, .table (.status .OK)], db) ∧ db.tables = [0] ∧
      db.heap.get? 0 = some ((Table.new "orders" 0 []).insertRecord record).2 :=
    ⟨_, rfl, rfl, rfl⟩
  rw [hinsert] at hheap
  obtain ⟨copy, hcreate, hcopy⟩ : ∃ copy, (Database.new "copy").createTable "orders" [] =
      (.OK, copy) ∧ copy.Consistent [(0, Table.new "orders" 0 [])] := by
    have hnew := Database.Consistent.new "copy"
    rcases hnew.createTable "orders" [] with ⟨_, hfail⟩ | ⟨_, _, hfail⟩ |
      ⟨_, _, copy, hcreate, _, _, _, hcopy⟩
    · cases hfail
    · cases hfail
    · exact ⟨copy, hcreate, hnew.concat (hcopy (by decide)) (Table.Consistent.new _ _ _)⟩
  have hmem : (0, Table.new "orders" 0 []) ∈ [((0 : Address), Table.new "orders" 0 [])] :=
    List.mem_singleton_self _
  have hprepared : Prepared db copy := by
    intro address haddress t' ht'
    rw [htables, List.mem_singleton] at haddress
    subst haddress
    rw [hheap] at ht'
    cases ht'
    exact ⟨0, _, hname ▸ hcopy.linked.wired.getTable_of_mem hmem, hcopy.heap hmem, rfl,
      hschema.symm⟩
  have hmade : Refinement.run Table.call (Table.new "orders" 0 []) [.insertRecord record] =
      .ok ([.status .OK], t) := by
    have hcall : (Table.new "orders" 0 []).call (.insertRecord record) = .ok (.status .OK, t) :=
      congrArg (fun result : Status × Table =>
        (Except.ok (.status result.1, result.2) : Except Fault (TableResponse × Table))) hinsert
    rw [run_cons hcall]
    rfl
  have hid : toInt32 (7 : UInt64).toNat = 7 := by decide
  have hentries : exportRecords (t.getPages.flatMap Page.records) =
      .ok [.object [("item", .string "pen"), ("id", .ofInt 7)]] := by
    have hentry : exportEntry record = .ok (.object [("item", .string "pen"),
        ("id", .ofInt (toInt32 (7 : UInt64).toNat))]) := rfl
    rw [exportRecords_pages, hlive, List.mapM_cons, hentry, hid]
    rfl
  have hkept : ∀ r ∈ t.liveRecords, r.data.contains "id" = false := by
    rw [hlive]
    simp [record, Record.new, Json.contains, Json.member?, List.lookup_cons]
  obtain ⟨htable, hdatabase⟩ := exports_lossless_iff
    ⟨"orders", 0, [], [.insertRecord record], [.status .OK], by simpa using hplain,
      hmade⟩
    (Table.Consistent.new "copy" 1 []) rfl hschema.symm
    (fun entries h => by
      rw [hentries] at h
      cases h
      rfl)
    ⟨"shop", [.createTable "orders" [], .through 0 (.insertRecord record)],
      [.status .OK, .table (.status .OK)], by simpa using hplain, hheld, hrun, by decide⟩
    hcopy hprepared
    (fun tables envelope hread h => by
      rw [htables, List.mapM_cons, Heap.read_eq_ok.mpr hheap] at hread
      cases hread
      unfold exportTables at h
      rw [hentries, Table.getName, hname] at h
      cases h
      rfl)
  refine ⟨t, db, copy, hinsert, hrun, hcreate, htable.mpr hkept, hdatabase.mpr ?_⟩
  intro address haddress t' ht'
  rw [htables, List.mem_singleton] at haddress
  subst haddress
  rw [hheap] at ht'
  cases ht'
  exact hkept

/-- A member `id` of the data is overwritten by the export and missing after the import. -/
theorem own_id_lost :
    letI : InsertPolicy := ⟨true⟩
    letI := JsonText.ofDocument [] (.array [.object [("id", .ofInt 7)]])
    ∃ t t', MadeByChanges t ∧ t.contents.get? 7 = some (.object [("id", .ofInt 5)]) ∧
      exportTableToJson t = .ok [] ∧
      importTableFromJson [] (Table.new "copy" 1 t.schema) = .ok .OK t' ∧
      t'.contents.get? 7 = some Json.emptyObject ∧
      ¬TableRestored t (Table.new "copy" 1 t.schema) := by
  let _ : InsertPolicy := ⟨true⟩
  let _ := JsonText.ofDocument [] (.array [.object [("id", .ofInt 7)]])
  let record := Record.new 7 (.object [("id", .ofInt 5)])
  have hplain : Plain (.insertRecord record) := ⟨by decide, rfl⟩
  have hmade : MadeByChanges ((Table.new "orders" 0 []).insertRecord record).2 :=
    ⟨"orders", 0, [], [.insertRecord record], [.status .OK], by simpa using hplain, rfl⟩
  refine ⟨_, _, hmade, rfl, rfl, rfl, rfl, fun hrestored => ?_⟩
  have hkept := (hmade.exportable.restored_iff (Table.Consistent.new "copy" 1 _) rfl rfl
    (fun entries h => by
      have hid : toInt32 (7 : UInt64).toNat = 7 := by decide
      have hlive : ((Table.new "orders" 0 []).insertRecord record).2.liveRecords = [record] := rfl
      have hentry : exportEntry record = .ok (.object [("id",
          .ofInt (toInt32 (7 : UInt64).toNat))]) := rfl
      rw [exportRecords_pages, hlive, List.mapM_cons, hentry, hid] at h
      cases h
      rfl)).mp hrestored record List.mem_cons_self
  cases hkept

end MiniDB.Engine
