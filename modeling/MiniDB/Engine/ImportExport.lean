import MiniDB.Core.RoundTrip
import MiniDB.Core.TableEffects
import MiniDB.Engine.Serializer

/-!
# Importing what was exported

An exported identifier is an `int`, so an import reads only identifiers below `2 ^ 31`.
Importing an export into an empty table restores the identifiers if and only if they were
below that bound and the stored data passes validation.
-/

namespace MiniDB.Engine

open MiniDB.Common MiniDB.JsonPro MiniDB.Core Memory Traversal

/-- An identifier read back from an `int` is below `2 ^ 31`. -/
theorem lt_of_toUInt64_toInt32 {value : ℕ} {id : UInt64}
    (h : (Double.ofInt (toInt32 value)).toUInt64 = .ok id) : id.toNat < 2 ^ 31 := by
  have hbounds := toInt32_bounds value
  unfold Double.toUInt64 at h
  by_cases hrange : 0 ≤ toInt32 value ∧ toInt32 value < 2 ^ 64
  · rw [Double.toIntegerIn_ofInt hrange] at h
    have hid := congrArg UInt64.toNat (Except.ok.inj h)
    rw [UInt64.toNat_ofNat'] at hid
    dsimp only at hid
    omega
  · rw [Double.toIntegerIn_ofInt_of_not hrange] at h
    cases h

/-- A receptive table that holds records with small identifiers. -/
structure Imported (t : Table) : Prop where
  /-- Fresh valid records are stored. -/
  receptive : t.Receptive
  /-- Identifiers are small. -/
  small : ∀ id ∈ t.liveRecords.map Record.id, id.toNat < 2 ^ 31

variable [InsertPolicy]

omit [InsertPolicy] in
/-- One more record with a small identifier. -/
theorem Imported.stored {t t' : Table} (h : Imported t) (h' : t'.Receptive) {r : Record}
    (hperm : t'.liveRecords.Perm (r :: t.liveRecords)) (hsmall : r.id.toNat < 2 ^ 31) :
    Imported t' := by
  refine ⟨h', fun id hid => ?_⟩
  rcases List.mem_cons.mp ((hperm.map Record.id).mem_iff.mp hid) with rfl | hold
  · exact hsmall
  · exact h.small id hold

/-- Inserting a valid record with a small fresh identifier. -/
theorem Imported.insertRecord {t : Table} (h : Imported t) {r : Record}
    (hvalid : r.validate t.schema = .OK) (hsmall : r.id.toNat < 2 ^ 31)
    (hfresh : r.id ∉ t.liveRecords.map Record.id) :
    ∃ t', t.insertRecord r = (.OK, t') ∧ Imported t' ∧ t'.schema = t.schema ∧
      t'.liveRecords.Perm (Record.new r.id r.data :: t.liveRecords) := by
  obtain ⟨t', left, right, hinsert, h', hschema, hbefore, hafter⟩ :=
    h.receptive.insertRecord hvalid hfresh
  have hperm : t'.liveRecords.Perm (Record.new r.id r.data :: t.liveRecords) := by
    rw [hafter, hbefore]
    exact List.perm_middle
  exact ⟨t', hinsert, h.stored h' hperm hsmall, hschema, hperm⟩

/-- An import of an export, entry by entry. -/
theorem importEntries_cons {r : Record} {entry : Json} (hentry : exportEntry r = .ok entry)
    (nextId : RecordID) (entries : List Json) (t : Table) :
    importEntries nextId (entry :: entries) t =
      match (Double.ofInt (toInt32 r.id.toNat)).toUInt64 with
      | .error fault => .error fault t
      | .ok id =>
        let (s, t) := t.insertRecord (Record.new id (withoutId r.data))
        if s ≠ .OK then .ok s t else importEntries (nextId + 1) entries t := by
  obtain ⟨entry', hentry', hrecord⟩ := entryRecord_exportEntry (isObject_of_exportEntry hentry)
  rw [hentry] at hentry'
  cases hentry'
  rw [importEntries, hrecord]
  cases (Double.ofInt (toInt32 r.id.toNat)).toUInt64 with
  | error fault => rfl
  | ok id =>
    have hrecord' : Except.map (fun id => Record.new id (withoutId r.data))
        (Except.ok id : Except Fault UInt64) = .ok (Record.new id (withoutId r.data)) := rfl
    rw [lift_bind_of_ok hrecord', modifyGet_bind]
    dsimp only
    split
    · rfl
    · rfl

omit [InsertPolicy] in
/-- Exporting records one after the other. -/
private theorem mapM_exportEntry_cons {r : Record} {records : List Record} {entries : List Json}
    (h : (r :: records).mapM exportEntry = .ok entries) :
    ∃ entry rest, exportEntry r = .ok entry ∧ records.mapM exportEntry = .ok rest ∧
      entries = entry :: rest := by
  rw [List.mapM_cons] at h
  cases hentry : exportEntry r with
  | error fault =>
    rw [hentry] at h
    cases h
  | ok entry =>
    rw [hentry] at h
    cases hrest : records.mapM exportEntry with
    | error fault =>
      rw [hrest] at h
      cases h
    | ok rest =>
      rw [hrest] at h
      cases h
      exact ⟨entry, rest, rfl, rfl, rfl⟩

/-- What an import that succeeds has read: every identifier was small when it was inserted
and every record valid. -/
theorem imported_of_importEntries {records : List Record} {entries : List Json}
    (hentries : records.mapM exportEntry = .ok entries) {nextId : RecordID} {t t' : Table}
    (h : Imported t) (himport : importEntries nextId entries t = .ok .OK t') :
    Imported t' ∧ ∀ r ∈ records,
      (Record.new r.id (withoutId r.data)).validate t.schema = .OK := by
  induction records generalizing entries nextId t with
  | nil =>
    cases hentries
    cases himport
    exact ⟨h, fun _ hmem => absurd hmem List.not_mem_nil⟩
  | cons r records ih =>
    obtain ⟨entry, rest, hentry, hrest, rfl⟩ := mapM_exportEntry_cons hentries
    rw [importEntries_cons hentry] at himport
    cases hid : (Double.ofInt (toInt32 r.id.toNat)).toUInt64 with
    | error fault =>
      rw [hid] at himport
      cases himport
    | ok id =>
      rw [hid] at himport
      dsimp only at himport
      have hvalidity := @Record.validate_congr (Record.new id (withoutId r.data))
        (Record.new r.id (withoutId r.data)) rfl t.schema
      rcases h.receptive.insertRecord_cases (Record.new id (withoutId r.data)) with
        ⟨s, hs, hinsert⟩ | ⟨hvalid, t₁, hinsert, h₁, hschema, _, hperm⟩
      · rw [hinsert, if_pos hs] at himport
        injection himport with hstatus
        exact absurd hstatus hs
      · rw [hinsert, if_neg (not_not.mpr rfl)] at himport
        obtain ⟨h', hrecords⟩ := ih hrest (h.stored h₁ hperm (lt_of_toUInt64_toInt32 hid)) himport
        rw [hschema] at hrecords
        exact ⟨h', List.forall_mem_cons.mpr ⟨hvalidity ▸ hvalid, hrecords⟩⟩

/-- What is stored of a record that is exported and imported. -/
def stored (r : Record) : Record := Record.new r.id (withoutId r.data)

/-- Importing the entries of valid records with small, fresh and distinct identifiers adds
these records, without the member `id`. -/
theorem importEntries_of_small {records : List Record}
    (hobject : ∀ r ∈ records, r.data.isObject = true)
    (hsmall : ∀ r ∈ records, r.id.toNat < 2 ^ 31) (hnodup : (records.map Record.id).Nodup)
    {t : Table} (hfresh : ∀ r ∈ records, r.id ∉ t.liveRecords.map Record.id)
    (hvalid : ∀ r ∈ records, (Record.new r.id (withoutId r.data)).validate t.schema = .OK)
    (h : Imported t) (nextId : RecordID) :
    ∃ entries t', records.mapM exportEntry = .ok entries ∧
      importEntries nextId entries t = .ok .OK t' ∧ Imported t' ∧
      t'.liveRecords.Perm (records.map stored ++ t.liveRecords) := by
  induction records generalizing t nextId with
  | nil => exact ⟨[], t, rfl, rfl, h, List.Perm.refl _⟩
  | cons r records ih =>
    rw [List.forall_mem_cons] at hobject hsmall hfresh hvalid
    rw [List.map_cons, List.nodup_cons] at hnodup
    obtain ⟨entry, hentry, _⟩ := entryRecord_exportEntry hobject.1
    obtain ⟨t₁, hinsert, h₁, hschema, hperm⟩ :=
      @Imported.insertRecord _ t h (Record.new r.id (withoutId r.data)) hvalid.1 hsmall.1 hfresh.1
    have hfresh₁ : ∀ other ∈ records, other.id ∉ t₁.liveRecords.map Record.id := by
      intro other hother hmem
      rcases List.mem_cons.mp ((hperm.map Record.id).mem_iff.mp hmem) with heq | hold
      · exact hnodup.1 (List.mem_map.mpr ⟨other, hother, heq⟩)
      · exact hfresh.2 other hother hold
    obtain ⟨entries, t', hentries, himport, h', hperm'⟩ :=
      ih hobject.2 hsmall.2 hnodup.2 hfresh₁ (hschema ▸ hvalid.2) h₁ (nextId + 1)
    refine ⟨entry :: entries, t', ?_, ?_, h', ?_⟩
    · rw [List.mapM_cons, hentry, hentries]
      rfl
    · rw [importEntries_cons hentry, toUInt64_toInt32_iff.mpr hsmall.1]
      dsimp only
      rw [hinsert, if_neg (not_not.mpr rfl)]
      exact himport
    · have hmiddle : (records.map stored ++ stored r :: t.liveRecords).Perm
          (stored r :: (records.map stored ++ t.liveRecords)) := List.perm_middle
      exact hperm'.trans ((hperm.append_left _).trans hmiddle)

omit [InsertPolicy] in
/-- An import may start from any empty table. -/
theorem imported_of_empty {t : Table} (h : t.Consistent) (hempty : t.liveRecords = []) :
    Imported t where
  receptive := h.receptive
  small := by
    rw [hempty]
    exact fun _ hmem => absurd hmem List.not_mem_nil

end MiniDB.Engine
