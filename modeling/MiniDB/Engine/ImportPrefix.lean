import MiniDB.Engine.ImportIds

/-!
# What an import leaves behind

An import stops at the first record that the table rejects and returns the status of this
insertion. The records before it stay stored, and nothing else about the table changes.
-/

namespace MiniDB.Engine

open MiniDB.Common MiniDB.JsonPro MiniDB.Core Refinement

section Importing

variable [InsertPolicy]

/-- A table into which records are inserted one after the other. -/
def insertAll (t : Table) (records : List Record) : Table :=
  records.foldl (fun t r => (t.insertRecord r).2) t

/-- The first record is inserted before the others. -/
theorem insertAll_cons (t : Table) (r : Record) (records : List Record) :
    insertAll t (r :: records) = insertAll (t.insertRecord r).2 records := rfl

/-- A table accepts the first records of a list one after the other, and rejects the one
behind them, if there is one, with a status. -/
structure AcceptsPrefix (t : Table) (records : List Record) (count : ℕ) (s : Status) : Prop where
  /-- There are so many records. -/
  bound : count ≤ records.length
  /-- Each of the first records is accepted behind those before it. -/
  accepted : ∀ i r, i < count → records[i]? = some r →
    ((insertAll t (records.take i)).insertRecord r).1 = .OK
  /-- The status is that of the record behind them. -/
  rejected : ∀ r, records[count]? = some r →
    s ≠ .OK ∧ ((insertAll t (records.take count)).insertRecord r).1 = s
  /-- Without a record behind them all is well. -/
  finished : count = records.length → s = .OK

/-- Records behind one that is accepted. -/
theorem AcceptsPrefix.cons {t t' : Table} {r : Record} {records : List Record} {count : ℕ}
    {s : Status} (hinsert : t.insertRecord r = (.OK, t'))
    (h : AcceptsPrefix t' records count s) : AcceptsPrefix t (r :: records) (count + 1) s where
  bound := Nat.succ_le_succ h.bound
  accepted i other hi hother := by
    cases i with
    | zero =>
      cases hother
      exact congrArg Prod.fst hinsert
    | succ i =>
      rw [List.take_succ_cons, insertAll_cons, hinsert]
      exact h.accepted i other (by omega) hother
  rejected other hother := by
    rw [List.take_succ_cons, insertAll_cons, hinsert]
    exact h.rejected other hother
  finished hcount := h.finished (Nat.succ.inj hcount)

/-- A first record that is rejected ends everything. -/
theorem AcceptsPrefix.stop {t t' : Table} {r : Record} (records : List Record) {s : Status}
    (hs : s ≠ .OK) (hinsert : t.insertRecord r = (s, t')) :
    AcceptsPrefix t (r :: records) 0 s where
  bound := Nat.zero_le _
  accepted i _ hi := absurd hi (Nat.not_lt_zero i)
  rejected other hother := by
    cases hother
    exact ⟨hs, congrArg Prod.fst hinsert⟩
  finished hcount := absurd hcount (Nat.zero_ne_add_one _)

/-- Without records all is well. -/
theorem AcceptsPrefix.nil (t : Table) : AcceptsPrefix t [] 0 .OK where
  bound := Nat.le_refl 0
  accepted i _ hi := absurd hi (Nat.not_lt_zero i)
  rejected _ hnone := by cases hnone
  finished _ := rfl

/-- An import into a receptive table stores the records before the first that is rejected. -/
theorem importEntries_prefix {t : Table} (h : t.Receptive) (position : ℕ) {entries : List Json}
    (hwhole : IdsBelow UInt64.size entries) :
    ∃ count s, AcceptsPrefix t (importedRecords position entries) count s ∧
      ∃ t', importEntries (UInt64.ofNat position) entries t = .ok s t' ∧
        t' = insertAll t ((importedRecords position entries).take count) ∧
        t.liveRecords.Sublist t'.liveRecords ∧
        t'.liveRecords.Perm ((importedRecords position entries).take count ++ t.liveRecords) := by
  induction entries generalizing position t with
  | nil => exact ⟨0, .OK, .nil t, t, rfl, rfl, List.Sublist.refl _, List.Perm.refl _⟩
  | cons entry entries ih =>
    rw [IdsBelow, List.forall_mem_cons] at hwhole
    rw [importedRecords_cons, importEntries_step, entryRecord_eq hwhole.1]
    dsimp only
    generalize hrecord : Record.new (assignedId position entry) (storedData entry) = r
    rcases h.insertRecord_cases r with
      ⟨s, hs, hinsert⟩ | ⟨_, t₁, hinsert, h₁, _, hsublist, hperm⟩
    · refine ⟨0, s, .stop _ hs hinsert, t, ?_, rfl, List.Sublist.refl _, List.Perm.refl _⟩
      rw [hinsert, if_pos hs]
    · obtain ⟨count, s, haccepts, t', himport, rfl, hkept, hstored⟩ := ih h₁ (position + 1) hwhole.2
      have htable : insertAll t (r :: (importedRecords (position + 1) entries).take count) =
          insertAll t₁ ((importedRecords (position + 1) entries).take count) := by
        rw [insertAll_cons, hinsert]
      refine ⟨count + 1, s, haccepts.cons hinsert, _, ?_, htable.symm, hsublist.trans hkept, ?_⟩
      · have hnext : UInt64.ofNat position + 1 = UInt64.ofNat (position + 1) := by simp
        rw [hinsert, if_neg (not_not.mpr rfl), hnext]
        exact himport
      · have hplain : Record.new r.id r.data = r := by rw [← hrecord]; rfl
        rw [hplain] at hperm
        exact hstored.trans ((hperm.append_left _).trans List.perm_middle)

/-- What importing an array into a table comes to: the records of the entries before the first
that is rejected are stored beside the live ones, and the status is that of this rejection. -/
def ImportsPrefix (entries : List Json) (t : Table) : Prop :=
  ∃ count s, AcceptsPrefix t (importedRecords 0 entries) count s ∧
    ∃ t', importTable (.array entries) t = .ok s t' ∧
      t' = insertAll t ((importedRecords 0 entries).take count) ∧
      t.liveRecords.Sublist t'.liveRecords ∧
      t'.liveRecords.Perm ((importedRecords 0 entries).take count ++ t.liveRecords)

/-- An import of an array whose numbers under `id` are whole and at most `2 ^ 53` stores exactly
the records of the entries before the first that the table rejects. -/
theorem importTable_prefix {name : String} {id : TableID} {schema : List ColumnDef}
    {calls : List TableCall} {responses : List TableResponse} {t : Table}
    (hrun : run Table.call (Table.new name id schema) calls = .ok (responses, t))
    {entries : List Json} (hids : IdsBelow (2 ^ 53 + 1) entries) : ImportsPrefix entries t :=
  importEntries_prefix (Table.receptive_of_run hrun) 0 (hids.mono (by decide))

end Importing

/-- The second of three entries has the number of a stored record. -/
theorem importTable_prefix_duplicate :
    letI : InsertPolicy := ⟨true⟩
    ImportsPrefix [Json.emptyObject, .object [("id", .number (.finite (7 : ℕ)))], Json.emptyObject]
      ((Table.new "people" 0 []).insertRecord (Record.new 7 Json.emptyObject)).2 := by
  let _ : InsertPolicy := ⟨true⟩
  have hrun : run Table.call (Table.new "people" 0 [])
      [.insertRecord (Record.new 7 Json.emptyObject)] = .ok ([.status .OK],
        ((Table.new "people" 0 []).insertRecord (Record.new 7 Json.emptyObject)).2) := rfl
  apply importTable_prefix hrun
  intro entry hentry value hnumber
  simp only [List.mem_cons, List.not_mem_nil, or_false] at hentry
  rcases hentry with rfl | rfl | rfl
  · cases hnumber
  · exact ⟨7, by decide, (Option.some.inj hnumber).symm⟩
  · cases hnumber

end MiniDB.Engine
