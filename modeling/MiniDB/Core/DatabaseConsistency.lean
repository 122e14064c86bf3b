import MiniDB.Core.DatabaseLoading
import MiniDB.Core.TableRefinement
import MiniDB.Core.RoundTrip

/-!
# Consistency of a database

The pointers, the two indices and the counter of a database agree on its tables. Creating
and dropping tables and calls on tables keep them in agreement as long as identifiers stay
below `2 ^ 31`.
-/

namespace MiniDB.Core

open MiniDB.Common MiniDB.JsonPro Memory

namespace Database

/-- A table with its address. -/
abbrev Entry := Address × Table

/-- A row of tables with the table at one address replaced. -/
def replaced (entries : List Entry) (address : Address) (t : Table) : List Entry :=
  entries.map fun entry => if entry.1 = address then (address, t) else entry

/-- A table of the row was there before or replaces the one at its address. -/
theorem mem_replaced {entries : List Entry} {address : Address} {t : Table} {entry : Entry}
    (h : entry ∈ replaced entries address t) :
    entry = (address, t) ∨ entry ∈ entries ∧ entry.1 ≠ address := by
  obtain ⟨old, hold, heq⟩ := List.mem_map.mp h
  split at heq
  · exact Or.inl heq.symm
  · rename_i hne
    subst heq
    exact Or.inr ⟨hold, hne⟩

section Replacing

variable {entries : List Entry} {address : Address} {t t' : Table}

/-- A replaced table is there with its new content. -/
theorem mem_replaced_self (hentry : (address, t) ∈ entries) :
    (address, t') ∈ replaced entries address t' :=
  List.mem_map.mpr ⟨_, hentry, if_pos rfl⟩

/-- The tables at other addresses stay. -/
theorem mem_replaced_of_ne {entry : Entry} (hentry : entry ∈ entries) (hne : entry.1 ≠ address) :
    entry ∈ replaced entries address t :=
  List.mem_map.mpr ⟨entry, hentry, if_neg hne⟩

/-- Replacing a table keeps what the new table has in common with the old one. -/
theorem key_replaced {κ : Type} (key : Entry → κ) (hnodup : (entries.map Prod.fst).Nodup)
    (hentry : (address, t) ∈ entries) (hsame : key (address, t') = key (address, t))
    {entry : Entry} (hmem : entry ∈ entries) :
    key (if entry.1 = address then (address, t') else entry) = key entry := by
  split
  · rename_i haddress
    rw [List.inj_on_of_nodup_map hnodup hmem hentry haddress, hsame]
  · rfl

/-- What a row is mapped to is kept if the new table has it in common with the old one. -/
theorem map_replaced {κ : Type} (key : Entry → κ) (hnodup : (entries.map Prod.fst).Nodup)
    (hentry : (address, t) ∈ entries) (hsame : key (address, t') = key (address, t)) :
    (replaced entries address t').map key = entries.map key := by
  unfold replaced
  rw [List.map_map]
  exact List.map_congr_left fun _ hmem => key_replaced key hnodup hentry hsame hmem

/-- Replacing a table keeps its address. -/
theorem fst_replaced (entry : Entry) :
    (if entry.1 = address then (address, t) else entry).1 = entry.1 := by
  split
  · rename_i haddress
    exact haddress.symm
  · rfl

/-- Replacing a table keeps the addresses. -/
theorem map_fst_replaced : (replaced entries address t).map Prod.fst = entries.map Prod.fst := by
  unfold replaced
  rw [List.map_map]
  exact List.map_congr_left fun entry _ => fst_replaced entry

/-- A table that is written to its address is found there, and the others stay. -/
theorem get?_put_replaced {heap : Heap Table}
    (hheap : ∀ entry ∈ entries, heap.get? entry.1 = some entry.2) (hlt : address < heap.next)
    {entry : Entry} (hmem : entry ∈ replaced entries address t) :
    (heap.put address hlt (some t)).get? entry.1 = some entry.2 := by
  rw [Heap.get?_put]
  rcases mem_replaced hmem with rfl | ⟨hold, hne⟩
  · exact if_pos rfl
  · rw [if_neg hne]
    exact hheap entry hold

end Replacing

/-- All identifiers of the tables are below `2 ^ 31`. -/
def SmallIds (db : Database) : Prop :=
  ∀ address ∈ db.tables, ∀ t, db.heap.get? address = some t → t.SmallIds

instance (db : Database) : Decidable db.SmallIds :=
  inferInstanceAs (Decidable (∀ address ∈ db.tables, ∀ t ∈ db.heap.get? address, t.SmallIds))

/-- The pointers and the indices of a database agree on its tables, whatever these hold and
whatever the counter says. -/
structure Wired (db : Database) (entries : List Entry) : Prop where
  /-- The tables are held in order. -/
  tables : db.tables = entries.map Prod.fst
  /-- No table is held twice. -/
  nodup : (entries.map Prod.fst).Nodup
  /-- The tables are alive. -/
  heap : ∀ {address t}, (address, t) ∈ entries → db.heap.get? address = some t
  /-- Names are distinct. -/
  names : (entries.map fun entry => entry.2.name).Nodup
  /-- Identifiers are distinct. -/
  ids : (entries.map fun entry => entry.2.id).Nodup
  /-- The name index resolves exactly the names of tables. -/
  index : db.index.Indexes (fun entry : Entry => entry.2.name) (fun entry => entry.2.id) entries
  /-- The identifier index resolves exactly the identifiers of tables. -/
  tableIndex : db.tableIndex.Indexes (fun entry : Entry => entry.2.id) Prod.fst entries
  /-- There are not too many tables. -/
  length_le : entries.length ≤ DBConstants.MAX_TABLES

/-- The counter agrees as well. -/
structure Linked (db : Database) (entries : List Entry) : Prop
    extends wired : db.Wired entries where
  /-- Identifiers are below the counter. -/
  fresh : ∀ {entry}, entry ∈ entries → entry.2.id.toNat < db.nextTableId.toNat

/-- The tables are consistent as well. -/
structure Consistent (db : Database) (entries : List Entry) : Prop
    extends linked : db.Linked entries where
  /-- Each table is consistent. -/
  consistent : ∀ {entry}, entry ∈ entries → entry.2.Consistent

/-- Dropping a table whose name is not in the index does nothing. -/
theorem dropTable_of_none {db : Database} {name : String} (h : db.index.get? name = none) :
    dropTable name db = .ok .TABLE_NOT_FOUND db := by
  unfold dropTable
  rw [get_bind, h]
  rfl

/-- Dropping a table removes the tables with the identifier under its name. -/
theorem dropTable_of_some {db : Database} {name : String} {tid : TableID}
    (h : db.index.get? name = some tid) :
    dropTable name db = (removeTables tid db.tables >>= fun tables => do
      modify fun db => { db with
        tables := tables
        index := db.index.erase name
        tableIndex := db.tableIndex.erase tid
        dirty := true }
      return .OK) db := by
  unfold dropTable
  rw [get_bind, h]
  rfl

namespace Wired

variable {db : Database} {entries : List Entry}

/-- The tables of a wired database are alive and distinct. -/
theorem owned (h : db.Wired entries) : db.Owned where
  nodup := h.tables ▸ h.nodup
  alive := by
    intro address haddress
    rw [h.tables] at haddress
    obtain ⟨⟨_, t⟩, hentry, rfl⟩ := List.mem_map.mp haddress
    exact ⟨t, h.heap hentry⟩

/-- What holds of the tables at the pointers holds of the tables. -/
theorem forall_tables_iff (h : db.Wired entries) {P : Table → Prop} :
    (∀ address ∈ db.tables, ∀ t, db.heap.get? address = some t → P t) ↔
      ∀ entry ∈ entries, P entry.2 := by
  rw [h.tables]
  constructor
  · rintro hall ⟨address, t⟩ hentry
    exact hall address (List.mem_map_of_mem hentry) t (h.heap hentry)
  · intro hall address haddress t ht
    obtain ⟨⟨_, t'⟩, hentry, rfl⟩ := List.mem_map.mp haddress
    rw [h.heap hentry] at ht
    cases ht
    exact hall _ hentry

/-- A table is found under its name. -/
theorem getTable (h : db.Wired entries) {name : String} :
    (db.getTable name = none ∧ ∀ entry ∈ entries, entry.2.name ≠ name) ∨
    ∃ entry ∈ entries, entry.2.name = name ∧ db.getTable name = some entry.1 := by
  unfold Database.getTable
  cases hindex : db.index.get? name with
  | none =>
    left
    exact ⟨rfl, h.index.get?_eq_none.mp hindex⟩
  | some tid =>
    right
    obtain ⟨entry, hentry, hname, hid⟩ := (h.index name tid).mp hindex
    exact ⟨entry, hentry, hname, (h.tableIndex tid entry.1).mpr ⟨entry, hentry, hid, rfl⟩⟩

/-- The table under the name of a table is that table. -/
theorem getTable_of_mem (h : db.Wired entries) {entry : Entry} (hentry : entry ∈ entries) :
    db.getTable entry.2.name = some entry.1 := by
  rcases @Wired.getTable _ _ h entry.2.name with ⟨_, hnone⟩ | ⟨found, hfound, heq, hget⟩
  · exact absurd rfl (hnone entry hentry)
  · rw [hget, List.inj_on_of_nodup_map h.names hfound hentry heq]

/-- The name of a table is known. -/
theorem hasTable_of_mem (h : db.Wired entries) {entry : Entry} (hentry : entry ∈ entries) :
    db.hasTable entry.2.name = true := by
  have hindex := (h.index entry.2.name entry.2.id).mpr ⟨entry, hentry, rfl, rfl⟩
  unfold hasTable FiniteMap.contains
  rw [hindex]
  rfl

/-- A name without a table. -/
theorem hasTable_eq_false (h : db.Wired entries) {name : String}
    (hname : db.hasTable name = false) : ∀ entry ∈ entries, entry.2.name ≠ name := by
  apply h.index.get?_eq_none.mp
  unfold hasTable FiniteMap.contains at hname
  exact Option.isSome_eq_false_iff.mp hname |> Option.isNone_iff_eq_none.mp

/-- A name with a table. -/
theorem exists_of_hasTable (h : db.Wired entries) {name : String}
    (hname : db.hasTable name = true) : ∃ entry ∈ entries, entry.2.name = name := by
  by_contra hnot
  have hnone := h.index.get?_eq_none.mpr fun entry hentry heq => hnot ⟨entry, hentry, heq⟩
  unfold hasTable FiniteMap.contains at hname
  rw [hnone] at hname
  cases hname

/-- Creating a table fails if there are too many or the name has one, and then changes
nothing; otherwise it puts an empty table behind the others. -/
theorem createTable [InsertPolicy] (h : db.Wired entries) (name : String)
    (schema : List ColumnDef) :
    (DBConstants.MAX_TABLES ≤ entries.length ∧
      db.createTable name schema = (.OUT_OF_MEMORY, db)) ∨
    (entries.length < DBConstants.MAX_TABLES ∧ (∃ entry ∈ entries, entry.2.name = name) ∧
      db.createTable name schema = (.TABLE_ALREADY_EXISTS, db)) ∨
    (entries.length < DBConstants.MAX_TABLES ∧ (∀ entry ∈ entries, entry.2.name ≠ name) ∧
      ∃ db', db.createTable name schema = (.OK, db') ∧
        db'.tables = db.tables ++ [db.heap.next] ∧
        db'.heap = db.heap.alloc (Table.new name db.nextTableId schema) ∧
        db'.nextTableId = db.nextTableId + 1 ∧
        ((∀ entry ∈ entries, entry.2.id ≠ db.nextTableId) →
          db'.Wired (entries ++ [(db.heap.next, Table.new name db.nextTableId schema)]))) := by
  have hcount : db.tables.length = entries.length := by rw [h.tables, List.length_map]
  unfold Database.createTable
  rw [hcount]
  split
  · rename_i hlength
    left
    exact ⟨hlength, rfl⟩
  · rename_i hlength
    right
    split
    · rename_i hname
      left
      exact ⟨Nat.lt_of_not_le hlength, h.exists_of_hasTable hname, rfl⟩
    · rename_i hname
      right
      refine ⟨Nat.lt_of_not_le hlength, h.hasTable_eq_false (Bool.eq_false_iff.mpr hname), _, rfl,
        rfl, rfl, rfl, fun hnotId => ?_⟩
      have hother := h.hasTable_eq_false (Bool.eq_false_iff.mpr hname)
      constructor
      · rw [h.tables, List.map_append]
        rfl
      · apply KeyedList.nodup_concat Prod.fst h.nodup
        intro entry hentry
        exact (Heap.lt_next (h.heap hentry)).ne
      · intro address t hentry
        rcases List.mem_append.mp hentry with hold | hlast
        · exact Heap.get?_alloc_of_some (h.heap hold) _
        · cases List.mem_singleton.mp hlast
          exact Heap.get?_alloc_self _ _
      · exact KeyedList.nodup_concat (fun e : Entry => e.2.name) h.names hother
      · exact KeyedList.nodup_concat (fun e : Entry => e.2.id) h.ids hnotId
      · exact @FiniteMap.Indexes.insert _ _ _ _ _ _ _ _ _ h.index
          (db.heap.next, Table.new name db.nextTableId schema) hother
      · exact @FiniteMap.Indexes.insert _ _ _ _ _ _ _ _ _ h.tableIndex
          (db.heap.next, Table.new name db.nextTableId schema) hnotId
      · rw [List.length_append, List.length_singleton]
        omega

/-- Removing the tables with an identifier deletes them and keeps the others. -/
theorem removeTables_eq (tid : TableID) {db : Database}
    (hnodup : (entries.map Prod.fst).Nodup)
    (halive : ∀ entry ∈ entries, db.heap.get? entry.1 = some entry.2) :
    ∃ heap, removeTables tid (entries.map Prod.fst) db =
        .ok ((entries.filter fun entry => entry.2.id ≠ tid).map Prod.fst) { db with heap } ∧
      (∀ entry ∈ entries, entry.2.id ≠ tid → heap.get? entry.1 = some entry.2) ∧
      (∀ other ∉ (entries.filter fun entry => entry.2.id ≠ tid).map Prod.fst,
        heap.get? other =
          if other ∈ entries.map Prod.fst then none else db.heap.get? other) ∧
      heap.next = db.heap.next := by
  induction entries generalizing db with
  | nil =>
    refine ⟨db.heap, rfl, fun _ h => absurd h List.not_mem_nil, fun other _ => ?_, rfl⟩
    exact (if_neg List.not_mem_nil).symm
  | cons first rest ih =>
    rw [List.map_cons, List.nodup_cons] at hnodup
    rw [List.forall_mem_cons] at halive
    rw [List.map_cons, removeTables]
    change ∃ heap, ((liftM (db.heap.read first.1) : EStateM Fault Database Table) >>= _) db = _ ∧ _
    rw [lift_bind_of_ok (Heap.read_eq_ok.mpr halive.1)]
    unfold Table.getID
    have hsub := (List.filter_sublist (p := fun entry : Entry => entry.2.id ≠ tid)
      (l := rest)).map Prod.fst
    by_cases hid : first.2.id = tid
    · obtain ⟨heap, hremove, hkept, hother, hnext⟩ := @ih
        { db with heap := db.heap.put first.1 (Heap.lt_next halive.1) none } hnodup.2 (by
          intro entry hentry
          rw [Heap.get?_put, if_neg]
          · exact halive.2 entry hentry
          · intro heq
            exact hnodup.1 (heq ▸ List.mem_map_of_mem hentry))
      rw [List.filter_cons_of_neg (by simpa using hid)]
      refine ⟨heap, ?_, ?_, ?_, hnext⟩
      · rw [if_pos hid, bind_of_ok (deleteTable_of_some halive.1), hremove]
      · rw [List.forall_mem_cons]
        exact ⟨fun hne => absurd hid hne, hkept⟩
      · intro other hnot
        rw [hother other hnot, Heap.get?_put]
        by_cases hsame : other = first.1
        · rw [hsame, if_neg hnodup.1, if_pos rfl, if_pos List.mem_cons_self]
        · rw [if_neg hsame]
          simp only [List.mem_cons, hsame, false_or]
    · obtain ⟨heap, hremove, hkept, hother, hnext⟩ := @ih db hnodup.2 halive.2
      rw [List.filter_cons_of_pos (by simpa using hid), List.map_cons]
      refine ⟨heap, ?_, ?_, ?_, hnext⟩
      · rw [if_neg hid, bind_of_ok hremove]
        rfl
      · rw [List.forall_mem_cons]
        refine ⟨fun _ => ?_, hkept⟩
        rw [hother first.1 fun hmem => hnodup.1 (hsub.subset hmem), if_neg hnodup.1, halive.1]
      · intro other hnot
        rw [List.mem_cons, not_or] at hnot
        rw [hother other hnot.2]
        simp only [List.mem_cons, hnot.1, false_or]

/-- Dropping a name without a table changes nothing; dropping a table removes it. -/
theorem dropTable (h : db.Wired entries) (name : String) :
    (Database.dropTable name db = .ok .TABLE_NOT_FOUND db ∧
      ∀ entry ∈ entries, entry.2.name ≠ name) ∨
    ∃ db', Database.dropTable name db = .ok .OK db' ∧
      db'.Wired (entries.filter fun entry => entry.2.name ≠ name) ∧
      db'.nextTableId = db.nextTableId ∧ ∃ entry ∈ entries, entry.2.name = name := by
  cases hindex : db.index.get? name with
  | none =>
    left
    exact ⟨dropTable_of_none hindex, h.index.get?_eq_none.mp hindex⟩
  | some tid =>
    right
    obtain ⟨entry, hentry, hname, hid⟩ := (h.index name tid).mp hindex
    obtain ⟨heap, hremove, hkept, _⟩ := removeTables_eq tid h.nodup fun other hother =>
      h.heap hother
    have hsame : ∀ other ∈ entries, other.2.id = tid ↔ other.2.name = name := by
      intro other hother
      constructor
      · intro heq
        have hothereq : other = entry :=
          List.inj_on_of_nodup_map h.ids hother hentry (heq.trans hid.symm)
        rw [hothereq]
        exact hname
      · intro heq
        have hothereq : other = entry :=
          List.inj_on_of_nodup_map h.names hother hentry (heq.trans hname.symm)
        rw [hothereq]
        exact hid
    have hfilter : (entries.filter fun other => other.2.id ≠ tid) =
        entries.filter fun other => other.2.name ≠ name := by
      apply List.filter_congr
      intro other hother
      simp only [ne_eq, hsame other hother]
    have hsub := List.filter_sublist (p := fun other : Entry => other.2.id ≠ tid) (l := entries)
    refine ⟨{ db with
      tables := (entries.filter fun other => other.2.id ≠ tid).map Prod.fst
      index := db.index.erase name
      tableIndex := db.tableIndex.erase tid
      dirty := true
      heap := heap }, ?_, hfilter ▸ ?_, rfl, entry, hentry, hname⟩
    · rw [dropTable_of_some hindex, h.tables, bind_of_ok hremove]
      rfl
    · constructor
      · rfl
      · exact h.nodup.sublist (hsub.map Prod.fst)
      · intro address t hmem
        obtain ⟨hmem, hne⟩ := List.mem_filter.mp hmem
        exact hkept (address, t) hmem (of_decide_eq_true hne)
      · exact h.names.sublist (hsub.map _)
      · exact h.ids.sublist (hsub.map _)
      · rw [hfilter]
        exact h.index.erase name
      · exact h.tableIndex.erase tid
      · exact le_trans hsub.length_le h.length_le

/-- Replacing a table by a later state of it. -/
theorem write (h : db.Wired entries) {entry : Entry} (hentry : entry ∈ entries) {t : Table}
    (hgrows : entry.2.Grows t) :
    ∃ heap, db.heap.write entry.1 t = .ok heap ∧
      Wired { db with heap := heap } (replaced entries entry.1 t) := by
  obtain ⟨address, old⟩ := entry
  refine ⟨_, Heap.write_of_some (h.heap hentry) t, ?_⟩
  constructor
  · rw [map_fst_replaced]
    exact h.tables
  · rw [map_fst_replaced]
    exact h.nodup
  · intro other t₁ hmem
    exact get?_put_replaced (fun _ hold => h.heap hold) (Heap.lt_next (h.heap hentry)) hmem
  · rw [map_replaced (fun e => e.2.name) h.nodup hentry hgrows.name]
    exact h.names
  · rw [map_replaced (fun e => e.2.id) h.nodup hentry hgrows.id]
    exact h.ids
  · exact h.index.map fun _ hmem =>
      ⟨key_replaced (fun e => e.2.name) h.nodup hentry hgrows.name hmem,
        key_replaced (fun e => e.2.id) h.nodup hentry hgrows.id hmem⟩
  · exact h.tableIndex.map fun _ hmem =>
      ⟨key_replaced (fun e => e.2.id) h.nodup hentry hgrows.id hmem,
        fst_replaced _⟩
  · exact (List.length_map _).le.trans h.length_le

end Wired

namespace Linked

variable {db : Database} {entries : List Entry}

/-- Creating a table fails if there are too many or the name has one, and then changes
nothing; otherwise it puts an empty table behind the others. -/
theorem createTable [InsertPolicy] (h : db.Linked entries) (name : String)
    (schema : List ColumnDef) :
    (DBConstants.MAX_TABLES ≤ entries.length ∧
      db.createTable name schema = (.OUT_OF_MEMORY, db)) ∨
    (entries.length < DBConstants.MAX_TABLES ∧ (∃ entry ∈ entries, entry.2.name = name) ∧
      db.createTable name schema = (.TABLE_ALREADY_EXISTS, db)) ∨
    (entries.length < DBConstants.MAX_TABLES ∧ (∀ entry ∈ entries, entry.2.name ≠ name) ∧
      ∃ db', db.createTable name schema = (.OK, db') ∧
        db'.tables = db.tables ++ [db.heap.next] ∧
        db'.heap = db.heap.alloc (Table.new name db.nextTableId schema) ∧
        db'.nextTableId = db.nextTableId + 1 ∧
        (db.nextTableId.toNat + 1 < 2 ^ 32 →
          db'.Linked (entries ++ [(db.heap.next, Table.new name db.nextTableId schema)]))) := by
  rcases h.wired.createTable name schema with hfull | htaken |
    ⟨hlength, hother, db', hcreate, htables, hheap, hcounter, hwired⟩
  · exact Or.inl hfull
  · exact Or.inr (Or.inl htaken)
  · refine Or.inr (Or.inr ⟨hlength, hother, db', hcreate, htables, hheap, hcounter, ?_⟩)
    intro hroom
    have hone : (1 : UInt32).toNat = 1 := rfl
    have hnotId : ∀ entry ∈ entries, entry.2.id ≠ db.nextTableId := by
      intro entry hentry heq
      have hlt := h.fresh hentry
      rw [heq] at hlt
      exact absurd hlt (lt_irrefl _)
    refine ⟨hwired hnotId, fun {entry} hentry => ?_⟩
    rw [hcounter, UInt32.toNat_add, hone, Nat.mod_eq_of_lt hroom]
    rcases List.mem_append.mp hentry with hold | hlast
    · exact Nat.lt_succ_of_lt (h.fresh hold)
    · rw [List.mem_singleton.mp hlast]
      exact Nat.lt_succ_self _

/-- Dropping a name without a table changes nothing; dropping a table removes it. -/
theorem dropTable (h : db.Linked entries) (name : String) :
    (Database.dropTable name db = .ok .TABLE_NOT_FOUND db ∧
      ∀ entry ∈ entries, entry.2.name ≠ name) ∨
    ∃ db', Database.dropTable name db = .ok .OK db' ∧
      db'.Linked (entries.filter fun entry => entry.2.name ≠ name) ∧
      db'.nextTableId = db.nextTableId ∧ ∃ entry ∈ entries, entry.2.name = name := by
  rcases h.wired.dropTable name with hmissing | ⟨db', hdrop, hwired, hcounter, hfound⟩
  · exact Or.inl hmissing
  · refine Or.inr ⟨db', hdrop, ⟨hwired, fun {entry} hentry => ?_⟩, hcounter, hfound⟩
    rw [hcounter]
    exact h.fresh (List.mem_filter.mp hentry).1

/-- Replacing a table by a later state of it. -/
theorem write (h : db.Linked entries) {entry : Entry} (hentry : entry ∈ entries) {t : Table}
    (hgrows : entry.2.Grows t) :
    ∃ heap, db.heap.write entry.1 t = .ok heap ∧
      Linked { db with heap := heap } (replaced entries entry.1 t) := by
  obtain ⟨heap, hwrite, hwired⟩ := h.wired.write hentry hgrows
  refine ⟨heap, hwrite, hwired, fun {other} hmem => ?_⟩
  rcases mem_replaced hmem with rfl | ⟨hold, _⟩
  · change t.id.toNat < _
    rw [hgrows.id]
    exact h.fresh hentry
  · exact h.fresh hold

end Linked

namespace Consistent

variable {db : Database} {entries : List Entry}

/-- A database without tables is consistent. -/
theorem new (name : String) : (Database.new name).Consistent [] where
  tables := rfl
  nodup := List.nodup_nil
  heap h := absurd h List.not_mem_nil
  consistent h := absurd h List.not_mem_nil
  names := List.nodup_nil
  ids := List.nodup_nil
  fresh h := absurd h List.not_mem_nil
  index := FiniteMap.indexes_empty
  tableIndex := FiniteMap.indexes_empty
  length_le := Nat.zero_le _

/-- A linked database with one more table, a consistent one, is consistent. -/
theorem concat (h : db.Consistent entries) {db' : Database} {entry : Entry}
    (hlinked : db'.Linked (entries ++ [entry])) (hentry : entry.2.Consistent) :
    db'.Consistent (entries ++ [entry]) where
  linked := hlinked
  consistent hmem := by
    rcases List.mem_append.mp hmem with hold | hlast
    · exact h.consistent hold
    · rw [List.mem_singleton.mp hlast]
      exact hentry

/-- A linked database without some of the tables is consistent. -/
theorem filter (h : db.Consistent entries) {db' : Database} {keeps : Entry → Bool}
    (hlinked : db'.Linked (entries.filter keeps)) : db'.Consistent (entries.filter keeps) :=
  ⟨hlinked, fun hmem => h.consistent (List.mem_filter.mp hmem).1⟩

/-- Small identifiers, table by table. -/
theorem smallIds_iff (h : db.Consistent entries) :
    db.SmallIds ↔ ∀ entry ∈ entries, entry.2.SmallIds := h.forall_tables_iff

end Consistent

end Database

end MiniDB.Core
