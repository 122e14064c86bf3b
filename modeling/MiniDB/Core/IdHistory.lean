import MiniDB.Core.DatabaseRoundTrip

/-!
# Table identifiers over the history of a database

Table identifiers come from a counter. While the database stays in memory the counter only
grows; a load sets it one above the largest identifier in the document. If the table with
the last identifier was dropped before, the load forgets that identifier, and the next
creation hands it out again.
-/

namespace MiniDB.Core

open MiniDB.Common MiniDB.JsonPro Memory Refinement

/-- A step in the history of a database; `reload` writes it and reads it back. -/
inductive HistoryCall
  | createTable (name : String) (schema : List ColumnDef)
  | dropTable (name : String)
  | reload

namespace Database

/-- The identifier of the table under a name. -/
def idOf (db : Database) (name : String) : Option TableID :=
  ((db.getTable name).bind db.heap.get?).map Table.getID

/-- Whether the table with the last identifier handed out still exists, or none was handed
out. -/
def HoldsLast (db : Database) : Prop :=
  db.nextTableId = 0 ∨ ∃ address ∈ db.tables, ∃ t, db.heap.get? address = some t ∧
    t.id.toNat + 1 = db.nextTableId.toNat

/-- Whether a step will create a table. -/
def Creates (db : Database) : HistoryCall → Prop
  | .createTable name _ => db.tables.length < DBConstants.MAX_TABLES ∧ db.hasTable name = false
  | _ => False

variable [InsertPolicy]

/-- One step; it reports the identifier that it gave to a new table. -/
def historyCall (db : Database) : HistoryCall → Except Fault (Option TableID × Database)
  | .createTable name schema =>
    let (s, db) := db.createTable name schema
    .ok (if s = .OK then db.idOf name else none, db)
  | .dropTable name =>
    match dropTable name db with
    | .ok _ db => .ok (none, db)
    | .error fault _ => .error fault
  | .reload => do
    let envelope ← db.toJson
    match fromJson envelope db with
    | .ok _ db => .ok (none, db)
    | .error fault _ => .error fault

/-- No table is created once a reload has met a database that lost the table with the last
identifier; `lost` says whether one did already. -/
def NeverForgets : Prop → Database → List HistoryCall → Prop
  | _, _, [] => True
  | lost, db, call :: calls => ¬(lost ∧ db.Creates call) ∧
    ∀ given db', db.historyCall call = .ok (given, db') →
      NeverForgets (lost ∨ call = .reload ∧ ¬db.HoldsLast) db' calls

/-- A consistent database of tables without pages. -/
structure Bare (db : Database) (entries : List Entry) : Prop where
  /-- The database is consistent. -/
  consistent : db.Consistent entries
  /-- No table has a page. -/
  pages : ∀ entry ∈ entries, entry.2.pages = []

namespace Bare

variable {db : Database} {entries : List Entry}

omit [InsertPolicy] in
/-- Identifiers are small as long as the counter is. -/
private theorem smallIds (h : db.Bare entries) (hcounter : db.nextTableId.toNat ≤ 2 ^ 31) :
    db.SmallIds := by
  rw [h.consistent.smallIds_iff]
  intro entry hentry
  refine ⟨lt_of_lt_of_le (h.consistent.fresh hentry) hcounter, ?_⟩
  rw [h.pages entry hentry]
  intro p hp
  cases hp

omit [InsertPolicy] in
/-- The counter above the compacted tables is at most the counter of the database, and equal to
it exactly if the table with the last identifier is there. -/
private theorem counterAbove_compacted (h : db.Bare entries)
    (hcounter : db.nextTableId.toNat ≤ 2 ^ 31) :
    (counterAbove (compactedTables entries)).toNat ≤ db.nextTableId.toNat ∧
      ((counterAbove (compactedTables entries)).toNat = db.nextTableId.toNat ↔ db.HoldsLast) := by
  have hfresh : ∀ entry ∈ entries, entry.2.id.toNat < db.nextTableId.toNat :=
    fun entry hentry => h.consistent.fresh hentry
  have hlast : db.HoldsLast ↔ db.nextTableId.toNat = 0 ∨
      ∃ entry ∈ entries, entry.2.id.toNat + 1 = db.nextTableId.toNat := by
    unfold HoldsLast
    rw [h.consistent.tables, ← UInt32.toNat_inj]
    constructor
    · rintro (hzero | ⟨address, haddress, t, ht, hid⟩)
      · left
        exact hzero
      · right
        obtain ⟨entry, hentry, rfl⟩ := List.mem_map.mp haddress
        rw [h.consistent.heap hentry] at ht
        cases ht
        exact ⟨entry, hentry, hid⟩
    · rintro (hzero | ⟨entry, hentry, hid⟩)
      · left
        exact hzero
      · right
        exact ⟨entry.1, List.mem_map_of_mem hentry, entry.2, h.consistent.heap hentry, hid⟩
  rw [hlast]
  by_cases hempty : entries = []
  · subst hempty
    have hzero : (counterAbove (compactedTables [])).toNat = 0 := rfl
    rw [hzero]
    refine ⟨Nat.zero_le _, fun heq => Or.inl heq.symm, ?_⟩
    rintro (hnone | ⟨_, hentry, _⟩)
    · exact hnone.symm
    · cases hentry
  · have hne : compactedTables entries ≠ [] := by
      rwa [ne_eq, List.map_eq_nil_iff]
    have hsmall : ∀ t ∈ compactedTables entries, t.id.toNat < 2 ^ 31 := by
      intro t ht
      obtain ⟨entry, hentry, rfl⟩ := List.mem_map.mp ht
      rw [Table.compact_id]
      exact lt_of_lt_of_le (hfresh entry hentry) hcounter
    obtain ⟨t, ht, habove, hlargest⟩ := counterAbove_spec hne hsmall
    obtain ⟨entry, hentry, rfl⟩ := List.mem_map.mp ht
    rw [Table.compact_id] at habove hlargest
    have hle := hfresh entry hentry
    rw [habove]
    refine ⟨hle, fun heq => Or.inr ⟨entry, hentry, heq⟩, ?_⟩
    rintro (hzero | ⟨other, hother, heq⟩)
    · omega
    · have hother' := hlargest _ (List.mem_map_of_mem (f := fun entry => entry.2.compact.2) hother)
      rw [Table.compact_id] at hother'
      omega

/-- A reload leaves a database of tables without pages whose counter is the same exactly if the
table with the last identifier was there, and smaller otherwise. -/
private theorem reload (h : db.Bare entries) (hcounter : db.nextTableId.toNat ≤ 2 ^ 31) :
    ∃ db' entries', db.historyCall .reload = .ok (none, db') ∧ db'.Bare entries' ∧
      db'.nextTableId.toNat ≤ db.nextTableId.toNat ∧
      (db'.nextTableId.toNat = db.nextTableId.toNat ↔ db.HoldsLast) := by
  have hsmall := h.smallIds hcounter
  obtain ⟨envelope, heap, hwrite, hload, hheap, _⟩ :=
    h.consistent.fromJson_written hsmall h.consistent.owned
  have hreloaded := h.consistent.reloaded hsmall hheap
  refine ⟨_, _, ?_, ⟨h.consistent.reload hsmall hheap, ?_⟩, ?_⟩
  · unfold historyCall
    dsimp only
    rw [hwrite]
    change (match fromJson envelope db with | .ok _ db => _ | .error fault _ => _) = _
    rw [hload]
  · intro entry hentry
    have hmem := List.mem_map_of_mem (f := Prod.snd) hentry
    rw [Heap.map_snd_allocated] at hmem
    obtain ⟨original, horiginal, heq⟩ := List.mem_map.mp hmem
    rw [← heq, Table.compact_eq]
    dsimp only
    rw [h.pages original horiginal]
    rfl
  · exact h.counterAbove_compacted hcounter

/-- Creating a table fails and changes nothing, or gives the counter to an empty table and
counts on. -/
private theorem createTable (h : db.Bare entries) (name : String) (schema : List ColumnDef)
    (hcounter : db.nextTableId.toNat < 2 ^ 31) :
    (¬db.Creates (.createTable name schema) ∧
      db.historyCall (.createTable name schema) = .ok (none, db)) ∨
    (db.Creates (.createTable name schema) ∧ ∃ db' entries',
      db.historyCall (.createTable name schema) = .ok (some db.nextTableId, db') ∧
      db'.Bare entries' ∧ db'.nextTableId.toNat = db.nextTableId.toNat + 1) := by
  have hcount : db.tables.length = entries.length := by
    rw [h.consistent.tables, List.length_map]
  unfold historyCall Creates
  dsimp only
  rw [hcount]
  rcases h.consistent.linked.createTable name schema with ⟨hlength, hfail⟩ |
    ⟨_, hname, hfail⟩ | ⟨hlength, hname, db', hcreate, _, hheap, hnext, hlinked⟩
  · left
    rw [hfail]
    exact ⟨fun hcreates => absurd hcreates.1 (Nat.not_lt.mpr hlength), rfl⟩
  · left
    rw [hfail]
    refine ⟨fun hcreates => ?_, rfl⟩
    obtain ⟨entry, hentry, heq⟩ := hname
    exact h.consistent.linked.wired.hasTable_eq_false hcreates.2 entry hentry heq
  · right
    have hone : (1 : UInt32).toNat = 1 := rfl
    have hroom : db.nextTableId.toNat + 1 < 2 ^ 32 := by omega
    have h' := hlinked hroom
    have hnew : (db.heap.next, Table.new name db.nextTableId schema) ∈
        entries ++ [(db.heap.next, Table.new name db.nextTableId schema)] :=
      List.mem_append_right _ (List.mem_singleton_self _)
    have hid : db'.idOf name = some db.nextTableId := by
      unfold idOf Database.getTable
      rw [(h'.index name db.nextTableId).mpr ⟨_, hnew, rfl, rfl⟩]
      dsimp only
      rw [(h'.tableIndex db.nextTableId db.heap.next).mpr ⟨_, hnew, rfl, rfl⟩, Option.bind_some,
        h'.heap hnew]
      rfl
    refine ⟨⟨hlength, ?_⟩, db', _, ?_,
      ⟨h.consistent.concat h' (Table.Consistent.new _ _ _), ?_⟩, ?_⟩
    · rw [Bool.eq_false_iff]
      intro hhas
      obtain ⟨entry, hentry, heq⟩ := h.consistent.linked.wired.exists_of_hasTable hhas
      exact hname entry hentry heq
    · rw [hcreate]
      dsimp only
      rw [if_pos rfl, hid]
    · rw [List.forall_mem_append, List.forall_mem_singleton]
      exact ⟨h.pages, rfl⟩
    · rw [hnext, UInt32.toNat_add, hone]
      exact Nat.mod_eq_of_lt hroom

/-- Dropping a table leaves the counter alone. -/
private theorem dropTable (h : db.Bare entries) (name : String) :
    ∃ db' entries', db.historyCall (.dropTable name) = .ok (none, db') ∧ db'.Bare entries' ∧
      db'.nextTableId = db.nextTableId := by
  unfold historyCall
  dsimp only
  rcases h.consistent.linked.dropTable name with ⟨hdrop, _⟩ | ⟨db', hdrop, hlinked, hnext, _⟩
  · rw [hdrop]
    exact ⟨db, entries, rfl, h, rfl⟩
  · rw [hdrop]
    refine ⟨db', _, rfl, ⟨h.consistent.filter hlinked, fun entry hentry => ?_⟩, hnext⟩
    exact h.pages entry (List.mem_filter.mp hentry).1

/-- The condition on a history, for a step that does not fault. -/
private theorem neverForgets_cons {lost : Prop} {db₁ : Database} {call : HistoryCall}
    {given : Option TableID} (hcall : db.historyCall call = .ok (given, db₁))
    (calls : List HistoryCall) :
    NeverForgets lost db (call :: calls) ↔ ¬(lost ∧ db.Creates call) ∧
      NeverForgets (lost ∨ call = .reload ∧ ¬db.HoldsLast) db₁ calls := by
  rw [NeverForgets, hcall]
  constructor
  · rintro ⟨hnot, hlater⟩
    exact ⟨hnot, hlater given db₁ rfl⟩
  · rintro ⟨hnot, hlater⟩
    refine ⟨hnot, fun given' db' heq => ?_⟩
    cases heq
    exact hlater

omit [InsertPolicy] in
/-- An identifier below `n` is among those below `n`. -/
private theorem mem_of_lt {past : List TableID} {n : ℕ}
    (hpast : past.map UInt32.toNat = List.range n) {next : TableID} (hlt : next.toNat < n) :
    next ∈ past := by
  have hrange : next.toNat ∈ past.map UInt32.toNat := by
    rw [hpast]
    exact List.mem_range.mpr hlt
  obtain ⟨old, hold, heq⟩ := List.mem_map.mp hrange
  exact UInt32.toNat_inj.mp heq ▸ hold

omit [InsertPolicy] in
/-- The identifier `n` goes on behind those below `n`. -/
private theorem map_concat_next {past : List TableID} {n : ℕ}
    (hpast : past.map UInt32.toNat = List.range n) {next : TableID} (heq : next.toNat = n) :
    (past ++ [next]).map UInt32.toNat = List.range (n + 1) := by
  rw [List.map_append, hpast, List.range_succ, ← heq]
  rfl

/-- A step issues no identifier, and then only a reload without the last table moves the counter
back, or it issues the counter and counts on. -/
private theorem step (h : db.Bare entries) (hcounter : db.nextTableId.toNat < 2 ^ 31)
    {call : HistoryCall} {given : Option TableID} {db₁ : Database}
    (hcall : db.historyCall call = .ok (given, db₁)) :
    ∃ entries₁, db₁.Bare entries₁ ∧
      ((given = none ∧ ¬db.Creates call ∧ db₁.nextTableId.toNat ≤ db.nextTableId.toNat ∧
          (call = .reload ∧ ¬db.HoldsLast ↔
            db₁.nextTableId.toNat < db.nextTableId.toNat)) ∨
        (given = some db.nextTableId ∧ db.Creates call ∧ call ≠ .reload ∧
          db₁.nextTableId.toNat = db.nextTableId.toNat + 1)) := by
  cases call with
  | createTable name schema =>
    rcases h.createTable name schema hcounter with ⟨hnot, hfail⟩ |
      ⟨hcreates, db₂, entries₂, hcreate, h₂, hnext⟩
    · rw [hfail] at hcall
      cases hcall
      exact ⟨entries, h, Or.inl ⟨rfl, hnot, le_rfl, by simp⟩⟩
    · rw [hcreate] at hcall
      cases hcall
      exact ⟨entries₂, h₂, Or.inr ⟨rfl, hcreates, HistoryCall.noConfusion, hnext⟩⟩
  | dropTable name =>
    obtain ⟨db₂, entries₂, hdrop, h₂, hnext⟩ := h.dropTable name
    rw [hdrop] at hcall
    cases hcall
    exact ⟨entries₂, h₂, Or.inl ⟨rfl, not_false, (congrArg _ hnext).le, by simp [hnext]⟩⟩
  | reload =>
    obtain ⟨db₂, entries₂, hreload, h₂, hle, heq⟩ := h.reload hcounter.le
    rw [hreload] at hcall
    cases hcall
    refine ⟨entries₂, h₂, Or.inl ⟨rfl, not_false, hle, ?_⟩⟩
    rw [← heq, eq_self, true_and]
    omega

/-- If the identifiers given so far are those below `n`, and the counter has fallen behind `n`
exactly if one was lost, then no identifier is given twice exactly if none is given after a
loss. -/
private theorem nodup_iff {n : ℕ} {past : List TableID}
    (hpast : past.map UInt32.toNat = List.range n) (h : db.Bare entries)
    (hcounter : db.nextTableId.toNat ≤ n) {lost : Prop}
    (hlost : lost ↔ db.nextTableId.toNat < n) {calls : List HistoryCall}
    {given : List (Option TableID)} {db' : Database}
    (hrun : run historyCall db calls = .ok (given, db'))
    (hfew : n + (given.filterMap id).length < 2 ^ 31) :
    (past ++ given.filterMap id).Nodup ↔ NeverForgets lost db calls := by
  induction calls generalizing n past db entries lost given with
  | nil =>
    cases hrun
    have hnodup : past.Nodup := List.Nodup.of_map _ (hpast ▸ List.nodup_range)
    rw [List.filterMap_nil, List.append_nil]
    exact ⟨fun _ => trivial, fun _ => hnodup⟩
  | cons call calls ih =>
    obtain ⟨first, rest, db₁, hfirst, hrest, rfl⟩ := run_cons_eq_ok hrun
    rw [neverForgets_cons hfirst]
    obtain ⟨entries₁, h₁, ⟨rfl, hnot, hle, hback⟩ | ⟨rfl, hcreates, hkind, hnext⟩⟩ :=
      h.step (by omega) hfirst
    · rw [List.filterMap_cons_none rfl] at hfew ⊢
      have hlost' : (lost ∨ call = .reload ∧ ¬db.HoldsLast) ↔ db₁.nextTableId.toNat < n := by
        rw [hlost, hback]
        omega
      rw [ih hpast h₁ (hle.trans hcounter) hlost' hrest hfew]
      exact ⟨fun hlater => ⟨fun hboth => hnot hboth.2, hlater⟩, And.right⟩
    · have hcons : (some db.nextTableId :: rest).filterMap id =
          db.nextTableId :: rest.filterMap id := rfl
      rw [hcons] at hfew ⊢
      rw [List.length_cons] at hfew
      by_cases hbehind : db.nextTableId.toNat < n
      · have hmem := mem_of_lt hpast hbehind
        constructor
        · intro hnodup
          exact absurd rfl ((List.nodup_append.mp hnodup).2.2 _ hmem _ List.mem_cons_self)
        · intro hnever
          exact absurd ⟨hlost.mpr hbehind, hcreates⟩ hnever.1
      · have hequal : db.nextTableId.toNat = n := by omega
        have hnotLost : ¬lost := fun hl => hbehind (hlost.mp hl)
        have hlost' : (lost ∨ call = .reload ∧ ¬db.HoldsLast) ↔
            db₁.nextTableId.toNat < n + 1 := by
          rw [hnext, hequal]
          simp [hnotLost, hkind]
        have hlater := ih (map_concat_next hpast hequal) h₁ (by omega) hlost' hrest (by omega)
        rw [List.append_assoc, List.singleton_append] at hlater
        rw [hlater]
        exact ⟨fun hnever => ⟨fun hboth => hnotLost hboth.1, hnever⟩, And.right⟩

end Bare

/-- In every history of fewer than `2 ^ 31` creations, no identifier is given to two tables
exactly if no table is created after a reload that met a database without the table of the
last identifier. -/
theorem ids_given_once_iff {name : String} {calls : List HistoryCall}
    {given : List (Option TableID)} {db : Database}
    (hrun : run historyCall (Database.new name) calls = .ok (given, db))
    (hfew : (given.filterMap id).length < 2 ^ 31) :
    (given.filterMap id).Nodup ↔ NeverForgets False (Database.new name) calls := by
  have hnew : (Database.new name).Bare [] :=
    ⟨Consistent.new name, fun _ hentry => absurd hentry List.not_mem_nil⟩
  have hzero : (Database.new name).nextTableId.toNat = 0 := rfl
  have hlost : False ↔ (Database.new name).nextTableId.toNat < 0 := by
    rw [hzero]
    simp
  have hpast : ([] : List TableID).map UInt32.toNat = List.range 0 := rfl
  rw [← hnew.nodup_iff hpast (Nat.le_of_eq hzero) hlost hrun (by rwa [Nat.zero_add]),
    List.nil_append]

omit [InsertPolicy] in
/-- The identifier of a dropped table is given again after a reload. -/
theorem id_given_twice :
    letI : InsertPolicy := ⟨true⟩
    ∃ given db, run historyCall (Database.new "shop")
        [.createTable "a" [], .dropTable "a", .reload, .createTable "b" []] = .ok (given, db) ∧
      ¬(given.filterMap id).Nodup := by
  let _ : InsertPolicy := ⟨true⟩
  refine ⟨[some 0, none, none, some 0], _, rfl, ?_⟩
  decide

omit [InsertPolicy] in
/-- A reload that meets the table with the last identifier forgets none. -/
theorem ids_given_once_kept :
    letI : InsertPolicy := ⟨true⟩
    NeverForgets False (Database.new "shop")
      [.createTable "a" [], .reload, .createTable "b" []] := by
  let _ : InsertPolicy := ⟨true⟩
  have hrun : ∃ db, run historyCall (Database.new "shop")
      [.createTable "a" [], .reload, .createTable "b" []] = .ok ([some 0, none, some 1], db) :=
    ⟨_, rfl⟩
  obtain ⟨db, hrun⟩ := hrun
  exact (ids_given_once_iff hrun (by decide)).mp (by decide)

end Database

end MiniDB.Core
