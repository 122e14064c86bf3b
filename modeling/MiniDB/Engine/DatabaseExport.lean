import MiniDB.Core.DatabaseRoundTrip
import MiniDB.Engine.Serializer

/-!
# Exporting and importing whole databases

An export has one member for each table, under its name. An import gives every table that a
member names what the member holds; in a database whose structures agree, members under
distinct names meet distinct tables.
-/

namespace MiniDB.Engine

open MiniDB.Common MiniDB.JsonPro MiniDB.Core Memory

/-- A value stored under a fresh key is put at the end. -/
theorem setMember_of_fresh {key : String} {members : List (String × Json)}
    (h : key ∉ members.map Prod.fst) (value : Json) :
    Json.setMember key value members = members ++ [(key, value)] := by
  induction members with
  | nil => rfl
  | cons member members ih =>
    obtain ⟨name, old⟩ := member
    rw [List.map_cons, List.mem_cons, not_or] at h
    unfold Json.setMember
    rw [if_neg (Ne.symm h.1), ih h.2, List.cons_append]

/-- Tables under distinct names are exported to one member each. -/
theorem exportTables_eq {entriesOf : Table → List Json} {tables : List Table}
    (hexport : ∀ t ∈ tables, exportRecords (t.getPages.flatMap Page.records) = .ok (entriesOf t))
    {members : List (String × Json)}
    (hnodup : (members.map Prod.fst ++ tables.map Table.name).Nodup) :
    exportTables (.object members) tables =
      .ok (.object (members ++ tables.map fun t => (t.name, .array (entriesOf t)))) := by
  induction tables generalizing members with
  | nil =>
    rw [List.map_nil, List.append_nil]
    rfl
  | cons t tables ih =>
    rw [List.forall_mem_cons] at hexport
    have hfresh : t.name ∉ members.map Prod.fst := by
      intro hmem
      exact (List.nodup_append.mp hnodup).2.2 t.name hmem t.name List.mem_cons_self rfl
    have hset : (Json.object members).set t.getName (.array (entriesOf t)) =
        .ok (.object (members ++ [(t.name, .array (entriesOf t))])) :=
      congrArg (fun stored => Except.ok (Json.object stored)) (setMember_of_fresh hfresh _)
    have hrest : ((members ++ [(t.name, Json.array (entriesOf t))]).map Prod.fst ++
        tables.map Table.name).Nodup := by
      rwa [List.map_append, List.append_assoc]
    have htables := ih hexport.2 hrest
    rw [List.append_assoc, List.singleton_append] at htables
    unfold exportTables
    exact except_bind_eq_ok.mpr ⟨_, hexport.1, except_bind_eq_ok.mpr ⟨_, hset, htables⟩⟩

section Importing

variable [InsertPolicy]

/-- Importing entries keeps the name and the identifier of a table and removes no page. -/
theorem importEntries_grows {nextId : RecordID} {entries : List Json} {s : Status} {t t' : Table}
    (h : importEntries nextId entries t = .ok s t') : t.Grows t' := by
  induction entries generalizing nextId t with
  | nil =>
    cases h
    exact Table.Grows.refl _
  | cons entry entries ih =>
    unfold importEntries at h
    obtain ⟨r, _, h⟩ := lift_bind_eq_ok h
    rw [modifyGet_bind] at h
    have hinsert : t.Grows (t.insertRecord r).2 :=
      @Table.grows_call _ t _ (.insertRecord r) _ rfl
    split at h
    · cases h
      exact hinsert
    · have hrest := ih h
      exact ⟨hrest.name.trans hinsert.name, hrest.id.trans hinsert.id,
        hinsert.pages.trans hrest.pages⟩

/-- Importing a value keeps the name and the identifier of a table and removes no page. -/
theorem importTable_grows {parsed : Json} {s : Status} {t t' : Table}
    (h : importTable parsed t = .ok s t') : t.Grows t' := by
  unfold importTable at h
  split at h
  · cases h
    exact .refl t
  · split at h
    · cases h
      exact .refl t
    · obtain ⟨entries, _, h⟩ := lift_bind_eq_ok h
      exact importEntries_grows h

variable {db : Database} {entries : List Database.Entry}

/-- Importing a member that names a table. -/
theorem importTables_cons (h : db.Linked entries) {entry : Database.Entry}
    (hentry : entry ∈ entries) (tableData : Json) (members : List (String × Json)) :
    importTables ((entry.2.name, tableData) :: members) db =
      (Database.onTable entry.1 (importTable tableData) >>= fun s =>
        if s ≠ .OK then return s else importTables members) db := by
  have hread : (get : EStateM Fault Database Database) db = .ok db db := rfl
  conv_lhs => unfold importTables
  rw [bind_of_ok hread, h.wired.hasTable_of_mem hentry, if_neg (by decide), bind_of_ok hread,
    h.wired.getTable_of_mem hentry]

/-- An import of a member that succeeds leaves the named table as the import into it alone
does. -/
theorem importTables_cons_of_ok (h : db.Linked entries) {entry : Database.Entry}
    (hentry : entry ∈ entries) {tableData : Json} {t : Table}
    (himport : importTable tableData entry.2 = .ok .OK t) :
    ∃ heap, Database.Linked { db with heap := heap }
        (Database.replaced entries entry.1 t) ∧
      ∀ members, importTables ((entry.2.name, tableData) :: members) db =
        importTables members { db with heap := heap } := by
  obtain ⟨heap, hwrite, hlinked⟩ := h.write hentry (importTable_grows himport)
  refine ⟨heap, hlinked, fun members => ?_⟩
  have hon : Database.onTable entry.1 (importTable tableData) db =
      .ok .OK { db with heap := heap } := by
    unfold Database.onTable
    rw [Heap.read_eq_ok.mpr (h.heap hentry)]
    dsimp only
    rw [himport]
    dsimp only
    rw [hwrite]
  rw [importTables_cons h hentry, bind_of_ok hon, if_neg (not_not.mpr rfl)]

/-- An import that succeeds has imported its first member. -/
theorem importTable_of_importTables (h : db.Linked entries) {entry : Database.Entry}
    (hentry : entry ∈ entries) {tableData : Json} {members : List (String × Json)}
    {db' : Database}
    (himport : importTables ((entry.2.name, tableData) :: members) db = .ok .OK db') :
    ∃ t, importTable tableData entry.2 = .ok .OK t := by
  rw [importTables_cons h hentry] at himport
  obtain ⟨s, middle, hon, hrest⟩ := bind_eq_ok himport
  have hs : s = .OK := by
    by_contra hne
    rw [if_pos hne] at hrest
    cases hrest
    exact hne rfl
  subst hs
  unfold Database.onTable at hon
  rw [Heap.read_eq_ok.mpr (h.heap hentry)] at hon
  dsimp only at hon
  cases htable : importTable tableData entry.2 with
  | ok s t =>
    rw [htable] at hon
    dsimp only at hon
    split at hon
    · cases hon
    · cases hon
      exact ⟨t, rfl⟩
  | error fault t =>
    rw [htable] at hon
    dsimp only at hon
    split at hon
    · cases hon
    · cases hon

omit [InsertPolicy] in
/-- Changing a table leaves the tables under other names alone. -/
private theorem mem_write_iff (h : db.Linked entries) {entry : Database.Entry}
    (hentry : entry ∈ entries) {t : Table} (hgrows : entry.2.Grows t) {other : Database.Entry}
    (hname : other.2.name ≠ entry.2.name) :
    other ∈ Database.replaced entries entry.1 t ↔ other ∈ entries := by
  constructor
  · intro hother
    rcases Database.mem_replaced hother with rfl | ⟨hold, _⟩
    · exact absurd hgrows.name hname
    · exact hold
  · intro hother
    refine Database.mem_replaced_of_ne hother fun hsame => hname ?_
    rw [List.inj_on_of_nodup_map h.nodup hother hentry hsame]

/-- Members under distinct names of tables are imported exactly if each can be imported into
its table alone, and the tables then are as these imports leave them. -/
theorem importTables_spec (h : db.Linked entries) {members : List (String × Json)}
    (hnodup : (members.map Prod.fst).Nodup)
    (hnamed : ∀ member ∈ members, ∃ entry ∈ entries, entry.2.name = member.1) :
    ((∃ db', importTables members db = .ok .OK db') ↔ ∀ member ∈ members, ∀ entry ∈ entries,
      entry.2.name = member.1 → ∃ t, importTable member.2 entry.2 = .ok .OK t) ∧
    ∀ db', importTables members db = .ok .OK db' → ∃ entries', db'.Linked entries' ∧
      (∀ entry ∈ entries, entry.2.name ∉ members.map Prod.fst → entry ∈ entries') ∧
      ∀ member ∈ members, ∀ entry ∈ entries, entry.2.name = member.1 → ∀ t,
        importTable member.2 entry.2 = .ok .OK t → (entry.1, t) ∈ entries' := by
  induction members generalizing db entries with
  | nil =>
    refine ⟨⟨fun _ _ hmem => absurd hmem List.not_mem_nil, fun _ => ⟨db, rfl⟩⟩, ?_⟩
    intro db' himport
    cases himport
    exact ⟨entries, h, fun _ hentry _ => hentry, fun _ hmem => absurd hmem List.not_mem_nil⟩
  | cons member members ih =>
    obtain ⟨name, tableData⟩ := member
    rw [List.map_cons, List.nodup_cons] at hnodup
    rw [List.forall_mem_cons] at hnamed
    obtain ⟨⟨entry, hentry, rfl⟩, hnamed⟩ := hnamed
    have hunique : ∀ other ∈ entries, other.2.name = entry.2.name → other = entry :=
      fun other hother => List.inj_on_of_nodup_map h.names hother hentry
    by_cases hfirst : ∃ t, importTable tableData entry.2 = .ok .OK t
    · obtain ⟨t, ht⟩ := hfirst
      obtain ⟨heap, hlinked, hcons⟩ := importTables_cons_of_ok h hentry ht
      have hgrows := importTable_grows ht
      -- The other members name other tables, which the first import has not touched.
      have hsame : ∀ member ∈ members, ∀ other : Database.Entry, other.2.name = member.1 →
          (other ∈ Database.replaced entries entry.1 t ↔ other ∈ entries) := by
        intro member hmember other hname
        refine mem_write_iff h hentry hgrows fun heq => hnodup.1 ?_
        rw [← heq, hname]
        exact List.mem_map.mpr ⟨member, hmember, rfl⟩
      have hnamed' : ∀ member ∈ members, ∃ other ∈ Database.replaced entries entry.1 t,
          other.2.name = member.1 := by
        intro member hmember
        obtain ⟨other, hother, hname⟩ := hnamed member hmember
        exact ⟨other, (hsame member hmember other hname).mpr hother, hname⟩
      obtain ⟨hiff, hleaves⟩ := ih hlinked hnodup.2 hnamed'
      constructor
      · rw [hcons members, hiff, List.forall_mem_cons]
        constructor
        · intro hall
          refine ⟨?_, ?_⟩
          · intro other hother hname
            rw [hunique other hother hname]
            exact ⟨t, ht⟩
          · intro member hmember other hother hname
            exact hall member hmember other ((hsame member hmember other hname).mpr hother) hname
        · rintro ⟨_, hall⟩ member hmember other hother hname
          exact hall member hmember other ((hsame member hmember other hname).mp hother) hname
      · intro db' himport
        rw [hcons members] at himport
        obtain ⟨entries', hlinked', hrest, hmembers⟩ := hleaves db' himport
        refine ⟨entries', hlinked', ?_, ?_⟩
        · intro other hother hnot
          rw [List.map_cons, List.mem_cons, not_or] at hnot
          exact hrest other ((mem_write_iff h hentry hgrows hnot.1).mpr hother) hnot.2
        · rw [List.forall_mem_cons]
          constructor
          · intro other hother hname t' ht'
            rw [hunique other hother hname] at ht' ⊢
            rw [ht] at ht'
            cases ht'
            refine hrest (entry.1, t) (Database.mem_replaced_self hentry) ?_
            rw [hgrows.name]
            exact hnodup.1
          · intro member hmember other hother hname
            exact hmembers member hmember other
              ((hsame member hmember other hname).mpr hother) hname
    · have hfail : ∀ db', importTables ((entry.2.name, tableData) :: members) db ≠ .ok .OK db' :=
        fun _ himport => hfirst (importTable_of_importTables h hentry himport)
      refine ⟨⟨fun ⟨db', himport⟩ => absurd himport (hfail db'), fun hall => ?_⟩,
        fun db' himport => absurd himport (hfail db')⟩
      exact absurd (hall _ List.mem_cons_self entry hentry rfl) hfirst

end Importing

end MiniDB.Engine
