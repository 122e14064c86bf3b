import MiniDB.Core.DatabaseConsistency
import Mathlib.Data.Set.Card

/-!
# The database as a directory of tables

What a database is for: names lead to tables. A directory keeps for every name the identity
of the table made by the creation that the name stems from, and what was called on that
table since. A database and its directory stay in agreement along every run with fewer than
`2 ^ 32` successful creations, whatever happens under other names.
-/

namespace MiniDB.Core

open MiniDB.Common MiniDB.JsonPro Memory Refinement

/-- A call on a database, or through a pointer to one of its tables. -/
inductive DirectoryCall
  | createTable (name : String) (schema : List ColumnDef)
  | dropTable (name : String)
  | hasTable (name : String)
  | getTable (name : String)
  | tableCount
  | through (pointer : Address) (call : TableCall)

/-- What such a call reports. -/
inductive DirectoryResponse
  | status (s : Status)
  | answer (present : Bool)
  | pointer (table : Option Address)
  | count (tables : ℕ)
  | table (response : TableResponse)

/-- A table as a directory knows it: its identity, how it was created, and the calls made
on it since with their responses. -/
structure Slot where
  /-- The address of the table. -/
  address : Address
  /-- The identifier it got. -/
  id : TableID
  /-- The schema it was created with. -/
  schema : List ColumnDef
  /-- The calls so far. -/
  calls : List TableCall
  /-- What they reported. -/
  responses : List TableResponse

/-- The tables by name. -/
abbrev Directory := FiniteMap String Slot

namespace Directory

/-- How many names have a table. -/
noncomputable def count (d : Directory) : ℕ := Set.ncard { name | d.contains name = true }

variable [InsertPolicy]

/-- What a directory answers to a call, and the directory afterwards. A new table differs from
all others in address and identifier; a call through a pointer acts on the table behind it as
if that table were alone. -/
inductive Answers : Directory → DirectoryCall → DirectoryResponse → Directory → Prop
  | full {d : Directory} (name : String) (schema : List ColumnDef) :
      DBConstants.MAX_TABLES ≤ d.count →
      Answers d (.createTable name schema) (.status .OUT_OF_MEMORY) d
  | taken {d : Directory} {name : String} (schema : List ColumnDef) :
      d.count < DBConstants.MAX_TABLES → d.contains name = true →
      Answers d (.createTable name schema) (.status .TABLE_ALREADY_EXISTS) d
  | created {d : Directory} {name : String} {address : Address} {id : TableID}
      (schema : List ColumnDef) :
      d.count < DBConstants.MAX_TABLES → d.contains name = false →
      (∀ other slot, d.get? other = some slot → slot.address ≠ address ∧ slot.id ≠ id) →
      Answers d (.createTable name schema) (.status .OK)
        (d.put name ⟨address, id, schema, [], []⟩)
  | missing {d : Directory} {name : String} : d.contains name = false →
      Answers d (.dropTable name) (.status .TABLE_NOT_FOUND) d
  | dropped {d : Directory} {name : String} : d.contains name = true →
      Answers d (.dropTable name) (.status .OK) (d.erase name)
  | hasTable (d : Directory) (name : String) :
      Answers d (.hasTable name) (.answer (d.contains name)) d
  | getTable (d : Directory) (name : String) :
      Answers d (.getTable name) (.pointer ((d.get? name).map Slot.address)) d
  | tableCount (d : Directory) : Answers d .tableCount (.count d.count) d
  | through {d : Directory} {name : String} {slot : Slot} {call : TableCall}
      {response : TableResponse} {t : Table} : d.get? name = some slot →
      run Table.call (Table.new name slot.id slot.schema) (slot.calls ++ [call]) =
        .ok (slot.responses ++ [response], t) →
      Answers d (.through slot.address call) (.table response)
        (d.put name { slot with
          calls := slot.calls ++ [call]
          responses := slot.responses ++ [response] })

/-- What holds of all calls through pointers holds of the calls that a directory remembers. -/
theorem calls_of_follows {P : TableCall → Prop} {d d' : Directory} {calls : List DirectoryCall}
    {responses : List DirectoryResponse} (h : Follows Answers d calls responses d')
    (hcalls : ∀ pointer call, .through pointer call ∈ calls → P call)
    (hbefore : ∀ name slot, d.get? name = some slot → ∀ call ∈ slot.calls, P call) :
    ∀ name slot, d'.get? name = some slot → ∀ call ∈ slot.calls, P call := by
  induction h with
  | nil d => exact hbefore
  | cons hanswer hrest ih =>
    refine ih (fun pointer call hmem => hcalls pointer call (List.mem_cons_of_mem _ hmem)) ?_
    intro name slot hslot
    cases hanswer with
    | created schema _ _ _ =>
      rw [FiniteMap.get?_put] at hslot
      split at hslot
      · cases hslot
        exact fun _ hmem => absurd hmem List.not_mem_nil
      · exact hbefore name slot hslot
    | dropped _ =>
      rw [FiniteMap.get?_erase] at hslot
      split at hslot
      · cases hslot
      · exact hbefore name slot hslot
    | through hold _ =>
      rw [FiniteMap.get?_put] at hslot
      split at hslot
      · cases hslot
        rw [List.forall_mem_append, List.forall_mem_singleton]
        exact ⟨hbefore _ _ hold, hcalls _ _ List.mem_cons_self⟩
      · exact hbefore name slot hslot
    | _ => exact hbefore name slot hslot

end Directory

/-- How many tables a call has created, given its response. -/
def created : DirectoryCall → DirectoryResponse → ℕ
  | .createTable _ _, .status .OK => 1
  | _, _ => 0

/-- How many creations of a run succeeded. -/
def creations (calls : List DirectoryCall) (responses : List DirectoryResponse) : ℕ :=
  (List.zipWith created calls responses).sum

namespace Database

section Steps

variable [InsertPolicy]

/-- One call. -/
def directoryCall (db : Database) :
    DirectoryCall → Except Fault (DirectoryResponse × Database)
  | .createTable name schema =>
    let (s, db) := db.createTable name schema
    .ok (.status s, db)
  | .dropTable name =>
    match dropTable name db with
    | .ok s db => .ok (.status s, db)
    | .error fault _ => .error fault
  | .hasTable name => .ok (.answer (db.hasTable name), db)
  | .getTable name => .ok (.pointer (db.getTable name), db)
  | .tableCount => .ok (.count db.tableCount, db)
  | .through pointer call => do
    let (response, t) ← (← db.heap.read pointer).call call
    let heap ← db.heap.write pointer t
    return (.table response, { db with heap })

end Steps

/-- A call goes through a pointer only if that points to a table of the database. -/
def PointerHeld (db : Database) : DirectoryCall → Prop
  | .through pointer _ => pointer ∈ db.tables
  | _ => True

/-- A database holds the tables of a directory: each name leads to its table, which is in the
state that the calls on it alone lead to and, while page identifiers last, holds exactly the
records that they put into it. -/
structure Holds [InsertPolicy] (db : Database) (d : Directory) : Prop where
  /-- The names are those of the directory. -/
  hasTable : ∀ name, db.hasTable name = d.contains name
  /-- Each name leads to its table. -/
  getTable : ∀ name, db.getTable name = (d.get? name).map Slot.address
  /-- The tables are counted. -/
  count : db.tableCount = d.count
  /-- The tables are in the states that their own calls lead to. -/
  table : ∀ {name slot}, d.get? name = some slot → ∃ t, db.heap.get? slot.address = some t ∧
    t.getName = name ∧ t.getID = slot.id ∧
    run Table.call (Table.new name slot.id slot.schema) slot.calls = .ok (slot.responses, t) ∧
    (t.pages.length < 2 ^ 32 → ∃ m : RecordMap,
      Follows (MapAnswers slot.schema) FiniteMap.empty slot.calls slot.responses m ∧
      Lists t.liveRecords m)
  /-- Identifiers are distinct. -/
  ids : ∀ {name name' slot slot'}, d.get? name = some slot → d.get? name' = some slot' →
    slot.id = slot'.id → name = name'

section Agreement

variable [InsertPolicy]

/-- A linked database whose tables are those of a directory. -/
structure Mirrors (db : Database) (entries : List Entry) (d : Directory) : Prop where
  /-- The database is linked. -/
  linked : db.Linked entries
  /-- Only tables have names. -/
  keys : ∀ name, d.get? name = none ↔ ∀ entry ∈ entries, entry.2.name ≠ name
  /-- Each slot stands for a table. -/
  slots : ∀ {name slot}, d.get? name = some slot → ∃ t, (slot.address, t) ∈ entries ∧
    t.name = name ∧ t.id = slot.id ∧
    run Table.call (Table.new name slot.id slot.schema) slot.calls = .ok (slot.responses, t)

namespace Mirrors

variable {db : Database} {entries : List Entry} {d : Directory}

/-- A name of the directory is the name of a table. -/
private theorem contains_iff (h : db.Mirrors entries d) (name : String) :
    d.contains name = true ↔ ∃ entry ∈ entries, entry.2.name = name := by
  unfold FiniteMap.contains
  rw [Option.isSome_iff_ne_none, ne_eq, h.keys]
  push Not
  rfl

/-- There are as many names as tables. -/
theorem count_eq (h : db.Mirrors entries d) : d.count = entries.length := by
  have hnames : { name | d.contains name = true } =
      ((entries.map fun entry => entry.2.name).toFinset : Set String) := by
    ext name
    rw [Set.mem_ofPred_eq, h.contains_iff, Finset.mem_coe, List.mem_toFinset, List.mem_map]
  unfold Directory.count
  rw [hnames, Set.ncard_coe_finset, List.toFinset_card_of_nodup h.linked.names, List.length_map]

/-- Names are resolved alike. -/
theorem getTable_eq (h : db.Mirrors entries d) (name : String) :
    db.getTable name = (d.get? name).map Slot.address := by
  rcases @Wired.getTable _ _ h.linked.wired name with ⟨hget, hnone⟩ | ⟨entry, hentry, hname, hget⟩
  · rw [hget, (h.keys name).mpr hnone]
    rfl
  · cases hslot : d.get? name with
    | none => exact absurd hname ((h.keys name).mp hslot entry hentry)
    | some slot =>
      obtain ⟨t, hmem, ht, _⟩ := h.slots hslot
      have hsame : entry = (slot.address, t) :=
        List.inj_on_of_nodup_map h.linked.names hentry hmem (hname.trans ht.symm)
      rw [hget, hsame]
      rfl

/-- Names are known alike. -/
theorem hasTable_eq (h : db.Mirrors entries d) (name : String) :
    db.hasTable name = d.contains name := by
  rw [Bool.eq_iff_iff, h.contains_iff]
  constructor
  · exact h.linked.wired.exists_of_hasTable
  · rintro ⟨entry, hentry, rfl⟩
    exact h.linked.wired.hasTable_of_mem hentry

/-- The tables of a database that mirrors a directory are those of the directory. -/
theorem holds (h : db.Mirrors entries d) : db.Holds d where
  hasTable := h.hasTable_eq
  getTable := h.getTable_eq
  count := by
    unfold tableCount
    rw [h.count_eq, h.linked.tables, List.length_map]
  table := by
    intro name slot hslot
    obtain ⟨t, hmem, hname, hid, hrun⟩ := h.slots hslot
    refine ⟨t, h.linked.heap hmem, hname, hid, hrun, fun hpages => ?_⟩
    obtain ⟨hfollows, hconsistent⟩ := Table.run_follows_map hrun hpages
    exact ⟨t.contents, hfollows, hconsistent.lists⟩
  ids := by
    intro name name' slot slot' hslot hslot' heq
    obtain ⟨t, hmem, hname, hid, _⟩ := h.slots hslot
    obtain ⟨t', hmem', hname', hid', _⟩ := h.slots hslot'
    have hsame := List.inj_on_of_nodup_map h.linked.ids hmem hmem'
      (hid.trans (heq.trans hid'.symm))
    have htable := congrArg (fun entry : Entry => entry.2.name) hsame
    exact hname.symm.trans (htable.trans hname')

/-- A database without tables mirrors the empty directory. -/
theorem new (name : String) : (Database.new name).Mirrors [] FiniteMap.empty where
  linked := (Consistent.new name).linked
  keys other := by simp
  slots h := by
    cases h

/-- Creating a table. -/
private theorem createTable (h : db.Mirrors entries d) {name : String} {schema : List ColumnDef}
    {s : Status} {db' : Database} (hcreate : db.createTable name schema = (s, db'))
    (hroom : db.nextTableId.toNat + created (.createTable name schema) (.status s) < 2 ^ 32) :
    ∃ entries' d', Directory.Answers d (.createTable name schema) (.status s) d' ∧
      db'.Mirrors entries' d' ∧ db'.nextTableId.toNat =
        db.nextTableId.toNat + created (.createTable name schema) (.status s) := by
  rcases h.linked.createTable name schema with ⟨hlength, hfail⟩ | ⟨hlength, hname, hfail⟩ |
    ⟨hlength, hname, db₁, hdone, _, _, hcounter, hlinked⟩
  · rw [hfail] at hcreate
    cases hcreate
    exact ⟨entries, d, .full name schema (h.count_eq ▸ hlength), h, rfl⟩
  · rw [hfail] at hcreate
    cases hcreate
    exact ⟨entries, d, .taken schema (h.count_eq ▸ hlength) ((h.contains_iff name).mpr hname), h,
      rfl⟩
  · rw [hdone] at hcreate
    cases hcreate
    have hone : (1 : UInt32).toNat = 1 := rfl
    have hnone : d.get? name = none := (h.keys name).mpr hname
    have hother : ∀ other slot, d.get? other = some slot →
        slot.address ≠ db.heap.next ∧ slot.id ≠ db.nextTableId := by
      intro other slot hslot
      obtain ⟨t, hmem, _, hid, _⟩ := h.slots hslot
      refine ⟨(Heap.lt_next (h.linked.heap hmem)).ne, fun heq => ?_⟩
      have hlt := h.linked.fresh hmem
      dsimp only at hlt
      rw [hid, heq] at hlt
      exact absurd hlt (lt_irrefl _)
    refine ⟨_, _, .created schema (h.count_eq ▸ hlength) ?_ hother,
      ⟨hlinked (by simpa [created] using hroom), ?_, ?_⟩, ?_⟩
    · unfold FiniteMap.contains
      rw [hnone]
      rfl
    · intro other
      rw [FiniteMap.get?_put, List.forall_mem_append, List.forall_mem_singleton]
      by_cases hsame : other = name
      · subst hsame
        rw [if_pos rfl]
        constructor
        · intro hnew
          cases hnew
        · rintro ⟨_, hnew⟩
          exact absurd rfl hnew
      · rw [if_neg hsame, h.keys]
        exact ⟨fun hold => ⟨hold, Ne.symm hsame⟩, And.left⟩
    · intro other slot hslot
      rw [FiniteMap.get?_put] at hslot
      by_cases hsame : other = name
      · subst hsame
        rw [if_pos rfl] at hslot
        cases hslot
        exact ⟨_, List.mem_append_right _ (List.mem_singleton_self _), rfl, rfl, rfl⟩
      · rw [if_neg hsame] at hslot
        obtain ⟨t, hmem, ht⟩ := h.slots hslot
        exact ⟨t, List.mem_append_left _ hmem, ht⟩
    · rw [hcounter, UInt32.toNat_add, hone]
      exact Nat.mod_eq_of_lt (by simpa [created] using hroom)

omit [InsertPolicy] in
/-- Dropping a table that a directory does not know, or does. -/
private theorem dropTable [InsertPolicy] (h : db.Mirrors entries d) (name : String) :
    ∃ s db' entries' d', Database.dropTable name db = .ok s db' ∧
      Directory.Answers d (.dropTable name) (.status s) d' ∧ db'.Mirrors entries' d' ∧
      db'.nextTableId = db.nextTableId := by
  rcases h.linked.dropTable name with ⟨hdrop, hname⟩ | ⟨db', hdrop, hlinked, hcounter, hname⟩
  · refine ⟨_, _, entries, d, hdrop, .missing ?_, h, rfl⟩
    unfold FiniteMap.contains
    rw [(h.keys name).mpr hname]
    rfl
  · refine ⟨_, db', _, _, hdrop, .dropped ((h.contains_iff name).mpr hname), ⟨hlinked, ?_, ?_⟩,
      hcounter⟩
    · intro other
      rw [FiniteMap.get?_erase]
      by_cases hsame : other = name
      · subst hsame
        rw [if_pos rfl]
        exact ⟨fun _ entry hentry => of_decide_eq_true (List.mem_filter.mp hentry).2, fun _ => rfl⟩
      · rw [if_neg hsame, h.keys]
        constructor
        · intro hnone entry hentry
          exact hnone entry (List.mem_filter.mp hentry).1
        · intro hnone entry hentry hother
          refine hnone entry (List.mem_filter.mpr ⟨hentry, decide_eq_true ?_⟩) hother
          rw [hother]
          exact hsame
    · intro other slot hslot
      rw [FiniteMap.get?_erase] at hslot
      by_cases hsame : other = name
      · rw [if_pos hsame] at hslot
        cases hslot
      · rw [if_neg hsame] at hslot
        obtain ⟨t, hmem, hother, ht⟩ := h.slots hslot
        refine ⟨t, List.mem_filter.mpr ⟨hmem, decide_eq_true ?_⟩, hother, ht⟩
        rw [hother]
        exact hsame

/-- A call through a pointer to a table. -/
private theorem through (h : db.Mirrors entries d) {pointer : Address}
    (hheld : pointer ∈ db.tables) (call : TableCall) :
    ∃ response db' entries' d',
      db.directoryCall (.through pointer call) = .ok (.table response, db') ∧
      Directory.Answers d (.through pointer call) (.table response) d' ∧
      db'.Mirrors entries' d' ∧ db'.nextTableId = db.nextTableId := by
  rw [h.linked.tables] at hheld
  obtain ⟨⟨_, t⟩, hmem, rfl⟩ := List.mem_map.mp hheld
  obtain ⟨response, t', hcall⟩ := t.call_total call
  have hgrows := Table.grows_call hcall
  obtain ⟨heap, hwrite, hlinked⟩ := h.linked.write hmem hgrows
  have hname : ∃ slot, d.get? t.name = some slot := by
    rw [← Option.isSome_iff_exists]
    exact (h.contains_iff t.name).mpr ⟨_, hmem, rfl⟩
  obtain ⟨slot, hslot⟩ := hname
  obtain ⟨t₀, hmem₀, hname₀, hid, hrun⟩ := h.slots hslot
  have hsame := List.inj_on_of_nodup_map h.linked.names hmem hmem₀ hname₀.symm
  cases hsame
  have hnames := Database.map_replaced (fun entry => entry.2.name) h.linked.nodup hmem hgrows.name
  refine ⟨response, { db with heap := heap }, _, d.put t.name { slot with
    calls := slot.calls ++ [call]
    responses := slot.responses ++ [response] }, ?_, ?_, ⟨hlinked, ?_, ?_⟩, rfl⟩
  · unfold directoryCall
    dsimp only
    rw [Heap.read_eq_ok.mpr (h.linked.heap hmem)]
    change (t.call call >>= _) = _
    rw [hcall]
    change (db.heap.write slot.address t' >>= _) = _
    rw [hwrite]
    rfl
  · exact .through hslot (run_concat hrun hcall)
  · intro other
    have hnone : d.get? other = none ↔
        ∀ entry ∈ Database.replaced entries slot.address t', entry.2.name ≠ other := by
      rw [h.keys, ← List.forall_mem_map (P := (· ≠ other)), ← hnames, List.forall_mem_map]
    rw [FiniteMap.get?_put, ← hnone]
    by_cases hother : other = t.name
    · rw [if_pos hother, hother, hslot]
      simp
    · rw [if_neg hother]
  · intro other slot' hslot'
    rw [FiniteMap.get?_put] at hslot'
    by_cases hother : other = t.name
    · subst hother
      rw [if_pos rfl] at hslot'
      cases hslot'
      refine ⟨t', Database.mem_replaced_self hmem, hgrows.name, hgrows.id.trans hid, ?_⟩
      exact run_concat hrun hcall
    · rw [if_neg hother] at hslot'
      obtain ⟨t₁, hmem₁, hname₁, ht₁⟩ := h.slots hslot'
      refine ⟨t₁, Database.mem_replaced_of_ne hmem₁ ?_, hname₁, ht₁⟩
      intro hsame
      have heq := List.inj_on_of_nodup_map h.linked.nodup hmem₁ hmem hsame
      have htable := congrArg (fun entry : Entry => entry.2.name) heq
      exact hother (hname₁.symm.trans htable)

/-- One call keeps a database and its directory in agreement. -/
theorem step (h : db.Mirrors entries d) {call : DirectoryCall} {response : DirectoryResponse}
    {db' : Database} (hheld : db.PointerHeld call)
    (hcall : db.directoryCall call = .ok (response, db'))
    (hroom : db.nextTableId.toNat + created call response < 2 ^ 32) :
    ∃ entries' d', Directory.Answers d call response d' ∧ db'.Mirrors entries' d' ∧
      db'.nextTableId.toNat = db.nextTableId.toNat + created call response := by
  cases call with
  | createTable name schema =>
    cases hcall
    exact h.createTable rfl hroom
  | dropTable name =>
    obtain ⟨s, db₁, entries', d', hdrop, hanswers, h', hcounter⟩ := h.dropTable name
    unfold directoryCall at hcall
    dsimp only at hcall
    rw [hdrop] at hcall
    cases hcall
    exact ⟨entries', d', hanswers, h', congrArg UInt32.toNat hcounter⟩
  | hasTable name =>
    cases hcall
    rw [h.hasTable_eq]
    exact ⟨entries, d, .hasTable d name, h, rfl⟩
  | getTable name =>
    cases hcall
    rw [h.getTable_eq]
    exact ⟨entries, d, .getTable d name, h, rfl⟩
  | tableCount =>
    cases hcall
    rw [h.holds.count]
    exact ⟨entries, d, .tableCount d, h, rfl⟩
  | through pointer call =>
    obtain ⟨response', db₁, entries', d', hthrough, hanswers, h', hcounter⟩ :=
      h.through hheld call
    rw [hthrough] at hcall
    cases hcall
    exact ⟨entries', d', hanswers, h', congrArg UInt32.toNat hcounter⟩

/-- A run keeps a database and its directory in agreement as long as identifiers last. -/
theorem run (h : db.Mirrors entries d) {calls : List DirectoryCall}
    (hheld : Along directoryCall PointerHeld db calls) {responses : List DirectoryResponse}
    {db' : Database} (hrun : Refinement.run directoryCall db calls = .ok (responses, db'))
    (hroom : db.nextTableId.toNat + creations calls responses < 2 ^ 32) :
    ∃ entries' d', Follows Directory.Answers d calls responses d' ∧ db'.Mirrors entries' d' := by
  induction calls generalizing db entries d responses with
  | nil =>
    cases hrun
    exact ⟨entries, d, .nil d, h⟩
  | cons call calls ih =>
    obtain ⟨response, rest, middle, hfirst, hrest, rfl⟩ := run_cons_eq_ok hrun
    have hsum : creations (call :: calls) (response :: rest) =
        created call response + creations calls rest := rfl
    rw [hsum] at hroom
    obtain ⟨entries₁, d₁, hanswers, h₁, hcounter⟩ := h.step hheld.1 hfirst (by omega)
    obtain ⟨entries', d', hfollows, h'⟩ :=
      ih h₁ (hheld.2 response middle hfirst) hrest (by omega)
    exact ⟨entries', d', .cons hanswers hfollows, h'⟩

end Mirrors

omit [InsertPolicy] in
/-- The tables of a database with their addresses. -/
private theorem Owned.exists_entries {db : Database} (h : db.Owned) :
    ∃ entries : List Entry, db.tables = entries.map Prod.fst ∧
      ∀ entry ∈ entries, db.heap.get? entry.1 = some entry.2 := by
  have halive := h.alive
  generalize db.tables = tables at halive
  induction tables with
  | nil => exact ⟨[], rfl, fun _ hmem => absurd hmem List.not_mem_nil⟩
  | cons address addresses ih =>
    rw [List.forall_mem_cons] at halive
    obtain ⟨t, ht⟩ := halive.1
    obtain ⟨entries, haddresses, hentries⟩ := ih halive.2
    refine ⟨(address, t) :: entries, by rw [haddresses, List.map_cons], ?_⟩
    rw [List.forall_mem_cons]
    exact ⟨ht, hentries⟩

/-- A call that goes through no dangling pointer returns and leaves distinct living
tables. -/
private theorem Owned.directoryCall {db : Database} (h : db.Owned) {call : DirectoryCall}
    (hheld : db.PointerHeld call) :
    ∃ response db', db.directoryCall call = .ok (response, db') ∧ db'.Owned := by
  cases call with
  | createTable name schema =>
    refine ⟨.status (db.createTable name schema).1, (db.createTable name schema).2, rfl, ?_⟩
    unfold Database.createTable
    split
    · exact h
    · split
      · exact h
      · refine ⟨List.nodup_append.mpr ⟨h.nodup, List.nodup_singleton _, ?_⟩, ?_⟩
        · rintro address hmem _ hnew rfl
          rw [List.mem_singleton.mp hnew] at hmem
          obtain ⟨t, ht⟩ := h.alive _ hmem
          exact absurd (Heap.lt_next ht) (lt_irrefl _)
        · intro address haddress
          rcases List.mem_append.mp haddress with hold | hnew
          · obtain ⟨t, ht⟩ := h.alive address hold
            exact ⟨t, Heap.get?_alloc_of_some ht _⟩
          · rw [List.mem_singleton.mp hnew]
            exact ⟨_, Heap.get?_alloc_self _ _⟩
  | dropTable name =>
    unfold Database.directoryCall
    cases hindex : db.index.get? name with
    | none =>
      dsimp only
      rw [dropTable_of_none hindex]
      exact ⟨_, db, rfl, h⟩
    | some tid =>
      obtain ⟨entries, htables, halive⟩ := h.exists_entries
      obtain ⟨heap, hremove, hkept, _⟩ := Wired.removeTables_eq tid (htables ▸ h.nodup) halive
      have hdrop : Database.dropTable name db = .ok .OK { db with
          tables := (entries.filter fun other => other.2.id ≠ tid).map Prod.fst
          index := db.index.erase name
          tableIndex := db.tableIndex.erase tid
          dirty := true
          heap := heap } := by
        rw [dropTable_of_some hindex, htables, bind_of_ok hremove]
        rfl
      dsimp only
      rw [hdrop]
      refine ⟨_, _, rfl, ?_, ?_⟩
      · exact (htables ▸ h.nodup).sublist (List.filter_sublist.map Prod.fst)
      · intro address haddress
        obtain ⟨entry, hentry, rfl⟩ := List.mem_map.mp haddress
        obtain ⟨hmem, hne⟩ := List.mem_filter.mp hentry
        exact ⟨entry.2, hkept entry hmem (of_decide_eq_true hne)⟩
  | hasTable name => exact ⟨_, db, rfl, h⟩
  | getTable name => exact ⟨_, db, rfl, h⟩
  | tableCount => exact ⟨_, db, rfl, h⟩
  | through pointer call =>
    obtain ⟨t, ht⟩ := h.alive pointer hheld
    obtain ⟨response, t', hcall⟩ := t.call_total call
    refine ⟨.table response,
      { db with heap := db.heap.put pointer (Heap.lt_next ht) (some t') }, ?_, h.nodup, ?_⟩
    · unfold Database.directoryCall
      dsimp only
      rw [Heap.read_eq_ok.mpr ht]
      change (t.call call >>= _) = _
      rw [hcall]
      change (db.heap.write pointer t' >>= _) = _
      rw [Heap.write_of_some ht]
      rfl
    · intro address haddress
      rw [Heap.get?_put]
      split
      · exact ⟨t', rfl⟩
      · exact h.alive address haddress

/-- A run that goes through no dangling pointer completes. -/
private theorem Owned.run {db : Database} (h : db.Owned) {calls : List DirectoryCall}
    (hheld : Along Database.directoryCall PointerHeld db calls) :
    ∃ responses db', Refinement.run Database.directoryCall db calls = .ok (responses, db') := by
  induction calls generalizing db with
  | nil => exact ⟨[], db, rfl⟩
  | cons call calls ih =>
    obtain ⟨response, db', hcall, h'⟩ := h.directoryCall hheld.1
    obtain ⟨responses, db'', hrun⟩ := ih h' (hheld.2 response db' hcall)
    refine ⟨response :: responses, db'', ?_⟩
    rw [run_cons hcall, hrun]

/-- A call that reports a failure has changed nothing. -/
private theorem eq_of_failed {db db' : Database} {call : DirectoryCall} {s : Status}
    (hcall : db.directoryCall call = .ok (.status s, db')) (hs : s ≠ .OK) : db' = db := by
  cases call with
  | createTable name schema =>
    unfold directoryCall Database.createTable at hcall
    dsimp only at hcall
    split at hcall
    · cases hcall
      rfl
    · split at hcall
      · cases hcall
        rfl
      · cases hcall
        contradiction
  | dropTable name =>
    unfold directoryCall at hcall
    dsimp only at hcall
    cases hdrop : Database.dropTable name db with
    | error fault db₁ =>
      rw [hdrop] at hcall
      cases hcall
    | ok s₁ db₁ =>
      rw [hdrop] at hcall
      cases hcall
      cases hindex : db.index.get? name with
      | none =>
        rw [dropTable_of_none hindex] at hdrop
        cases hdrop
        rfl
      | some tid =>
        rw [dropTable_of_some hindex] at hdrop
        obtain ⟨_, _, _, hdrop⟩ := bind_eq_ok hdrop
        obtain ⟨_, _, _, hdrop⟩ := bind_eq_ok hdrop
        cases hdrop
        contradiction
  | hasTable name => cases hcall
  | getTable name => cases hcall
  | tableCount => cases hcall
  | through pointer call =>
    unfold directoryCall at hcall
    obtain ⟨t, _, hcall⟩ := except_bind_eq_ok.mp hcall
    obtain ⟨⟨response, t'⟩, _, hcall⟩ := except_bind_eq_ok.mp hcall
    obtain ⟨heap, _, hcall⟩ := except_bind_eq_ok.mp hcall
    cases hcall

/-- Every run from an empty database that goes through pointers to its tables only completes.
With fewer than `2 ^ 32` successful creations its responses are those of a directory, whose
tables the database then holds; a call that failed has changed nothing. -/
theorem database_refines_directory (name : String) (calls : List DirectoryCall)
    (hheld : Along directoryCall PointerHeld (Database.new name) calls) :
    ∃ responses db,
      Refinement.run directoryCall (Database.new name) calls = .ok (responses, db) ∧
      (creations calls responses < 2 ^ 32 → ∃ d,
        Follows Directory.Answers FiniteMap.empty calls responses d ∧ db.Holds d) ∧
      ∀ call s db', db.directoryCall call = .ok (.status s, db') → s ≠ .OK → db' = db := by
  obtain ⟨responses, db, hrun⟩ := (Consistent.new name).owned.run hheld
  refine ⟨responses, db, hrun, fun hroom => ?_, fun _ _ _ => eq_of_failed⟩
  have hstart : (Database.new name).nextTableId.toNat = 0 := rfl
  obtain ⟨entries, d, hfollows, h⟩ :=
    (Mirrors.new name).run hheld hrun (by rw [hstart, Nat.zero_add]; exact hroom)
  exact ⟨d, hfollows, h.holds⟩

omit [InsertPolicy] in
/-- A surviving table is found under its name after another was dropped and a third one was
created. -/
theorem database_refines_directory_survivor :
    letI : InsertPolicy := ⟨true⟩
    ∃ db d, Refinement.run directoryCall (Database.new "shop")
        [.createTable "a" [], .createTable "b" [], .dropTable "a", .createTable "c" [],
          .getTable "b", .through 1 (.insertRecord (Record.new 7 Json.emptyObject))] =
        .ok ([.status .OK, .status .OK, .status .OK, .status .OK, .pointer (some 1),
          .table (.status .OK)], db) ∧
      Follows Directory.Answers FiniteMap.empty
        [.createTable "a" [], .createTable "b" [], .dropTable "a", .createTable "c" [],
          .getTable "b", .through 1 (.insertRecord (Record.new 7 Json.emptyObject))]
        [.status .OK, .status .OK, .status .OK, .status .OK, .pointer (some 1),
          .table (.status .OK)] d ∧ db.Holds d := by
  let _ : InsertPolicy := ⟨true⟩
  have hheld : Along directoryCall PointerHeld (Database.new "shop")
      [.createTable "a" [], .createTable "b" [], .dropTable "a", .createTable "c" [],
        .getTable "b", .through 1 (.insertRecord (Record.new 7 Json.emptyObject))] := by
    refine ⟨trivial, fun _ s h => ?_⟩
    obtain rfl := congrArg Prod.snd (Except.ok.inj h)
    refine ⟨trivial, fun _ s h => ?_⟩
    obtain rfl := congrArg Prod.snd (Except.ok.inj h)
    refine ⟨trivial, fun _ s h => ?_⟩
    obtain rfl := congrArg Prod.snd (Except.ok.inj h)
    refine ⟨trivial, fun _ s h => ?_⟩
    obtain rfl := congrArg Prod.snd (Except.ok.inj h)
    refine ⟨trivial, fun _ s h => ?_⟩
    obtain rfl := congrArg Prod.snd (Except.ok.inj h)
    exact ⟨List.mem_cons_self, fun _ _ _ => trivial⟩
  obtain ⟨responses, db, hrun, hdirectory, _⟩ := database_refines_directory "shop" _ hheld
  have hresponses : [.status .OK, .status .OK, .status .OK, .status .OK, .pointer (some 1),
      .table (.status .OK)] = responses := congrArg Prod.fst (Except.ok.inj hrun)
  rw [← hresponses] at hrun hdirectory
  obtain ⟨d, hfollows, hholds⟩ := hdirectory (by decide)
  exact ⟨db, d, hrun, hfollows, hholds⟩

end Agreement

end Database

end MiniDB.Core
