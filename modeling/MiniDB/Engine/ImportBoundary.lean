import MiniDB.Core.DatabaseRuns
import MiniDB.Core.Requirements
import MiniDB.Engine.Serializer

/-!
# Which texts are decoded without an exception

The four decoders of the core turn every exception into `PARSE_ERROR`. The importers do not:
a text that is not JSON makes them throw. Neither guards the conversions of numbers to
integers, and both stop at the first entry that is not stored.
-/

namespace MiniDB.Engine

open MiniDB.Common MiniDB.JsonPro MiniDB.Core Memory Requirement

/-- The entries of an array are imported if it is one. -/
def importRequirements (document : Json) : List Requirement := [⟨.shape, document.isArray⟩]

/-- The members under the names of tables are imported if they are arrays. -/
def databaseImportRequirements (db : Database) (document : Json) : List Requirement :=
  match document with
  | .object members =>
    (members.filter fun member => (db.getTable member.1).isSome).flatMap fun member =>
      importRequirements member.2
  | _ => [⟨.shape, false⟩]

/-- A number under `id` fits an identifier. -/
def IdFits (entry : Json) : Prop :=
  ∀ value, numberOf? "id" entry = some value → value.fits 0 (2 ^ 64) = true

instance (entry : Json) : Decidable (IdFits entry) :=
  inferInstanceAs (Decidable (∀ value ∈ numberOf? "id" entry, value.fits 0 (2 ^ 64) = true))

/-- An entry gives a record exactly if its identifier fits. -/
theorem entryRecord_cases (nextId : RecordID) (entry : Json) :
    (IdFits entry ∧ ∃ r, entryRecord nextId entry = .ok r) ∨
    (¬IdFits entry ∧ entryRecord nextId entry = .error .undefined) := by
  unfold IdFits entryRecord
  cases hnumber : numberOf? "id" entry with
  | none =>
    left
    refine ⟨fun _ h => absurd h (by simp), Record.new nextId entry, ?_⟩
    split
    · rename_i value hmember
      rw [numberOf?_eq_some.mpr hmember] at hnumber
      cases hnumber
    · rfl
  | some value =>
    have hmember := numberOf?_eq_some.mp hnumber
    rw [hmember]
    dsimp only
    rcases toUInt64_cases value with ⟨hfits, id, hid⟩ | ⟨hfits, hfault⟩
    · left
      refine ⟨fun _ h => Option.some.inj h ▸ hfits, ?_⟩
      rw [hid]
      cases entry with
      | object members => exact ⟨_, rfl⟩
      | _ => cases hmember
    · right
      rw [hfault]
      refine ⟨fun h => ?_, rfl⟩
      rw [h value rfl] at hfits
      cases hfits

section Tables

variable [InsertPolicy]

/-- The records of entries are inserted one after the other, all successfully. -/
inductive Stores : RecordID → List Json → Table → Table → Prop
  | nil (nextId : RecordID) (t : Table) : Stores nextId [] t t
  | cons {nextId : RecordID} {entry : Json} {entries : List Json} {t t₁ t' : Table} {r : Record} :
      entryRecord nextId entry = .ok r → t.insertRecord r = (.OK, t₁) →
      Stores (nextId + 1) entries t₁ t' → Stores nextId (entry :: entries) t t'

/-- Every entry that is reached, all before it being stored, has an identifier that fits. -/
def ReachedFit (nextId : RecordID) (entries : List Json) (t : Table) : Prop :=
  ∀ before entry after t', entries = before ++ entry :: after → Stores nextId before t t' →
    IdFits entry

/-- An import of one entry before others. -/
theorem importEntries_step (nextId : RecordID) (entry : Json) (entries : List Json) (t : Table) :
    importEntries nextId (entry :: entries) t =
      match entryRecord nextId entry with
      | .error fault => .error fault t
      | .ok r =>
        if (t.insertRecord r).1 ≠ .OK then .ok (t.insertRecord r).1 (t.insertRecord r).2
        else importEntries (nextId + 1) entries (t.insertRecord r).2 := by
  rw [importEntries, lift_bind]
  cases entryRecord nextId entry with
  | error fault => rfl
  | ok r =>
    dsimp only
    rw [modifyGet_bind]
    split
    · rfl
    · rfl

/-- An import that succeeds has stored every entry. -/
theorem importEntries_eq_ok {nextId : RecordID} {entries : List Json} {t t' : Table} :
    importEntries nextId entries t = .ok .OK t' ↔ Stores nextId entries t t' := by
  constructor
  · intro h
    induction entries generalizing nextId t with
    | nil =>
      cases h
      exact .nil _ _
    | cons entry entries ih =>
      rw [importEntries_step] at h
      cases hr : entryRecord nextId entry with
      | error fault =>
        rw [hr] at h
        cases h
      | ok r =>
        rw [hr] at h
        dsimp only at h
        split at h
        · rename_i hs
          injection h with hstatus
          exact absurd hstatus hs
        · rename_i hs
          exact .cons hr (Prod.ext (not_not.mp hs) rfl) (ih h)
  · intro h
    induction h with
    | nil nextId t => rfl
    | cons hr hinsert _ ih =>
      rw [importEntries_step, hr]
      dsimp only
      rw [hinsert, if_neg (not_not.mpr rfl)]
      exact ih

/-- Entries are reached behind a stored one as in the table it leaves. -/
private theorem reachedFit_cons {nextId : RecordID} {entry : Json} {entries : List Json}
    {t : Table} {r : Record} (hr : entryRecord nextId entry = .ok r) (hfits : IdFits entry) :
    ReachedFit nextId (entry :: entries) t ↔
      ((t.insertRecord r).1 = .OK → ReachedFit (nextId + 1) entries (t.insertRecord r).2) := by
  constructor
  · rintro h hinsert before other after t' rfl hstores
    exact h (entry :: before) other after t' rfl (.cons hr (Prod.ext hinsert rfl) hstores)
  · intro h before other after t' hsplit hstores
    cases hstores with
    | nil =>
      cases hsplit
      exact hfits
    | cons hr' hinsert hrest =>
      rw [List.cons_append, List.cons.injEq] at hsplit
      obtain ⟨rfl, hsplit⟩ := hsplit
      rw [hr] at hr'
      cases hr'
      have hstatus := congrArg Prod.fst hinsert
      have hstate := congrArg Prod.snd hinsert
      dsimp only at hstatus hstate
      rw [← hstate] at hrest
      exact h hstatus _ _ _ _ hsplit hrest

/-- An import returns exactly if the identifiers of the entries that it reaches fit. -/
theorem importEntries_returns_iff (nextId : RecordID) (entries : List Json) (t : Table) :
    (∃ s t', importEntries nextId entries t = .ok s t') ↔ ReachedFit nextId entries t := by
  induction entries generalizing nextId t with
  | nil =>
    refine ⟨fun _ before entry after t' hsplit _ => ?_, fun _ => ⟨.OK, t, rfl⟩⟩
    exact absurd hsplit (by simp)
  | cons entry entries ih =>
    rw [importEntries_step]
    rcases entryRecord_cases nextId entry with ⟨hfits, r, hr⟩ | ⟨hnot, hfault⟩
    · rw [hr, reachedFit_cons hr hfits]
      dsimp only
      by_cases hs : (t.insertRecord r).1 = .OK
      · rw [if_neg (not_not.mpr hs), ih]
        exact ⟨fun h _ => h, fun h => h hs⟩
      · rw [if_pos hs]
        exact ⟨fun _ h => absurd h hs, fun _ => ⟨_, _, rfl⟩⟩
    · rw [hfault]
      constructor
      · rintro ⟨_, _, h⟩
        cases h
      · intro h
        exact absurd (h [] entry entries t rfl (.nil nextId t)) hnot

/-- An import of a value returns exactly if it reaches no identifier that does not fit. -/
theorem importTable_returns_iff (document : Json) (t : Table) :
    (∃ s t', importTable document t = .ok s t') ↔
      ∀ entries, document = .array entries → ReachedFit 0 entries t := by
  cases document with
  | array entries =>
    have himport : importTable (.array entries) t = importEntries 0 entries t := rfl
    rw [himport, importEntries_returns_iff]
    exact ⟨fun h _ heq => Json.array.inj heq ▸ h, fun h => h entries rfl⟩
  | _ => exact ⟨fun _ _ h => (nomatch h), fun _ => ⟨_, _, rfl⟩⟩

/-- A value that is no array is reported. -/
theorem importTable_of_not_isArray {document : Json} (h : document.isArray = false) (t : Table) :
    importTable document t = .ok .PARSE_ERROR t := by
  cases document with
  | array entries => cases h
  | _ => rfl

/-- An insertion never reports that something does not parse. -/
theorem insertRecord_ne_parseError (t : Table) (r : Record) :
    (t.insertRecord r).1 ≠ .PARSE_ERROR := by
  have hvalidate : r.validate t.schema ≠ .PARSE_ERROR := by
    generalize t.schema = schema
    induction schema with
    | nil =>
      intro h
      cases h
    | cons col schema ih =>
      unfold Record.validate
      split
      · split
        · intro h
          cases h
        · exact ih
      · split
        · intro h
          cases h
        · exact ih
  have hadd : ∀ page : Page, (page.addRecord r).1 ≠ .PARSE_ERROR := by
    intro page
    unfold Page.addRecord
    split
    · intro h
      cases h
    · split
      · intro h
        cases h
      · intro h
        cases h
  unfold Table.insertRecord
  split
  · split
    · intro h
      cases h
    · dsimp only
      split
      · intro h
        cases h
      · rename_i page _
        have hpage := hadd page
        split
        · intro h
          cases h
        · rename_i heq
          rw [heq] at hpage
          exact hpage
  · exact hvalidate

/-- An import of entries never reports that something does not parse. -/
theorem importEntries_ne_parseError {nextId : RecordID} {entries : List Json} {s : Status}
    {t t' : Table} (h : importEntries nextId entries t = .ok s t') : s ≠ .PARSE_ERROR := by
  induction entries generalizing nextId t with
  | nil =>
    cases h
    decide
  | cons entry entries ih =>
    rw [importEntries_step] at h
    cases hr : entryRecord nextId entry with
    | error fault =>
      rw [hr] at h
      cases h
    | ok r =>
      rw [hr] at h
      dsimp only at h
      split at h
      · injection h with hstatus
        exact hstatus ▸ insertRecord_ne_parseError _ r
      · exact ih h

end Tables

section Databases

/-- The names of a database lead to living tables. -/
def Resolves (db : Database) : Prop :=
  ∀ name address, db.getTable name = some address → ∃ t, db.heap.get? address = some t

/-- A linked database resolves its names. -/
theorem resolves_of_linked {db : Database} {entries : List Database.Entry}
    (h : db.Linked entries) : Resolves db := by
  intro name address hget
  rcases @Database.Wired.getTable _ _ h.wired name with ⟨hnone, _⟩ | ⟨entry, hentry, _, hsome⟩
  · rw [hnone] at hget
    cases hget
  · rw [hsome] at hget
    cases hget
    exact ⟨entry.2, h.heap hentry⟩

variable [InsertPolicy]

/-- The members that name tables are arrays whose entries are all stored in these tables. -/
inductive StoresAll : List (String × Json) → Database → Database → Prop
  | nil (db : Database) : StoresAll [] db db
  | skipped {name : String} {data : Json} {members : List (String × Json)} {db db' : Database} :
      db.getTable name = none → StoresAll members db db' →
      StoresAll ((name, data) :: members) db db'
  | stored {name : String} {entries : List Json} {members : List (String × Json)}
      {db db' : Database} {address : Address} {t t' : Table} {heap : Heap Table} :
      db.getTable name = some address → db.heap.get? address = some t → Stores 0 entries t t' →
      db.heap.write address t' = .ok heap → StoresAll members { db with heap := heap } db' →
      StoresAll ((name, .array entries) :: members) db db'

/-- Every entry that is reached has an identifier that fits, and behind a member whose entries
are not all stored every member that names a table is an array. -/
def MembersFit (members : List (String × Json)) (db : Database) : Prop :=
  ∀ before name entries after db' address t, members = before ++ (name, .array entries) :: after →
    StoresAll before db db' → db'.getTable name = some address →
    db'.heap.get? address = some t → ReachedFit 0 entries t ∧
      ((¬∃ t', Stores 0 entries t t') → ∀ member ∈ after,
        (db'.getTable member.1).isSome = true → member.2.isArray = true)

/-- Some member under the name of a table is no array. -/
def MembersMalformed (members : List (String × Json)) (db : Database) : Prop :=
  ∃ member ∈ members, (db.getTable member.1).isSome = true ∧ member.2.isArray = false

/-- An import of members reports. -/
def MembersReport (members : List (String × Json)) (db : Database) : Prop :=
  (∃ s db', importTables members db = .ok s db') ∧
    (MembersMalformed members db → ∃ db', importTables members db = .ok .PARSE_ERROR db')

/-- A member that names no table is skipped. -/
theorem importTables_skip {db : Database} {name : String} (h : db.getTable name = none)
    (data : Json) (members : List (String × Json)) :
    importTables ((name, data) :: members) db = importTables members db := by
  have hread : (get : EStateM Fault Database Database) db = .ok db db := rfl
  conv_lhs => unfold importTables
  rw [bind_of_ok hread]
  split
  · rfl
  · rw [bind_of_ok hread, h]

/-- A member that names a table is imported into it. -/
theorem importTables_named {db : Database} {name : String} {address : Address} {t : Table}
    (h : db.getTable name = some address) (ht : db.heap.get? address = some t) (data : Json)
    (members : List (String × Json)) :
    importTables ((name, data) :: members) db =
      match importTable data t with
      | .error fault t' =>
        .error fault { db with heap := db.heap.put address (Heap.lt_next ht) (some t') }
      | .ok s t' =>
        if s ≠ .OK then .ok s { db with heap := db.heap.put address (Heap.lt_next ht) (some t') }
        else importTables members
          { db with heap := db.heap.put address (Heap.lt_next ht) (some t') } := by
  have hread : (get : EStateM Fault Database Database) db = .ok db db := rfl
  have hknown : db.hasTable name = true := by
    unfold Database.getTable at h
    unfold Database.hasTable FiniteMap.contains
    split at h
    · cases h
    · rename_i hindex
      rw [hindex]
      rfl
  conv_lhs => unfold importTables
  rw [bind_of_ok hread, hknown, if_neg (by decide), bind_of_ok hread, h]
  change EStateM.bind (Database.onTable address (importTable data)) _ db = _
  unfold EStateM.bind Database.onTable
  rw [Heap.read_eq_ok.mpr ht]
  dsimp only
  cases importTable data t with
  | error fault t' =>
    dsimp only
    rw [Heap.write_of_some ht]
  | ok s t' =>
    dsimp only
    rw [Heap.write_of_some ht]
    dsimp only
    split
    · rfl
    · rfl

omit [InsertPolicy] in
/-- A database with another table at the address of a living one. -/
private theorem resolves_put {db : Database} (h : Resolves db) {address : Address}
    (hlt : address < db.heap.next) (t : Table) :
    Resolves { db with heap := db.heap.put address hlt (some t) } := by
  intro name other hget
  obtain ⟨t', ht'⟩ := h name other hget
  dsimp only
  rw [Heap.get?_put]
  split
  · exact ⟨t, rfl⟩
  · exact ⟨t', ht'⟩

omit [InsertPolicy] in
/-- A member that names no table does not make the others malformed. -/
private theorem membersMalformed_skip {db : Database} {name : String}
    (h : db.getTable name = none) (data : Json) (members : List (String × Json)) :
    MembersMalformed ((name, data) :: members) db ↔ MembersMalformed members db := by
  unfold MembersMalformed
  rw [List.exists_mem_cons_iff, h]
  simp

/-- A member that names no table does not matter to the others. -/
private theorem membersFit_skip {db : Database} {name : String} (h : db.getTable name = none)
    (data : Json) (members : List (String × Json)) :
    MembersFit ((name, data) :: members) db ↔ MembersFit members db := by
  constructor
  · intro hfit before other entries after db' address t hsplit hstores hget ht
    exact hfit ((name, data) :: before) other entries after db' address t
      (by rw [hsplit, List.cons_append]) (.skipped h hstores) hget ht
  · intro hfit before other entries after db' address t hsplit hstores hget ht
    cases hstores with
    | nil =>
      cases hsplit
      rw [h] at hget
      cases hget
    | skipped _ hrest =>
      rw [List.cons_append, List.cons.injEq] at hsplit
      exact hfit _ _ _ _ _ _ _ hsplit.2 hrest hget ht
    | stored hsome _ _ _ _ =>
      rw [List.cons_append, List.cons.injEq] at hsplit
      cases hsplit.1
      rw [h] at hsome
      cases hsome

/-- The members behind an array that names a table matter if its entries are all stored, and
must be arrays if not. -/
private theorem membersFit_named {db : Database} {name : String} {address : Address} {t : Table}
    (h : db.getTable name = some address) (ht : db.heap.get? address = some t)
    (entries : List Json) (members : List (String × Json)) :
    MembersFit ((name, .array entries) :: members) db ↔ ReachedFit 0 entries t ∧
      ((¬∃ t', Stores 0 entries t t') → ¬MembersMalformed members db) ∧
      ∀ t', Stores 0 entries t t' → MembersFit members
        { db with heap := db.heap.put address (Heap.lt_next ht) (some t') } := by
  constructor
  · intro hfit
    obtain ⟨hreached, hshape⟩ := hfit [] name entries members db address t rfl (.nil db) h ht
    refine ⟨hreached, fun hnot => ?_, fun t' hstores => ?_⟩
    · rintro ⟨member, hmember, hknown, harray⟩
      rw [hshape hnot member hmember hknown] at harray
      cases harray
    · intro before other entries' after db' address' t'' hsplit hall hget ht''
      exact hfit ((name, .array entries) :: before) other entries' after db' address' t''
        (by rw [hsplit, List.cons_append]) (.stored h ht hstores (Heap.write_of_some ht t') hall)
        hget ht''
  · rintro ⟨hreached, hshape, hrest⟩ before other entries' after db' address' t'' hsplit hall
      hget ht''
    cases hall with
    | nil =>
      cases hsplit
      rw [h] at hget
      cases hget
      rw [ht] at ht''
      cases ht''
      refine ⟨hreached, fun hnot member hmember hknown => ?_⟩
      by_contra harray
      exact hshape hnot ⟨member, hmember, hknown, Bool.eq_false_iff.mpr harray⟩
    | skipped hnone _ =>
      rw [List.cons_append, List.cons.injEq] at hsplit
      cases hsplit.1
      rw [h] at hnone
      cases hnone
    | stored hsome ht₀ hstores hwrite hall =>
      rw [List.cons_append, List.cons.injEq] at hsplit
      cases hsplit.1
      rw [h] at hsome
      cases hsome
      rw [ht] at ht₀
      cases ht₀
      rw [Heap.write_of_some ht] at hwrite
      cases hwrite
      exact hrest _ hstores _ _ _ _ _ _ _ hsplit.2 hall hget ht''

omit [InsertPolicy] in
/-- An array that names a table does not make the members malformed. -/
private theorem membersMalformed_array (db : Database) (name : String) (entries : List Json)
    (members : List (String × Json)) :
    MembersMalformed ((name, .array entries) :: members) db ↔ MembersMalformed members db := by
  unfold MembersMalformed
  rw [List.exists_mem_cons_iff]
  simp [Json.isArray]

section First

variable {db : Database} {name : String} {address : Address} {t : Table}
  (h : db.getTable name = some address) (ht : db.heap.get? address = some t)
include h ht

/-- A first member that names a table and is no array is reported, and no later one is reached. -/
private theorem membersReport_of_not_isArray {data : Json} (harray : data.isArray = false)
    (members : List (String × Json)) :
    MembersReport ((name, data) :: members) db ∧ MembersFit ((name, data) :: members) db := by
  have hnamed := importTables_named h ht data members
  rw [importTable_of_not_isArray harray] at hnamed
  dsimp only at hnamed
  rw [if_pos (by decide)] at hnamed
  refine ⟨⟨⟨_, _, hnamed⟩, fun _ => ⟨_, hnamed⟩⟩, ?_⟩
  intro before other entries after db' address' t' hsplit hall _ _
  cases hall with
  | nil =>
    cases hsplit
    cases harray
  | skipped hnone _ =>
    rw [List.cons_append, List.cons.injEq] at hsplit
    cases hsplit.1
    rw [h] at hnone
    cases hnone
  | stored _ _ _ _ _ =>
    rw [List.cons_append, List.cons.injEq] at hsplit
    cases hsplit.1
    cases harray

/-- Behind an array whose entries are all stored, the other members decide. -/
private theorem membersReport_of_stores {entries : List Json} {t' : Table}
    (hstores : Stores 0 entries t t') {members : List (String × Json)}
    (hrest :
      MembersReport members { db with heap := db.heap.put address (Heap.lt_next ht) (some t') } ↔
        MembersFit members { db with heap := db.heap.put address (Heap.lt_next ht) (some t') }) :
    MembersReport ((name, .array entries) :: members) db ↔
      MembersFit ((name, .array entries) :: members) db := by
  have hresult := importEntries_eq_ok.mpr hstores
  have himport : importTable (.array entries) t = .ok .OK t' := hresult
  have hnamed := importTables_named h ht (.array entries) members
  rw [himport] at hnamed
  dsimp only at hnamed
  rw [if_neg (not_not.mpr rfl)] at hnamed
  have hreached : ReachedFit 0 entries t :=
    (importEntries_returns_iff 0 entries t).mp ⟨_, _, hresult⟩
  unfold MembersReport at hrest ⊢
  rw [hnamed, membersMalformed_array, membersFit_named h ht]
  constructor
  · intro hreport
    refine ⟨hreached, fun hnot => absurd ⟨t', hstores⟩ hnot, ?_⟩
    intro t'' hstores'
    have hsame := importEntries_eq_ok.mpr hstores'
    rw [hresult] at hsame
    cases hsame
    exact hrest.mp hreport
  · rintro ⟨_, _, hfit⟩
    exact hrest.mpr (hfit t' hstores)

/-- An array whose entries are not all stored ends the import with another status than that of
a malformed member. -/
private theorem membersReport_of_not_stores {entries : List Json}
    (hnot : ¬∃ t', Stores 0 entries t t') (members : List (String × Json)) :
    MembersReport ((name, .array entries) :: members) db ↔
      MembersFit ((name, .array entries) :: members) db := by
  have himport : importTable (.array entries) t = importEntries 0 entries t := rfl
  have hnamed := importTables_named h ht (.array entries) members
  rw [himport] at hnamed
  unfold MembersReport
  rw [membersFit_named h ht, membersMalformed_array, ← importEntries_returns_iff]
  cases hresult : importEntries 0 entries t with
  | error fault t' =>
    rw [hresult] at hnamed
    dsimp only at hnamed
    rw [hnamed]
    constructor
    · rintro ⟨⟨_, _, hok⟩, _⟩
      cases hok
    · rintro ⟨⟨_, _, hok⟩, _⟩
      cases hok
  | ok s t' =>
    have hs : s ≠ .OK := by
      rintro rfl
      exact hnot ⟨t', importEntries_eq_ok.mp hresult⟩
    rw [hresult] at hnamed
    dsimp only at hnamed
    rw [if_pos hs] at hnamed
    rw [hnamed]
    constructor
    · rintro ⟨_, hreport⟩
      refine ⟨⟨_, _, rfl⟩, fun _ hbad => ?_, fun t'' hstores => absurd ⟨t'', hstores⟩ hnot⟩
      obtain ⟨_, hok⟩ := hreport hbad
      injection hok with hstatus
      exact importEntries_ne_parseError hresult hstatus
    · rintro ⟨_, hshape, _⟩
      exact ⟨⟨_, _, rfl⟩, fun hbad => absurd hbad (hshape hnot)⟩

end First

/-- An import of members reports exactly if they fit. -/
theorem membersReport_iff {members : List (String × Json)} {db : Database} (h : Resolves db) :
    MembersReport members db ↔ MembersFit members db := by
  induction members generalizing db with
  | nil =>
    constructor
    · intro _ before name entries after db' address t hsplit
      exact absurd hsplit (by simp)
    · intro _
      exact ⟨⟨.OK, db, rfl⟩, fun ⟨_, hmem, _⟩ => absurd hmem List.not_mem_nil⟩
  | cons member members ih =>
    obtain ⟨name, data⟩ := member
    cases hget : db.getTable name with
    | none =>
      unfold MembersReport
      rw [importTables_skip hget, membersMalformed_skip hget, membersFit_skip hget]
      exact ih h
    | some address =>
      obtain ⟨t, ht⟩ := h name address hget
      cases harray : data.isArray with
      | false =>
        have hfirst := membersReport_of_not_isArray hget ht harray members
        exact iff_of_true hfirst.1 hfirst.2
      | true =>
        obtain ⟨entries, rfl⟩ : ∃ entries, data = .array entries := by
          cases data with
          | array entries => exact ⟨entries, rfl⟩
          | _ => cases harray
        by_cases hstores : ∃ t', Stores 0 entries t t'
        · obtain ⟨t', hstores⟩ := hstores
          exact membersReport_of_stores hget ht hstores
            (ih (resolves_put h (Heap.lt_next ht) t'))
        · exact membersReport_of_not_stores hget ht hstores members

end Databases

section Texts

variable [InsertPolicy] [JsonText]

/-- A text from which a table can be imported: JSON in which every entry that is reached has an
identifier that fits. -/
def TableImportable (text : List UInt8) (t : Table) : Prop :=
  ∃ document, JsonText.parse text = .ok document ∧
    ∀ entries, document = .array entries → ReachedFit 0 entries t

/-- A text from which a database can be imported: JSON, and null or an object whose members
fit. -/
def DatabaseImportable (text : List UInt8) (db : Database) : Prop :=
  ∃ document, JsonText.parse text = .ok document ∧
    (document = .null ∨ ∃ members, document = .object members ∧ MembersFit members db)

/-- A text is imported without an exception exactly if a table can be imported from it. -/
theorem importTableFromJson_returns_iff (text : List UInt8) (t : Table) :
    (∃ s t', importTableFromJson text t = .ok s t') ↔ TableImportable text t := by
  unfold TableImportable importTableFromJson
  rw [lift_bind]
  cases hparse : JsonText.parse text with
  | error fault =>
    constructor
    · rintro ⟨_, _, h⟩
      cases h
    · rintro ⟨_, h, _⟩
      cases h
  | ok document =>
    dsimp only
    rw [importTable_returns_iff]
    constructor
    · intro hreached
      exact ⟨document, rfl, hreached⟩
    · rintro ⟨other, hother, hreached⟩
      cases hother
      exact hreached

/-- An import into a table reports exactly on the texts from which it can be imported. -/
theorem importTableFromJson_reports_iff (text : List UInt8) (t : Table) :
    Reports text importRequirements (importTableFromJson text t) ↔ TableImportable text t := by
  refine ⟨fun h => (importTableFromJson_returns_iff text t).mp h.1, fun h =>
    ⟨(importTableFromJson_returns_iff text t).mpr h, fun hmalformed => ?_⟩⟩
  obtain ⟨document, hparse, _⟩ := h
  have harray : document.isArray = false := by
    rw [Bool.eq_false_iff]
    intro harray
    apply hmalformed document hparse
    unfold importRequirements Shaped
    rw [List.forall_mem_singleton]
    exact fun _ => harray
  refine ⟨t, ?_⟩
  unfold importTableFromJson
  rw [lift_bind, hparse]
  exact importTable_of_not_isArray harray t

omit [InsertPolicy] in
/-- A document is malformed for an import into a database as its members are. -/
private theorem malformed_object_iff {text : List UInt8} {members : List (String × Json)}
    (hparse : JsonText.parse text = .ok (.object members)) (db : Database) :
    Malformed text (databaseImportRequirements db) ↔ MembersMalformed members db := by
  unfold Malformed MembersMalformed databaseImportRequirements Shaped importRequirements
  rw [hparse]
  simp only [Except.ok.injEq, forall_eq', List.mem_flatMap, List.mem_filter, List.mem_singleton]
  push Not
  constructor
  · rintro ⟨r, ⟨member, ⟨hmember, hknown⟩, rfl⟩, _, hmet⟩
    exact ⟨member, hmember, hknown, by simpa using hmet⟩
  · rintro ⟨member, hmember, hknown, harray⟩
    exact ⟨_, ⟨member, ⟨hmember, hknown⟩, rfl⟩, rfl, by simpa using harray⟩

/-- An import into a database reports exactly on the texts from which it can be imported. -/
theorem importDatabaseFromJson_reports_iff {db : Database} (h : Resolves db)
    (text : List UInt8) :
    Reports text (databaseImportRequirements db) (importDatabaseFromJson (.OK, text) db) ↔
      DatabaseImportable text db := by
  unfold DatabaseImportable importDatabaseFromJson
  dsimp only
  rw [lift_bind]
  cases hparse : JsonText.parse text with
  | error fault =>
    constructor
    · rintro ⟨⟨_, _, h⟩, _⟩
      cases h
    · rintro ⟨_, h, _⟩
      cases h
  | ok document =>
    cases document with
    | null =>
      exact ⟨fun _ => ⟨_, rfl, Or.inl rfl⟩, fun _ => ⟨⟨_, _, rfl⟩, fun _ => ⟨_, rfl⟩⟩⟩
    | object members =>
      have hreport := @membersReport_iff _ members db h
      unfold MembersReport at hreport
      rw [← malformed_object_iff hparse] at hreport
      constructor
      · intro hreports
        exact ⟨_, rfl, Or.inr ⟨members, rfl, hreport.mp hreports⟩⟩
      · rintro ⟨other, hother, hnull | ⟨others, hobject, hfit⟩⟩
        · rw [hnull] at hother
          cases hother
        · rw [hobject] at hother
          cases hother
          exact hreport.mpr hfit
    | _ =>
      constructor
      · rintro ⟨⟨_, _, h⟩, _⟩
        cases h
      · rintro ⟨other, hother, hnull | ⟨others, hobject, _⟩⟩
        · rw [hnull] at hother
          cases hother
        · rw [hobject] at hother
          cases hother

/-- The decoders of the core report exactly on decided texts, the importers exactly on the texts
from which there is something to import. -/
theorem decoding_reports_iff (text : List UInt8) (r : Record) (p : Page) (t : Table)
    {db : Database} (howned : db.Owned) (hresolves : Resolves db) :
    (Reports text recordRequirements (Record.deserialize text r) ↔
      Decided text recordRequirements) ∧
    (Reports text (pageRequirements (DBConstants.MAX_RECORDS_PAGE - p.pool.used))
        (Page.deserialize text p) ↔
      Decided text (pageRequirements (DBConstants.MAX_RECORDS_PAGE - p.pool.used))) ∧
    (Reports text tableRequirements (Table.deserialize text t) ↔
      Decided text tableRequirements) ∧
    (Reports text databaseRequirements (Database.load (.OK, text) db) ↔
      Decided text databaseRequirements) ∧
    (Reports text importRequirements (importTableFromJson text t) ↔ TableImportable text t) ∧
    (Reports text importRequirements (importTableFromFile (.OK, text) t) ↔
      TableImportable text t) ∧
    (Reports text (databaseImportRequirements db) (importDatabaseFromJson (.OK, text) db) ↔
      DatabaseImportable text db) := by
  refine ⟨?_, ?_, ?_, ?_, importTableFromJson_reports_iff text t,
    importTableFromJson_reports_iff text t, importDatabaseFromJson_reports_iff hresolves text⟩
  · exact reports_iff_decided rfl fun document => verdict_record document r
  · exact reports_iff_decided rfl fun document => verdict_page document p
  · exact reports_iff_decided rfl fun document => verdict_table document t
  · exact reports_iff_decided rfl fun document => verdict_database howned document

end Texts

/-- Members that are all arrays of entries with identifiers that fit can be imported. -/
theorem membersFit_of_forall [InsertPolicy] {members : List (String × Json)}
    (h : ∀ member ∈ members, ∃ entries, member.2 = .array entries ∧ ∀ entry ∈ entries, IdFits entry)
    (db : Database) : MembersFit members db := by
  rintro before name entries after db' address t rfl - - -
  obtain ⟨_, harray, hfit⟩ := h (name, .array entries) (by simp)
  cases harray
  refine ⟨?_, fun _ member hmember _ => ?_⟩
  · rintro before' entry after' t' rfl -
    exact hfit entry (by simp)
  · obtain ⟨_, hafter, _⟩ := h member (by simp [hmember])
    rw [hafter]
    rfl

/-- Entries for two tables. -/
def entriesOfTwo : List (String × Json) :=
  [("orders", .array [.object [("id", .ofInt 7)], .object [("id", .ofInt 7)]]),
    ("items", .array [.emptyObject])]

/-- Every decoder and every importer reports on a text with entries for the two tables of a
database. -/
theorem decoding_reports_iff_entries :
    letI : InsertPolicy := ⟨true⟩
    letI := JsonText.ofDocument [] (.object entriesOfTwo)
    ∃ responses db, Refinement.run Database.call (Database.new "shop")
        [.createTable "orders" [], .createTable "items" []] = .ok (responses, db) ∧
      db.tables = [0, 1] ∧
      Reports [] recordRequirements (Record.deserialize [] Record.default) ∧
      Reports [] (pageRequirements DBConstants.MAX_RECORDS_PAGE)
        (Page.deserialize [] (Page.new 0)) ∧
      Reports [] tableRequirements (Table.deserialize [] (Table.new "orders" 0 [])) ∧
      Reports [] databaseRequirements (Database.load (.OK, []) db) ∧
      Reports [] importRequirements (importTableFromJson [] (Table.new "orders" 0 [])) ∧
      Reports [] importRequirements (importTableFromFile (.OK, []) (Table.new "orders" 0 [])) ∧
      Reports [] (databaseImportRequirements db) (importDatabaseFromJson (.OK, []) db) := by
  let _ : InsertPolicy := ⟨true⟩
  let _ := JsonText.ofDocument [] (.object entriesOfTwo)
  have hparse : JsonText.parse [] = .ok (.object entriesOfTwo) := rfl
  have hmade : ∃ responses db, Refinement.run Database.call (Database.new "shop")
      [.createTable "orders" [], .createTable "items" []] = .ok (responses, db) ∧
      db.tables = [0, 1] := ⟨_, _, rfl, rfl⟩
  obtain ⟨responses, db, hrun, htables⟩ := hmade
  obtain ⟨_, _, hrun', entries, hdb⟩ := Database.run_consistent "shop"
    [.createTable "orders" [], .createTable "items" []] (by decide +kernel)
  cases hrun.symm.trans hrun'
  obtain ⟨hrecord, hpage, htable, hdatabase, himport, hfile, hall⟩ := decoding_reports_iff []
    Record.default (Page.new 0) (Table.new "orders" 0 []) hdb.owned (resolves_of_linked hdb.linked)
  have hdecided : ∀ requirements : Json → List Requirement,
      firstUnmet (requirements (.object entriesOfTwo)) = some .shape → Decided [] requirements := by
    intro requirements hshape document hdocument
    rw [hparse] at hdocument
    cases hdocument
    rw [hshape]
    exact ⟨by decide, fun h => (nomatch h)⟩
  have himportable : TableImportable [] (Table.new "orders" 0 []) :=
    ⟨_, hparse, fun _ h => (nomatch h)⟩
  have hfit : MembersFit entriesOfTwo db := by
    apply membersFit_of_forall
    unfold entriesOfTwo
    rw [List.forall_mem_cons, List.forall_mem_singleton]
    exact ⟨⟨_, rfl, by decide +kernel⟩, _, rfl, by decide +kernel⟩
  exact ⟨responses, db, hrun, htables, hrecord.mpr (hdecided _ rfl), hpage.mpr (hdecided _ rfl),
    htable.mpr (hdecided _ rfl), hdatabase.mpr (hdecided _ rfl), himport.mpr himportable,
    hfile.mpr himportable, hall.mpr ⟨_, hparse, Or.inr ⟨_, rfl, hfit⟩⟩⟩

/-- The importers throw on a text that is not JSON. -/
theorem import_throws :
    letI : InsertPolicy := ⟨true⟩
    letI := JsonText.ofDocument [0x7B, 0x7D] Json.emptyObject
    importTableFromJson [0x7B] (Table.new "orders" 0 []) =
      .error .exception (Table.new "orders" 0 []) ∧
    importTableFromFile (.OK, [0x7B]) (Table.new "orders" 0 []) =
      .error .exception (Table.new "orders" 0 []) ∧
    importDatabaseFromJson (.OK, [0x7B]) (Database.new "shop") =
      .error .exception (Database.new "shop") ∧
    ¬Reports [0x7B] importRequirements (importTableFromJson [0x7B] (Table.new "orders" 0 [])) :=
  ⟨rfl, rfl, rfl, fun ⟨⟨_, _, h⟩, _⟩ => (nomatch h)⟩

end MiniDB.Engine
