import MiniDB.Core.Record
import MiniDB.Library.KeyedList

/-!
# Pages

`Page.cpp`: at most `MAX_RECORDS_PAGE` records in insertion order, each in a slot of the
page's pool. Deletion only marks a record; `compact` drops the marked ones and frees their
slots. A slot taken while decoding fails by an exception is never given back.
-/

namespace MiniDB.Core

open MiniDB.Common MiniDB.JsonPro Memory

/-- The slot allocator of a page: it serves exactly `MAX_RECORDS_PAGE` slots. -/
structure Pool where
  /-- The number of slots in use. -/
  used : ℕ
  /-- No more slots are in use than there are. -/
  used_le : used ≤ DBConstants.MAX_RECORDS_PAGE
  deriving DecidableEq

/-- A pool without slots in use. -/
def Pool.empty : Pool := ⟨0, by decide⟩

/-- A pool with one more slot in use. -/
abbrev Pool.Next (pool : Pool) := { next : Pool // next.used = pool.used + 1 }

/-- `create`: one more slot, if there is one. -/
def Pool.create (pool : Pool) : Option pool.Next :=
  if h : pool.used < DBConstants.MAX_RECORDS_PAGE then some ⟨⟨pool.used + 1, h⟩, rfl⟩ else none

/-- `destroy`, applied to `count` slots. -/
def Pool.destroy (pool : Pool) (count : ℕ) : Pool :=
  ⟨pool.used - count, Nat.le_trans (Nat.sub_le _ _) pool.used_le⟩

/-- A page of records. -/
structure Page where
  /-- Identifier of the page. -/
  id : PageID
  /-- Whether the page has unsaved changes. -/
  dirty : Bool
  /-- The records, in insertion order. -/
  records : List Record
  /-- The slots the records occupy. -/
  pool : Pool
  /-- Every record occupies a slot. -/
  records_le : records.length ≤ pool.used

namespace Page

/-- `Page(id)`. -/
def new (id : PageID) : Page := ⟨id, false, [], Pool.empty, Nat.zero_le _⟩

/-- `getID`. -/
def getID (p : Page) : PageID := p.id

/-- `isFull`. -/
def isFull (p : Page) : Bool := p.records.length == DBConstants.MAX_RECORDS_PAGE

/-- `recordCount`: soft-deleted records are counted. -/
def recordCount (p : Page) : ℕ := p.records.length

/-- `freeSlots`. -/
def freeSlots (p : Page) : ℕ := DBConstants.MAX_RECORDS_PAGE - p.records.length

/-- The page with a record in a newly created slot. -/
def push (p : Page) (record : Record) (next : p.pool.Next) : Page where
  id := p.id
  dirty := p.dirty
  records := p.records ++ [record]
  pool := next
  records_le := by
    rw [next.property, List.length_append]
    exact Nat.succ_le_succ p.records_le

@[simp] theorem push_used (p : Page) (record : Record) (next : p.pool.Next) :
    (p.push record next).pool.used = p.pool.used + 1 := next.property

/-- The page with a newly created slot that holds no listed record. -/
def lose (p : Page) (next : p.pool.Next) : Page where
  id := p.id
  dirty := p.dirty
  records := p.records
  pool := next
  records_le := by
    rw [next.property]
    exact Nat.le_succ_of_le p.records_le

/-- `addRecord`: the data is copied into a new live record. -/
def addRecord (p : Page) (record : Record) : Status × Page :=
  if p.isFull then (.OUT_OF_MEMORY, p)
  else match p.pool.create with
    | none => (.OUT_OF_MEMORY, p)
    | some next => (.OK, { p.push (Record.new record.getID record.data) next with dirty := true })

/-- Whether a record is live and has the given identifier. -/
def isLiveWith (id : RecordID) (r : Record) : Bool := !r.isDeleted && r.getID == id

/-- `getRecord`: the first live record with the identifier. -/
def getRecord (p : Page) (id : RecordID) : Option Record := p.records.find? (isLiveWith id)

/-- The records with the first live one of the given identifier changed. -/
def changeFirst (id : RecordID) (change : Record → Record) : List Record → List Record
  | [] => []
  | r :: records =>
    if isLiveWith id r then change r :: records else r :: changeFirst id change records

@[simp] theorem changeFirst_length (id : RecordID) (change : Record → Record)
    (records : List Record) : (changeFirst id change records).length = records.length := by
  induction records with
  | nil => rfl
  | cons r records ih =>
    unfold changeFirst
    split
    · rfl
    · rw [List.length_cons, ih, List.length_cons]

/-- The page with the first live record of the given identifier changed, marked dirty. -/
def change (p : Page) (id : RecordID) (change : Record → Record) : Page where
  id := p.id
  dirty := true
  records := changeFirst id change p.records
  pool := p.pool
  records_le := by
    rw [changeFirst_length]
    exact p.records_le

/-- `updateRecord`. -/
def updateRecord (p : Page) (record : Record) : Status × Page :=
  match p.getRecord record.getID with
  | none => (.NOT_FOUND, p)
  | some _ => (.OK, p.change record.getID fun existing => { existing with data := record.data })

/-- `deleteRecord`. -/
def deleteRecord (p : Page) (id : RecordID) : Status × Page :=
  match p.getRecord id with
  | none => (.NOT_FOUND, p)
  | some _ => (.OK, p.change id Record.markDeleted)

/-- The records that are not soft-deleted, in slot order. -/
def live (p : Page) : List Record := p.records.filter fun r => !r.isDeleted

/-- `compact`: the slots of deleted records are destroyed, the dirty mark is cleared. -/
def compact (p : Page) : Status × Page :=
  (.OK, {
    id := p.id
    dirty := false
    records := p.live
    pool := p.pool.destroy (p.records.filter fun r => r.isDeleted).length
    records_le := by
      have hsplit :=
        List.length_eq_length_filter_add (fun r : Record => !r.isDeleted) (l := p.records)
      have hle := p.records_le
      simp only [Bool.not_not] at hsplit
      unfold live Pool.destroy
      dsimp only
      omega })

/-- `toJson`: soft-deleted records are left out. -/
def toJson (p : Page) : Json :=
  .object [("__page_id__", .ofInt (toInt32 p.id.toNat)),
    ("records", .array (p.live.map Record.toJson))]

/-- The loop of `fromJson` over the entries of the array. -/
def loadRecords : List Json → EStateM Fault Page Status
  | [] => do
    modify fun p => { p with dirty := false }
    return .OK
  | entry :: entries => do
    let p ← get
    match p.pool.create with
    | none => return .OUT_OF_MEMORY
    | some next =>
      match Record.fromJson entry Record.default with
      | .ok .OK slot =>
        set (p.push slot next)
        loadRecords entries
      | .ok status _ => return status
      | .error fault _ =>
        set (p.lose next)
        throw fault

/-- `fromJson`: the decoded records are added to those of the page. -/
def fromJson (envelope : Json) : EStateM Fault Page Status := do
  if envelope.isNull then return .PARSE_ERROR
  let id ← (← (← envelope.index "__page_id__").asNumber).toUInt32
  modify fun p => { p with id }
  let arr ← (← envelope.index "records").asArray
  loadRecords arr

section Text

variable [JsonText]

/-- `serialize`. -/
def serialize (p : Page) : List UInt8 := JsonText.dump p.toJson

/-- `deserialize`. -/
def deserialize (raw : List UInt8) : EStateM Fault Page Status :=
  catching .PARSE_ERROR do
    let envelope ← JsonText.parse raw
    if envelope.isNull then return .PARSE_ERROR
    fromJson envelope

end Text

/-- Every slot in use holds a listed record. -/
def Exact (p : Page) : Prop := p.pool.used = p.records.length

theorem exact_new (id : PageID) : (new id).Exact := rfl

/-- Adding a record to a page fails and changes nothing, or puts it behind the others. -/
theorem addRecord_cases (p : Page) (record : Record) :
    (∃ s, s ≠ .OK ∧ p.addRecord record = (s, p)) ∨
    ∃ p', p.addRecord record = (.OK, p') ∧ p'.id = p.id ∧
      p'.live = p.live ++ [Record.new record.id record.data] := by
  unfold addRecord
  split
  · exact Or.inl ⟨.OUT_OF_MEMORY, by decide, rfl⟩
  · split
    · exact Or.inl ⟨.OUT_OF_MEMORY, by decide, rfl⟩
    · refine Or.inr ⟨_, rfl, rfl, ?_⟩
      unfold live push
      rw [List.filter_append]
      rfl

/-- A page whose slots all hold listed records accepts a record unless it is full. -/
theorem addRecord_of_room {p : Page} (h : p.Exact) (hfull : p.isFull = false) (record : Record) :
    ∃ p', p.addRecord record = (.OK, p') ∧ p'.Exact := by
  have hroom : p.pool.used < DBConstants.MAX_RECORDS_PAGE := by
    have hle := p.pool.used_le
    have hne : p.records.length ≠ DBConstants.MAX_RECORDS_PAGE := by
      simpa [isFull] using hfull
    unfold Exact at h
    omega
  have hcreate : p.pool.create = some ⟨⟨p.pool.used + 1, hroom⟩, rfl⟩ := dif_pos hroom
  refine ⟨{ p.push (Record.new record.getID record.data) ⟨⟨p.pool.used + 1, hroom⟩, rfl⟩
    with dirty := true }, ?_, ?_⟩
  · unfold addRecord
    rw [hfull, if_neg Bool.false_ne_true, hcreate]
  · unfold Exact push
    dsimp only
    rw [List.length_append, List.length_singleton, ← h]

/-- A live record with an identifier is found on its page. -/
theorem getRecord_eq (p : Page) (id : RecordID) :
    p.getRecord id = KeyedList.lookup Record.id p.live id := by
  unfold getRecord live KeyedList.lookup
  rw [List.find?_filter]
  congr 1
  funext r
  unfold isLiveWith Record.getID
  rw [Bool.beq_eq_decide_eq]
  cases r.isDeleted <;> simp

/-- The identifiers of live records are found. -/
theorem exists_getRecord {p : Page} {id : RecordID} (h : id ∈ p.live.map Record.id) :
    ∃ found, p.getRecord id = some found := by
  rw [getRecord_eq, ← Option.ne_none_iff_exists']
  intro hnone
  exact (KeyedList.lookup_eq_none Record.id).mp hnone h

/-- Changing a record in place uses no other slot. -/
theorem Exact.change {p : Page} (h : p.Exact) (id : RecordID) (change : Record → Record) :
    (p.change id change).Exact :=
  h.trans (changeFirst_length _ _ _).symm

/-- A record that is found is not deleted. -/
theorem live_of_getRecord {p : Page} {id : RecordID} {r : Record} (h : p.getRecord id = some r) :
    (!r.isDeleted) = true := by
  have hfound := List.find?_some h
  unfold isLiveWith at hfound
  exact (Bool.and_eq_true_iff.mp hfound).1

/-- A record that is found is live. -/
theorem mem_live_of_getRecord {p : Page} {id : RecordID} {r : Record}
    (h : p.getRecord id = some r) : r ∈ p.live :=
  List.mem_filter.mpr ⟨List.mem_of_find?_eq_some h, live_of_getRecord h⟩

/-- A record that is found has the identifier. -/
theorem id_of_getRecord {p : Page} {id : RecordID} {r : Record} (h : p.getRecord id = some r) :
    r.id = id := by
  have hfound := List.find?_some h
  unfold isLiveWith at hfound
  exact beq_iff_eq.mp (Bool.and_eq_true_iff.mp hfound).2

/-- Changing the first live record with an identifier acts on one live record alone. -/
theorem live_changeFirst_around {id : RecordID} {records : List Record} {r : Record}
    (h : records.find? (isLiveWith id) = some r) :
    ∃ left right, (records.filter fun r => !r.isDeleted) = left ++ r :: right ∧
      ∀ change : Record → Record,
        (changeFirst id change records).filter (fun r => !r.isDeleted) =
          left ++ [change r].filter (fun r => !r.isDeleted) ++ right := by
  induction records with
  | nil => cases h
  | cons first records ih =>
    cases hfirst : isLiveWith id first with
    | true =>
      rw [List.find?_cons_of_pos hfirst] at h
      have heq : first = r := Option.some.inj h
      subst heq
      have hlive : (!first.isDeleted) = true := by
        unfold isLiveWith at hfirst
        exact (Bool.and_eq_true_iff.mp hfirst).1
      refine ⟨[], records.filter fun r => !r.isDeleted, ?_, fun change => ?_⟩
      · rw [List.filter_cons_of_pos (p := fun r : Record => !r.isDeleted) hlive]
        rfl
      · unfold changeFirst
        rw [if_pos hfirst, List.nil_append, ← List.filter_append, List.singleton_append]
    | false =>
      rw [List.find?_cons_of_neg (by rw [hfirst]; exact Bool.false_ne_true)] at h
      obtain ⟨left, right, haround, hchange⟩ := ih h
      have hstep : ∀ change : Record → Record, changeFirst id change (first :: records) =
          first :: changeFirst id change records := by
        intro change
        rw [changeFirst, hfirst, if_neg Bool.false_ne_true]
      cases hlive : !first.isDeleted with
      | true =>
        refine ⟨first :: left, right, ?_, fun change => ?_⟩
        · rw [List.filter_cons_of_pos (p := fun r : Record => !r.isDeleted) hlive, haround]
          rfl
        · rw [hstep, List.filter_cons_of_pos (p := fun r : Record => !r.isDeleted) hlive, hchange]
          rfl
      | false =>
        have hskip : ¬(!first.isDeleted) = true := by rw [hlive]; exact Bool.false_ne_true
        refine ⟨left, right, ?_, fun change => ?_⟩
        · rw [List.filter_cons_of_neg (p := fun r : Record => !r.isDeleted) hskip, haround]
        · rw [hstep, List.filter_cons_of_neg (p := fun r : Record => !r.isDeleted) hskip, hchange]

/-- Giving other data to the first live record with an identifier changes that one only. -/
theorem live_update {p : Page} {id : RecordID} {r : Record} (h : p.getRecord id = some r)
    (data : Json) : ∃ left right, p.live = left ++ [r] ++ right ∧
      (p.change id fun existing => { existing with data }).live =
        left ++ [{ r with data }] ++ right := by
  obtain ⟨left, right, hbefore, hafter⟩ := live_changeFirst_around h
  have hmark : (!r.isDeleted) = true := live_of_getRecord h
  have hlive : ([{ r with data }] : List Record).filter (fun r => !r.isDeleted) =
      [{ r with data }] :=
    List.filter_eq_self.mpr fun changed hchanged => by
      rw [List.mem_singleton.mp hchanged]
      exact hmark
  refine ⟨left, right, hbefore.trans (List.append_cons left r right), ?_⟩
  rw [← hlive]
  exact hafter fun existing => { existing with data }

/-- Marking the first live record with an identifier removes that one only. -/
theorem live_delete {p : Page} {id : RecordID} {r : Record} (h : p.getRecord id = some r) :
    ∃ left right, p.live = left ++ [r] ++ right ∧
      (p.change id Record.markDeleted).live = left ++ [] ++ right := by
  obtain ⟨left, right, hbefore, hafter⟩ := live_changeFirst_around h
  exact ⟨left, right, hbefore.trans (List.append_cons left r right), hafter Record.markDeleted⟩

/-- The identifiers of a page: its own and those of its live records. -/
def ids (p : Page) : PageID × List RecordID := (p.id, p.live.map Record.id)

/-- Giving a record other data keeps all identifiers. -/
theorem ids_update {p : Page} {id : RecordID} {r : Record} (h : p.getRecord id = some r)
    (data : Json) : (p.change id fun existing => { existing with data }).ids = p.ids := by
  obtain ⟨left, right, hbefore, hafter⟩ := live_update h data
  unfold ids
  rw [hbefore, hafter]
  simp only [List.map_append, List.map_cons, List.map_nil]
  rfl

/-- Marking a record removes its identifier. -/
theorem ids_delete {p : Page} {id : RecordID} {r : Record} (h : p.getRecord id = some r)
    (hnodup : (p.live.map Record.id).Nodup) : (p.change id Record.markDeleted).ids =
      (p.id, (p.live.map Record.id).filter fun other => other ≠ id) := by
  obtain ⟨left, right, hbefore, hafter⟩ := live_delete h
  rw [List.append_nil] at hafter
  rw [hbefore, List.append_assoc, List.singleton_append] at hnodup
  have hremoved := KeyedList.remove_around Record.id hnodup
  rw [id_of_getRecord h] at hremoved
  unfold ids
  rw [hafter, ← hremoved, hbefore, List.append_assoc, List.singleton_append, List.filter_map]
  rfl

/-- `compact` keeps the live records. -/
theorem live_compact (p : Page) : p.compact.2.live = p.live := by
  unfold compact live
  rw [List.filter_filter]
  simp only [Bool.and_self]

/-- A compacted page is written to the same envelope. -/
theorem toJson_compact (p : Page) : p.compact.2.toJson = p.toJson := by
  unfold toJson
  rw [p.live_compact]
  rfl

/-- `compact` keeps the live records and leaves a page whose slots all hold records. -/
theorem compact_spec {p : Page} (h : p.Exact) :
    p.compact.2.live = p.live ∧ p.compact.2.Exact := by
  constructor
  · exact p.live_compact
  · have hsplit :=
      List.length_eq_length_filter_add (fun r : Record => !r.isDeleted) (l := p.records)
    simp only [Bool.not_not] at hsplit
    unfold Exact at h
    unfold Exact compact live Pool.destroy
    dsimp only
    omega

end Page

end MiniDB.Core
