import MiniDB.Core.Requirements
import MiniDB.Core.SchemaValidity
import MiniDB.Engine.DecodingTargets

/-!
# What a rejected document leaves behind

Decoding assigns fields and adds records and pages as it goes. A document that is rejected
halfway leaves behind what was decoded in front of the first thing that did not suit, so a
target is kept exactly if it already held all of that.
-/

namespace MiniDB.Engine

open MiniDB.Common MiniDB.Common.FileIO MiniDB.JsonPro MiniDB.Core Memory Posix Requirement
  Traversal

/-- A call that ends with another status than `OK` leaves its target as it was. -/
def KeptOnFailure {State : Type} (ends : Status → State → Prop) (s : State) : Prop :=
  ∀ status s', ends status s' → status ≠ .OK → s' = s

/-- A document is rejected, for its shape or for lack of room. -/
def Rejected (requirements : List Requirement) : Prop :=
  firstUnmet requirements = some .shape ∨ firstUnmet requirements = some .room

/-- The identifier that a document gives to a record. -/
def recordIdOf? (envelope : Json) : Option RecordID :=
  (numberOf? "__id__" envelope).bind fun id => id.toUInt64.toOption

/-- A record has what a document gives it before it lacks something. -/
def RecordKept (r : Record) (envelope : Json) : Prop :=
  ∀ id, recordIdOf? envelope = some id → r.id = id ∧
    ∀ deleted, envelope.member? "__deleted__" = some (.bool deleted) → r.deleted = deleted

/-- A page has the identifier that a document gives it, and it is full or the first entry of
the document is null. -/
def PageKept (p : Page) (envelope : Json) : Prop :=
  ∀ id, pageIdOf? envelope = some id → p.id = id ∧
    ∀ entry entries, envelope.member? "records" = some (.array (entry :: entries)) →
      p.pool.used = DBConstants.MAX_RECORDS_PAGE ∨ entry.isNull = true

/-- A table has the identifier, the name and the columns that a document gives it before it
lacks something, and no page is decoded until then. -/
def TableKept (t : Table) (envelope : Json) : Prop :=
  ∀ id, tableIdOf? envelope = some id → t.id = id ∧
    ∀ name, tableNameOf? envelope = some name →
      t.name = name ∧ t.schema = Table.columnsRead envelope ∧ Table.pagesRead envelope = []

/-- What is rejected did not succeed. -/
theorem Rejected.ne_ok {State : Type} {result : EStateM.Result Fault State Status}
    {requirements : List Requirement} (h : Rejected requirements)
    (hverdict : verdict result = firstUnmet requirements) (s : State) : result ≠ .ok .OK s := by
  rintro rfl
  unfold Rejected at h
  rw [← hverdict] at h
  rcases h with hshape | hroom
  · cases hshape
  · cases hroom

/-- Deserializing keeps its target on failure exactly if decoding a document that is rejected
ends where it began. -/
theorem keptOnFailure_text [JsonText] {State : Type} {decode : Json → EStateM Fault State Status}
    {requirements : Json → List Requirement} {s : State} {raw : List UInt8}
    (hnull : decode .null s = .ok .PARSE_ERROR s)
    (hverdict : ∀ document, verdict (decode document s) = firstUnmet (requirements document)) :
    KeptOnFailure (fun status s' => catching .PARSE_ERROR (do
      let envelope ← JsonText.parse raw
      if envelope.isNull then return .PARSE_ERROR
      decode envelope) s = .ok status s') s ↔
      ∀ document, JsonText.parse raw = .ok document → Rejected (requirements document) →
        finalState (decode document s) = s := by
  unfold KeptOnFailure catching
  dsimp only
  rw [lift_bind]
  cases hparse : JsonText.parse raw with
  | error fault =>
    rw [JsonText.parse_fault hparse]
    constructor
    · intro _ document hdocument
      cases hdocument
    · intro _ status s' hresult _
      cases hresult
      rfl
  | ok document =>
    have hdecode : (if document.isNull then return .PARSE_ERROR else decode document :
        EStateM Fault State Status) s = decode document s := by
      cases document with
      | null => exact hnull.symm
      | _ => rfl
    dsimp only
    rw [hdecode]
    have hdocument := hverdict document
    simp only [Except.ok.injEq, forall_eq']
    unfold Rejected
    rw [← hdocument]
    cases decode document s with
    | error fault s' =>
      cases fault with
      | exception => simp [verdict, finalState]
      | undefined => simp [verdict]
    | ok status s' =>
      cases status with
      | OK => simp [verdict]
      | PARSE_ERROR => simp [verdict, finalState]
      | _ => simp [verdict, finalState]

/-- A boolean is read exactly if it is there. -/
theorem bool_member_iff {envelope : Json} {key : String} {value : Bool} :
    envelope.member? key = some (.bool value) ↔
      (envelope.index key >>= Json.asBool) = .ok value := by
  rw [except_bind_eq_ok]
  simp only [Json.index_eq_ok, Json.asBool_eq_ok]
  exact ⟨fun h => ⟨_, h, rfl⟩, fun ⟨_, h, hvalue⟩ => hvalue ▸ h⟩

/-- A record that is not decoded ends as it began exactly if it has what the document gives it. -/
theorem record_final_iff {envelope : Json} {r : Record}
    (h : ∀ r', Record.fromJson envelope r ≠ .ok .OK r') :
    finalState (Record.fromJson envelope r) = r ↔ RecordKept r envelope := by
  revert h
  unfold RecordKept Record.fromJson
  split
  · rename_i hnull
    have hnone : recordIdOf? envelope = none := by
      cases envelope with
      | null => rfl
      | _ => cases hnull
    rw [hnone]
    exact fun _ => ⟨fun _ _ hid => absurd hid (by simp), fun _ => rfl⟩
  · rw [lift_lift_bind, lift_lift_bind, lift_bind]
    unfold recordIdOf?
    rw [numberOf?_bind_eq]
    cases (envelope.index "__id__" >>= Json.asNumber) >>= Double.toUInt64 with
    | error fault =>
      exact fun _ => ⟨fun _ _ hid => absurd hid (by simp [Except.toOption]), fun _ => rfl⟩
    | ok id =>
      dsimp only [Except.toOption]
      rw [modify_bind, lift_lift_bind, lift_bind]
      simp only [bool_member_iff, Option.some.injEq, forall_eq']
      cases envelope.index "__deleted__" >>= Json.asBool with
      | error fault =>
        intro _
        constructor
        · intro heq
          exact ⟨(congrArg Record.id heq).symm, fun deleted hdeleted => by cases hdeleted⟩
        · rintro ⟨rfl, _⟩
          rfl
      | ok deleted =>
        dsimp only
        rw [modify_bind, lift_bind]
        simp only [Except.ok.injEq, forall_eq']
        cases envelope.index "data" with
        | error fault =>
          intro _
          constructor
          · intro heq
            exact ⟨(congrArg Record.id heq).symm, (congrArg Record.deleted heq).symm⟩
          · rintro ⟨rfl, rfl⟩
            rfl
        | ok data => exact fun h => absurd rfl (h ⟨id, data, deleted⟩)

/-- Decoding entries leaves the identifier alone and gives no slot back that was in use. -/
theorem loadRecords_keeps (entries : List Json) (p : Page) :
    (finalState (Page.loadRecords entries p)).id = p.id ∧
      p.pool.used ≤ (finalState (Page.loadRecords entries p)).pool.used := by
  induction entries generalizing p with
  | nil => exact ⟨rfl, le_rfl⟩
  | cons entry entries ih =>
    rw [Page.loadRecords_cons]
    cases p.pool.create with
    | none => exact ⟨rfl, le_rfl⟩
    | some next =>
      dsimp only
      have hnext : p.pool.used ≤ next.val.used := by
        rw [next.property]
        exact Nat.le_succ _
      cases Record.fromJson entry Record.default with
      | error fault slot => exact ⟨rfl, hnext⟩
      | ok status slot =>
        cases status with
        | OK =>
          obtain ⟨hid, hused⟩ := ih (p.push slot next)
          exact ⟨hid, hnext.trans hused⟩
        | _ => exact ⟨rfl, le_rfl⟩

/-- Decoding entries ends where it began only if the page is full or the first entry is null:
every other entry takes a slot. -/
theorem entries_final_iff (entry : Json) (entries : List Json) (p : Page) :
    finalState (Page.loadRecords (entry :: entries) p) = p ↔
      p.pool.used = DBConstants.MAX_RECORDS_PAGE ∨ entry.isNull = true := by
  rw [Page.loadRecords_cons]
  cases hcreate : p.pool.create with
  | none =>
    have hle := p.pool.used_le
    have hfull : ¬p.pool.used < DBConstants.MAX_RECORDS_PAGE := by
      intro hlt
      unfold Pool.create at hcreate
      rw [dif_pos hlt] at hcreate
      cases hcreate
    exact ⟨fun _ => Or.inl (by omega), fun _ => rfl⟩
  | some next =>
    have hroom : p.pool.used ≠ DBConstants.MAX_RECORDS_PAGE := by
      intro hfull
      unfold Pool.create at hcreate
      rw [dif_neg (by omega)] at hcreate
      cases hcreate
    have hnext := next.property
    dsimp only
    -- a slot in use is never given back to the pool
    have htaken : ∀ final : Page, next.val.used ≤ final.pool.used → final ≠ p := by
      rintro final hfinal rfl
      omega
    cases hdecode : Record.fromJson entry Record.default with
    | error fault slot =>
      have hnull : entry.isNull ≠ true := by
        intro hnull
        unfold Record.fromJson at hdecode
        rw [if_pos hnull] at hdecode
        cases hdecode
      have hlost := htaken (p.lose next) le_rfl
      exact ⟨fun heq => absurd heq hlost, fun h => (h.elim hroom hnull).elim⟩
    | ok status slot =>
      by_cases hnull : entry.isNull = true
      · unfold Record.fromJson at hdecode
        rw [if_pos hnull] at hdecode
        cases hdecode
        exact ⟨fun _ => Or.inr hnull, fun _ => rfl⟩
      · obtain rfl := (record_status_cases hdecode).resolve_right hnull
        have hpushed := htaken _ (loadRecords_keeps entries (p.push slot next)).2
        exact ⟨fun heq => absurd heq hpushed, fun h => (h.elim hroom hnull).elim⟩

/-- A page that is not decoded ends as it began exactly if it has the identifier that the
document gives it and no entry takes a slot. -/
theorem page_final_iff {envelope : Json} {p : Page}
    (h : ∀ p', Page.fromJson envelope p ≠ .ok .OK p') :
    finalState (Page.fromJson envelope p) = p ↔ PageKept p envelope := by
  revert h
  unfold PageKept Page.fromJson
  split
  · rename_i hnull
    have hnone : pageIdOf? envelope = none := by
      cases envelope with
      | null => rfl
      | _ => cases hnull
    rw [hnone]
    exact fun _ => ⟨fun _ _ hid => absurd hid (by simp), fun _ => rfl⟩
  · rw [lift_lift_bind, lift_lift_bind, lift_bind, pageIdOf?_eq]
    cases (envelope.index "__page_id__" >>= Json.asNumber) >>= Double.toUInt32 with
    | error fault =>
      exact fun _ => ⟨fun _ _ hid => absurd hid (by simp [Except.toOption]), fun _ => rfl⟩
    | ok id =>
      dsimp only [Except.toOption]
      rw [modify_bind, lift_lift_bind, lift_bind]
      simp only [Option.some.injEq, forall_eq']
      rcases index_asArray "records" envelope with ⟨items, hmember, hitems⟩ | ⟨hmember, hitems⟩
      · rw [hitems, hmember]
        dsimp only
        cases items with
        | nil => exact fun h => absurd rfl (h _)
        | cons entry entries =>
          intro _
          have hentries : ∀ q : Page, q = p →
              (finalState (Page.loadRecords (entry :: entries) q) = p ↔
                p.pool.used = DBConstants.MAX_RECORDS_PAGE ∨ entry.isNull = true) := by
            rintro q rfl
            exact entries_final_iff entry entries q
          constructor
          · intro heq
            have hid : p.id = id := by
              rw [← heq]
              exact (loadRecords_keeps _ _).1
            subst hid
            refine ⟨rfl, fun entry' entries' heads => ?_⟩
            cases heads
            exact (hentries _ rfl).mp heq
          · rintro ⟨rfl, hkept⟩
            exact (hentries _ rfl).mpr (hkept entry entries rfl)
      · rw [hitems]
        intro _
        constructor
        · intro heq
          exact ⟨(congrArg Page.id heq).symm, fun _ _ hrecords => absurd hrecords (hmember _)⟩
        · rintro ⟨rfl, _⟩
          rfl

/-- A table that is not decoded ends as it began exactly if it has what the document gives it
and no page is decoded. -/
theorem table_final_iff [InsertPolicy] {envelope : Json} {t : Table}
    (h : ∀ t', Table.fromJson envelope t ≠ .ok .OK t') :
    finalState (Table.fromJson envelope t) = t ↔ TableKept t envelope := by
  have hwritten : finalState (Table.fromJson envelope t) = t.written envelope := by
    rcases Table.fromJson_written envelope t with hfinal | ⟨⟨t', hok⟩, _⟩
    · exact hfinal
    · exact absurd hok (h t')
  rw [hwritten]
  unfold TableKept Table.written
  cases tableIdOf? envelope with
  | none => exact ⟨fun _ _ hid => absurd hid (by simp), fun _ => rfl⟩
  | some id =>
    simp only [Option.some.injEq, forall_eq']
    cases tableNameOf? envelope with
    | none =>
      constructor
      · intro heq
        exact ⟨(congrArg Table.id heq).symm, fun _ hname => absurd hname (by simp)⟩
      · rintro ⟨rfl, _⟩
        rfl
    | some name =>
      simp only [Option.some.injEq, forall_eq']
      constructor
      · intro heq
        have hpages := congrArg Table.pages heq
        exact ⟨(congrArg Table.id heq).symm, (congrArg Table.name heq).symm,
          (congrArg Table.schema heq).symm, List.append_right_eq_self.mp hpages⟩
      · rintro ⟨rfl, rfl, hschema, hpages⟩
        rw [← hschema, hpages, List.append_nil]

section Text

variable [JsonText]

/-- Deserializing into a page keeps it on failure exactly if it is kept by every value that
the text parses to and that is rejected. -/
theorem keptOnFailure_page_iff (raw : List UInt8) (p : Page) :
    KeptOnFailure (fun status p' => Page.deserialize raw p = .ok status p') p ↔
      ∀ envelope, JsonText.parse raw = .ok envelope →
        Rejected (pageRequirements (DBConstants.MAX_RECORDS_PAGE - p.pool.used) envelope) →
          PageKept p envelope := by
  unfold Page.deserialize
  rw [keptOnFailure_text rfl fun envelope => verdict_page envelope p]
  refine forall_congr' fun envelope => imp_congr_right fun _ => imp_congr_right fun hrejected => ?_
  exact page_final_iff (hrejected.ne_ok (verdict_page envelope p))

/-- Reading a page from disk keeps it on failure exactly if deserializing the payload that is
read does. -/
theorem keptOnFailure_disk_iff (s : StorageEngine) (tableName : String) (id : PageID)
    (io : Schedule) (p : Page) :
    KeptOnFailure (fun status p' => s.readPageFromDisk tableName id p io = .ok (status, p')) p ↔
      ∀ payload, readSlot s.files (s.pageFilePath tableName) id.toUInt64
        (UInt32.ofNat DBConstants.PAGE_SIZE) io = .ok (.OK, payload) →
          KeptOnFailure (fun status p' => Page.deserialize payload p = .ok status p') p := by
  unfold KeptOnFailure StorageEngine.readPageFromDisk
  simp only [except_bind_eq_ok]
  cases readSlot s.files (s.pageFilePath tableName) id.toUInt64
      (UInt32.ofNat DBConstants.PAGE_SIZE) io with
  | error fault => simp
  | ok slot =>
    obtain ⟨status, payload⟩ := slot
    by_cases hstatus : status = .OK
    · subst hstatus
      simp only [Except.ok.injEq, exists_eq_left', ne_eq, not_true, if_false, Prod.mk.injEq,
        true_and, forall_eq']
      cases p.deserialize payload with
      | error fault p₁ => simp
      | ok status p₁ => simp [pure, Except.pure]
    · simp [hstatus, pure, Except.pure]

/-- A document that is rejected leaves the target as it was if and only if the target already
held what is decoded before the document lacks something. -/
theorem keptOnFailure_iff [InsertPolicy] (s : StorageEngine) (tableName : String) (id : PageID)
    (io : Schedule) (raw : List UInt8) (r : Record) (p : Page) (t : Table) :
    (KeptOnFailure (fun status r' => Record.deserialize raw r = .ok status r') r ↔
      ∀ envelope, JsonText.parse raw = .ok envelope →
        Rejected (recordRequirements envelope) → RecordKept r envelope) ∧
    (KeptOnFailure (fun status p' => Page.deserialize raw p = .ok status p') p ↔
      ∀ envelope, JsonText.parse raw = .ok envelope →
        Rejected (pageRequirements (DBConstants.MAX_RECORDS_PAGE - p.pool.used) envelope) →
          PageKept p envelope) ∧
    (KeptOnFailure (fun status t' => Table.deserialize raw t = .ok status t') t ↔
      ∀ envelope, JsonText.parse raw = .ok envelope →
        Rejected (tableRequirements envelope) → TableKept t envelope) ∧
    (KeptOnFailure (fun status p' => s.readPageFromDisk tableName id p io = .ok (status, p')) p ↔
      ∀ payload, readSlot s.files (s.pageFilePath tableName) id.toUInt64
        (UInt32.ofNat DBConstants.PAGE_SIZE) io = .ok (.OK, payload) →
        ∀ envelope, JsonText.parse payload = .ok envelope →
          Rejected (pageRequirements (DBConstants.MAX_RECORDS_PAGE - p.pool.used) envelope) →
            PageKept p envelope) := by
  refine ⟨?_, keptOnFailure_page_iff raw p, ?_, ?_⟩
  · unfold Record.deserialize
    rw [keptOnFailure_text rfl fun envelope => verdict_record envelope r]
    refine forall_congr' fun envelope => imp_congr_right fun _ => imp_congr_right fun hreject => ?_
    exact record_final_iff (hreject.ne_ok (verdict_record envelope r))
  · unfold Table.deserialize
    rw [keptOnFailure_text rfl fun envelope => verdict_table envelope t]
    refine forall_congr' fun envelope => imp_congr_right fun _ => imp_congr_right fun hreject => ?_
    exact table_final_iff (hreject.ne_ok (verdict_table envelope t))
  · rw [keptOnFailure_disk_iff]
    simp only [keptOnFailure_page_iff]

end Text

/-- A document of a table whose second page is null. -/
def halfTable : Json :=
  .object [("__table_id___", .ofInt 0), ("__name__", .string "people"), ("schema", .array []),
    ("page", .array [.object [("__page_id__", .ofInt 3), ("records", .array [])], .null])]

/-- The first page of a rejected table stays behind, and no index knows it. -/
theorem not_keptOnFailure_halfTable :
    letI : InsertPolicy := ⟨true⟩
    letI := JsonText.ofDocument [] halfTable
    ¬KeptOnFailure (fun status t' => Table.deserialize [] (Table.new "people" 0 []) =
      .ok status t') (Table.new "people" 0 []) := by
  intro h
  have hrejected : @Table.deserialize ⟨true⟩ (JsonText.ofDocument [] halfTable) []
      (Table.new "people" 0 []) =
        .ok .PARSE_ERROR { Table.new "people" 0 [] with pages := [Page.new 3] } := rfl
  have hpages := congrArg Table.pages (h _ _ hrejected (by decide))
  cases hpages

end MiniDB.Engine
