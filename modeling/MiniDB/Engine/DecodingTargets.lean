import MiniDB.Core.Requirements
import MiniDB.Engine.PageSlots

/-!
# What a decoding target held before

Decoding a page or a table sets some fields and adds to others: the records of a page and
the pages of a table stay in front of those that are decoded. Two targets end alike exactly
if they held the same before and no number out of range is converted.
-/

namespace MiniDB.Engine

open MiniDB.Common MiniDB.Common.FileIO MiniDB.JsonPro MiniDB.Core Memory Posix Requirement

/-- What a decoder returns and leaves of its target. -/
def outcome {State : Type} : EStateM.Result Fault State Status → Except Fault (Status × State)
  | .ok status s => .ok (status, s)
  | .error fault _ => .error fault

/-- Decoding into either of two targets is defined, and if both succeed, they show the same
afterwards. -/
def Replaces {State Shown : Type} (decode : State → Except Fault (Status × State))
    (shown : State → Shown) (s₁ s₂ : State) : Prop :=
  decode s₁ ≠ .error .undefined ∧ decode s₂ ≠ .error .undefined ∧
    ∀ s₁' s₂', decode s₁ = .ok (.OK, s₁') → decode s₂ = .ok (.OK, s₂') → shown s₁' = shown s₂'

/-- The identifier and the records of a page. -/
def pageShown (p : Page) : PageID × List Record := (p.id, p.records)

/-- Everything about a table but its dirty mark. -/
def tableShown (t : Table) : TableID × String × List ColumnDef × List Page ×
    FiniteMap RecordID PageID × FiniteMap PageID ℕ × PageID :=
  (t.id, t.name, t.schema, t.pages, t.index, t.pageIndex, t.nextPageId)

/-- A page reads a document with its free slots without a number out of range. -/
def PageInRange (p : Page) (envelope : Json) : Prop :=
  InRange (pageRequirements (DBConstants.MAX_RECORDS_PAGE - p.pool.used) envelope)

/-- Two pages hold the same records, or the page that is described does not fit into both of them,
and no number that is converted is out of range. -/
def PageTargetsAgree (document : Option Json) (p₁ p₂ : Page) : Prop :=
  ∀ envelope ∈ document, PageInRange p₁ envelope ∧ PageInRange p₂ envelope ∧
    ∀ decoded, Page.ofEnvelope? envelope = some decoded →
      p₁.pool.used + decoded.records.length ≤ DBConstants.MAX_RECORDS_PAGE →
      p₂.pool.used + decoded.records.length ≤ DBConstants.MAX_RECORDS_PAGE →
      p₁.records = p₂.records

/-- Two tables hold the same pages, or no table is described, and no number that is converted is
out of range. -/
def TableTargetsAgree [InsertPolicy] (document : Option Json) (t₁ t₂ : Table) : Prop :=
  ∀ envelope ∈ document, InRange (tableRequirements envelope) ∧
    (Table.ofEnvelope? envelope ≠ none → t₁.pages = t₂.pages)

/-- A decoder reads a document, if there is one. -/
structure Reads {State : Type} (fromJson : Json → EStateM Fault State Status)
    (document : Option Json) (decode : State → Except Fault (Status × State)) : Prop where
  /-- It is undefined where reading the document is. -/
  undefined : ∀ s, decode s = .error .undefined ↔
    ∃ envelope ∈ document, verdict (fromJson envelope s) = some .range
  /-- It succeeds where reading the document does. -/
  ok : ∀ s s', decode s = .ok (.OK, s') ↔ ∃ envelope ∈ document, fromJson envelope s = .ok .OK s'

/-- What a decoder of documents leaves. -/
theorem outcome_eq_ok {State : Type} {result : EStateM.Result Fault State Status}
    {status : Status} {s : State} :
    outcome result = .ok (status, s) ↔ result = .ok status s := by
  cases result with
  | ok status' s' => simp [outcome]
  | error fault s' => simp [outcome]

/-- A decoder of documents is undefined for a number out of range. -/
theorem outcome_eq_undefined {State : Type} {result : EStateM.Result Fault State Status} :
    outcome result = .error .undefined ↔ verdict result = some .range := by
  rw [verdict_eq_range]
  cases result with
  | ok status s => simp [outcome]
  | error fault s => simp [outcome]

/-- A decoder of documents reads its document. -/
theorem reads_document {State : Type} (fromJson : Json → EStateM Fault State Status)
    (envelope : Json) :
    Reads fromJson (some envelope) fun s => outcome (fromJson envelope s) where
  undefined s := by simp [outcome_eq_undefined]
  ok s s' := by simp [outcome_eq_ok]

/-- What is true without a document is true of every decoder that reads none. -/
theorem Reads.replaces_of_none {State Shown : Type} {fromJson : Json → EStateM Fault State Status}
    {decode : State → Except Fault (Status × State)} (h : Reads fromJson none decode)
    (shown : State → Shown) (s₁ s₂ : State) : Replaces decode shown s₁ s₂ := by
  have hdefined : ∀ s, decode s ≠ .error .undefined := by
    intro s hundefined
    obtain ⟨envelope, hmem, _⟩ := (h.undefined s).mp hundefined
    cases hmem
  refine ⟨hdefined s₁, hdefined s₂, fun s₁' _ hdecode _ => ?_⟩
  obtain ⟨envelope, hmem, _⟩ := (h.ok s₁ s₁').mp hdecode
  cases hmem

/-- A page takes a described one up if it has the room. -/
theorem exists_pageInto {envelope : Json} {decoded : Page}
    (hdecoded : Page.ofEnvelope? envelope = some decoded) {p : Page}
    (hroom : p.pool.used + decoded.records.length ≤ DBConstants.MAX_RECORDS_PAGE) :
    ∃ p', Page.fromJson envelope p = .ok .OK p' ∧ p'.records = p.records ++ decoded.records := by
  have hslots : (p.records ++ decoded.records).length ≤
      p.pool.used + decoded.records.length := by
    rw [List.length_append]
    exact Nat.add_le_add_right p.records_le _
  let p' : Page := ⟨decoded.id, false, p.records ++ decoded.records,
    ⟨p.pool.used + decoded.records.length, hroom⟩, hslots⟩
  exact ⟨p', Page.fromJson_into.mpr ⟨decoded, hdecoded, hroom, rfl, rfl, rfl, rfl⟩, rfl⟩

/-- A decoder that adds to the records of a page ends alike for two pages exactly if they held
the same records. -/
theorem replaces_page_iff {decode : Page → Except Fault (Status × Page)} {document : Option Json}
    (h : Reads Page.fromJson document decode) (p₁ p₂ : Page) :
    Replaces decode pageShown p₁ p₂ ↔ PageTargetsAgree document p₁ p₂ := by
  cases document with
  | none => exact ⟨fun _ _ hmem => (nomatch hmem), fun _ => h.replaces_of_none pageShown p₁ p₂⟩
  | some envelope =>
    have hdefined : ∀ p, decode p ≠ .error .undefined ↔ PageInRange p envelope := by
      intro p
      unfold PageInRange InRange
      rw [ne_eq, h.undefined, ← verdict_page]
      simp
    have hok : ∀ {p p'}, decode p = .ok (.OK, p') ↔ Page.fromJson envelope p = .ok .OK p' := by
      intro p p'
      rw [h.ok]
      simp
    unfold Replaces PageTargetsAgree
    rw [hdefined, hdefined]
    constructor
    · rintro ⟨hrange₁, hrange₂, hshown⟩ _ ⟨⟩
      refine ⟨hrange₁, hrange₂, fun decoded hdecoded hroom₁ hroom₂ => ?_⟩
      obtain ⟨p₁', hinto₁, hrecords₁⟩ := exists_pageInto hdecoded hroom₁
      obtain ⟨p₂', hinto₂, hrecords₂⟩ := exists_pageInto hdecoded hroom₂
      have hsame := congrArg Prod.snd (hshown p₁' p₂' (hok.mpr hinto₁) (hok.mpr hinto₂))
      change p₁'.records = p₂'.records at hsame
      rw [hrecords₁, hrecords₂] at hsame
      exact List.append_cancel_right hsame
    · intro hagree
      obtain ⟨hrange₁, hrange₂, hrecords⟩ := hagree envelope rfl
      refine ⟨hrange₁, hrange₂, fun p₁' p₂' hdecode₁ hdecode₂ => ?_⟩
      obtain ⟨decoded, hdecoded, hroom₁, hid₁, _, hrecords₁, _⟩ :=
        Page.fromJson_into.mp (hok.mp hdecode₁)
      obtain ⟨decoded₂, hdecoded₂, hroom₂, hid₂, _, hrecords₂, _⟩ :=
        Page.fromJson_into.mp (hok.mp hdecode₂)
      obtain rfl : decoded = decoded₂ := Option.some.inj (hdecoded.symm.trans hdecoded₂)
      unfold pageShown
      rw [hid₁, hid₂, hrecords₁, hrecords₂, hrecords decoded hdecoded hroom₁ hroom₂]

section Tables

variable [InsertPolicy]

/-- A table added to one of two tables with the same pages looks the same in both. -/
theorem tableShown_into {t₁ t₂ : Table} (hpages : t₁.pages = t₂.pages) (decoded : Table) :
    tableShown (t₁.into decoded) = tableShown (t₂.into decoded) := by
  unfold Table.into Table.rebuildIndex tableShown
  dsimp only
  rw [hpages]

/-- A decoder that adds to the pages of a table ends alike for two tables exactly if they held
the same pages. -/
theorem replaces_table_iff {decode : Table → Except Fault (Status × Table)}
    {document : Option Json} (h : Reads Table.fromJson document decode) (t₁ t₂ : Table) :
    Replaces decode tableShown t₁ t₂ ↔ TableTargetsAgree document t₁ t₂ := by
  cases document with
  | none => exact ⟨fun _ _ hmem => (nomatch hmem), fun _ => h.replaces_of_none tableShown t₁ t₂⟩
  | some envelope =>
    have hdefined : ∀ t, decode t ≠ .error .undefined ↔ InRange (tableRequirements envelope) := by
      intro t
      unfold InRange
      rw [ne_eq, h.undefined, ← verdict_table envelope t]
      simp
    have hok : ∀ {t t'}, decode t = .ok (.OK, t') ↔
        ∃ decoded, Table.ofEnvelope? envelope = some decoded ∧ t' = t.into decoded := by
      intro t t'
      rw [h.ok, ← Table.fromJson_into]
      simp
    unfold Replaces TableTargetsAgree
    rw [hdefined, hdefined]
    constructor
    · rintro ⟨hrange, _, hshown⟩ _ ⟨⟩
      refine ⟨hrange, fun hdescribed => ?_⟩
      obtain ⟨decoded, hdecoded⟩ := Option.ne_none_iff_exists'.mp hdescribed
      have hsame := hshown _ _ (hok.mpr ⟨decoded, hdecoded, rfl⟩)
        (hok.mpr ⟨decoded, hdecoded, rfl⟩)
      unfold tableShown at hsame
      simp only [Prod.mk.injEq] at hsame
      obtain ⟨_, _, _, hpages, _⟩ := hsame
      exact List.append_cancel_right hpages
    · intro hagree
      obtain ⟨hrange, hpages⟩ := hagree envelope rfl
      refine ⟨hrange, hrange, fun t₁' t₂' hdecode₁ hdecode₂ => ?_⟩
      obtain ⟨decoded, hdecoded, rfl⟩ := hok.mp hdecode₁
      obtain ⟨decoded₂, hdecoded₂, rfl⟩ := hok.mp hdecode₂
      obtain rfl : decoded = decoded₂ := Option.some.inj (hdecoded.symm.trans hdecoded₂)
      exact tableShown_into (hpages (by rw [hdecoded]; exact Option.some_ne_none _)) decoded

end Tables

section Text

variable [JsonText]

/-- The document that a text parses to, if it does. -/
def documentIn (raw : List UInt8) : Option Json := (JsonText.parse raw).toOption

/-- A decoder of texts reads the document that the text parses to. -/
theorem reads_text {State : Type} {fromJson : Json → EStateM Fault State Status}
    (hnull : ∀ s, fromJson .null s = .ok .PARSE_ERROR s) (raw : List UInt8) :
    Reads fromJson (documentIn raw) fun s => outcome (catching .PARSE_ERROR (do
      let envelope ← JsonText.parse raw
      if envelope.isNull then return .PARSE_ERROR
      fromJson envelope) s) := by
  unfold documentIn
  cases hparse : JsonText.parse raw with
  | error fault =>
    rw [JsonText.parse_fault hparse]
    constructor
    · exact fun s => ⟨nofun, fun ⟨_, hmem, _⟩ => nomatch hmem⟩
    · exact fun s s' => ⟨nofun, fun ⟨_, hmem, _⟩ => nomatch hmem⟩
  | ok envelope =>
    have hdecode : ∀ s, (do
        let envelope ← (liftM (Except.ok envelope : Except Fault Json) :
          EStateM Fault State Json)
        if envelope.isNull then return .PARSE_ERROR
        fromJson envelope : EStateM Fault State Status) s = fromJson envelope s := by
      intro s
      rw [lift_bind_of_ok rfl]
      cases envelope with
      | null => exact (hnull s).symm
      | _ => rfl
    change Reads fromJson (some envelope) _
    constructor
    · intro s
      rw [outcome_eq_undefined]
      unfold catching
      rw [hdecode]
      cases hfrom : fromJson envelope s with
      | ok status s' => simp [verdict_eq_range, hfrom]
      | error fault s' => cases fault <;> simp [verdict_eq_range, hfrom]
    · intro s s'
      rw [outcome_eq_ok, catching_eq_ok (by decide), hdecode]
      simp

namespace StorageEngine

/-- The document that the payload read from a slot parses to, if one is read. -/
def documentOnDisk (s : StorageEngine) (tableName : String) (id : PageID) (io : Schedule) :
    Option Json :=
  (readSlot s.files (s.pageFilePath tableName) id.toUInt64 slotSize io).toOption.bind fun read =>
    if read.1 = .OK then documentIn read.2 else none

/-- Reading a page from disk reads the document of the slot. -/
theorem reads_disk (s : StorageEngine) (tableName : String) (id : PageID) (io : Schedule) :
    Reads Page.fromJson (s.documentOnDisk tableName id io)
      fun p => s.readPageFromDisk tableName id p io := by
  obtain ⟨status, payload, hread⟩ := s.readSlot_returns tableName id io
  have hdecode : ∀ p, s.readPageFromDisk tableName id p io =
      if status ≠ .OK then .ok (status, p) else outcome (p.deserialize payload) := by
    intro p
    unfold readPageFromDisk
    rw [hread]
    change (if status ≠ .OK then _ else _) = _
    split
    · rfl
    · cases p.deserialize payload with
      | ok status p' => rfl
      | error fault p' => rfl
  unfold documentOnDisk
  rw [hread]
  change Reads _ (if status = .OK then documentIn payload else none) _
  by_cases hstatus : status = .OK
  · have htext := @reads_text _ _ Page.fromJson (fun _ => rfl) payload
    have hdecoded : ∀ p, s.readPageFromDisk tableName id p io = outcome (p.deserialize payload) :=
      fun p => (hdecode p).trans (if_neg (not_not.mpr hstatus))
    rw [if_pos hstatus, funext hdecoded]
    exact htext
  · rw [if_neg hstatus]
    constructor
    · intro p
      rw [hdecode, if_pos hstatus]
      simp
    · intro p p'
      rw [hdecode, if_pos hstatus]
      simp [hstatus]

/-- Reading a new page from disk succeeds with the page that the slot describes. -/
theorem readPageFromDisk_new_eq_ok {s : StorageEngine} {tableName : String} {id : PageID}
    {io : Schedule} {page : Page} :
    s.readPageFromDisk tableName id (Page.new id) io = .ok (.OK, page) ↔
      ∃ envelope ∈ s.documentOnDisk tableName id io, Page.ofEnvelope? envelope = some page := by
  rw [(s.reads_disk tableName id io).ok]
  simp only [Page.fromJson_eq_ok]

/-- Reading a new page from disk is undefined if the slot holds a number out of range. -/
theorem readPageFromDisk_new_undefined_iff {s : StorageEngine} {tableName : String} {id : PageID}
    {io : Schedule} :
    s.readPageFromDisk tableName id (Page.new id) io = .error .undefined ↔
      ∃ envelope ∈ s.documentOnDisk tableName id io, ¬PageInRange (Page.new id) envelope := by
  rw [(s.reads_disk tableName id io).undefined]
  unfold PageInRange InRange
  simp only [verdict_page, ne_eq, not_not]

/-- Reading a page from disk returns, or it is undefined. -/
theorem readPageFromDisk_ends (s : StorageEngine) (tableName : String) (id : PageID) (out : Page)
    (io : Schedule) : (∃ status loaded,
      s.readPageFromDisk tableName id out io = .ok (status, loaded)) ∨
      s.readPageFromDisk tableName id out io = .error .undefined := by
  obtain ⟨status, payload, hread⟩ := s.readSlot_returns tableName id io
  unfold readPageFromDisk
  rw [hread]
  change (∃ _ _, (if status ≠ .OK then _ else _) = _) ∨ (if status ≠ .OK then _ else _) = _
  split
  · exact Or.inl ⟨_, _, rfl⟩
  · unfold Page.deserialize
    rcases catching_cases _ _ out with ⟨decoded, loaded, hdecode⟩ | ⟨loaded, hundefined⟩
    · rw [hdecode]
      exact Or.inl ⟨decoded, loaded, rfl⟩
    · rw [hundefined]
      exact Or.inr rfl

end StorageEngine

/-- Whatever two targets held, decoding is defined and replaces it exactly if they agree on the
records or the pages that decoding does not reset and no number out of range is converted. -/
theorem replaces_iff_targetsAgree [InsertPolicy] (s : StorageEngine) (tableName : String)
    (id : PageID) (io : Schedule) (envelope : Json) (raw : List UInt8) (p₁ p₂ : Page)
    (t₁ t₂ : Table) :
    (Replaces (fun p => outcome (Page.fromJson envelope p)) pageShown p₁ p₂ ↔
      PageTargetsAgree (some envelope) p₁ p₂) ∧
    (Replaces (fun p => outcome (Page.deserialize raw p)) pageShown p₁ p₂ ↔
      PageTargetsAgree (documentIn raw) p₁ p₂) ∧
    (Replaces (fun p => s.readPageFromDisk tableName id p io) pageShown p₁ p₂ ↔
      PageTargetsAgree (s.documentOnDisk tableName id io) p₁ p₂) ∧
    (Replaces (fun t => outcome (Table.fromJson envelope t)) tableShown t₁ t₂ ↔
      TableTargetsAgree (some envelope) t₁ t₂) ∧
    (Replaces (fun t => outcome (Table.deserialize raw t)) tableShown t₁ t₂ ↔
      TableTargetsAgree (documentIn raw) t₁ t₂) := by
  refine ⟨?_, ?_, ?_, ?_, ?_⟩
  · exact replaces_page_iff (reads_document Page.fromJson envelope) p₁ p₂
  · exact replaces_page_iff (reads_text (fun _ => rfl) raw) p₁ p₂
  · exact replaces_page_iff (s.reads_disk tableName id io) p₁ p₂
  · exact replaces_table_iff (reads_document Table.fromJson envelope) t₁ t₂
  · exact replaces_table_iff (reads_text (fun _ => rfl) raw) t₁ t₂

end Text

/-- A page with one record. -/
def onePage : Page := ⟨1, false, [Record.new 1 .emptyObject], ⟨1, by decide⟩, le_rfl⟩

/-- An envelope without records leaves a new page empty, but not a page with a record. -/
theorem not_replaces_onePage :
    ¬Replaces (fun p => outcome (Page.fromJson (.object [("__page_id__", .ofInt 1),
      ("records", .array [])]) p)) pageShown (Page.new 1) onePage := by
  rintro ⟨_, _, h⟩
  have hempty : Page.fromJson (.object [("__page_id__", .ofInt 1), ("records", .array [])])
      (Page.new 1) = .ok .OK (Page.new 1) := rfl
  have hone : Page.fromJson (.object [("__page_id__", .ofInt 1), ("records", .array [])])
      onePage = .ok .OK onePage := rfl
  have hshown := congrArg (fun shown => shown.2.length)
    (h _ _ (outcome_eq_ok.mpr hempty) (outcome_eq_ok.mpr hone))
  exact absurd hshown (by decide)

end MiniDB.Engine
