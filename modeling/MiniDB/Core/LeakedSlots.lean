import MiniDB.Core.Requirements
import MiniDB.Library.Refinement

/-!
# Slots that are lost

A page decodes each entry into a slot of its own. An entry that is null gives its slot back,
but an entry that lacks a member of a record throws, and its slot is lost: it is in use
without holding a record. Nothing else makes the slots in use differ from the records.
-/

namespace MiniDB.Core

open MiniDB.Common MiniDB.JsonPro Memory Requirement Refinement

/-- A call of a page. -/
inductive Page.Call
  | addRecord (record : Record)
  | updateRecord (record : Record)
  | deleteRecord (id : RecordID)
  | compact
  | deserialize (raw : List UInt8)

/-- An entry that is there but lacks a member of a record. -/
def Misshapen (entry : Json) : Prop :=
  entry.isNull = false ∧ firstUnmet (recordRequirements entry) = some .shape

/-- Entries one of which is misshapen while all before it decode into free slots, and it finds a
free slot as well. -/
inductive Leaks : ℕ → List Json → Prop
  | here {free : ℕ} {entry : Json} (entries : List Json) :
      Misshapen entry → Leaks (free + 1) (entry :: entries)
  | later {free : ℕ} {entry : Json} {entries : List Json} :
      (Record.ofEnvelope? entry).isSome = true → Leaks free entries →
      Leaks (free + 1) (entry :: entries)

/-- Misshapen entries are those whose decoding throws. -/
theorem misshapen_iff {entry : Json} :
    Misshapen entry ↔ ∃ slot, Record.fromJson entry Record.default = .error .exception slot := by
  have hverdict := verdict_record entry Record.default
  unfold Misshapen
  rw [← hverdict]
  cases hdecode : Record.fromJson entry Record.default with
  | error fault slot =>
    have hnull : entry.isNull = false := by
      by_contra hnull
      rw [Bool.not_eq_false] at hnull
      unfold Record.fromJson at hdecode
      rw [if_pos hnull] at hdecode
      cases hdecode
    cases fault with
    | exception => exact ⟨fun _ => ⟨slot, rfl⟩, fun _ => ⟨hnull, rfl⟩⟩
    | undefined =>
      constructor
      · rintro ⟨_, hshape⟩
        cases hshape
      · rintro ⟨_, hthrown⟩
        cases hthrown
  | ok status slot =>
    constructor
    · rintro ⟨hnull, hshape⟩
      obtain rfl := (record_status_cases hdecode).resolve_right (by simp [hnull])
      cases hshape
    · rintro ⟨_, hthrown⟩
      cases hthrown

/-- An entry that decodes is not misshapen. -/
theorem not_misshapen_of_isSome {entry : Json} (h : (Record.ofEnvelope? entry).isSome = true) :
    ¬Misshapen entry := by
  obtain ⟨record, hrecord⟩ := Option.isSome_iff_exists.mp h
  rw [misshapen_iff, Record.fromJson_of_some hrecord]
  rintro ⟨_, hthrown⟩
  cases hthrown

/-- An entry whose decoding ends otherwise than with success is not the envelope of a record. -/
theorem ofEnvelope?_eq_none {entry : Json}
    (h : ∀ decoded, Record.fromJson entry Record.default ≠ .ok .OK decoded) :
    Record.ofEnvelope? entry = none := by
  cases hrecord : Record.ofEnvelope? entry with
  | none => rfl
  | some decoded => exact absurd (Record.fromJson_of_some hrecord _) (h decoded)

/-- Without entries nothing is lost. -/
theorem not_leaks_nil (free : ℕ) : ¬Leaks free [] := by
  intro h
  cases h

/-- Without free slots nothing is lost. -/
theorem not_leaks_zero (entries : List Json) : ¬Leaks 0 entries := by
  intro h
  cases h

/-- Behind an entry that decodes it is up to the entries that follow. -/
theorem leaks_cons_of_isSome {free : ℕ} {entry : Json} {entries : List Json}
    (h : (Record.ofEnvelope? entry).isSome = true) :
    Leaks (free + 1) (entry :: entries) ↔ Leaks free entries := by
  constructor
  · intro hleaks
    cases hleaks with
    | here _ hentry => exact absurd hentry (not_misshapen_of_isSome h)
    | later _ hrest => exact hrest
  · exact Leaks.later h

/-- An entry that neither decodes nor is misshapen ends the decoding. -/
theorem not_leaks_cons {free : ℕ} {entry : Json} {entries : List Json}
    (hentry : ¬Misshapen entry) (hnone : Record.ofEnvelope? entry = none) :
    ¬Leaks free (entry :: entries) := by
  intro hleaks
  cases hleaks with
  | here _ h => exact hentry h
  | later h _ =>
    rw [hnone] at h
    cases h

namespace Page

/-- An envelope with a number whose entries leak. -/
def LeakyEnvelope (free : ℕ) (envelope : Json) : Prop :=
  ∃ id entries, pageIdOf? envelope = some id ∧
    envelope.member? "records" = some (.array entries) ∧ Leaks free entries

section Serving

variable [JsonText]

/-- A call of a page; undefined behaviour ends the run. -/
def call (p : Page) : Call → Except Fault (Status × Page)
  | .addRecord record => .ok (p.addRecord record)
  | .updateRecord record => .ok (p.updateRecord record)
  | .deleteRecord id => .ok (p.deleteRecord id)
  | .compact => .ok p.compact
  | .deserialize raw =>
    match p.deserialize raw with
    | .ok s p' => .ok (s, p')
    | .error fault _ => .error fault

/-- A text of such an envelope. -/
def LeakyText (free : ℕ) (raw : List UInt8) : Prop :=
  ∃ envelope, JsonText.parse raw = .ok envelope ∧ LeakyEnvelope free envelope

/-- A call that loses no slot. -/
def Sealed (p : Page) : Call → Prop
  | .deserialize raw => ¬LeakyText p.freeSlots raw
  | _ => True

end Serving

/-- The slots in use are the records, and a page that is not full accepts a record. -/
structure Serves (p : Page) : Prop where
  /-- As many slots are in use as there are records. -/
  used : p.pool.used = p.recordCount
  /-- There are no more records than slots. -/
  room : p.recordCount ≤ DBConstants.MAX_RECORDS_PAGE
  /-- A page that is not full accepts every record. -/
  accepts : ∀ record, p.isFull = false → (p.addRecord record).1 = .OK
  /-- A full page accepts none. -/
  refuses : ∀ record, p.isFull = true → (p.addRecord record).1 = .OUT_OF_MEMORY

/-- A page serves as long as every slot in use holds a record. -/
theorem serves_iff {p : Page} : p.Serves ↔ p.Exact := by
  constructor
  · exact Serves.used
  · intro h
    refine ⟨h, p.records_le.trans p.pool.used_le, fun record hfull => ?_, fun record hfull => ?_⟩
    · obtain ⟨p', hadd, _⟩ := addRecord_of_room h hfull record
      rw [hadd]
    · rw [addRecord, if_pos hfull]

/-- What decoding comes to in a page whose slots in use all hold records. -/
inductive Decoded (leaks : Prop) : EStateM.Result Fault Page Status → Prop
  | lost {p' : Page} : leaks → ¬p'.Exact → Decoded leaks (.error .exception p')
  | kept {s : Status} {p' : Page} : ¬leaks → p'.Exact → Decoded leaks (.ok s p')
  | thrown {p' : Page} : ¬leaks → p'.Exact → Decoded leaks (.error .exception p')
  | undefined {p' : Page} : ¬leaks → Decoded leaks (.error .undefined p')

/-- A page with room has one slot more free than behind another record. -/
theorem freeSlots_push {p : Page} (h : p.Exact) (record : Record) (next : p.pool.Next) :
    p.freeSlots = (p.push record next).freeSlots + 1 ∧ (p.push record next).Exact := by
  have hle := next.val.used_le
  rw [next.property, h] at hle
  constructor
  · unfold freeSlots push
    dsimp only
    rw [List.length_append, List.length_singleton]
    omega
  · unfold Exact
    rw [push_used, h]
    unfold push
    rw [List.length_append, List.length_singleton]

/-- A page without free slots creates none. -/
theorem freeSlots_of_create_none {p : Page} (h : p.Exact) (hnone : p.pool.create = none) :
    p.freeSlots = 0 := by
  have hused : p.pool.used = p.records.length := h
  unfold Pool.create at hnone
  split at hnone
  · cases hnone
  · unfold freeSlots
    omega

/-- A slot without a record is lost. -/
theorem not_exact_lose {p : Page} (h : p.Exact) (next : p.pool.Next) : ¬(p.lose next).Exact := by
  intro hexact
  have hslot : next.val.used = p.records.length := hexact
  rw [next.property, h] at hslot
  omega

/-- Decoding entries loses a slot exactly if they leak. -/
theorem loadRecords_decoded (entries : List Json) {p : Page} (h : p.Exact) :
    Decoded (Leaks p.freeSlots entries) (loadRecords entries p) := by
  induction entries generalizing p with
  | nil => exact .kept (not_leaks_nil _) h
  | cons entry entries ih =>
    rw [loadRecords_cons]
    cases hcreate : p.pool.create with
    | none =>
      rw [freeSlots_of_create_none h hcreate]
      exact .kept (not_leaks_zero _) h
    | some next =>
      dsimp only
      -- what is neither decoded nor thrown back by an exception takes no slot
      have hends : ∀ result, Record.fromJson entry Record.default = result →
          (∀ slot, result ≠ .error .exception slot) → (∀ decoded, result ≠ .ok .OK decoded) →
          ¬Leaks p.freeSlots (entry :: entries) := by
        rintro _ rfl hthrown hdecoded
        refine not_leaks_cons (fun hentry => ?_) (ofEnvelope?_eq_none hdecoded)
        obtain ⟨slot, hslot⟩ := misshapen_iff.mp hentry
        exact hthrown slot hslot
      cases hdecode : Record.fromJson entry Record.default with
      | error fault slot =>
        cases fault with
        | exception =>
          rw [(freeSlots_push h Record.default next).1]
          exact .lost (.here entries (misshapen_iff.mpr ⟨slot, hdecode⟩)) (not_exact_lose h next)
        | undefined =>
          exact .undefined (hends _ hdecode (by rintro _ ⟨⟩) (by rintro _ ⟨⟩))
      | ok status decoded =>
        by_cases hok : status = .OK
        · subst hok
          have hrecord := Option.isSome_of_eq_some (Record.ofEnvelope?_of_fromJson hdecode)
          obtain ⟨hfree, hpushed⟩ := freeSlots_push h decoded next
          rw [hfree, leaks_cons_of_isSome hrecord]
          exact ih hpushed
        · have hstatus : ∀ other, (EStateM.Result.ok status decoded :
              EStateM.Result Fault Record Status) ≠ .ok .OK other := by
            rintro _ ⟨⟩
            exact hok rfl
          have hkept : Decoded (Leaks p.freeSlots (entry :: entries)) (.ok status p) :=
            .kept (hends _ hdecode (by rintro _ ⟨⟩) hstatus) h
          cases status with
          | OK => exact absurd rfl hok
          | _ => exact hkept

/-- Decoding an envelope loses a slot exactly if it has a number and its entries leak. -/
theorem fromJson_decoded (envelope : Json) {p : Page} (h : p.Exact) :
    Decoded (LeakyEnvelope p.freeSlots envelope) (fromJson envelope p) := by
  unfold LeakyEnvelope fromJson
  split
  · rename_i hnull
    refine .kept ?_ h
    rintro ⟨_, _, _, hrecords, _⟩
    rw [Json.isNull_of_member? hrecords] at hnull
    cases hnull
  · rw [lift_lift_bind, lift_lift_bind, lift_bind, pageIdOf?_eq]
    cases hnumber : (envelope.index "__page_id__" >>= Json.asNumber) >>= Double.toUInt32 with
    | error fault =>
      have hnone : ¬∃ id entries, (Except.error fault : Except Fault PageID).toOption = some id ∧
          envelope.member? "records" = some (.array entries) ∧ Leaks p.freeSlots entries := by
        rintro ⟨_, _, hid, _⟩
        cases hid
      cases fault with
      | exception => exact .thrown hnone h
      | undefined => exact .undefined hnone
    | ok id =>
      dsimp only
      rw [modify_bind, lift_lift_bind, lift_bind]
      rcases index_asArray "records" envelope with
        ⟨entries, hmember, hentries⟩ | ⟨hmember, hentries⟩
      · rw [hentries, hmember]
        have hiff : (∃ id' entries', (Except.ok id : Except Fault PageID).toOption = some id' ∧
            some (Json.array entries) = some (.array entries') ∧ Leaks p.freeSlots entries') ↔
            Leaks p.freeSlots entries := by
          constructor
          · rintro ⟨_, _, _, hsame, hleaks⟩
            cases hsame
            exact hleaks
          · intro hleaks
            exact ⟨id, entries, rfl, rfl, hleaks⟩
        rw [hiff]
        exact @loadRecords_decoded entries { p with id } h
      · rw [hentries]
        refine .thrown ?_ h
        rintro ⟨_, entries, _, hrecords, _⟩
        exact hmember entries hrecords

section Deserializing

variable [JsonText]

/-- Deserializing loses a slot exactly if the text leaks: the exception is caught, the slot stays
in use. -/
theorem deserialize_cases (raw : List UInt8) {p : Page} (h : p.Exact) :
    (LeakyText p.freeSlots raw ∧ ∃ p', p.deserialize raw = .ok .PARSE_ERROR p' ∧ ¬p'.Exact) ∨
    (¬LeakyText p.freeSlots raw ∧ ∀ s p', p.deserialize raw = .ok s p' → p'.Exact) := by
  unfold LeakyText deserialize catching
  rw [lift_bind]
  cases hparse : JsonText.parse raw with
  | error fault =>
    obtain rfl := JsonText.parse_fault hparse
    right
    constructor
    · rintro ⟨_, hknown, _⟩
      cases hknown
    · rintro s p' hkept
      cases hkept
      exact h
  | ok envelope =>
    have hdecode : (if envelope.isNull then return .PARSE_ERROR else fromJson envelope :
        EStateM Fault Page Status) p = fromJson envelope p := by
      cases envelope with
      | null => rfl
      | _ => rfl
    have hiff : (∃ other, (Except.ok envelope : Except Fault Json) = .ok other ∧
        LeakyEnvelope p.freeSlots other) ↔ LeakyEnvelope p.freeSlots envelope := by
      simp only [Except.ok.injEq, exists_eq_left']
    dsimp only
    rw [hdecode, hiff]
    have hdecoded := fromJson_decoded envelope h
    cases hresult : fromJson envelope p with
    | ok s p' =>
      rw [hresult] at hdecoded
      cases hdecoded with
      | kept hnot hexact =>
        right
        refine ⟨hnot, fun other final hfinal => ?_⟩
        cases hfinal
        exact hexact
    | error fault p' =>
      rw [hresult] at hdecoded
      cases hdecoded with
      | lost hleaks hlost => exact Or.inl ⟨hleaks, p', rfl, hlost⟩
      | thrown hnot hexact =>
        right
        refine ⟨hnot, fun other final hfinal => ?_⟩
        cases hfinal
        exact hexact
      | undefined hnot =>
        right
        refine ⟨hnot, fun other final hfinal => ?_⟩
        cases hfinal

omit [JsonText] in
/-- Adding a record takes one slot for it. -/
theorem Exact.addRecord {p : Page} (h : p.Exact) (record : Record) :
    (p.addRecord record).2.Exact := by
  by_cases hfull : p.isFull = true
  · rw [Page.addRecord, if_pos hfull]
    exact h
  · rw [Bool.not_eq_true] at hfull
    obtain ⟨p', hadd, hexact⟩ := addRecord_of_room h hfull record
    rw [hadd]
    exact hexact

omit [JsonText] in
/-- Updating a record takes no slot. -/
theorem Exact.updateRecord {p : Page} (h : p.Exact) (record : Record) :
    (p.updateRecord record).2.Exact := by
  unfold Page.updateRecord
  split
  · exact h
  · exact h.change _ _

omit [JsonText] in
/-- Deleting a record takes no slot and gives none back. -/
theorem Exact.deleteRecord {p : Page} (h : p.Exact) (id : RecordID) :
    (p.deleteRecord id).2.Exact := by
  unfold Page.deleteRecord
  split
  · exact h
  · exact h.change _ _

/-- A deserialization that returns is one of the page. -/
theorem call_deserialize {p p' : Page} {raw : List UInt8} {s : Status} :
    p.call (.deserialize raw) = .ok (s, p') ↔ p.deserialize raw = .ok s p' := by
  unfold call
  dsimp only
  constructor
  · intro hcall
    split at hcall
    · rename_i hload
      cases hcall
      exact hload
    · cases hcall
  · intro hload
    split
    · rename_i hother
      rw [hload] at hother
      cases hother
      rfl
    · rename_i hother
      rw [hload] at hother
      cases hother

/-- A call that loses no slot leaves every slot in use with a record. -/
theorem Exact.call {p p' : Page} (h : p.Exact) {call : Call} (hsealed : p.Sealed call)
    {s : Status} (hcall : p.call call = .ok (s, p')) : p'.Exact := by
  have hreturned : ∀ {result : Status × Page},
      (Except.ok result : Except Fault (Status × Page)) = .ok (s, p') →
        result.2.Exact → p'.Exact := by
    rintro _ ⟨⟩ hexact
    exact hexact
  cases call with
  | addRecord record => exact hreturned hcall (h.addRecord record)
  | updateRecord record => exact hreturned hcall (h.updateRecord record)
  | deleteRecord id => exact hreturned hcall (h.deleteRecord id)
  | compact => exact hreturned hcall (compact_spec h).2
  | deserialize raw =>
    obtain ⟨hleaky, _⟩ | ⟨_, hkept⟩ := deserialize_cases raw h
    · exact absurd hleaky hsealed
    · exact hkept s p' (call_deserialize.mp hcall)

/-- Any other call returns with a slot in use that holds no record. -/
theorem Exact.call_not_sealed {p : Page} (h : p.Exact) {call : Call} (hnot : ¬p.Sealed call) :
    ∃ s p', p.call call = .ok (s, p') ∧ ¬p'.Exact := by
  cases call with
  | deserialize raw =>
    obtain ⟨_, p', hload, hlost⟩ | ⟨hsealed, _⟩ := deserialize_cases raw h
    · exact ⟨.PARSE_ERROR, p', call_deserialize.mpr hload, hlost⟩
    · exact absurd hsealed hnot
  | _ => exact absurd trivial hnot

/-- In a run of calls of a new page, the slots in use are the records and the page accepts records
until it is full, throughout, if and only if no call decodes a text with a misshapen entry where
a slot is free. -/
theorem serves_throughout_iff (id : PageID) (calls : List Call) :
    Throughout call Serves (new id) calls ↔ Along call Sealed (new id) calls := by
  have hexact := exact_new id
  refine throughout_iff_along_of_invariant ?_ ?_ hexact (serves_iff.mpr hexact)
  · intro p call s p' hexact _ hsealed hcall
    have hexact' := hexact.call hsealed hcall
    exact ⟨hexact', serves_iff.mpr hexact'⟩
  · intro p call hexact _ hnot
    obtain ⟨s, p', hcall, hlost⟩ := hexact.call_not_sealed hnot
    exact ⟨s, p', hcall, mt serves_iff.mp hlost⟩

/-- A text whose first entry is misshapen takes one slot each time it is decoded. -/
theorem deserialize_misshapen {raw : List UInt8} {envelope entry : Json} {entries : List Json}
    {id : PageID} (hparse : JsonText.parse raw = .ok envelope) (hid : pageIdOf? envelope = some id)
    (hrecords : envelope.member? "records" = some (.array (entry :: entries)))
    (hentry : Misshapen entry) {p : Page} (hroom : p.pool.used < DBConstants.MAX_RECORDS_PAGE) :
    ∃ p', p.call (.deserialize raw) = .ok (.PARSE_ERROR, p') ∧ p'.records = p.records ∧
      p'.pool.used = p.pool.used + 1 := by
  obtain ⟨slot, hthrown⟩ := misshapen_iff.mp hentry
  obtain ⟨next, hcreate⟩ : ∃ next, p.pool.create = some next := ⟨_, dif_pos hroom⟩
  have hfrom : fromJson envelope p = .error .exception ({ p with id }.lose next) := by
    have hnumber : ((envelope.index "__page_id__" >>= Json.asNumber) >>= Double.toUInt32) =
        .ok id := by
      rw [pageIdOf?_eq] at hid
      exact toOption_eq_some.mp hid
    unfold fromJson
    rw [if_neg (by rw [Json.isNull_of_member? hrecords]; exact Bool.false_ne_true), lift_lift_bind,
      lift_lift_bind, lift_bind_of_ok hnumber, modify_bind,
      lift_bind_of_ok (Json.index_eq_ok.mpr hrecords),
      lift_bind_of_ok (Json.asArray_eq_ok.mpr rfl), loadRecords_cons]
    dsimp only
    rw [hcreate]
    dsimp only
    rw [hthrown]
  refine ⟨{ p with id }.lose next, call_deserialize.mpr ?_, rfl, next.property⟩
  apply catching_of_exception
  rw [lift_bind_of_ok hparse,
    if_neg (by rw [Json.isNull_of_member? hrecords]; exact Bool.false_ne_true)]
  exact hfrom

/-- Such a text uses up the slots of a page, one by one. -/
theorem run_deserialize_misshapen {raw : List UInt8} {envelope entry : Json} {entries : List Json}
    {id : PageID} (hparse : JsonText.parse raw = .ok envelope) (hid : pageIdOf? envelope = some id)
    (hrecords : envelope.member? "records" = some (.array (entry :: entries)))
    (hentry : Misshapen entry) {count : ℕ} {p : Page}
    (hroom : p.pool.used + count ≤ DBConstants.MAX_RECORDS_PAGE) :
    ∃ responses p', run call p (List.replicate count (.deserialize raw)) = .ok (responses, p') ∧
      p'.records = p.records ∧ p'.pool.used = p.pool.used + count := by
  induction count generalizing p with
  | zero => exact ⟨[], p, rfl, rfl, rfl⟩
  | succ count ih =>
    obtain ⟨p₁, hcall, hkept, htaken⟩ :=
      @deserialize_misshapen _ raw envelope entry entries id hparse hid hrecords hentry p (by omega)
    obtain ⟨responses, p', hrun, hrecords', hused⟩ := ih (p := p₁) (by omega)
    refine ⟨.PARSE_ERROR :: responses, p', ?_, hrecords'.trans hkept, by omega⟩
    rw [List.replicate_succ, run_cons hcall, hrun]

end Deserializing

/-- The text of a page with one entry that has no members. -/
def emptyEntryText : List UInt8 :=
  "\x7b\"__page_id__\":0,\"records\":[\x7b\x7d]\x7d".toUTF8.toList

/-- What that text is parsed to. -/
def emptyEntryDocument : Json :=
  .object [("__page_id__", .ofInt 0), ("records", .array [Json.emptyObject])]

/-- After 64 attempts to decode one bad entry a page without any record accepts none. -/
theorem empty_page_refuses :
    letI := JsonText.ofDocument emptyEntryText emptyEntryDocument
    ∃ responses p, run call (new 0) (List.replicate 64 (.deserialize emptyEntryText)) =
        .ok (responses, p) ∧ p.isFull = false ∧ p.pool.used ≠ p.recordCount ∧
      (p.addRecord (Record.new 0 Json.emptyObject)).1 = .OUT_OF_MEMORY := by
  let _ := JsonText.ofDocument emptyEntryText emptyEntryDocument
  have hparse : JsonText.parse emptyEntryText = .ok emptyEntryDocument := if_pos rfl
  obtain ⟨responses, p, hrun, hrecords, hused⟩ :=
    @run_deserialize_misshapen _ emptyEntryText emptyEntryDocument Json.emptyObject [] 0 hparse rfl
      rfl ⟨rfl, rfl⟩ 64 (new 0) (by decide)
  have hempty : p.records = [] := hrecords
  have hfull : p.isFull = false := by
    unfold isFull
    rw [hempty]
    rfl
  have htaken : p.pool.used = 64 := hused
  refine ⟨responses, p, hrun, hfull, ?_, ?_⟩
  · unfold recordCount
    rw [hempty, htaken]
    decide
  · have hnone : p.pool.create = none := by
      unfold Pool.create
      rw [dif_neg (by rw [htaken]; decide)]
    unfold Page.addRecord
    rw [hfull, hnone]
    rfl

end Page

end MiniDB.Core
