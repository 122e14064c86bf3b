import MiniDB.Engine.ImportBoundary

/-!
# Numbers in place of identifiers

Every decoder converts the number of an identifier without looking at it first. A number
that is no integer loses its fraction, one that does not fit makes the conversion undefined,
and none is rejected.
-/

namespace MiniDB.Engine

open MiniDB.Common MiniDB.JsonPro MiniDB.Core Memory

/-- A non-negative integer below a limit. -/
def Representable (limit : ℤ) (x : Double) : Prop :=
  ∃ n : ℕ, (n : ℤ) < limit ∧ x = .finite n

/-- A document with a number under a key. -/
def withNumber (key : String) (members : List (String × Json)) (x : Double) : Json :=
  .object (Json.setMember key (.number x) members)

section Decoders

variable {State : Type} {limit : ℤ} {decode : Double → EStateM Fault State Status}
  {idOf : State → ℕ}

/-- A representable number is stored exactly where some number would be accepted, and every
other number is rejected with nothing changed. -/
def ExactOrRejected (limit : ℤ) (decode : Double → EStateM Fault State Status) (idOf : State → ℕ)
    (s : State) (x : Double) : Prop :=
  (Representable limit x → (∃ y s', decode y s = .ok .OK s') →
    ∃ s', decode x s = .ok .OK s' ∧ x = .finite (idOf s')) ∧
  (¬Representable limit x → ∃ status, status ≠ .OK ∧ decode x s = .ok status s)

/-- Numbers that are stored as the same identifier are the same. -/
def KeptApart (decode : Double → EStateM Fault State Status) (idOf : State → ℕ) (s : State)
    (x y : Double) : Prop :=
  ∀ s₁ s₂, decode x s = .ok .OK s₁ → decode y s = .ok .OK s₂ → idOf s₁ = idOf s₂ → x = y

/-- Two numbers that fit do not have the same integral part unless they are the same. -/
def IntegralPartsDiffer (limit : ℤ) (x y : Double) : Prop :=
  x.fits 0 limit = true → x.integralPart = y.integralPart → x = y

/-- A decoder stores the integral part of a number that fits, and cares no more about it. -/
structure StoresIntegralPart (limit : ℤ) (decode : Double → EStateM Fault State Status)
    (idOf : State → ℕ) : Prop where
  /-- The conversion of a number that does not fit is undefined. -/
  undefined : ∀ {x s}, x.fits 0 limit = false → decode x s = .error .undefined s
  /-- The integral part is stored. -/
  stored : ∀ {x s s'}, decode x s = .ok .OK s' → x.integralPart = some (idOf s' : ℤ)
  /-- Where one number is accepted, all that fit are. -/
  indifferent : ∀ {x y s s'}, x.fits 0 limit = true → decode y s = .ok .OK s' →
    ∃ s'', decode x s = .ok .OK s''

/-- A representable number is its own integral part. -/
theorem Representable.integralPart {x : Double} (h : Representable limit x) :
    ∃ n : ℕ, x = .finite n ∧ x.integralPart = some (n : ℤ) ∧ x.fits 0 limit = true := by
  obtain ⟨n, hn, rfl⟩ := h
  have hwhole : Double.integralPart (.finite n) = some (n : ℤ) := by
    simp [Double.integralPart]
  refine ⟨n, rfl, hwhole, ?_⟩
  unfold Double.fits
  rw [hwhole]
  exact decide_eq_true ⟨Int.natCast_nonneg n, hn⟩

/-- Such a decoder stores a representable number exactly. -/
theorem StoresIntegralPart.exact (h : StoresIntegralPart limit decode idOf) {x : Double}
    (hx : Representable limit x) {s : State} (haccepts : ∃ y s', decode y s = .ok .OK s') :
    ∃ s', decode x s = .ok .OK s' ∧ x = .finite (idOf s') := by
  obtain ⟨y, s', hy⟩ := haccepts
  obtain ⟨n, rfl, hwhole, hfits⟩ := hx.integralPart
  obtain ⟨s'', hs''⟩ := h.indifferent hfits hy
  have hid := Option.some.inj (hwhole.symm.trans (h.stored hs''))
  refine ⟨s'', hs'', ?_⟩
  rw [Int.ofNat_inj.mp hid]

/-- Such a decoder rejects no number. -/
theorem StoresIntegralPart.not_rejected (h : StoresIntegralPart limit decode idOf) {s : State}
    (haccepts : ∃ y s', decode y s = .ok .OK s') (x : Double) :
    ¬∃ status, status ≠ .OK ∧ decode x s = .ok status s := by
  obtain ⟨y, s', hy⟩ := haccepts
  rintro ⟨status, hstatus, hx⟩
  cases hfits : x.fits 0 limit with
  | false =>
    rw [h.undefined hfits] at hx
    cases hx
  | true =>
    obtain ⟨s'', hs''⟩ := h.indifferent hfits hy
    rw [hs''] at hx
    injection hx with hok
    exact hstatus hok.symm

/-- Such decoders are exact or reject, whatever the document, exactly on the representable
numbers. -/
theorem exactOrRejected_iff {Document : Type}
    {decode : Document → Double → EStateM Fault State Status}
    (h : ∀ document, StoresIntegralPart limit (decode document) idOf)
    (haccepts : ∃ document s y s', decode document y s = .ok .OK s') (x : Double) :
    (∀ document s, ExactOrRejected limit (decode document) idOf s x) ↔ Representable limit x := by
  constructor
  · intro hall
    obtain ⟨document, s, hdocument⟩ := haccepts
    by_contra hx
    exact (h document).not_rejected hdocument x ((hall document s).2 hx)
  · intro hx document s
    exact ⟨fun _ hdocument => (h document).exact hx hdocument, fun hnot => absurd hx hnot⟩

/-- Such decoders keep numbers apart, whatever the document, exactly by their integral parts. -/
theorem keptApart_iff {Document : Type}
    {decode : Document → Double → EStateM Fault State Status}
    (h : ∀ document, StoresIntegralPart limit (decode document) idOf)
    (haccepts : ∃ document s y s', decode document y s = .ok .OK s') (x y : Double) :
    (∀ document s, KeptApart (decode document) idOf s x y) ↔ IntegralPartsDiffer limit x y := by
  constructor
  · intro hall hfits hsame
    obtain ⟨document, s, z, s', hz⟩ := haccepts
    have hfits' : y.fits 0 limit = true := by
      unfold Double.fits at hfits ⊢
      rwa [← hsame]
    obtain ⟨s₁, h₁⟩ := (h document).indifferent hfits hz
    obtain ⟨s₂, h₂⟩ := (h document).indifferent hfits' hz
    refine hall document s s₁ s₂ h₁ h₂ (Int.ofNat_inj.mp (Option.some.inj ?_))
    exact ((h document).stored h₁).symm.trans (hsame.trans ((h document).stored h₂))
  · intro hdiffer document s s₁ s₂ h₁ h₂ hid
    refine hdiffer ?_ ?_
    · by_contra hfits
      rw [(h document).undefined (Bool.not_eq_true _ ▸ hfits)] at h₁
      cases h₁
    · rw [(h document).stored h₁, (h document).stored h₂, hid]

end Decoders

/-- The number is found in the document. -/
theorem member?_withNumber (key : String) (members : List (String × Json)) (x : Double) :
    (withNumber key members x).member? key = some (.number x) :=
  lookup_setMember key _ members

/-- The other members of the document do not depend on the number. -/
theorem member?_withNumber_of_ne {key other : String} (hne : other ≠ key)
    (members : List (String × Json)) (x : Double) :
    (withNumber key members x).member? other = members.lookup other := by
  change (Json.setMember key (.number x) members).lookup other = _
  induction members with
  | nil =>
    have hbeq : (other == key) = false := by simpa using hne
    rw [Json.setMember, List.lookup_cons, hbeq]
  | cons member members ih =>
    obtain ⟨name, old⟩ := member
    have hbeq : (other == key) = false := by simpa using hne
    unfold Json.setMember
    by_cases hname : name = key
    · subst hname
      rw [if_pos rfl, List.lookup_cons, List.lookup_cons, hbeq]
    · rw [if_neg hname, List.lookup_cons, List.lookup_cons, ih]

/-- A number that fits is converted. -/
theorem exists_toUInt64 {x : Double} (h : x.fits 0 (2 ^ 64) = true) :
    ∃ id, x.toUInt64 = .ok id := by
  rcases toUInt64_cases x with ⟨_, hok⟩ | ⟨hnot, _⟩
  · exact hok
  · rw [h] at hnot
    cases hnot

/-- A number that fits is converted. -/
theorem exists_toUInt32 {x : Double} (h : x.fits 0 (2 ^ 32) = true) :
    ∃ id, x.toUInt32 = .ok id := by
  rcases toUInt32_cases x with ⟨_, hok⟩ | ⟨hnot, _⟩
  · exact hok
  · rw [h] at hnot
    cases hnot

/-- A number that does not fit makes a decoder that converts it first undefined. -/
theorem undefined_of_first {State α : Type} {key : String} {members : List (String × Json)}
    {x : Double} {convert : Double → Except Fault α} (hconvert : convert x = .error .undefined)
    (next : α → EStateM Fault State Status) (s : State) :
    (do
      if (withNumber key members x).isNull then return .PARSE_ERROR
      let id ← convert (← (← (withNumber key members x).index key).asNumber)
      next id : EStateM Fault State Status) s = .error .undefined s := by
  have hmember := member?_withNumber key members x
  rw [if_neg (by rw [Json.isNull_of_member? hmember]; exact Bool.false_ne_true),
    lift_bind_of_ok (Json.index_eq_ok.mpr hmember), lift_bind_of_ok (Json.asNumber_eq_ok.mpr rfl),
    hconvert]
  rfl

/-- What a record decodes to from a document with a number as its identifier. -/
theorem ofEnvelope?_withNumber_record {members : List (String × Json)} {x : Double} {r : Record} :
    Record.ofEnvelope? (withNumber "__id__" members x) = some r ↔
      x.toUInt64 = .ok r.id ∧ members.lookup "__deleted__" = some (.bool r.deleted) ∧
        members.lookup "data" = some r.data := by
  unfold Record.ofEnvelope?
  rw [member?_withNumber, member?_withNumber_of_ne (by decide),
    member?_withNumber_of_ne (by decide)]
  constructor
  · intro h
    split at h
    · rename_i number deleted data hnumber hdeleted hdata
      cases hnumber
      obtain ⟨id, hid, rfl⟩ := Option.map_eq_some_iff.mp h
      exact ⟨toOption_eq_some.mp hid, hdeleted, hdata⟩
    · cases h
  · rintro ⟨hid, hdeleted, hdata⟩
    rw [hdeleted, hdata]
    dsimp only
    rw [hid]
    rfl

/-- A record stores the integral part of its number. -/
theorem storesIntegralPart_record (members : List (String × Json)) :
    StoresIntegralPart (2 ^ 64) (fun x => Record.fromJson (withNumber "__id__" members x))
      fun r => r.id.toNat where
  undefined := by
    intro x r hfits
    rcases toUInt64_cases x with ⟨hfits', _⟩ | ⟨_, hfault⟩
    · rw [hfits] at hfits'
      cases hfits'
    · exact undefined_of_first hfault _ r
  stored := by
    intro x r r' h
    have hdecoded := ofEnvelope?_withNumber_record.mp (Record.ofEnvelope?_of_fromJson h)
    exact Double.toUInt64_eq_ok.mp hdecoded.1
  indifferent := by
    intro x y r r' hfits h
    obtain ⟨id, hid⟩ := exists_toUInt64 hfits
    have hdecoded := ofEnvelope?_withNumber_record.mp (Record.ofEnvelope?_of_fromJson h)
    have hmoved : Record.ofEnvelope? (withNumber "__id__" members x) = some { r' with id } :=
      ofEnvelope?_withNumber_record.mpr ⟨hid, hdecoded.2⟩
    exact ⟨{ r' with id }, Record.fromJson_of_some hmoved r⟩

/-- What a page decodes to from a document with a number as its identifier. -/
theorem ofEnvelope?_withNumber_page {members : List (String × Json)} {x : Double} {p : Page} :
    Page.ofEnvelope? (withNumber "__page_id__" members x) = some p ↔
      x.toUInt32 = .ok p.id ∧ ∃ entries, members.lookup "records" = some (.array entries) ∧
        ∃ records, entries.mapM Record.ofEnvelope? = some records ∧
          Page.filled? p.id records = some p := by
  unfold Page.ofEnvelope?
  rw [member?_withNumber, member?_withNumber_of_ne (by decide)]
  constructor
  · intro h
    split at h
    · rename_i number entries hnumber hentries
      cases hnumber
      obtain ⟨id, hid, h⟩ := Option.bind_eq_some_iff.mp h
      obtain ⟨records, hrecords, hfilled⟩ := Option.bind_eq_some_iff.mp h
      obtain rfl := (Page.filled?_eq_some.mp hfilled).1
      exact ⟨toOption_eq_some.mp hid, entries, hentries, records, hrecords, hfilled⟩
    · cases h
  · rintro ⟨hid, entries, hentries, records, hrecords, hfilled⟩
    rw [hentries]
    dsimp only
    rw [hid, hrecords]
    exact hfilled

/-- Another number makes a decoded page another one with the same records. -/
theorem exists_page_of_fits {members : List (String × Json)} {x y : Double} {p : Page}
    (hfits : x.fits 0 (2 ^ 32) = true)
    (h : Page.ofEnvelope? (withNumber "__page_id__" members y) = some p) :
    ∃ q, Page.ofEnvelope? (withNumber "__page_id__" members x) = some q ∧
      q.records = p.records := by
  obtain ⟨id, hid⟩ := exists_toUInt32 hfits
  obtain ⟨_, entries, hentries, records, hrecords, hfilled⟩ := ofEnvelope?_withNumber_page.mp h
  obtain ⟨_, hclean, hsame, hexact⟩ := Page.filled?_eq_some.mp hfilled
  let q : Page := { p with id }
  have hmoved : Page.filled? id records = some q :=
    Page.filled?_eq_some.mpr ⟨rfl, hclean, hsame, hexact⟩
  exact ⟨q, ofEnvelope?_withNumber_page.mpr ⟨hid, entries, hentries, records, hrecords, hmoved⟩,
    rfl⟩

/-- A page stores the integral part of its number. -/
theorem storesIntegralPart_page (members : List (String × Json)) :
    StoresIntegralPart (2 ^ 32) (fun x => Page.fromJson (withNumber "__page_id__" members x))
      fun p => p.id.toNat where
  undefined := by
    intro x p hfits
    rcases toUInt32_cases x with ⟨hfits', _⟩ | ⟨_, hfault⟩
    · rw [hfits] at hfits'
      cases hfits'
    · exact undefined_of_first hfault _ p
  stored := by
    intro x p p' h
    obtain ⟨decoded, hdecoded, _, hid, _⟩ := Page.fromJson_into.mp h
    rw [hid]
    exact Double.toUInt32_eq_ok.mp (ofEnvelope?_withNumber_page.mp hdecoded).1
  indifferent := by
    intro x y p p' hfits h
    obtain ⟨decoded, hdecoded, hroom, _, hdirty, hrecords, hused⟩ := Page.fromJson_into.mp h
    obtain ⟨moved, hmoved, hsame⟩ := exists_page_of_fits hfits hdecoded
    rw [← hsame] at hroom hrecords hused
    exact ⟨{ p' with id := moved.id }, Page.fromJson_into.mpr
      ⟨moved, hmoved, hroom, rfl, hdirty, hrecords, hused⟩⟩

section Tables

variable [InsertPolicy]

/-- What a table decodes to from a document with a number as its identifier. -/
theorem ofEnvelope?_withNumber_table {members : List (String × Json)} {x : Double} {t : Table} :
    Table.ofEnvelope? (withNumber "__table_id___" members x) = some t ↔
      x.toUInt32 = .ok t.id ∧ ∃ name cols pageJsons,
        members.lookup "__name__" = some (.string name) ∧
        members.lookup "schema" = some (.array cols) ∧
        members.lookup "page" = some (.array pageJsons) ∧
        ∃ schema pages, cols.mapM Table.columnOfJson? = some schema ∧
          pageJsons.mapM Page.ofEnvelope? = some pages ∧
          t = Table.loaded name t.id schema pages := by
  unfold Table.ofEnvelope?
  rw [member?_withNumber, member?_withNumber_of_ne (by decide),
    member?_withNumber_of_ne (by decide), member?_withNumber_of_ne (by decide)]
  constructor
  · intro h
    split at h
    · rename_i number name cols pageJsons hnumber hname hcols hpageJsons
      cases hnumber
      obtain ⟨id, hid, h⟩ := Option.bind_eq_some_iff.mp h
      obtain ⟨schema, hschema, h⟩ := Option.bind_eq_some_iff.mp h
      obtain ⟨pages, hpages, rfl⟩ := Option.map_eq_some_iff.mp h
      exact ⟨toOption_eq_some.mp hid, name, cols, pageJsons, hname, hcols, hpageJsons, schema,
        pages, hschema, hpages, rfl⟩
    · cases h
  · rintro ⟨hid, name, cols, pageJsons, hname, hcols, hpageJsons, schema, pages, hschema, hpages,
      hloaded⟩
    rw [hname, hcols, hpageJsons]
    dsimp only
    rw [hid, hschema, hpages]
    exact congrArg some hloaded.symm

/-- A table stores the integral part of its number. -/
theorem storesIntegralPart_table (members : List (String × Json)) :
    StoresIntegralPart (2 ^ 32) (fun x => Table.fromJson (withNumber "__table_id___" members x))
      fun t => t.id.toNat where
  undefined := by
    intro x t hfits
    rcases toUInt32_cases x with ⟨hfits', _⟩ | ⟨_, hfault⟩
    · rw [hfits] at hfits'
      cases hfits'
    · exact undefined_of_first hfault _ t
  stored := by
    intro x t t' h
    obtain ⟨decoded, hdecoded, rfl⟩ := Table.fromJson_into.mp h
    exact Double.toUInt32_eq_ok.mp (ofEnvelope?_withNumber_table.mp hdecoded).1
  indifferent := by
    intro x y t t' hfits h
    obtain ⟨id, hid⟩ := exists_toUInt32 hfits
    obtain ⟨decoded, hdecoded, rfl⟩ := Table.fromJson_into.mp h
    obtain ⟨_, name, cols, pageJsons, hname, hcols, hpageJsons, schema, pages, hschema, hpages,
      _⟩ := ofEnvelope?_withNumber_table.mp hdecoded
    have hmoved : Table.ofEnvelope? (withNumber "__table_id___" members x) =
        some (Table.loaded name id schema pages) :=
      ofEnvelope?_withNumber_table.mpr ⟨hid, name, cols, pageJsons, hname, hcols, hpageJsons,
        schema, pages, hschema, hpages, rfl⟩
    exact ⟨_, Table.fromJson_into.mpr ⟨_, hmoved, rfl⟩⟩

/-- A representable number becomes the identifier of the record that an import inserts, and
every other number is rejected with nothing changed. -/
def ImportedExactOrRejected (nextId : RecordID) (members : List (String × Json))
    (rest : List Json) (t : Table) (x : Double) : Prop :=
  (Representable (2 ^ 64) x → ∃ id : RecordID, x = .finite id.toNat ∧
    ∃ data, (withNumber "id" members x).eraseMember "id" = .ok data ∧
      importEntries nextId (withNumber "id" members x :: rest) t =
        if (t.insertRecord (Record.new id data)).1 ≠ .OK then
          .ok (t.insertRecord (Record.new id data)).1 (t.insertRecord (Record.new id data)).2
        else importEntries (nextId + 1) rest (t.insertRecord (Record.new id data)).2) ∧
  (¬Representable (2 ^ 64) x → ∃ status, status ≠ .OK ∧
    importEntries nextId (withNumber "id" members x :: rest) t = .ok status t)

/-- Numbers that an import takes as the same identifier are the same. -/
def ImportKeepsApart (nextId : RecordID) (members : List (String × Json)) (x y : Double) : Prop :=
  ∀ r₁ r₂, entryRecord nextId (withNumber "id" members x) = .ok r₁ →
    entryRecord nextId (withNumber "id" members y) = .ok r₂ → r₁.id = r₂.id → x = y

omit [InsertPolicy] in
/-- An imported entry gets the integral part of its number. -/
theorem entryRecord_withNumber {nextId : RecordID} {members : List (String × Json)} {x : Double}
    {r : Record} :
    entryRecord nextId (withNumber "id" members x) = .ok r ↔
      x.toUInt64 = .ok r.id ∧ ∃ data, (withNumber "id" members x).eraseMember "id" = .ok data ∧
        r = Record.new r.id data := by
  unfold entryRecord
  rw [member?_withNumber]
  dsimp only
  simp only [except_bind_eq_ok]
  constructor
  · rintro ⟨id, hid, data, hdata, hr⟩
    cases hr
    exact ⟨hid, data, hdata, rfl⟩
  · rintro ⟨hid, data, hdata, hr⟩
    exact ⟨r.id, hid, data, hdata, congrArg Except.ok hr.symm⟩

omit [InsertPolicy] in
/-- The number of an entry can be taken out. -/
theorem exists_eraseMember (members : List (String × Json)) (x : Double) :
    ∃ data, (withNumber "id" members x).eraseMember "id" = .ok data := ⟨_, rfl⟩

omit [InsertPolicy] in
/-- An entry whose number fits is imported as some record. -/
theorem exists_entryRecord {nextId : RecordID} {members : List (String × Json)} {x : Double}
    (hfits : x.fits 0 (2 ^ 64) = true) :
    ∃ r, entryRecord nextId (withNumber "id" members x) = .ok r := by
  obtain ⟨id, hid⟩ := exists_toUInt64 hfits
  obtain ⟨data, hdata⟩ := exists_eraseMember members x
  exact ⟨Record.new id data, entryRecord_withNumber.mpr ⟨hid, data, hdata, rfl⟩⟩

/-- An import into a new table without a schema rejects no single entry. -/
theorem import_not_rejected (nextId : RecordID) (members : List (String × Json)) (x : Double) :
    ¬∃ status, status ≠ .OK ∧ importEntries nextId [withNumber "id" members x]
      (Table.new "" 0 []) = .ok status (Table.new "" 0 []) := by
  rintro ⟨status, hstatus, h⟩
  rw [importEntries_step] at h
  cases hr : entryRecord nextId (withNumber "id" members x) with
  | error fault =>
    rw [hr] at h
    cases h
  | ok r =>
    have hinsert : ((Table.new "" 0 []).insertRecord r).1 = .OK := rfl
    rw [hr] at h
    dsimp only at h
    rw [if_neg (not_not.mpr hinsert)] at h
    injection h with hok
    exact hstatus hok.symm

/-- An import is exact or rejects, whatever the entry, exactly on the representable numbers. -/
theorem importedExactOrRejected_iff (x : Double) :
    (∀ nextId members rest t, ImportedExactOrRejected nextId members rest t x) ↔
      Representable (2 ^ 64) x := by
  constructor
  · intro hall
    by_contra hx
    exact import_not_rejected 0 [] x ((hall 0 [] [] (Table.new "" 0 [])).2 hx)
  · intro hx nextId members rest t
    refine ⟨fun _ => ?_, fun hnot => absurd hx hnot⟩
    obtain ⟨n, rfl, hwhole, hfits⟩ := hx.integralPart
    obtain ⟨r, hr⟩ := @exists_entryRecord nextId members _ hfits
    obtain ⟨hid, data, hdata, hrecord⟩ := entryRecord_withNumber.mp hr
    have hsame := Option.some.inj (hwhole.symm.trans (Double.toUInt64_eq_ok.mp hid))
    refine ⟨r.id, by rw [Int.ofNat_inj.mp hsame], data, hdata, ?_⟩
    rw [importEntries_step, hr, ← hrecord]

omit [InsertPolicy] in
/-- An import keeps numbers apart, whatever the entry, exactly by their integral parts. -/
theorem importKeepsApart_iff (x y : Double) :
    (∀ nextId members, ImportKeepsApart nextId members x y) ↔
      IntegralPartsDiffer (2 ^ 64) x y := by
  constructor
  · intro hall hfits hsame
    have hfits' : y.fits 0 (2 ^ 64) = true := by
      unfold Double.fits at hfits ⊢
      rwa [← hsame]
    obtain ⟨r₁, h₁⟩ := @exists_entryRecord 0 [] _ hfits
    obtain ⟨r₂, h₂⟩ := @exists_entryRecord 0 [] _ hfits'
    refine hall 0 [] r₁ r₂ h₁ h₂ (UInt64.toNat_inj.mp (Int.ofNat_inj.mp (Option.some.inj ?_)))
    rw [← Double.toUInt64_eq_ok.mp (entryRecord_withNumber.mp h₁).1, hsame]
    exact Double.toUInt64_eq_ok.mp (entryRecord_withNumber.mp h₂).1
  · intro hdiffer nextId members r₁ r₂ h₁ h₂ hid
    have hx := (entryRecord_withNumber.mp h₁).1
    have hy := (entryRecord_withNumber.mp h₂).1
    refine hdiffer ?_ ?_
    · rcases toUInt64_cases x with ⟨hfits, _⟩ | ⟨_, hfault⟩
      · exact hfits
      · rw [hx] at hfault
        cases hfault
    · rw [Double.toUInt64_eq_ok.mp hx, Double.toUInt64_eq_ok.mp hy, hid]

/-- The members of a record without its identifier. -/
def recordMembers : List (String × Json) :=
  [("__deleted__", .bool false), ("data", .emptyObject)]

/-- The members of a table without its identifier, which has neither columns nor pages. -/
def tableMembers : List (String × Json) :=
  [("__name__", .string ""), ("schema", .array []), ("page", .array [])]

/-- A number in place of an identifier is decoded exactly or rejected if and only if it is a
non-negative integer of the type, and two numbers are never decoded to the same identifier if
and only if their integral parts differ or do not fit. -/
theorem idNumbers_iff (x y : Double) :
    ((∀ members r, ExactOrRejected (2 ^ 64)
      (fun x => Record.fromJson (withNumber "__id__" members x)) (fun r => r.id.toNat) r x) ↔
        Representable (2 ^ 64) x) ∧
    ((∀ members p, ExactOrRejected (2 ^ 32)
      (fun x => Page.fromJson (withNumber "__page_id__" members x)) (fun p => p.id.toNat) p x) ↔
        Representable (2 ^ 32) x) ∧
    ((∀ members t, ExactOrRejected (2 ^ 32)
      (fun x => Table.fromJson (withNumber "__table_id___" members x)) (fun t => t.id.toNat) t x) ↔
        Representable (2 ^ 32) x) ∧
    ((∀ nextId members rest t, ImportedExactOrRejected nextId members rest t x) ↔
      Representable (2 ^ 64) x) ∧
    ((∀ members r, KeptApart (fun x => Record.fromJson (withNumber "__id__" members x))
      (fun r => r.id.toNat) r x y) ↔ IntegralPartsDiffer (2 ^ 64) x y) ∧
    ((∀ members p, KeptApart (fun x => Page.fromJson (withNumber "__page_id__" members x))
      (fun p => p.id.toNat) p x y) ↔ IntegralPartsDiffer (2 ^ 32) x y) ∧
    ((∀ members t, KeptApart (fun x => Table.fromJson (withNumber "__table_id___" members x))
      (fun t => t.id.toNat) t x y) ↔ IntegralPartsDiffer (2 ^ 32) x y) ∧
    ((∀ nextId members, ImportKeepsApart nextId members x y) ↔
      IntegralPartsDiffer (2 ^ 64) x y) := by
  have hrecord : ∃ members r y r', Record.fromJson (withNumber "__id__" members y) r =
      .ok .OK r' := ⟨recordMembers, Record.default, .finite 0, Record.new 0 .emptyObject, rfl⟩
  have hpage : ∃ members p y p', Page.fromJson (withNumber "__page_id__" members y) p =
      .ok .OK p' := ⟨[("records", .array [])], Page.new 0, .finite 0, Page.new 0, rfl⟩
  have htable : ∃ members t y t', Table.fromJson (withNumber "__table_id___" members y) t =
      .ok .OK t' := ⟨tableMembers, Table.new "" 0 [], .finite 0, Table.new "" 0 [], rfl⟩
  refine ⟨?_, ?_, ?_, importedExactOrRejected_iff x, ?_, ?_, ?_, importKeepsApart_iff x y⟩
  · exact exactOrRejected_iff storesIntegralPart_record hrecord x
  · exact exactOrRejected_iff storesIntegralPart_page hpage x
  · exact exactOrRejected_iff storesIntegralPart_table htable x
  · exact keptApart_iff storesIntegralPart_record hrecord x y
  · exact keptApart_iff storesIntegralPart_page hpage x y
  · exact keptApart_iff storesIntegralPart_table htable x y

end Tables

/-- Half an identifier is not rejected. -/
theorem not_exactOrRejected_half : ¬ExactOrRejected (2 ^ 64)
    (fun x => Record.fromJson (withNumber "__id__" recordMembers x)) (fun r => r.id.toNat)
    Record.default (.finite (1 / 2)) := by
  intro h
  have hfraction : ¬Representable (2 ^ 64) (.finite (1 / 2)) := by
    rintro ⟨n, _, heq⟩
    injection heq with hvalue
    have hdouble : (1 : ℚ) = 2 * n := by
      rw [← hvalue]
      norm_num
    have hnat : 1 = 2 * n := by exact_mod_cast hdouble
    omega
  have haccepts : Record.fromJson (withNumber "__id__" recordMembers (.finite 0))
      Record.default = .ok .OK (Record.new 0 .emptyObject) := rfl
  exact (storesIntegralPart_record recordMembers).not_rejected ⟨_, _, haccepts⟩ _ (h.2 hfraction)

end MiniDB.Engine
