import MiniDB.Engine.StorageEngine

/-!
# Pages on disk

Every page of every table has its own slot in its own file and its own cache key. Writing
a page that can be read back stores its live records, and a write, even a failed one,
leaves the pages in all other slots as they are.
-/

namespace MiniDB.Engine

open MiniDB.Common MiniDB.Common.FileIO MiniDB.JsonPro MiniDB.Core Memory Posix

/-- What identifies a page: the name of its table and its number. -/
abbrev PageKey := String × PageID

namespace StorageEngine

/-- Cache keys are as distinct as the pages they stand for. -/
theorem cacheKey_injective {key other : PageKey}
    (h : cacheKey key.1 key.2 = cacheKey other.1 other.2) : key = other := by
  obtain ⟨tableName, id⟩ := key
  obtain ⟨otherName, otherId⟩ := other
  -- the last mark of a key ends the name of the table: digits do not contain it
  have hdigits : ∀ (n : ℕ) (name : List Char),
      ((Nat.toDigits 10 n).reverse ++ '#' :: name).takeWhile (fun c => decide (c ≠ '#')) =
        (Nat.toDigits 10 n).reverse := by
    intro n name
    rw [List.takeWhile_append_of_pos, List.takeWhile_cons_of_neg (by decide), List.append_nil]
    intro c hc
    have hdigit := Nat.isDigit_of_mem_toDigits (by decide) (by decide) (List.mem_reverse.mp hc)
    apply decide_eq_true
    rintro rfl
    exact absurd hdigit (by decide)
  have hlist : ∀ (name : String) (id : PageID), (cacheKey name id).toList.reverse =
      (Nat.toDigits 10 id.toNat).reverse ++ '#' :: name.toList.reverse := by
    intro name id
    unfold cacheKey
    rw [Nat.toString_eq_repr, String.toList_append, String.toList_append, Nat.toList_repr,
      List.reverse_append, List.reverse_append]
    rfl
  have heq := congrArg (fun key : String => key.toList.reverse) h
  dsimp only at heq
  rw [hlist, hlist] at heq
  have hnumber := congrArg (List.takeWhile fun c => decide (c ≠ '#')) heq
  rw [hdigits, hdigits] at hnumber
  rw [hnumber] at heq
  have hname := (List.cons.inj (List.append_cancel_left heq)).2
  have hid : id.toNat = otherId.toNat := by
    have hvalue := congrArg (fun digits => Nat.ofDigitChars 10 digits 0)
      (List.reverse_inj.mp hnumber)
    simpa only [Nat.ofDigitChars_ten_toDigits] using hvalue
  rw [UInt32.toNat_inj.mp hid, String.toList_inj.mp (List.reverse_inj.mp hname)]

/-- Tables have different files. -/
theorem pageFilePath_injective (s : StorageEngine) {tableName other : String}
    (h : s.pageFilePath tableName = s.pageFilePath other) : tableName = other := by
  unfold pageFilePath at h
  have heq := congrArg String.toList h
  simp only [String.toList_append, List.append_assoc, List.append_cancel_left_eq,
    List.append_cancel_right_eq] at heq
  exact String.toList_inj.mp heq

/-- The size of a slot. -/
abbrev slotSize : UInt32 := UInt32.ofNat DBConstants.PAGE_SIZE

theorem slotSize_toNat : slotSize.toNat = 4096 := by decide

/-- The offset of a page. -/
theorem slotOffset_page (id : PageID) :
    slotOffset id.toUInt64 slotSize = .ok (Int.ofNat (id.toNat * slotSize.toNat)) := by
  have hid := id.toNat_lt
  have hcast : id.toUInt64.toNat = id.toNat := UInt32.toNat_toUInt64 id
  rw [← hcast]
  apply slotOffset_of_lt
  · rw [slotSize_toNat]
    omega
  · omega

/-- Reading the slot of a page returns. -/
theorem readSlot_returns (s : StorageEngine) (tableName : String) (id : PageID) (io : Schedule) :
    ∃ status payload, readSlot s.files (s.pageFilePath tableName) id.toUInt64 slotSize io =
      .ok (status, payload) := by
  rcases @readSlot_cases s.files (s.pageFilePath tableName) _ _ _ (by decide) (slotOffset_page id)
    io with hread | hread | hread
  · exact ⟨_, _, hread⟩
  · exact ⟨_, _, hread⟩
  · exact ⟨_, _, hread⟩

/-- The cached page under a key. -/
def cached (s : StorageEngine) (key : PageKey) : Option Page :=
  s.pageCache.peek (cacheKey key.1 key.2)

section Disk

variable [JsonText]

/-- The page that the slot of a key decodes to: what `readPageFromDisk` returns without
failing calls. -/
def onDisk (s : StorageEngine) (key : PageKey) : Option Page :=
  match s.readPageFromDisk key.1 key.2 (Page.new key.2) [] with
  | .ok (.OK, page) => some page
  | _ => none

/-- The live records that the slot of a key decodes to. -/
def stored (s : StorageEngine) (key : PageKey) : Option (List Record) :=
  (s.onDisk key).map Page.live

/-- Live records that are on disk stay there if the page they are decoded from does. -/
theorem stored_of_kept {s s' : StorageEngine} {key : PageKey} {content : List Record}
    (hkept : ∀ kept, s.onDisk key = some kept → s'.onDisk key = some kept)
    (h : s.stored key = some content) : s'.stored key = some content := by
  obtain ⟨kept, hdisk, rfl⟩ := Option.map_eq_some_iff.mp h
  unfold stored
  rw [hkept kept hdisk]
  rfl

/-- A page whose written form can be read back. -/
structure Legible (page : Page) : Prop where
  /-- The identifiers of the page and its records are small. -/
  small : page.SmallIds
  /-- Its text is not empty. -/
  nonempty : page.serialize ≠ []
  /-- Its text is parsed to what it was written from. -/
  text : JsonText.parse page.serialize = .ok page.toJson

/-- A text that parses to the envelope of a page deserializes to that page. -/
theorem deserialize_of_some {payload : List UInt8} {envelope : Json} {page : Page}
    (hparse : JsonText.parse payload = .ok envelope)
    (hpage : Page.ofEnvelope? envelope = some page) (id : PageID) :
    (Page.new id).deserialize payload = .ok .OK page := by
  have hload := (@Page.fromJson_eq_ok _ id _).mpr hpage
  unfold Page.deserialize
  rw [catching_eq_ok (by decide), lift_bind_of_ok hparse]
  by_cases hnull : envelope.isNull = true
  · unfold Page.fromJson at hload
    rw [if_pos hnull] at hload
    cases hload
  · rw [if_neg hnull]
    exact hload

/-- What a successful read returns depends only on the payload of the slot. -/
theorem readPageFromDisk_eq_ok {s : StorageEngine} {tableName : String} {id : PageID}
    {io : Schedule} {page : Page}
    (h : s.readPageFromDisk tableName id (Page.new id) io = .ok (.OK, page)) :
    ∃ payload, payloadIn slotSize s.files (s.pageFilePath tableName) (id.toNat * slotSize.toNat) =
      some payload ∧ (Page.new id).deserialize payload = .ok .OK page := by
  unfold readPageFromDisk at h
  cases hread : readSlot s.files (s.pageFilePath tableName) id.toUInt64 slotSize io with
  | error fault =>
    rw [hread] at h
    cases h
  | ok result =>
    obtain ⟨status, payload⟩ := result
    rw [hread] at h
    change (if status ≠ .OK then _ else _) = _ at h
    by_cases hs : status = .OK
    · subst hs
      rw [if_neg (not_not.mpr rfl)] at h
      refine ⟨payload, payloadIn_of_readSlot (by decide) (slotOffset_page id) hread, ?_⟩
      cases hload : (Page.new id).deserialize payload with
      | error fault out =>
        rw [hload] at h
        cases h
      | ok status out =>
        rw [hload] at h
        cases h
        rfl
    · rw [if_pos hs] at h
      injection h with h
      exact absurd (congrArg Prod.fst h) hs

/-- The page on disk under a key, by the payload of its slot. -/
theorem onDisk_eq_some {s : StorageEngine} {key : PageKey} {page : Page} :
    s.onDisk key = some page ↔ ∃ payload,
      payloadIn slotSize s.files (s.pageFilePath key.1) (key.2.toNat * slotSize.toNat) =
        some payload ∧ (Page.new key.2).deserialize payload = .ok .OK page := by
  constructor
  · intro h
    unfold onDisk at h
    split at h
    · rename_i found hread
      cases h
      exact readPageFromDisk_eq_ok hread
    · cases h
  · rintro ⟨payload, hpayload, hload⟩
    have hread := (readSlot_nil_eq_ok (by decide) (slotOffset_page key.2)).mpr hpayload
    have hstatus : ¬Status.OK ≠ .OK := not_not_intro rfl
    have hfound : s.readPageFromDisk key.1 key.2 (Page.new key.2) [] = .ok (.OK, page) := by
      simp only [readPageFromDisk, hread, bind, Except.bind, if_neg hstatus, hload]
      rfl
    simp only [onDisk, hfound]

/-- Without its file a table has no pages on disk. -/
theorem stored_eq_none {s : StorageEngine} {key : PageKey}
    (h : s.files.get? (s.pageFilePath key.1) = none) : s.stored key = none := by
  have hnone : s.onDisk key = none := by
    cases hdisk : s.onDisk key with
    | none => rfl
    | some page =>
      obtain ⟨payload, hpayload, _⟩ := onDisk_eq_some.mp hdisk
      unfold payloadIn at hpayload
      rw [h] at hpayload
      cases hpayload
  unfold stored
  rw [hnone]
  rfl

/-- A read that succeeds returns the page on disk. -/
theorem onDisk_of_read {s : StorageEngine} {tableName : String} {id : PageID} {io : Schedule}
    {page : Page}
    (h : s.readPageFromDisk tableName id (Page.new id) io = .ok (.OK, page)) :
    s.onDisk (tableName, id) = some page :=
  onDisk_eq_some.mpr (readPageFromDisk_eq_ok h)

/-- Pages on disk depend on the files only. -/
theorem onDisk_congr {s s' : StorageEngine} (hdirectory : s'.dataDirectory = s.dataDirectory)
    (hfiles : s'.files = s.files) (key : PageKey) : s'.onDisk key = s.onDisk key := by
  obtain ⟨directory, cache, files⟩ := s
  obtain ⟨directory', cache', files'⟩ := s'
  dsimp only at hdirectory hfiles
  subst hdirectory hfiles
  rfl

/-- Writes depend on the files only. -/
theorem writePage_congr {s s' : StorageEngine} (hdirectory : s'.dataDirectory = s.dataDirectory)
    (hfiles : s'.files = s.files) (tableName : String) (page : Page) (io : Schedule) :
    s'.writePage tableName page io = s.writePage tableName page io := by
  unfold writePage pageFilePath
  rw [hdirectory, hfiles]

/-- A successful write stores a legible page; no write reaches a page in another slot. -/
theorem writePage_spec (s : StorageEngine) (tableName : String) (page : Page) (io : Schedule) :
    ∃ status files, s.writePage tableName page io = .ok (status, files) ∧
      (status = .OK → Legible page →
        StorageEngine.stored { s with files } (tableName, page.id) = some page.live) ∧
      ∀ key, key ≠ (tableName, page.id) → ∀ kept, s.onDisk key = some kept →
        StorageEngine.onDisk { s with files } key = some kept := by
  obtain ⟨status, files, hwrite, hstored, hkept⟩ := writeSlot_spec (slotOffset_page page.id)
    s.files (s.pageFilePath tableName) page.serialize io
  refine ⟨status, files, hwrite, ?_, ?_⟩
  · intro hok hlegible
    obtain ⟨decoded, hdecoded, _, _, hlive⟩ := Page.exists_ofEnvelope?_toJson hlegible.small
    have hload := deserialize_of_some hlegible.text hdecoded page.id
    have hdisk : StorageEngine.onDisk { s with files } (tableName, page.id) = some decoded :=
      onDisk_eq_some.mpr ⟨page.serialize, hstored hok hlegible.nonempty, hload⟩
    unfold stored
    rw [hdisk, Option.map_some, hlive]
  · intro key hkey kept h
    obtain ⟨payload, hpayload, hload⟩ := onDisk_eq_some.mp h
    refine onDisk_eq_some.mpr ⟨payload, hkept _ _ _ ?_ hpayload, hload⟩
    by_cases htable : key.1 = tableName
    · right
      have hid : key.2.toNat ≠ page.id.toNat := by
        intro hsame
        exact hkey (Prod.ext htable (UInt32.toNat_inj.mp hsame))
      rw [slotSize_toNat]
      omega
    · left
      intro hpath
      exact htable (s.pageFilePath_injective hpath)

end Disk

end StorageEngine

end MiniDB.Engine
