import MiniDB.Engine.CacheCalls
import MiniDB.Engine.DecodingTargets

/-!
# The numbers of cached pages

A page is cached under the number it was asked for, but it is written to the slot of the number it
carries, which a fetch takes from the slot that it reads. The two agree as long as every slot that
is read carries its own number; what becomes of a number out of range is undefined.
-/

namespace MiniDB.Engine

open MiniDB.Common MiniDB.Common.FileIO MiniDB.JsonPro MiniDB.Core Memory Posix ByteSequence
open Refinement

/-- No operation changes the number of a page. -/
theorem StorageEngine.PageOp.apply_id (op : PageOp) (page : Page) :
    (op.apply page).2.id = page.id := by
  cases op with
  | addRecord record =>
    unfold apply Page.addRecord
    dsimp only
    split
    · rfl
    · split <;> rfl
  | updateRecord record =>
    unfold apply Page.updateRecord
    dsimp only
    split <;> rfl
  | deleteRecord id =>
    unfold apply Page.deleteRecord
    dsimp only
    split <;> rfl
  | compact => rfl

namespace StorageEngine

/-- Every page is cached under its own number. -/
def Named (s : StorageEngine) : Prop := ∀ key page, s.cached key = some page → page.id = key.2

/-- At most the slot of a page was written. -/
structure WritesSlot (s : StorageEngine) (key : PageKey) (s' : StorageEngine) : Prop where
  /-- Other files are left alone. -/
  others : ∀ path, path ≠ s.pageFilePath key.1 → bytesIn s'.files path = bytesIn s.files path
  /-- At most the slot is laid over the file of the table. -/
  slot : bytesIn s'.files (s.pageFilePath key.1) = bytesIn s.files (s.pageFilePath key.1) ∨
    ∃ data, data.length ≤ slotSize.toNat ∧ bytesIn s'.files (s.pageFilePath key.1) =
      overwrite 0 (bytesIn s.files (s.pageFilePath key.1)) (key.2.toNat * slotSize.toNat) data

section Disk

variable [JsonText] {s s' : StorageEngine}

/-- A slot that is read into the cache holds no number out of range, and if it describes a page, it
carries its own number. -/
def OwnNumber (s : StorageEngine) : Call → Prop
  | .fetchPage tableName id io => s.cached (tableName, id) = none →
    ∀ envelope ∈ s.documentOnDisk tableName id io, PageInRange (Page.new id) envelope ∧
      ∀ page, Page.ofEnvelope? envelope = some page → page.id = id
  | _ => True

/-- A fetch is defined and returns the page asked for, and flushes and evictions write at most its
slot. -/
def Asked (s : StorageEngine) : Call → Prop
  | .fetchPage tableName id io => ∃ result s', s.fetchPage tableName id io = .ok (result, s') ∧
    ∀ page ∈ result, page.id = id
  | .flushPage tableName id io => ∃ status s', s.flushPage tableName id io = .ok (status, s') ∧
    s.WritesSlot (tableName, id) s'
  | .evictPage tableName id io => ∃ status s', s.evictPage tableName id io = .ok (status, s') ∧
    s.WritesSlot (tableName, id) s'
  | _ => True

omit [JsonText] in
/-- Calls that change no cached page keep the numbers. -/
theorem Named.of_same (h : s.Named) (hsame : ∀ key, s'.cached key = s.cached key) : s'.Named := by
  intro key page hpage
  rw [hsame] at hpage
  exact h key page hpage

omit [JsonText] in
/-- Calls on one cached page keep the numbers if they keep its own. -/
theorem Named.of_others (h : s.Named) {key : PageKey}
    (hothers : ∀ other, other ≠ key → s'.cached other = s.cached other)
    (hkey : ∀ page, s'.cached key = some page → page.id = key.2) : s'.Named := by
  intro other page hpage
  by_cases hother : other = key
  · subst hother
    exact hkey page hpage
  · rw [hothers other hother] at hpage
    exact h other page hpage

omit [JsonText] in
/-- Storing a page under its own number keeps the numbers. -/
theorem Named.installed (h : s.Named) {key : PageKey} {page : Page}
    (hinstalled : s.Installed key page s') (hid : page.id = key.2) : s'.Named := by
  intro other found hfound
  by_cases hother : other = key
  · subst hother
    rw [hinstalled.new] at hfound
    cases hfound
    exact hid
  · rcases hinstalled.gone other hother with hsame | ⟨hgone, _⟩
    · rw [hsame] at hfound
      exact h other found hfound
    · rw [hgone] at hfound
      cases hfound

/-- A flush keeps the numbers. -/
theorem Named.flushPage (h : s.Named) {tableName : String} {id : PageID} {io : Schedule}
    {status : Status} (hflush : s.flushPage tableName id io = .ok (status, s')) : s'.Named := by
  rcases flushPage_cases hflush with
    ⟨_, _, hsame⟩ | ⟨page, hpage, ⟨_, _, hsame⟩ | ⟨_, _, _, hcached⟩⟩
  · exact h.of_same hsame.cached
  · exact h.of_same hsame.cached
  · rcases hcached with ⟨_, hsame⟩ | ⟨_, hnew, hsame⟩
    · exact h.of_same hsame
    · refine h.of_others hsame fun found hfound => ?_
      rw [hnew] at hfound
      cases hfound
      exact h (tableName, id) page hpage

/-- A read of a slot that carries its own number gets this number. -/
theorem OwnNumber.id_of_read {tableName : String} {id : PageID} {io : Schedule} {page : Page}
    (h : s.OwnNumber (.fetchPage tableName id io)) (hmissing : s.cached (tableName, id) = none)
    (hread : s.readPageFromDisk tableName id (Page.new id) io = .ok (.OK, page)) :
    page.id = id := by
  obtain ⟨envelope, hdocument, hpage⟩ := readPageFromDisk_new_eq_ok.mp hread
  exact (h hmissing envelope hdocument).2 page hpage

/-- A fetch is undefined exactly if it reads a slot with a number out of range. -/
theorem fetchPage_undefined_iff {tableName : String} {id : PageID} {io : Schedule} :
    (∀ result s', s.fetchPage tableName id io ≠ .ok (result, s')) ↔
      s.cached (tableName, id) = none ∧
        ∃ envelope ∈ s.documentOnDisk tableName id io, ¬PageInRange (Page.new id) envelope := by
  rw [← readPageFromDisk_new_undefined_iff]
  unfold fetchPage
  by_cases hcached : s.isCached tableName id = true
  · rw [if_pos hcached]
    constructor
    · intro h
      exact absurd rfl (h _ _)
    · rintro ⟨hmissing, _⟩
      exact absurd hcached (not_isCached_iff.mpr hmissing)
  · rw [if_neg hcached, and_iff_right (not_isCached_iff.mp hcached)]
    rcases s.readPageFromDisk_ends tableName id (Page.new id) io with
      ⟨status, loaded, hread⟩ | hundefined
    · rw [hread]
      constructor
      · intro h
        change ∀ result s', (if status ≠ .OK then _ else _ :
          Except Fault (Option Page × StorageEngine)) ≠ .ok (result, s') at h
        split at h
        · exact absurd rfl (h _ _)
        · exact absurd rfl (h _ _)
      · exact nofun
    · rw [hundefined]
      exact ⟨fun _ => rfl, fun _ => nofun⟩

/-- Calls keep the numbers if the slots they read carry their own. -/
theorem Named.call (h : s.Named) {c : Call} (hown : s.OwnNumber c) {response : Response}
    (hcall : s.call c = .ok (response, s')) : s'.Named := by
  cases effect_of_call hcall with
  | stored installed _ => exact h.installed installed rfl
  | loaded missing read installed _ => exact h.installed installed (hown.id_of_read missing read)
  | fetched unchanged => exact h.of_same unchanged.cached
  | found unchanged => exact h.of_same unchanged.cached
  | flushed flush => exact h.flushPage flush
  | evicted evict =>
    obtain ⟨_, s₁, hflush, _, ⟨_, hsame⟩ | ⟨_, hgone, hsame⟩⟩ := evictPage_cases evict
    · exact (h.flushPage hflush).of_same hsame
    · refine (h.flushPage hflush).of_others hsame fun found hfound => ?_
      rw [hgone] at hfound
      cases hfound
  | changed old new others _ =>
    refine h.of_others others fun found hfound => ?_
    rw [new] at hfound
    cases hfound
    rw [PageOp.apply_id]
    exact h _ _ old

/-- A flush writes at most the slot of the page, if that carries its own number. -/
theorem Named.writesSlot_flushPage (h : s.Named) {tableName : String} {id : PageID}
    {io : Schedule} {status : Status} (hflush : s.flushPage tableName id io = .ok (status, s')) :
    s.WritesSlot (tableName, id) s' := by
  have hnone : ∀ {s' : StorageEngine}, s'.files = s.files → s.WritesSlot (tableName, id) s' := by
    intro s' hfiles
    constructor
    · exact fun path _ => by rw [hfiles]
    · exact Or.inl (by rw [hfiles])
  rcases flushPage_eq_ok hflush with ⟨hget, _⟩ | ⟨page, s₁, hget, hcases⟩
  · exact hnone (getCachedPage_eq hget).2.2.1
  · obtain ⟨hresult, hdirectory, hfiles, _⟩ := getCachedPage_eq hget
    rcases hcases with ⟨_, _, rfl⟩ | ⟨_, files, hwrite, hcases⟩
    · exact hnone hfiles
    · have hid : page.id = id := h (tableName, id) page hresult.symm
      rw [writePage_congr hdirectory hfiles] at hwrite
      have hwritten : s'.files = files := by
        rcases hcases with ⟨_, rfl⟩ | ⟨_, rfl⟩ <;> rfl
      obtain ⟨hothers, hslot⟩ := bytesIn_of_writeSlot (slotOffset_page page.id) hwrite
      rw [hid] at hslot
      rw [← hwritten] at hothers hslot
      exact ⟨hothers, hslot⟩

/-- An eviction writes at most the slot of the page, if that carries its own number. -/
theorem Named.writesSlot_evictPage (h : s.Named) {tableName : String} {id : PageID}
    {io : Schedule} {status : Status} (hevict : s.evictPage tableName id io = .ok (status, s')) :
    s.WritesSlot (tableName, id) s' := by
  obtain ⟨_, s₁, hflush, ⟨_, rfl⟩ | ⟨_, rfl⟩⟩ := evictPage_eq_ok hevict
  · exact h.writesSlot_flushPage hflush
  · obtain ⟨hothers, hslot⟩ := h.writesSlot_flushPage hflush
    exact ⟨hothers, hslot⟩

/-- With pages under their own numbers a fetch returns the page asked for if the slot it reads
carries its own number. -/
theorem Named.id_of_fetchPage (h : s.Named) {tableName : String} {id : PageID} {io : Schedule}
    (hown : s.OwnNumber (.fetchPage tableName id io)) {page : Page}
    (hfetch : s.fetchPage tableName id io = .ok (some page, s')) : page.id = id := by
  rcases fetchPage_eq_ok hfetch with hget | ⟨hnone, _⟩ | ⟨hmissing, loaded, hread, hget⟩
  · exact h (tableName, id) page (getCachedPage_eq hget).1.symm
  · cases hnone
  · have hresult := (getCachedPage_eq hget).1
    unfold cached at hresult
    rw [LruCache.peek_put (by decide), if_pos rfl] at hresult
    cases hresult
    exact OwnNumber.id_of_read hown hmissing hread

/-- With pages under their own numbers a call does what was asked exactly if the slot it reads
holds no number out of range and carries its own number. -/
theorem Named.asked_iff (h : s.Named) (c : Call) : s.Asked c ↔ s.OwnNumber c := by
  cases c with
  | fetchPage tableName id io =>
    constructor
    · rintro ⟨result, s', hfetch, hid⟩ hmissing envelope hdocument
      constructor
      · by_contra hrange
        exact fetchPage_undefined_iff.mpr ⟨hmissing, envelope, hdocument, hrange⟩ result s' hfetch
      · intro page hpage
        obtain ⟨s₁, hfetched, _⟩ := fetchPage_of_read hmissing
          (readPageFromDisk_new_eq_ok.mpr ⟨envelope, hdocument, hpage⟩)
        cases hfetch.symm.trans hfetched
        exact hid page rfl
    · intro hown
      by_contra hnot
      have hundefined : ∀ result s', s.fetchPage tableName id io ≠ .ok (result, s') := by
        intro result s' hfetch
        refine hnot ⟨result, s', hfetch, fun page hpage => ?_⟩
        cases hpage
        exact h.id_of_fetchPage hown hfetch
      obtain ⟨hmissing, envelope, hdocument, hrange⟩ := fetchPage_undefined_iff.mp hundefined
      exact hrange (hown hmissing envelope hdocument).1
  | flushPage tableName id io =>
    obtain ⟨status, s', hflush⟩ := s.flushPage_returns tableName id io
    exact ⟨fun _ => trivial, fun _ => ⟨status, s', hflush, h.writesSlot_flushPage hflush⟩⟩
  | evictPage tableName id io =>
    obtain ⟨status, s', hevict⟩ := s.evictPage_returns tableName id io
    exact ⟨fun _ => trivial, fun _ => ⟨status, s', hevict, h.writesSlot_evictPage hevict⟩⟩
  | _ => exact Iff.rfl

/-- In every run from an empty cache, whatever the page files hold, fetches are defined and return
the pages asked for, and flushes and evictions write at most their slots, if and only if every slot
that is read into the cache holds no number out of range and carries its own number. -/
theorem along_asked_iff (dataDirectory : String) (files : Files) (calls : List Call) :
    Along StorageEngine.call Asked (new dataDirectory files) calls ↔
      Along StorageEngine.call OwnNumber (new dataDirectory files) calls := by
  have hstart : (new dataDirectory files).Named := by
    intro key page hpage
    cases hpage
  exact along_congr (fun h hown hcall => Named.call h hown hcall)
    (fun h => Named.asked_iff h _) hstart

end Disk

/-- A file whose first slot holds one byte, to be read as a page with another number. -/
def foreignSlot : Files :=
  FiniteMap.empty.put "data/orders.pages" ⟨[1, 0, 0, 0, 1], by decide⟩

/-- A fetch returns a page with another number if the slot carries it. -/
theorem not_along_asked_foreign :
    letI := JsonText.ofDocument [1] (freshPage 1).toJson
    ¬Along StorageEngine.call Asked (new "data" foreignSlot) [.fetchPage "orders" 0 []] := by
  let _ := JsonText.ofDocument [1] (freshPage 1).toJson
  rintro ⟨hasked, _⟩
  have hlegible : Legible (freshPage 1) := legible_freshPage (by decide) (List.cons_ne_nil _ _)
  obtain ⟨decoded, hdecoded, hid, _⟩ := Page.exists_ofEnvelope?_toJson hlegible.small
  have hread : readSlot (new "data" foreignSlot).files
      ((new "data" foreignSlot).pageFilePath "orders") (0 : PageID).toUInt64 slotSize [] =
        .ok (.OK, [1]) := by decide +kernel
  have htext : JsonText.parse [1] = .ok (freshPage 1).toJson := if_pos rfl
  have hdocument : (new "data" foreignSlot).documentOnDisk "orders" 0 [] =
      some (freshPage 1).toJson := by
    unfold documentOnDisk documentIn
    rw [hread]
    change (JsonText.parse [1]).toOption = _
    rw [htext]
    rfl
  obtain ⟨s₁, hfetched, _⟩ := @fetchPage_of_read _ (new "data" foreignSlot) "orders" 0 [] _ rfl
    (readPageFromDisk_new_eq_ok.mpr ⟨_, hdocument, hdecoded⟩)
  obtain ⟨_, _, hfetch, hsame⟩ := hasked
  cases hfetch.symm.trans hfetched
  have hzero : decoded.id = 0 := hsame decoded rfl
  rw [hid] at hzero
  exact absurd hzero (by decide)

end StorageEngine

end MiniDB.Engine
