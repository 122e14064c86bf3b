import MiniDB.Engine.CacheCalls

/-!
# Pages that are left alone

Calls on one page leave every other page as it is, in the cache as long as that is not full and
on disk. The only exception is a slot of the same file whose length prefix was written in part
only: a write behind it completes the prefix with zero bytes.
-/

namespace MiniDB.Engine

open MiniDB.Common MiniDB.Common.FileIO MiniDB.JsonPro MiniDB.Core Memory Posix ByteSequence
open Refinement

namespace StorageEngine

/-- A call on the pages with one number of one table. -/
inductive PageCall (id : PageID)
  | writePage (page : Page) (hid : page.id = id) (io : Schedule)
  | cachePage (page : Page) (hid : page.id = id)
  | fetchPage (io : Schedule)
  | flushPage (io : Schedule)
  | evictPage (io : Schedule)

/-- The bytes of the page file of a table. -/
def pageBytes (s : StorageEngine) (tableName : String) : List UInt8 :=
  bytesIn s.files (s.pageFilePath tableName)

/-- The page file ends inside the length prefix of a slot, behind a byte that is not zero. -/
def TornPrefix (s : StorageEngine) (key : PageKey) : Prop :=
  (s.pageBytes key.1).length < key.2.toNat * slotSize.toNat + LENGTH_SIZE ∧
    ∃ byte ∈ (s.pageBytes key.1).drop (key.2.toNat * slotSize.toNat), byte ≠ 0

/-- The slot of a page lies in front of that of another one in the same file. -/
def InFront (key other : PageKey) : Prop := key.1 = other.1 ∧ key.2.toNat < other.2.toNat

/-- The slot of a page shows the same bytes, and its file still reaches behind the length prefix
if it did, and newly only because a slot behind it was written. -/
structure SlotKept (key written : PageKey) (s s' : StorageEngine) : Prop where
  /-- The bytes of the slot. -/
  shown : window 0 (s'.pageBytes key.1) (key.2.toNat * slotSize.toNat) slotSize.toNat =
    window 0 (s.pageBytes key.1) (key.2.toNat * slotSize.toNat) slotSize.toNat
  /-- The file is not cut. -/
  reached : key.2.toNat * slotSize.toNat + LENGTH_SIZE ≤ (s.pageBytes key.1).length →
    key.2.toNat * slotSize.toNat + LENGTH_SIZE ≤ (s'.pageBytes key.1).length
  /-- The file is extended behind the slot only. -/
  extended : key.2.toNat * slotSize.toNat + LENGTH_SIZE ≤ (s'.pageBytes key.1).length →
    key.2.toNat * slotSize.toNat + LENGTH_SIZE ≤ (s.pageBytes key.1).length ∨ InFront key written

namespace SlotKept

variable {key written : PageKey} {s s' s'' : StorageEngine}

/-- A slot in a file that stays as it is is kept. -/
theorem of_bytes (hbytes : s'.pageBytes key.1 = s.pageBytes key.1) :
    SlotKept key written s s' := by
  constructor
  · rw [hbytes]
  · rw [hbytes]
    exact id
  · rw [hbytes]
    exact Or.inl

/-- Nothing happens to a slot without a write. -/
theorem of_files (hdirectory : s'.dataDirectory = s.dataDirectory) (hfiles : s'.files = s.files) :
    SlotKept key written s s' := by
  apply of_bytes
  unfold pageBytes pageFilePath
  rw [hdirectory, hfiles]

/-- A slot is kept when at most another one is laid over the file. -/
theorem of_overwrite (hfile : key.1 = written.1) (hid : key.2.toNat ≠ written.2.toNat)
    {data : List UInt8} (hdata : data.length ≤ slotSize.toNat)
    (hbytes : s'.pageBytes key.1 =
      overwrite 0 (s.pageBytes key.1) (written.2.toNat * slotSize.toNat) data) :
    SlotKept key written s s' := by
  rw [slotSize_toNat] at hdata hbytes
  have hlength : (s'.pageBytes key.1).length =
      max (s.pageBytes key.1).length (written.2.toNat * 4096 + data.length) := by
    rw [hbytes, overwrite_length]
  constructor
  · rw [hbytes, slotSize_toNat]
    exact window_overwrite_of_disjoint 0 _ (by omega)
  · rw [slotSize_toNat]
    omega
  · rw [slotSize_toNat]
    intro hextended
    by_cases hfront : key.2.toNat < written.2.toNat
    · exact Or.inr ⟨hfile, hfront⟩
    · have hpositive := LENGTH_SIZE_pos
      exact Or.inl (by omega)

theorem trans (h : SlotKept key written s s') (h' : SlotKept key written s' s'') :
    SlotKept key written s s'' where
  shown := h'.shown.trans h.shown
  reached := fun hreached => h'.reached (h.reached hreached)
  extended := fun hextended => (h'.extended hextended).elim h.extended Or.inr

/-- A slot that is kept is read as before unless its length prefix was torn and a slot behind it
was written. -/
theorem slotAt (h : SlotKept key written s s')
    (htorn : InFront key written → ¬s.TornPrefix key) :
    slotAt slotSize (s'.pageBytes key.1) (key.2.toNat * slotSize.toNat) =
      slotAt slotSize (s.pageBytes key.1) (key.2.toNat * slotSize.toNat) := by
  by_cases hnew : (s.pageBytes key.1).length < key.2.toNat * slotSize.toNat + LENGTH_SIZE ∧
      key.2.toNat * slotSize.toNat + LENGTH_SIZE ≤ (s'.pageBytes key.1).length
  · obtain ⟨hshort, hlong⟩ := hnew
    have hfront : InFront key written :=
      (h.extended hlong).resolve_left (Nat.not_le.mpr hshort)
    have hzero : ∀ byte ∈ (s.pageBytes key.1).drop (key.2.toNat * slotSize.toNat), byte = 0 := by
      intro byte hbyte
      by_contra hne
      exact htorn hfront ⟨hshort, byte, hbyte, hne⟩
    have hblank := window_of_blank hzero slotSize.toNat
    rw [slotAt_of_zero hblank, slotAt_of_zero (h.shown.trans hblank)]
  · apply slotAt_congr h.shown
    have hreached := h.reached
    omega

end SlotKept

section Disk

variable [JsonText]

/-- A write of a page keeps every other slot. -/
theorem slotKept_of_writePage {s : StorageEngine} {tableName : String} {page : Page}
    {io : Schedule} {status : Status} {files : Files}
    (h : s.writePage tableName page io = .ok (status, files)) {key : PageKey}
    (hkey : key ≠ (tableName, page.id)) :
    SlotKept key (tableName, page.id) s { s with files } := by
  obtain ⟨hothers, hpath⟩ := bytesIn_of_writeSlot (slotOffset_page page.id) h
  by_cases htable : key.1 = tableName
  · subst htable
    have hid : key.2.toNat ≠ page.id.toNat := by
      intro hsame
      exact hkey (Prod.ext rfl (UInt32.toNat_inj.mp hsame))
    rcases hpath with hsame | ⟨data, hdata, hover⟩
    · exact SlotKept.of_bytes hsame
    · exact SlotKept.of_overwrite rfl hid hdata hover
  · exact SlotKept.of_bytes (hothers _ fun hpath => htable (s.pageFilePath_injective hpath))

/-- One call. -/
def pageCall (key : PageKey) (s : StorageEngine) :
    PageCall key.2 → Except Fault (Response × StorageEngine)
  | .writePage page _ io =>
    (s.writePage key.1 page io).map fun (status, files) => (.status status, { s with files })
  | .cachePage page _ => .ok (.done, s.cachePage key.1 page)
  | .fetchPage io => (s.fetchPage key.1 key.2 io).map fun (page, s) => (.page page, s)
  | .flushPage io => (s.flushPage key.1 key.2 io).map fun (status, s) => (.status status, s)
  | .evictPage io => (s.evictPage key.1 key.2 io).map fun (status, s) => (.status status, s)

omit [JsonText] in
/-- The cache has room for a page, and if the page is cached and dirty it has the right number. -/
structure Ready (s : StorageEngine) (key : PageKey) : Prop where
  /-- There is room. -/
  room : s.pageCache.HasRoom (cacheKey key.1 key.2)
  /-- The page is written to its own slot. -/
  carries : ∀ page, s.cached key = some page → page.dirty = true → page.id = key.2

omit [JsonText] in
/-- Calls on a page have left another one alone. -/
structure LeftAlone (key written : PageKey) (s s' : StorageEngine) : Prop where
  /-- The directory is the same. -/
  directory : s'.dataDirectory = s.dataDirectory
  /-- The cached page is the same. -/
  cached : s'.cached key = s.cached key
  /-- The slot is kept. -/
  slot : SlotKept key written s s'

namespace LeftAlone

omit [JsonText]

variable {key written : PageKey} {s s' s'' : StorageEngine}

theorem refl (key written : PageKey) (s : StorageEngine) : LeftAlone key written s s :=
  ⟨rfl, rfl, SlotKept.of_bytes rfl⟩

theorem trans (h : LeftAlone key written s s') (h' : LeftAlone key written s' s'') :
    LeftAlone key written s s'' :=
  ⟨h'.directory.trans h.directory, h'.cached.trans h.cached, h.slot.trans h'.slot⟩

/-- A change of the cache that does not reach the page. -/
theorem of_cache {cache : LruCache String Page DBConstants.LRU_CACHE_CAP}
    (hcache : cache.peek (cacheKey key.1 key.2) = s.pageCache.peek (cacheKey key.1 key.2)) :
    LeftAlone key written s { s with pageCache := cache } :=
  ⟨rfl, hcache, SlotKept.of_files rfl rfl⟩

end LeftAlone

omit [JsonText] in
private theorem cacheKey_ne {key written : PageKey} (hne : key ≠ written) :
    cacheKey key.1 key.2 ≠ cacheKey written.1 written.2 := fun h => hne (cacheKey_injective h)

namespace Ready

variable {key written : PageKey} {s s' : StorageEngine}

omit [JsonText] in
/-- Using a page changes none. -/
theorem getCachedPage (h : s.Ready written) (key : PageKey) {result : Option Page}
    (hget : s.getCachedPage written.1 written.2 = (result, s')) :
    result = s.cached written ∧ s'.Ready written ∧ LeftAlone key written s s' := by
  obtain ⟨hresult, hdirectory, hfiles, hsame⟩ := getCachedPage_eq hget
  refine ⟨hresult, ⟨?_, fun page hpage => ?_⟩, hdirectory, hsame key,
    SlotKept.of_files hdirectory hfiles⟩
  · obtain ⟨_, rfl⟩ := Prod.mk.inj hget
    exact h.room.get (by decide)
  · rw [hsame] at hpage
    exact h.carries page hpage

omit [JsonText] in
/-- Storing a page leaves others alone. -/
theorem put (h : s.Ready written) (hne : key ≠ written) (page : Page)
    (hcarries : page.dirty = true → page.id = written.2) :
    Ready { s with pageCache := s.pageCache.put (cacheKey written.1 written.2) page } written ∧
      LeftAlone key written s
        { s with pageCache := s.pageCache.put (cacheKey written.1 written.2) page } := by
  refine ⟨⟨LruCache.HasRoom.put (by decide) _ _ _, fun found hfound => ?_⟩,
    LeftAlone.of_cache (h.room.peek_put (by decide) page (cacheKey_ne hne))⟩
  unfold cached at hfound
  rw [LruCache.peek_put (by decide), if_pos rfl] at hfound
  cases hfound
  exact hcarries

/-- Writing a page leaves others alone. -/
theorem writePage (h : s.Ready written) (hne : key ≠ written) {page : Page}
    (hid : page.id = written.2) {io : Schedule} {status : Status} {files : Files}
    (hwrite : s.writePage written.1 page io = .ok (status, files)) :
    Ready { s with files } written ∧ LeftAlone key written s { s with files } := by
  have hpage : (written.1, page.id) = written := by rw [hid]
  refine ⟨⟨h.room, h.carries⟩, rfl, rfl, ?_⟩
  have hslot : SlotKept key (written.1, page.id) s { s with files } :=
    slotKept_of_writePage hwrite (hpage.symm ▸ hne)
  rwa [hpage] at hslot

omit [JsonText] in
/-- Marking a page clean leaves others alone. -/
theorem markClean (h : s.Ready written) (hne : key ≠ written) :
    let cache := s.pageCache.modify (cacheKey written.1 written.2) fun page =>
      { page with dirty := false }
    Ready { s with pageCache := cache } written ∧
      LeftAlone key written s { s with pageCache := cache } := by
  refine ⟨⟨h.room.modify _, fun found hfound hdirty => ?_⟩, LeftAlone.of_cache ?_⟩
  · unfold cached at hfound
    rw [LruCache.peek_modify, if_pos rfl] at hfound
    obtain ⟨page, _, rfl⟩ := Option.map_eq_some_iff.mp hfound
    cases hdirty
  · rw [LruCache.peek_modify, if_neg (cacheKey_ne hne)]

omit [JsonText] in
/-- Removing a page leaves others alone. -/
theorem erase (h : s.Ready written) (hne : key ≠ written) :
    Ready { s with pageCache := s.pageCache.erase (cacheKey written.1 written.2) } written ∧
      LeftAlone key written s
        { s with pageCache := s.pageCache.erase (cacheKey written.1 written.2) } := by
  refine ⟨⟨h.room.erase, fun found hfound => ?_⟩, LeftAlone.of_cache ?_⟩
  · unfold cached at hfound
    rw [LruCache.peek_erase, if_pos rfl] at hfound
    cases hfound
  · rw [LruCache.peek_erase, if_neg (cacheKey_ne hne)]

/-- A page that was read is clean. -/
private theorem dirty_of_read {tableName : String} {id : PageID} {io : Schedule} {page : Page}
    (h : s.readPageFromDisk tableName id (Page.new id) io = .ok (.OK, page)) :
    page.dirty = false := by
  obtain ⟨payload, _, hload⟩ := readPageFromDisk_eq_ok h
  unfold Page.deserialize at hload
  rw [catching_eq_ok (by decide)] at hload
  obtain ⟨envelope, _, hload⟩ := lift_bind_eq_ok hload
  split at hload
  · cases hload
  · exact (Page.ofEnvelope?_clean (Page.fromJson_eq_ok.mp hload)).1

/-- Fetching a page leaves others alone. -/
theorem fetchPage (h : s.Ready written) (hne : key ≠ written) {io : Schedule}
    {result : Option Page} (hfetch : s.fetchPage written.1 written.2 io = .ok (result, s')) :
    s'.Ready written ∧ LeftAlone key written s s' := by
  rcases fetchPage_eq_ok hfetch with hget | ⟨_, rfl⟩ | ⟨_, loaded, hread, hget⟩
  · exact (h.getCachedPage key hget).2
  · exact ⟨h, LeftAlone.refl key written s'⟩
  · have hclean := dirty_of_read hread
    obtain ⟨hready, hleft⟩ := h.put hne loaded fun hdirty => by
      rw [hclean] at hdirty
      cases hdirty
    obtain ⟨_, hready', hleft'⟩ := hready.getCachedPage key hget
    exact ⟨hready', hleft.trans hleft'⟩

/-- Flushing a page leaves others alone. -/
theorem flushPage (h : s.Ready written) (hne : key ≠ written) {io : Schedule} {status : Status}
    (hflush : s.flushPage written.1 written.2 io = .ok (status, s')) :
    s'.Ready written ∧ LeftAlone key written s s' := by
  rcases flushPage_eq_ok hflush with ⟨hget, _⟩ | ⟨page, s₁, hget, hcases⟩
  · exact (h.getCachedPage key hget).2
  · obtain ⟨hresult, hready, hleft⟩ := h.getCachedPage key hget
    rcases hcases with ⟨_, _, rfl⟩ | ⟨hdirty, files, hwrite, hcases⟩
    · exact ⟨hready, hleft⟩
    · have hid := h.carries page hresult.symm hdirty
      obtain ⟨hready', hleft'⟩ := hready.writePage hne hid hwrite
      rcases hcases with ⟨_, rfl⟩ | ⟨_, rfl⟩
      · exact ⟨hready', hleft.trans hleft'⟩
      · obtain ⟨hready'', hleft''⟩ := hready'.markClean hne
        exact ⟨hready'', hleft.trans (hleft'.trans hleft'')⟩

/-- Evicting a page leaves others alone. -/
theorem evictPage (h : s.Ready written) (hne : key ≠ written) {io : Schedule} {status : Status}
    (hevict : s.evictPage written.1 written.2 io = .ok (status, s')) :
    s'.Ready written ∧ LeftAlone key written s s' := by
  obtain ⟨flushed, s₁, hflush, ⟨_, rfl⟩ | ⟨_, rfl⟩⟩ := evictPage_eq_ok hevict
  · exact h.flushPage hne hflush
  · obtain ⟨hready, hleft⟩ := h.flushPage hne hflush
    obtain ⟨hready', hleft'⟩ := hready.erase hne
    exact ⟨hready', hleft.trans hleft'⟩

/-- A call leaves others alone. -/
theorem call (h : s.Ready written) (hne : key ≠ written) {call : PageCall written.2}
    {response : Response} (hcall : s.pageCall written call = .ok (response, s')) :
    s'.Ready written ∧ LeftAlone key written s s' := by
  cases call with
  | writePage page hid io =>
    obtain ⟨⟨status, files⟩, hwrite, heq⟩ := map_eq_ok.mp hcall
    cases heq
    exact h.writePage hne hid hwrite
  | cachePage page hid =>
    cases hcall
    have hput := h.put hne page fun _ => hid
    rw [← hid] at hput
    exact hput
  | fetchPage io =>
    obtain ⟨⟨result, s₁⟩, hfetch, heq⟩ := map_eq_ok.mp hcall
    cases heq
    exact h.fetchPage hne hfetch
  | flushPage io =>
    obtain ⟨⟨status, s₁⟩, hflush, heq⟩ := map_eq_ok.mp hcall
    cases heq
    exact h.flushPage hne hflush
  | evictPage io =>
    obtain ⟨⟨status, s₁⟩, hevict, heq⟩ := map_eq_ok.mp hcall
    cases heq
    exact h.evictPage hne hevict

end Ready

end Disk

/-- An engine whose only file holds the first byte of a slot. -/
def torn : StorageEngine :=
  ⟨"data", LruCache.empty, FiniteMap.empty.put "data/orders.pages" ⟨[5], by decide⟩⟩

end StorageEngine

end MiniDB.Engine
