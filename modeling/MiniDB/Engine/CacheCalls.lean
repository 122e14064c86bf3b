import MiniDB.Engine.PageSlots
import MiniDB.Library.Refinement

/-!
# What the calls of the page cache do

Each call in terms of the cached pages and the pages on disk: which page it stores, drops,
changes or writes, and that it leaves all other pages where they are.
-/

namespace MiniDB.Engine

open MiniDB.Common MiniDB.Common.FileIO MiniDB.JsonPro MiniDB.Core Memory Posix

namespace StorageEngine

/-- A call of the page cache. A call that reads or writes comes with the outcomes of its
system calls. -/
inductive Call
  | cachePage (tableName : String) (page : Page)
  | fetchPage (tableName : String) (id : PageID) (io : Schedule)
  | getCachedPage (tableName : String) (id : PageID)
  | flushPage (tableName : String) (id : PageID) (io : Schedule)
  | evictPage (tableName : String) (id : PageID) (io : Schedule)
  | onPage (tableName : String) (id : PageID) (op : PageOp)

/-- What a call returns; a pointer is given by the page it points to. -/
inductive Response
  | done
  | page (page : Option Page)
  | status (status : Status)

/-- The entry that storing a page under a key drops. -/
def dropped (s : StorageEngine) (key : PageKey) : Option (String × Page) :=
  s.pageCache.victim (cacheKey key.1 key.2)

/-- The cached pages after a page is stored under a key. -/
structure Installed (s : StorageEngine) (key : PageKey) (page : Page) (s' : StorageEngine) :
    Prop where
  /-- The page is cached. -/
  new : s'.cached key = some page
  /-- A page that left the cache was dropped. -/
  gone : ∀ other, other ≠ key → s'.cached other = s.cached other ∨
    s'.cached other = none ∧ ∃ old, s.cached other = some old ∧
      s.dropped key = some (cacheKey other.1 other.2, old)

private theorem installed_put (s : StorageEngine) (key : PageKey) (page : Page) :
    s.Installed key page { s with pageCache := s.pageCache.put (cacheKey key.1 key.2) page } := by
  have hput := LruCache.peek_put (by decide) s.pageCache (cacheKey key.1 key.2) page
  constructor
  · unfold cached
    rw [hput, if_pos rfl]
  · intro other hother
    have hkey : cacheKey other.1 other.2 ≠ cacheKey key.1 key.2 :=
      fun h => hother (cacheKey_injective h)
    unfold cached
    rw [hput, if_neg hkey]
    by_cases hvictim : (s.pageCache.victim (cacheKey key.1 key.2)).map Prod.fst =
        some (cacheKey other.1 other.2)
    · right
      obtain ⟨⟨_, old⟩, hold, rfl⟩ := Option.map_eq_some_iff.mp hvictim
      exact ⟨if_pos hvictim, old, LruCache.peek_of_victim hold, hold⟩
    · left
      exact if_neg hvictim

/-- `cachePage` stores the page under its table and number. -/
theorem installed_cachePage (s : StorageEngine) (tableName : String) (page : Page) :
    s.Installed (tableName, page.id) page (s.cachePage tableName page) :=
  installed_put s (tableName, page.id) page

/-- `getCachedPage` returns the cached page and changes no page. -/
theorem getCachedPage_eq {s s' : StorageEngine} {tableName : String} {id : PageID}
    {result : Option Page}
    (h : s.getCachedPage tableName id = (result, s')) :
    result = s.cached (tableName, id) ∧ s'.dataDirectory = s.dataDirectory ∧ s'.files = s.files ∧
      ∀ other, s'.cached other = s.cached other := by
  obtain ⟨rfl, rfl⟩ := Prod.mk.inj h
  refine ⟨LruCache.get_fst _ _, rfl, rfl, fun other => ?_⟩
  exact LruCache.peek_get (by decide) s.pageCache _ _

/-- An operation succeeds on a cached page. -/
theorem onPage_of_cached {s : StorageEngine} {tableName : String} {id : PageID} {page : Page}
    (h : s.cached (tableName, id) = some page) (op : PageOp) :
    ∃ s', s.onPage tableName id op = .ok ((op.apply page).1, s') ∧ s'.files = s.files ∧
      s'.cached (tableName, id) = some (op.apply page).2 := by
  unfold onPage
  have hpeek : s.pageCache.peek (cacheKey tableName id) = some page := h
  rw [hpeek]
  refine ⟨_, rfl, rfl, ?_⟩
  unfold cached
  rw [LruCache.peek_modify, if_pos rfl, hpeek]
  rfl

/-- An operation acts on the cached page. -/
theorem onPage_eq_ok {s s' : StorageEngine} {tableName : String} {id : PageID} {op : PageOp}
    {status : Status} (h : s.onPage tableName id op = .ok (status, s')) :
    ∃ page, s.cached (tableName, id) = some page ∧ s'.dataDirectory = s.dataDirectory ∧
      s'.files = s.files ∧ s'.cached (tableName, id) = some (op.apply page).2 ∧
      ∀ other, other ≠ (tableName, id) → s'.cached other = s.cached other := by
  unfold onPage at h
  cases hpeek : s.pageCache.peek (cacheKey tableName id) with
  | none =>
    rw [hpeek] at h
    cases h
  | some page =>
    rw [hpeek] at h
    cases h
    refine ⟨page, hpeek, rfl, rfl, ?_, fun other hother => ?_⟩
    · unfold cached
      rw [LruCache.peek_modify, if_pos rfl, hpeek]
      rfl
    · unfold cached
      rw [LruCache.peek_modify, if_neg fun h => hother (cacheKey_injective h)]

section Disk

variable [JsonText]

/-- The same pages are cached and on disk. -/
structure Unchanged (s s' : StorageEngine) : Prop where
  /-- The cached pages. -/
  cached : ∀ key, s'.cached key = s.cached key
  /-- The pages on disk. -/
  onDisk : ∀ key, s'.onDisk key = s.onDisk key

/-- A page was written to its slot, successfully or not. -/
structure Wrote (s : StorageEngine) (tableName : String) (page : Page) (status : Status)
    (s' : StorageEngine) : Prop where
  /-- A legible page that was written is on disk. -/
  stored : status = .OK → Legible page → s'.stored (tableName, page.id) = some page.live
  /-- The pages in other slots are still there. -/
  kept : ∀ key, key ≠ (tableName, page.id) → ∀ kept, s.onDisk key = some kept →
    s'.onDisk key = some kept

/-- An engine with the files that a write has left. -/
private theorem wrote_of_writePage {s s' : StorageEngine} {tableName : String} {page : Page}
    {io : Schedule} {status : Status} {files : Files}
    (hwrite : s.writePage tableName page io = .ok (status, files))
    (hdirectory : s'.dataDirectory = s.dataDirectory) (hfiles : s'.files = files) :
    s.Wrote tableName page status s' := by
  obtain ⟨written, left, hspec, hstored, hkept⟩ := s.writePage_spec tableName page io
  rw [hspec] at hwrite
  cases hwrite
  have hdisk : ∀ other, s'.onDisk other = onDisk { s with files } other :=
    onDisk_congr hdirectory hfiles
  constructor
  · intro hok hlegible
    exact (congrArg (Option.map Page.live) (hdisk _)).trans (hstored hok hlegible)
  · intro other hother kept hold
    exact (hdisk other).trans (hkept other hother kept hold)

omit [JsonText] in
/-- A page that is not cached is not found in the cache. -/
theorem not_isCached_iff {s : StorageEngine} {tableName : String} {id : PageID} :
    ¬s.isCached tableName id = true ↔ s.cached (tableName, id) = none := by
  unfold isCached LruCache.contains
  exact Option.not_isSome_iff_eq_none

/-- `fetchPage` returns a cached page, finds none, or stores the one on disk and returns it. -/
theorem fetchPage_eq_ok {s s' : StorageEngine} {tableName : String} {id : PageID} {io : Schedule}
    {result : Option Page} (h : s.fetchPage tableName id io = .ok (result, s')) :
    s.getCachedPage tableName id = (result, s') ∨ (result = none ∧ s' = s) ∨
    s.cached (tableName, id) = none ∧ ∃ loaded,
      s.readPageFromDisk tableName id (Page.new id) io = .ok (.OK, loaded) ∧
      getCachedPage { s with pageCache := s.pageCache.put (cacheKey tableName id) loaded }
        tableName id = (result, s') := by
  unfold fetchPage at h
  by_cases hcached : s.isCached tableName id = true
  · rw [if_pos hcached] at h
    exact Or.inl (Except.ok.inj h)
  · rw [if_neg hcached] at h
    have hnone := not_isCached_iff.mp hcached
    right
    cases hread : s.readPageFromDisk tableName id (Page.new id) io with
    | error fault =>
      rw [hread] at h
      cases h
    | ok loading =>
      obtain ⟨status, loaded⟩ := loading
      rw [hread] at h
      change (if status ≠ .OK then _ else _) = _ at h
      by_cases hs : status = .OK
      · subst hs
        rw [if_neg (not_not.mpr rfl)] at h
        exact Or.inr ⟨hnone, loaded, rfl, Except.ok.inj h⟩
      · rw [if_pos hs] at h
        cases h
        exact Or.inl ⟨rfl, rfl⟩

/-- `fetchPage` stores and returns a page that is not cached and is read. -/
theorem fetchPage_of_read {s : StorageEngine} {tableName : String} {id : PageID} {io : Schedule}
    {loaded : Page} (hmissing : s.cached (tableName, id) = none)
    (hread : s.readPageFromDisk tableName id (Page.new id) io = .ok (.OK, loaded)) :
    ∃ s', s.fetchPage tableName id io = .ok (some loaded, s') ∧
      ∀ key, s'.cached key = cached { s with
        pageCache := s.pageCache.put (cacheKey tableName id) loaded } key := by
  have hcached := not_isCached_iff.mpr hmissing
  have hok : ¬Status.OK ≠ .OK := not_not_intro rfl
  rcases hget : getCachedPage { s with
    pageCache := s.pageCache.put (cacheKey tableName id) loaded } tableName id with ⟨result, s'⟩
  obtain ⟨hresult, _, _, hsame⟩ := getCachedPage_eq hget
  unfold cached at hresult
  rw [LruCache.peek_put (by decide), if_pos rfl] at hresult
  subst hresult
  refine ⟨s', ?_, hsame⟩
  simp only [fetchPage, if_neg hcached, hread, bind, Except.bind, if_neg hok]
  exact congrArg Except.ok hget

/-- `fetchPage` changes no page, or stores the page on disk under a key that was not cached. -/
theorem fetchPage_cases {s s' : StorageEngine} {tableName : String} {id : PageID} {io : Schedule}
    {result : Option Page} (h : s.fetchPage tableName id io = .ok (result, s')) :
    s.Unchanged s' ∨ s.cached (tableName, id) = none ∧ ∃ loaded,
      s.readPageFromDisk tableName id (Page.new id) io = .ok (.OK, loaded) ∧
      s.Installed (tableName, id) loaded s' ∧ ∀ other, s'.onDisk other = s.onDisk other := by
  rcases fetchPage_eq_ok h with hget | ⟨_, rfl⟩ | ⟨hnone, loaded, hread, hget⟩
  · left
    obtain ⟨_, hdirectory, hfiles, hsame⟩ := getCachedPage_eq hget
    exact ⟨hsame, onDisk_congr hdirectory hfiles⟩
  · left
    exact ⟨fun _ => rfl, fun _ => rfl⟩
  · right
    have hput := installed_put s (tableName, id) loaded
    obtain ⟨_, hdirectory, hfiles, hsame⟩ := getCachedPage_eq hget
    refine ⟨hnone, loaded, hread, ⟨?_, ?_⟩, onDisk_congr hdirectory hfiles⟩
    · rw [hsame]
      exact hput.new
    · intro other hother
      rw [hsame]
      exact hput.gone other hother

/-- `flushPage` uses the cached page. If there is one and it is dirty, it is written and, if that
succeeds, marked clean. -/
theorem flushPage_eq_ok {s s' : StorageEngine} {tableName : String} {id : PageID}
    {io : Schedule} {status : Status} (h : s.flushPage tableName id io = .ok (status, s')) :
    (s.getCachedPage tableName id = (none, s') ∧ status = .NOT_FOUND) ∨
    ∃ page s₁, s.getCachedPage tableName id = (some page, s₁) ∧
      ((page.dirty = false ∧ status = .OK ∧ s' = s₁) ∨
      page.dirty = true ∧ ∃ files, s₁.writePage tableName page io = .ok (status, files) ∧
        (status ≠ .OK ∧ s' = { s₁ with files } ∨
        status = .OK ∧ s' = { s₁ with
          files
          pageCache := s₁.pageCache.modify (cacheKey tableName id) fun page =>
            { page with dirty := false } })) := by
  unfold flushPage at h
  cases hget : s.getCachedPage tableName id with
  | mk result s₁ =>
    rw [hget] at h
    cases result with
    | none =>
      cases h
      exact Or.inl ⟨rfl, rfl⟩
    | some page =>
      refine Or.inr ⟨page, s₁, rfl, ?_⟩
      dsimp only at h
      cases hdirty : page.dirty with
      | false =>
        rw [hdirty, if_pos Bool.not_false] at h
        cases h
        exact Or.inl ⟨rfl, rfl, rfl⟩
      | true =>
        rw [hdirty, if_neg (by decide)] at h
        obtain ⟨written, files, hwrite, _⟩ := s₁.writePage_spec tableName page io
        rw [hwrite] at h
        change (if written ≠ .OK then _ else _) = _ at h
        refine Or.inr ⟨rfl, files, ?_⟩
        by_cases hs : written = .OK
        · subst hs
          rw [if_neg (not_not.mpr rfl)] at h
          cases h
          exact ⟨hwrite, Or.inr ⟨rfl, rfl⟩⟩
        · rw [if_pos hs] at h
          cases h
          exact ⟨hwrite, Or.inl ⟨hs, rfl⟩⟩

/-- `flushPage` returns, whatever its system calls do. -/
theorem flushPage_returns (s : StorageEngine) (tableName : String) (id : PageID) (io : Schedule) :
    ∃ status s', s.flushPage tableName id io = .ok (status, s') := by
  unfold flushPage
  rcases s.getCachedPage tableName id with ⟨result, s₁⟩
  cases result with
  | none => exact ⟨_, _, rfl⟩
  | some page =>
    dsimp only
    split
    · exact ⟨_, _, rfl⟩
    · obtain ⟨status, files, hwrite, _⟩ := s₁.writePage_spec tableName page io
      rw [hwrite]
      change ∃ _ _, (if status ≠ .OK then _ else _ : Except Fault (Status × StorageEngine)) = _
      split
      · exact ⟨_, _, rfl⟩
      · exact ⟨_, _, rfl⟩

/-- `flushPage` does nothing to a page that is not cached or not dirty; a dirty page is
written and, if that succeeds, marked clean. -/
theorem flushPage_cases {s s' : StorageEngine} {tableName : String} {id : PageID}
    {io : Schedule} {status : Status}
    (h : s.flushPage tableName id io = .ok (status, s')) :
    (s.cached (tableName, id) = none ∧ status = .NOT_FOUND ∧ s.Unchanged s') ∨
    ∃ page, s.cached (tableName, id) = some page ∧
      ((page.dirty = false ∧ status = .OK ∧ s.Unchanged s') ∨
      page.dirty = true ∧ (∃ files, s.writePage tableName page io = .ok (status, files)) ∧
        s.Wrote tableName page status s' ∧
        ((status ≠ .OK ∧ ∀ other, s'.cached other = s.cached other) ∨
        (status = .OK ∧ s'.cached (tableName, id) = some { page with dirty := false } ∧
          ∀ other, other ≠ (tableName, id) → s'.cached other = s.cached other))) := by
  rcases flushPage_eq_ok h with ⟨hget, hstatus⟩ | ⟨page, s₁, hget, hcases⟩
  · obtain ⟨hresult, hdirectory, hfiles, hsame⟩ := getCachedPage_eq hget
    exact Or.inl ⟨hresult.symm, hstatus, hsame, onDisk_congr hdirectory hfiles⟩
  · right
    obtain ⟨hresult, hdirectory, hfiles, hsame⟩ := getCachedPage_eq hget
    refine ⟨page, hresult.symm, ?_⟩
    rcases hcases with ⟨hclean, hstatus, rfl⟩ | ⟨hdirty, files, hwrite, hcases⟩
    · exact Or.inl ⟨hclean, hstatus, hsame, onDisk_congr hdirectory hfiles⟩
    · right
      rw [writePage_congr hdirectory hfiles] at hwrite
      rcases hcases with ⟨hs, rfl⟩ | ⟨rfl, rfl⟩
      · exact ⟨hdirty, ⟨files, hwrite⟩, wrote_of_writePage hwrite hdirectory rfl,
          Or.inl ⟨hs, hsame⟩⟩
      · refine ⟨hdirty, ⟨files, hwrite⟩, wrote_of_writePage hwrite hdirectory rfl,
          Or.inr ⟨rfl, ?_, ?_⟩⟩
        · have hpeek : s₁.pageCache.peek (cacheKey tableName id) = some page := by
            have hkey := hsame (tableName, id)
            rw [← hresult] at hkey
            exact hkey
          unfold cached
          rw [LruCache.peek_modify, if_pos rfl, hpeek]
          rfl
        · intro other hother
          rw [← hsame other]
          unfold cached
          rw [LruCache.peek_modify, if_neg fun h => hother (cacheKey_injective h)]

/-- A flush removes no page from the cache. -/
theorem cached_of_flushPage {s s' : StorageEngine} {tableName : String} {id : PageID}
    {io : Schedule} {status : Status} (h : s.flushPage tableName id io = .ok (status, s'))
    {key : PageKey} (hgone : s'.cached key = none) : s.cached key = none := by
  rcases flushPage_cases h with ⟨_, _, hsame⟩ | ⟨page, hpage, ⟨_, _, hsame⟩ | ⟨_, _, _, hcached⟩⟩
  · rwa [← hsame.cached]
  · rwa [← hsame.cached]
  · rcases hcached with ⟨_, hsame⟩ | ⟨_, hnew, hsame⟩
    · rwa [← hsame]
    · by_cases hkey : key = (tableName, id)
      · subst hkey
        rw [hnew] at hgone
        cases hgone
      · rwa [← hsame key hkey]

/-- `evictPage` does what `flushPage` does, and removes the entry if that succeeds. -/
theorem evictPage_eq_ok {s s' : StorageEngine} {tableName : String} {id : PageID}
    {io : Schedule} {status : Status} (h : s.evictPage tableName id io = .ok (status, s')) :
    ∃ flushed s₁, s.flushPage tableName id io = .ok (flushed, s₁) ∧
      (flushed ≠ .OK ∧ s' = s₁ ∨ flushed = .OK ∧
        s' = { s₁ with pageCache := s₁.pageCache.erase (cacheKey tableName id) }) := by
  unfold evictPage at h
  cases hflush : s.flushPage tableName id io with
  | error fault =>
    rw [hflush] at h
    cases h
  | ok result =>
    obtain ⟨flushed, s₁⟩ := result
    rw [hflush] at h
    change (if flushed = .NOT_FOUND then _ else _) = _ at h
    refine ⟨flushed, s₁, rfl, ?_⟩
    by_cases hmissing : flushed = .NOT_FOUND
    · rw [if_pos hmissing] at h
      cases h
      exact Or.inl ⟨by rw [hmissing]; decide, rfl⟩
    · rw [if_neg hmissing] at h
      change (if flushed ≠ .OK then _ else _) = _ at h
      by_cases hs : flushed = .OK
      · rw [if_neg (not_not.mpr hs)] at h
        cases h
        exact Or.inr ⟨hs, rfl⟩
      · rw [if_pos hs] at h
        cases h
        exact Or.inl ⟨hs, rfl⟩

/-- `evictPage` returns, whatever its system calls do. -/
theorem evictPage_returns (s : StorageEngine) (tableName : String) (id : PageID) (io : Schedule) :
    ∃ status s', s.evictPage tableName id io = .ok (status, s') := by
  unfold evictPage
  obtain ⟨flushed, s₁, hflush⟩ := s.flushPage_returns tableName id io
  rw [hflush]
  change ∃ _ _, (if flushed = .NOT_FOUND then _ else _ : Except Fault (Status × StorageEngine)) = _
  split
  · exact ⟨_, _, rfl⟩
  · change ∃ _ _, (if flushed ≠ .OK then _ else _ : Except Fault (Status × StorageEngine)) = _
    split
    · exact ⟨_, _, rfl⟩
    · exact ⟨_, _, rfl⟩

/-- `evictPage` does what `flushPage` does, and removes the page if that succeeds. -/
theorem evictPage_cases {s s' : StorageEngine} {tableName : String} {id : PageID}
    {io : Schedule} {status : Status}
    (h : s.evictPage tableName id io = .ok (status, s')) :
    ∃ flushed s₁, s.flushPage tableName id io = .ok (flushed, s₁) ∧
      (∀ other, s'.onDisk other = s₁.onDisk other) ∧
      (flushed ≠ .OK ∧ (∀ other, s'.cached other = s₁.cached other) ∨
      flushed = .OK ∧ s'.cached (tableName, id) = none ∧
        ∀ other, other ≠ (tableName, id) → s'.cached other = s₁.cached other) := by
  obtain ⟨flushed, s₁, hflush, ⟨hs, rfl⟩ | ⟨hs, rfl⟩⟩ := evictPage_eq_ok h
  · exact ⟨flushed, s', hflush, fun _ => rfl, Or.inl ⟨hs, fun _ => rfl⟩⟩
  · refine ⟨flushed, s₁, hflush, onDisk_congr rfl rfl, Or.inr ⟨hs, ?_, fun other hother => ?_⟩⟩
    · unfold cached
      rw [LruCache.peek_erase, if_pos rfl]
    · unfold cached
      rw [LruCache.peek_erase, if_neg fun h => hother (cacheKey_injective h)]

/-- One call. -/
def call (s : StorageEngine) : Call → Except Fault (Response × StorageEngine)
  | .cachePage tableName page => .ok (.done, s.cachePage tableName page)
  | .fetchPage tableName id io =>
    (s.fetchPage tableName id io).map fun (page, s) => (.page page, s)
  | .getCachedPage tableName id =>
    .ok (.page (s.getCachedPage tableName id).1, (s.getCachedPage tableName id).2)
  | .flushPage tableName id io =>
    (s.flushPage tableName id io).map fun (status, s) => (.status status, s)
  | .evictPage tableName id io =>
    (s.evictPage tableName id io).map fun (status, s) => (.status status, s)
  | .onPage tableName id op =>
    (s.onPage tableName id op).map fun (status, s) => (.status status, s)

/-- What a call does to the cached pages and the pages on disk. -/
inductive Effect (s : StorageEngine) : Call → StorageEngine → Prop
  | stored {tableName page s'} (installed : s.Installed (tableName, page.id) page s')
    (onDisk : ∀ other, s'.onDisk other = s.onDisk other) : Effect s (.cachePage tableName page) s'
  | loaded {tableName id io page s'} (missing : s.cached (tableName, id) = none)
    (read : s.readPageFromDisk tableName id (Page.new id) io = .ok (.OK, page))
    (installed : s.Installed (tableName, id) page s')
    (onDisk : ∀ other, s'.onDisk other = s.onDisk other) : Effect s (.fetchPage tableName id io) s'
  | fetched {tableName id io s'} (unchanged : s.Unchanged s') :
    Effect s (.fetchPage tableName id io) s'
  | found {tableName id s'} (unchanged : s.Unchanged s') : Effect s (.getCachedPage tableName id) s'
  | flushed {tableName id io status s'}
    (flush : s.flushPage tableName id io = .ok (status, s')) :
    Effect s (.flushPage tableName id io) s'
  | evicted {tableName id io status s'}
    (evict : s.evictPage tableName id io = .ok (status, s')) :
    Effect s (.evictPage tableName id io) s'
  | changed {tableName id op page s'} (old : s.cached (tableName, id) = some page)
    (new : s'.cached (tableName, id) = some (op.apply page).2)
    (others : ∀ other, other ≠ (tableName, id) → s'.cached other = s.cached other)
    (onDisk : ∀ other, s'.onDisk other = s.onDisk other) : Effect s (.onPage tableName id op) s'

/-- Every call has its effect. -/
theorem effect_of_call {s s' : StorageEngine} {c : Call} {response : Response}
    (h : s.call c = .ok (response, s')) : s.Effect c s' := by
  cases c with
  | cachePage tableName page =>
    cases h
    exact .stored (s.installed_cachePage tableName page) (onDisk_congr rfl rfl)
  | fetchPage tableName id io =>
    obtain ⟨⟨result, s₁⟩, hfetch, heq⟩ := map_eq_ok.mp h
    cases heq
    rcases fetchPage_cases hfetch with hsame | ⟨hnone, page, hread, hinstalled, hdisk⟩
    · exact .fetched hsame
    · exact .loaded hnone hread hinstalled hdisk
  | getCachedPage tableName id =>
    cases h
    have hget : s.getCachedPage tableName id = (_, _) := rfl
    obtain ⟨_, hdirectory, hfiles, hsame⟩ := getCachedPage_eq hget
    exact .found ⟨hsame, onDisk_congr hdirectory hfiles⟩
  | flushPage tableName id io =>
    obtain ⟨⟨status, s₁⟩, hflush, heq⟩ := map_eq_ok.mp h
    cases heq
    exact .flushed hflush
  | evictPage tableName id io =>
    obtain ⟨⟨status, s₁⟩, hevict, heq⟩ := map_eq_ok.mp h
    cases heq
    exact .evicted hevict
  | onPage tableName id op =>
    obtain ⟨⟨status, s₁⟩, hop, heq⟩ := map_eq_ok.mp h
    cases heq
    obtain ⟨page, hpage, hdirectory, hfiles, hnew, hsame⟩ := onPage_eq_ok hop
    exact .changed hpage hnew hsame (onDisk_congr hdirectory hfiles)

end Disk

/-- A new page with one record. -/
def freshPage (id : PageID) : Page := ((Page.new id).addRecord (Record.new 1 Json.emptyObject)).2

theorem freshPage_live (id : PageID) : (freshPage id).live = [Record.new 1 Json.emptyObject] := rfl

/-- A text form that knows a new page can read it back. -/
theorem legible_freshPage {id : PageID} (hid : id.toNat < 2 ^ 31) {text : List UInt8}
    (htext : text ≠ []) :
    letI := JsonText.ofDocument text (freshPage id).toJson
    Legible (freshPage id) := by
  let _ := JsonText.ofDocument text (freshPage id).toJson
  constructor
  · refine ⟨hid, fun r hr => ?_⟩
    rw [freshPage_live, List.mem_singleton] at hr
    rw [hr]
    decide
  · exact htext
  · exact if_pos rfl

end StorageEngine

end MiniDB.Engine
