import MiniDB.Engine.CacheCalls
import Mathlib.Data.List.Perm.Subperm

/-!
# Updates in the buffer pool

The most recent content of every page should be cached or on disk at all times. A page
leaves the cache by `evictPage`, which writes a dirty page first, but also when another
page is stored into the full cache; nothing is written then.
-/

namespace MiniDB.Engine

open MiniDB.Common MiniDB.JsonPro MiniDB.Core Memory Posix Refinement

namespace StorageEngine

/-- The live records of pages, by key. -/
abbrev Contents := FiniteMap PageKey (List Record)

/-- The most recent contents after a call: what was given to `cachePage`, or what an
operation made of a page. -/
def latestAfter (s : StorageEngine) (latest : Contents) : Call → Contents
  | .cachePage tableName page => latest.put (tableName, page.id) page.live
  | .onPage tableName id op =>
    match s.cached (tableName, id) with
    | some page => latest.put (tableName, id) (op.apply page).2.live
    | none => latest
  | _ => latest

section Runs

variable [JsonText]

/-- An engine with the most recent contents of its pages. -/
structure Tracked where
  /-- The engine. -/
  engine : StorageEngine
  /-- The most recent contents. -/
  latest : Contents

/-- A new engine; the most recent contents are those on disk. -/
def Tracked.new (dataDirectory : String) (files : FileIO.Files) : Tracked where
  engine := StorageEngine.new dataDirectory files
  latest := ⟨(StorageEngine.new dataDirectory files).stored⟩

/-- One call. -/
def Tracked.call (t : Tracked) (c : Call) : Except Fault (Response × Tracked) :=
  (t.engine.call c).map fun (response, engine) =>
    (response, ⟨engine, t.engine.latestAfter t.latest c⟩)

/-- The most recent content of every page is in the cache or on disk. -/
def Tracked.Retained (t : Tracked) : Prop :=
  ∀ key content, t.latest.get? key = some content →
    (∃ page, t.engine.cached key = some page ∧ page.live = content) ∨
    t.engine.stored key = some content

/-- A dirty page leaves the cache only by an eviction that has written it. -/
def Tracked.WritesBack (t : Tracked) (c : Call) : Prop :=
  ∀ response t', t.call c = .ok (response, t') → ∀ key page,
    t.engine.cached key = some page → page.dirty = true → t'.engine.cached key = none →
      ∃ io files, c = .evictPage key.1 key.2 io ∧
        t.engine.writePage key.1 page io = .ok (.OK, files) ∧
        t'.engine.stored key = some page.live

/-- Storing a page under a key drops no page, or one that is clean and on disk. -/
def DropsStored (s : StorageEngine) (key : PageKey) : Prop :=
  ∀ other old, s.dropped key = some (cacheKey other.1 other.2, old) →
    old.dirty = false ∧ s.stored other = some old.live

/-- A call that cannot lose an update. What is dropped for a new page is clean and on disk; a
dirty page that is written has the number of its key; and a page that is evicted is clean and
on disk or, if its write succeeds, can be read back. -/
def KeepsUpdates (s : StorageEngine) : Call → Prop
  | .cachePage tableName page => s.DropsStored (tableName, page.id)
  | .fetchPage tableName id io => ∀ loaded,
    s.readPageFromDisk tableName id (Page.new id) io = .ok (.OK, loaded) →
      s.DropsStored (tableName, id)
  | .flushPage tableName id _ =>
    ∀ page, s.cached (tableName, id) = some page → page.dirty = true → page.id = id
  | .evictPage tableName id io => ∀ page, s.cached (tableName, id) = some page →
    page.dirty = false ∧ s.stored (tableName, id) = some page.live ∨
    page.dirty = true ∧ page.id = id ∧
      ∀ files, s.writePage tableName page io = .ok (.OK, files) → Legible page
  | _ => True

/-- The most recent content of every page is what is cached or, if nothing is, on disk. -/
structure Accounted (s : StorageEngine) (latest : Contents) : Prop where
  /-- A cached page has the most recent content. -/
  cached : ∀ {key page content}, s.cached key = some page → latest.get? key = some content →
    page.live = content
  /-- The most recent content of a page that is not cached is on disk. -/
  stored : ∀ {key content}, s.cached key = none → latest.get? key = some content →
    s.stored key = some content

namespace Accounted

variable {s s' : StorageEngine} {latest : Contents}

/-- Accounted contents are in the cache or on disk. -/
theorem retained (h : s.Accounted latest) : Tracked.Retained ⟨s, latest⟩ := by
  intro key content hlatest
  cases hcached : s.cached key with
  | none => exact Or.inr (h.stored hcached hlatest)
  | some page => exact Or.inl ⟨page, rfl, h.cached hcached hlatest⟩

/-- A call that changes no page. -/
theorem unchanged (h : s.Accounted latest) (hsame : s.Unchanged s') : s'.Accounted latest where
  cached := by
    intro key page content hcached hlatest
    rw [hsame.cached] at hcached
    exact h.cached hcached hlatest
  stored := by
    intro key content hcached hlatest
    rw [hsame.cached] at hcached
    exact stored_of_kept (fun kept hkept => (hsame.onDisk key).trans hkept)
      (h.stored hcached hlatest)

/-- Storing a page with the most recent content for its key, if what it drops is on disk. -/
theorem installed (h : s.Accounted latest) {key : PageKey} {page : Page}
    (hinstalled : s.Installed key page s') (hdisk : ∀ other, s'.onDisk other = s.onDisk other)
    (hdrops : s.DropsStored key) {latest' : Contents}
    (hnew : ∀ {content}, latest'.get? key = some content → page.live = content)
    (hold : ∀ {other}, other ≠ key → latest'.get? other = latest.get? other) :
    s'.Accounted latest' where
  cached := by
    intro other found content hcached hlatest
    by_cases hother : other = key
    · subst hother
      rw [hinstalled.new] at hcached
      cases hcached
      exact hnew hlatest
    · rw [hold hother] at hlatest
      rcases hinstalled.gone other hother with hsame | ⟨hgone, _⟩
      · rw [hsame] at hcached
        exact h.cached hcached hlatest
      · rw [hgone] at hcached
        cases hcached
  stored := by
    intro other content hcached hlatest
    by_cases hother : other = key
    · subst hother
      rw [hinstalled.new] at hcached
      cases hcached
    · rw [hold hother] at hlatest
      apply stored_of_kept fun kept hkept => (hdisk other).trans hkept
      rcases hinstalled.gone other hother with hsame | ⟨_, old, hfound, hdropped⟩
      · rw [hsame] at hcached
        exact h.stored hcached hlatest
      · rw [(hdrops other old hdropped).2, h.cached hfound hlatest]

/-- A flush that writes a page under its own number. -/
theorem flushPage (h : s.Accounted latest) {tableName : String} {id : PageID} {io : Schedule}
    {status : Status} (hflush : s.flushPage tableName id io = .ok (status, s'))
    (hsafe : ∀ page, s.cached (tableName, id) = some page → page.dirty = true → page.id = id) :
    s'.Accounted latest := by
  rcases flushPage_cases hflush with ⟨_, _, hsame⟩ | ⟨page, hpage, ⟨_, _, hsame⟩ |
    ⟨hdirty, _, hwrote, hcached⟩⟩
  · exact h.unchanged hsame
  · exact h.unchanged hsame
  · have hkey : (tableName, page.id) = (tableName, id) := by rw [hsafe page hpage hdirty]
    have hkeeps : ∀ {other content}, other ≠ (tableName, id) → s.stored other = some content →
        s'.stored other = some content := by
      intro other content hother hstored
      exact stored_of_kept (hwrote.kept other (by rwa [hkey])) hstored
    have hsame : ∀ {other}, other ≠ (tableName, id) → s'.cached other = s.cached other := by
      intro other hother
      rcases hcached with ⟨_, hall⟩ | ⟨_, _, hall⟩
      · exact hall other
      · exact hall other hother
    obtain ⟨page', hpage', hlive⟩ : ∃ page', s'.cached (tableName, id) = some page' ∧
        page'.live = page.live := by
      rcases hcached with ⟨_, hall⟩ | ⟨_, hnew, _⟩
      · exact ⟨page, (hall _).trans hpage, rfl⟩
      · exact ⟨_, hnew, rfl⟩
    constructor
    · intro other found content hfound hlatest
      by_cases hother : other = (tableName, id)
      · subst hother
        rw [hpage'] at hfound
        cases hfound
        rw [hlive]
        exact h.cached hpage hlatest
      · rw [hsame hother] at hfound
        exact h.cached hfound hlatest
    · intro other content hnone hlatest
      by_cases hother : other = (tableName, id)
      · subst hother
        rw [hpage'] at hnone
        cases hnone
      · rw [hsame hother] at hnone
        exact hkeeps hother (h.stored hnone hlatest)

end Accounted

/-- What a flush in front of an eviction leaves on disk. -/
theorem stored_of_flush {s s₁ : StorageEngine} {tableName : String} {id : PageID} {io : Schedule}
    (hflush : s.flushPage tableName id io = .ok (.OK, s₁)) {page : Page}
    (hpage : s.cached (tableName, id) = some page)
    (hsafe : page.dirty = false ∧ s.stored (tableName, id) = some page.live ∨
      page.dirty = true ∧ page.id = id ∧
        ∀ files, s.writePage tableName page io = .ok (.OK, files) → Legible page) :
    s₁.stored (tableName, id) = some page.live ∧
      (page.dirty = true → ∃ files, s.writePage tableName page io = .ok (.OK, files)) := by
  rcases flushPage_cases hflush with ⟨_, hstatus, _⟩ | ⟨found, hfound, ⟨hclean, _, hsame⟩ |
    ⟨hdirty, ⟨files, hwrite⟩, hwrote, _⟩⟩
  · cases hstatus
  · rw [hpage] at hfound
    cases hfound
    rcases hsafe with ⟨_, hstored⟩ | ⟨hdirty, _⟩
    · constructor
      · exact stored_of_kept (fun kept hkept => (hsame.onDisk _).trans hkept) hstored
      · intro hdirty
        rw [hclean] at hdirty
        cases hdirty
    · rw [hclean] at hdirty
      cases hdirty
  · rw [hpage] at hfound
    cases hfound
    rcases hsafe with ⟨hclean, _⟩ | ⟨_, hid, hlegible⟩
    · rw [hdirty] at hclean
      cases hclean
    · have hstored := hwrote.stored rfl (hlegible files hwrite)
      rw [hid] at hstored
      exact ⟨hstored, fun _ => ⟨files, hwrite⟩⟩

namespace Accounted

variable {s s' : StorageEngine} {latest : Contents}

/-- An eviction of a page that is on disk or that is written. -/
theorem evictPage (h : s.Accounted latest) {tableName : String} {id : PageID} {io : Schedule}
    {status : Status} (hevict : s.evictPage tableName id io = .ok (status, s'))
    (hsafe : s.KeepsUpdates (.evictPage tableName id io)) : s'.Accounted latest := by
  obtain ⟨flushed, s₁, hflush, hdisk, hcached⟩ := evictPage_cases hevict
  have h₁ : s₁.Accounted latest := by
    apply h.flushPage hflush
    intro page hpage hdirty
    rcases hsafe page hpage with ⟨hclean, _⟩ | ⟨_, hid, _⟩
    · rw [hdirty] at hclean
      cases hclean
    · exact hid
  rcases hcached with ⟨_, hsame⟩ | ⟨rfl, hgone, hsame⟩
  · exact h₁.unchanged ⟨hsame, hdisk⟩
  · constructor
    · intro other found content hfound hlatest
      by_cases hother : other = (tableName, id)
      · subst hother
        rw [hgone] at hfound
        cases hfound
      · rw [hsame other hother] at hfound
        exact h₁.cached hfound hlatest
    · intro other content hnone hlatest
      apply stored_of_kept fun kept hkept => (hdisk other).trans hkept
      by_cases hother : other = (tableName, id)
      · subst hother
        cases hpage : s.cached (tableName, id) with
        | none =>
          rcases flushPage_cases hflush with ⟨_, hstatus, _⟩ | ⟨page, hfound, _⟩
          · cases hstatus
          · rw [hpage] at hfound
            cases hfound
        | some page =>
          rw [(stored_of_flush hflush hpage (hsafe page hpage)).1, h.cached hpage hlatest]
      · rw [hsame other hother] at hnone
        exact h₁.stored hnone hlatest

/-- A call that cannot lose an update keeps contents accounted for. -/
theorem call (h : s.Accounted latest) {c : Call} {response : Response} (hsafe : s.KeepsUpdates c)
    (hcall : s.call c = .ok (response, s')) : s'.Accounted (s.latestAfter latest c) := by
  cases effect_of_call hcall with
  | stored hinstalled hdisk =>
    apply h.installed hinstalled hdisk hsafe
    · intro content hlatest
      unfold latestAfter FiniteMap.put at hlatest
      dsimp only at hlatest
      rw [if_pos rfl] at hlatest
      exact Option.some.inj hlatest
    · intro other hother
      exact if_neg hother
  | loaded hnone hread hinstalled hdisk =>
    apply h.installed hinstalled hdisk (hsafe _ hread)
    · intro content hlatest
      have hstored := h.stored hnone hlatest
      unfold StorageEngine.stored at hstored
      rw [onDisk_of_read hread] at hstored
      exact Option.some.inj hstored
    · intro other _
      rfl
  | fetched hsame => exact h.unchanged hsame
  | found hsame => exact h.unchanged hsame
  | flushed hflush => exact h.flushPage hflush hsafe
  | evicted hevict => exact h.evictPage hevict hsafe
  | @changed tableName id op page _ hpage hnew hsame hdisk =>
    unfold latestAfter
    dsimp only
    rw [hpage]
    unfold FiniteMap.put
    constructor
    · intro other found content hfound hlatest
      dsimp only at hlatest
      by_cases hother : other = (tableName, id)
      · subst hother
        rw [hnew] at hfound
        cases hfound
        rw [if_pos rfl] at hlatest
        exact Option.some.inj hlatest
      · rw [hsame other hother] at hfound
        rw [if_neg hother] at hlatest
        exact h.cached hfound hlatest
    · intro other content hnone hlatest
      dsimp only at hlatest
      by_cases hother : other = (tableName, id)
      · subst hother
        rw [hnew] at hnone
        cases hnone
      · rw [hsame other hother] at hnone
        rw [if_neg hother] at hlatest
        exact stored_of_kept (fun kept hkept => (hdisk other).trans hkept)
          (h.stored hnone hlatest)

end Accounted

/-- A call that cannot lose an update lets no dirty page leave unwritten. -/
theorem Tracked.writesBack {t : Tracked} {c : Call} (hsafe : t.engine.KeepsUpdates c) :
    t.WritesBack c := by
  intro response t' hcall key page hpage hdirty hgone
  obtain ⟨⟨_, s'⟩, hengine, heq⟩ := map_eq_ok.mp hcall
  cases heq
  have hinstalled : ∀ {installed : PageKey} {new : Page}, t.engine.Installed installed new s' →
      t.engine.DropsStored installed → False := by
    intro installed new hinstalled hdrops
    by_cases hkey : key = installed
    · subst hkey
      rw [hinstalled.new] at hgone
      cases hgone
    · rcases hinstalled.gone key hkey with hsame | ⟨_, old, hold, hdropped⟩
      · rw [hsame, hpage] at hgone
        cases hgone
      · rw [hpage] at hold
        cases hold
        have hclean := (hdrops key page hdropped).1
        rw [hdirty] at hclean
        cases hclean
  have hkept : t.engine.cached key ≠ none := by
    rw [hpage]
    exact Option.some_ne_none page
  cases effect_of_call hengine with
  | stored hnew _ => exact (hinstalled hnew hsafe).elim
  | loaded _ hread hnew _ => exact (hinstalled hnew (hsafe _ hread)).elim
  | fetched hsame => exact absurd ((hsame.cached key).symm.trans hgone) hkept
  | found hsame => exact absurd ((hsame.cached key).symm.trans hgone) hkept
  | flushed hflush => exact absurd (cached_of_flushPage hflush hgone) hkept
  | @evicted tableName id io status _ hevict =>
    obtain ⟨flushed, s₁, hflush, hdisk, hcached⟩ := evictPage_cases hevict
    rcases hcached with ⟨_, hsame⟩ | ⟨rfl, _, hsame⟩
    · exact absurd (cached_of_flushPage hflush ((hsame key).symm.trans hgone)) hkept
    · by_cases hkey : key = (tableName, id)
      · subst hkey
        obtain ⟨hstored, hwrite⟩ := stored_of_flush hflush hpage (hsafe page hpage)
        obtain ⟨files, hwrite⟩ := hwrite hdirty
        refine ⟨io, files, rfl, hwrite, ?_⟩
        exact stored_of_kept (fun kept hdiskPage => (hdisk _).trans hdiskPage) hstored
      · rw [hsame key hkey] at hgone
        exact absurd (cached_of_flushPage hflush hgone) hkept
  | @changed tableName id op old _ _ hnew hsame _ =>
    by_cases hkey : key = (tableName, id)
    · subst hkey
      exact absurd (hnew.symm.trans hgone) (Option.some_ne_none _)
    · exact absurd ((hsame key hkey).symm.trans hgone) hkept

/-- In every run from an empty cache whose calls cannot lose an update, the most recent content
of every page is cached or on disk at all times, and dirty pages leave the cache only after
they were written. -/
theorem run_retains_updates (dataDirectory : String) (files : FileIO.Files) {calls : List Call}
    (h : Along Tracked.call (fun t => t.engine.KeepsUpdates) (Tracked.new dataDirectory files)
      calls) :
    Throughout Tracked.call Tracked.Retained (Tracked.new dataDirectory files) calls ∧
    Along Tracked.call Tracked.WritesBack (Tracked.new dataDirectory files) calls := by
  have hstart : (Tracked.new dataDirectory files).engine.Accounted
      (Tracked.new dataDirectory files).latest := by
    constructor
    · intro key page content hcached
      cases hcached
    · intro key content _ hlatest
      exact hlatest
  have hstep : ∀ {t : Tracked} {c response t'}, t.engine.Accounted t.latest →
      t.engine.KeepsUpdates c → t.call c = .ok (response, t') →
        t'.engine.Accounted t'.latest := by
    intro t c response t' ht hsafe hcall
    obtain ⟨⟨_, s'⟩, hengine, heq⟩ := map_eq_ok.mp hcall
    cases heq
    exact ht.call hsafe hengine
  constructor
  · exact (Along.throughout hstep hstart h).imp Accounted.retained
  · exact Along.imp hstep (fun _ hsafe => Tracked.writesBack hsafe) hstart h

/-- Caching fresh pages of one table makes each of them the most recent content of its key. -/
theorem run_cachePage (ids : List PageID) (t : Tracked) : ∃ responses t',
    run Tracked.call t (ids.map fun id => .cachePage "orders" (freshPage id)) =
      .ok (responses, t') ∧ t'.engine.files = t.engine.files ∧
    ∀ id, id ∈ ids ∨ t.latest.get? ("orders", id) = some [Record.new 1 Json.emptyObject] →
      t'.latest.get? ("orders", id) = some [Record.new 1 Json.emptyObject] := by
  induction ids generalizing t with
  | nil => exact ⟨[], t, rfl, rfl, fun id h => h.resolve_left List.not_mem_nil⟩
  | cons first ids ih =>
    obtain ⟨responses, t', hrun, hfiles, hlatest⟩ := ih
      ⟨t.engine.cachePage "orders" (freshPage first),
        t.latest.put ("orders", first) [Record.new 1 Json.emptyObject]⟩
    refine ⟨.done :: responses, t', ?_, hfiles, fun id h => hlatest id ?_⟩
    · have hcall : Tracked.call t (.cachePage "orders" (freshPage first)) = .ok (.done,
          ⟨t.engine.cachePage "orders" (freshPage first),
            t.latest.put ("orders", first) [Record.new 1 Json.emptyObject]⟩) := rfl
      rw [List.map_cons, run_cons hcall, hrun]
    · unfold FiniteMap.put
      dsimp only
      by_cases hid : ("orders", id) = ("orders", first)
      · exact Or.inr (if_pos hid)
      · rw [if_neg hid]
        rcases h with hmem | hold
        · rcases List.mem_cons.mp hmem with rfl | hrest
          · exact absurd rfl hid
          · exact Or.inl hrest
        · exact Or.inr hold

end Runs

/-- Not all keys of more pages than the cache has room for are cached. -/
theorem exists_not_cached (s : StorageEngine) {ids : List PageID} (hnodup : ids.Nodup)
    (hlength : DBConstants.LRU_CACHE_CAP < ids.length) (tableName : String) :
    ∃ id ∈ ids, s.cached (tableName, id) = none := by
  by_contra hmissing
  have hall : ∀ id ∈ ids, s.cached (tableName, id) ≠ none :=
    fun id hid hnone => hmissing ⟨id, hid, hnone⟩
  have hkeys : (ids.map fun id => cacheKey tableName id).Nodup := by
    apply hnodup.map
    intro id other heq
    have hsame := @cacheKey_injective (tableName, id) (tableName, other) heq
    exact congrArg Prod.snd hsame
  have hsub : (ids.map fun id => cacheKey tableName id) ⊆ s.pageCache.entries.map Prod.fst := by
    intro key hkey
    obtain ⟨id, hid, rfl⟩ := List.mem_map.mp hkey
    by_contra hkey
    exact hall id hid (LruCache.peek_eq_none.mpr hkey)
  have hle := (List.subperm_of_subset hkeys hsub).length_le
  rw [List.length_map, List.length_map] at hle
  exact absurd (le_trans hle s.pageCache.length_le) (Nat.not_le.mpr hlength)

/-- One more new page than the cache has room for is cached, and one of them is lost. -/
theorem full_cache_loses_page :
    letI := JsonText.ofDocument [0x7B] (freshPage 0).toJson
    ∃ responses t, run Tracked.call (Tracked.new "data" FiniteMap.empty)
      (((List.range 129).map UInt32.ofNat).map fun id => .cachePage "orders" (freshPage id)) =
        .ok (responses, t) ∧ ¬t.Retained := by
  let _ := JsonText.ofDocument [0x7B] (freshPage 0).toJson
  obtain ⟨responses, t, hrun, hfiles, hlatest⟩ :=
    run_cachePage ((List.range 129).map UInt32.ofNat) (Tracked.new "data" FiniteMap.empty)
  have hnodup : ((List.range 129).map UInt32.ofNat).Nodup := by
    apply List.nodup_range.map_on
    intro position hposition other hother heq
    rw [List.mem_range] at hposition hother
    have hvalue := congrArg UInt32.toNat heq
    rw [UInt32.toNat_ofNat', UInt32.toNat_ofNat'] at hvalue
    omega
  have hlength : DBConstants.LRU_CACHE_CAP < ((List.range 129).map UInt32.ofNat).length := by
    rw [List.length_map, List.length_range]
    decide
  obtain ⟨id, hid, hmissing⟩ := t.engine.exists_not_cached hnodup hlength "orders"
  refine ⟨responses, t, hrun, fun hretained => ?_⟩
  rcases hretained ("orders", id) _ (hlatest id (Or.inl hid)) with ⟨page, hcached, _⟩ | hstored
  · rw [hmissing] at hcached
    cases hcached
  · rw [stored_eq_none (by rw [hfiles]; rfl)] at hstored
    cases hstored

/-- A new page is cached and evicted. -/
theorem run_retains_updates_evict :
    letI := JsonText.ofDocument [0x7B] (freshPage 0).toJson
    Throughout Tracked.call Tracked.Retained (Tracked.new "data" FiniteMap.empty)
      [.cachePage "orders" (freshPage 0), .evictPage "orders" 0 []] ∧
    Along Tracked.call Tracked.WritesBack (Tracked.new "data" FiniteMap.empty)
      [.cachePage "orders" (freshPage 0), .evictPage "orders" 0 []] := by
  let _ := JsonText.ofDocument [0x7B] (freshPage 0).toJson
  apply run_retains_updates
  refine ⟨fun _ _ hdropped => ?_, fun _ t h => ⟨?_, fun _ _ _ => trivial⟩⟩
  · cases hdropped
  · obtain rfl := congrArg Prod.snd (Except.ok.inj h)
    intro page hpage
    have hcached := (installed_cachePage (new "data" FiniteMap.empty) "orders" (freshPage 0)).new
    obtain rfl := Option.some.inj (hcached.symm.trans hpage)
    exact Or.inr ⟨rfl, rfl, fun _ _ => legible_freshPage (by decide) (List.cons_ne_nil _ _)⟩

end StorageEngine

end MiniDB.Engine
