import MiniDB.Common.SlotReads
import MiniDB.Engine.CacheCalls

/-!
# Evicting a page and fetching it again

An eviction writes a dirty page to its slot and then drops it, or fails and keeps it. What is
fetched afterwards is what was dropped, without the records marked deleted.
-/

namespace MiniDB.Engine

open MiniDB.Common MiniDB.Common.FileIO MiniDB.JsonPro MiniDB.Core Memory Posix

namespace StorageEngine

section Disk

variable [JsonText] {s : StorageEngine} {key : PageKey} {page : Page}

/-- Evicting a cached dirty page writes it, and drops it exactly if that succeeds. -/
theorem evictPage_of_dirty (hcached : s.cached key = some page) (hdirty : page.dirty = true)
    (io : Schedule) :
    ∃ status files s', s.writePage key.1 page io = .ok (status, files) ∧
      s.evictPage key.1 key.2 io = .ok (status, s') ∧ s'.dataDirectory = s.dataDirectory ∧
      s'.files = files ∧ s'.pageCache.HasRoom (cacheKey key.1 key.2) ∧
      s'.cached key = (if status = .OK then none else some page) ∧
      ∀ other, other ≠ key → s'.cached other = s.cached other := by
  obtain ⟨status, files, hwrite, _⟩ := s.writePage_spec key.1 page io
  rcases hget : s.getCachedPage key.1 key.2 with ⟨result, s₁⟩
  obtain ⟨hresult, hdirectory, hfiles, hsame⟩ := getCachedPage_eq hget
  have hroom : s₁.pageCache.HasRoom (cacheKey key.1 key.2) := by
    obtain ⟨_, rfl⟩ := Prod.mk.inj hget
    refine LruCache.HasRoom.get (Or.inl ?_) (by decide)
    exact Option.isSome_iff_exists.mpr ⟨page, hcached⟩
  have hpage : s₁.cached key = some page := (hsame key).trans hcached
  obtain rfl : result = some page := hresult.trans hcached
  have hwrite₁ := (writePage_congr hdirectory hfiles key.1 page io).trans hwrite
  have hfound : status ≠ .NOT_FOUND := by
    rintro rfl
    rcases status_of_writeSlot (slotOffset_page page.id) hwrite with ⟨h, _⟩ | ⟨h | h, _⟩ <;> cases h
  by_cases hs : status = .OK
  · subst hs
    refine ⟨.OK, files, { s₁ with
      files
      pageCache := (s₁.pageCache.modify (cacheKey key.1 key.2) fun page =>
        { page with dirty := false }).erase (cacheKey key.1 key.2) }, hwrite, ?_, hdirectory, rfl,
      (hroom.modify _).erase, ?_, fun other hother => ?_⟩
    · unfold evictPage flushPage
      rw [hget]
      dsimp only
      rw [hdirty, hwrite₁]
      rfl
    · unfold cached
      rw [LruCache.peek_erase, if_pos rfl, if_pos rfl]
    · have hne : cacheKey other.1 other.2 ≠ cacheKey key.1 key.2 :=
        fun h => hother (cacheKey_injective h)
      rw [← hsame other]
      unfold cached
      rw [LruCache.peek_erase, if_neg hne, LruCache.peek_modify, if_neg hne]
  · refine ⟨status, files, { s₁ with files }, hwrite, ?_, hdirectory, rfl, hroom, ?_,
      fun other _ => hsame other⟩
    · unfold evictPage flushPage
      rw [hget]
      dsimp only
      rw [hdirty, hwrite₁]
      change (if status ≠ .OK then _ else _ : Except Fault (Status × StorageEngine)) >>= _ = _
      rw [if_pos hs]
      change (if status = .NOT_FOUND then _ else _) = _
      rw [if_neg hfound]
      change (if status ≠ .OK then _ else _) = _
      rw [if_pos hs]
      rfl
    · rw [if_neg hs]
      exact hpage

/-- Reading a slot that holds a payload decodes the payload unless a system call fails. -/
theorem readPageFromDisk_of_payload {payload : List UInt8} {loaded : Page}
    (hpayload : payloadIn slotSize s.files (s.pageFilePath key.1)
      (key.2.toNat * slotSize.toNat) = some payload)
    (hload : (Page.new key.2).deserialize payload = .ok .OK loaded) (io : Schedule) :
    (∃ status, status ≠ .OK ∧ ¬io.Unfailing ∧
      s.readPageFromDisk key.1 key.2 (Page.new key.2) io = .ok (status, Page.new key.2)) ∨
    s.readPageFromDisk key.1 key.2 (Page.new key.2) io = .ok (.OK, loaded) := by
  have hslot : slotAt slotSize (bytesIn s.files (s.pageFilePath key.1))
      (key.2.toNat * slotSize.toNat) = (.OK, payload) := by
    rw [slotAt_eq_ok, ← payloadIn_eq]
    exact hpayload
  have hfailed : ∀ {status : Status}, status ≠ .OK →
      readSlot s.files (s.pageFilePath key.1) key.2.toUInt64 slotSize io = .ok (status, []) →
      ∃ status, status ≠ .OK ∧ ¬io.Unfailing ∧
        s.readPageFromDisk key.1 key.2 (Page.new key.2) io = .ok (status, Page.new key.2) := by
    intro status hs hread
    refine ⟨status, hs, fun hio => hs ?_, ?_⟩
    · have hall := @readSlot_of_unfailing s.files (s.pageFilePath key.1) _ _ _ (by decide)
        (slotOffset_page key.2) _ hio
      rw [hread, hslot] at hall
      exact congrArg Prod.fst (Except.ok.inj hall)
    · unfold readPageFromDisk
      rw [hread]
      change (if status ≠ .OK then _ else _) = _
      rw [if_pos hs]
      rfl
  rcases readSlot_cases (by decide) (slotOffset_page key.2) io with hread | hread | hread
  · exact Or.inl (hfailed (by decide) hread)
  · exact Or.inl (hfailed (by decide) hread)
  · right
    rw [hslot] at hread
    have hok : ¬Status.OK ≠ .OK := not_not_intro rfl
    simp only [readPageFromDisk, hread, bind, Except.bind, if_neg hok, hload]
    rfl

/-- Fetching a page that is not cached caches what its slot holds, without dropping a page if there
is room. -/
theorem fetchPage_of_payload (hmissing : s.cached key = none)
    (hroom : s.pageCache.HasRoom (cacheKey key.1 key.2)) {payload : List UInt8} {loaded : Page}
    (hpayload : payloadIn slotSize s.files (s.pageFilePath key.1)
      (key.2.toNat * slotSize.toNat) = some payload)
    (hload : (Page.new key.2).deserialize payload = .ok .OK loaded) (io : Schedule) :
    ∃ result s', s.fetchPage key.1 key.2 io = .ok (result, s') ∧
      (result = none ∧ ¬io.Unfailing ∨ result = some loaded) ∧
      ∀ other, other ≠ key → s'.cached other = s.cached other := by
  rcases readPageFromDisk_of_payload hpayload hload io with ⟨status, hs, hio, hread⟩ | hread
  · have hcached := not_isCached_iff.mpr hmissing
    refine ⟨none, s, ?_, Or.inl ⟨rfl, hio⟩, fun _ _ => rfl⟩
    simp only [fetchPage, if_neg hcached, hread, bind, Except.bind, if_pos hs]
    rfl
  · obtain ⟨s', hfetch, hsame⟩ := fetchPage_of_read hmissing hread
    refine ⟨some loaded, s', hfetch, Or.inr rfl, fun other hother => ?_⟩
    rw [hsame]
    exact hroom.peek_put (by decide) loaded fun h => hother (cacheKey_injective h)

/-- Fetching a page gives a clean page with the live records of a page and leaves the other cached
pages alone; only a failing system call keeps it from succeeding. -/
def Refetches (s : StorageEngine) (key : PageKey) (page : Page) : Prop :=
  ∀ io, ∃ result s', s.fetchPage key.1 key.2 io = .ok (result, s') ∧
    (io.Unfailing → result.isSome = true) ∧
    (∀ fetched ∈ result, fetched.id = key.2 ∧ fetched.dirty = false ∧ fetched.live = page.live) ∧
    ∀ other, other ≠ key → s'.cached other = s.cached other

/-- Without failing calls a page that fits its slot is written. -/
theorem writePage_of_unfailing {tableName : String} {io : Schedule}
    (hfits : page.serialize.length + LENGTH_SIZE ≤ slotSize.toNat) (hio : io.Unfailing)
    {status : Status} {files : Files}
    (hwrite : s.writePage tableName page io = .ok (status, files)) : status = .OK := by
  have hid := page.id.toNat_lt
  have hlimit : page.id.toNat * slotSize.toNat + slotSize.toNat < offsetLimit := by
    rw [slotSize_toNat]
    unfold offsetLimit
    omega
  obtain ⟨_, hslot, _⟩ := @writeSlot_of_unfailing s.files (s.pageFilePath tableName) _ _ _ _
    (slotOffset_page page.id) hfits hlimit _ hio
  exact congrArg Prod.fst (Except.ok.inj (hwrite.symm.trans hslot))

/-- Evicting a cached dirty page and fetching it again restores its live records. If the eviction
does not succeed, the page stays cached and dirty, and no file changes if the page is too large;
other cached pages are left alone either way. -/
theorem evict_fetch (hcached : s.cached key = some page) (hdirty : page.dirty = true)
    (hid : page.id = key.2) (hlegible : Legible page) (io : Schedule) :
    ∃ status s', s.evictPage key.1 key.2 io = .ok (status, s') ∧
      (∀ other, other ≠ key → s'.cached other = s.cached other) ∧
      (status = .OK → s'.cached key = none ∧ s'.Refetches key page) ∧
      (status ≠ .OK → s'.cached key = some page) ∧
      (status = .OUT_OF_MEMORY ↔ slotSize.toNat < page.serialize.length + LENGTH_SIZE) ∧
      (status = .OUT_OF_MEMORY → s'.files = s.files) ∧
      (io.Unfailing → status = .OK ∨ status = .OUT_OF_MEMORY) := by
  obtain ⟨status, files, s', hwrite, hevict, hdirectory, rfl, hroom, hkept, hothers⟩ :=
    evictPage_of_dirty hcached hdirty io
  have hstatus := status_of_writeSlot (slotOffset_page page.id) hwrite
  refine ⟨status, s', hevict, hothers, ?_, fun hs => by rw [hkept, if_neg hs], ?_, ?_,
    fun hio => ?_⟩
  · rintro rfl
    rw [if_pos rfl] at hkept
    refine ⟨hkept, fun io' => ?_⟩
    obtain ⟨decoded, hdecoded, hid', hclean, hlive⟩ :=
      Page.exists_ofEnvelope?_toJson hlegible.small
    have hload := deserialize_of_some hlegible.text hdecoded key.2
    obtain ⟨_, _, hspec, hstored, _⟩ := writeSlot_spec (slotOffset_page page.id) s.files
      (s.pageFilePath key.1) page.serialize io
    cases hspec.symm.trans hwrite
    have hpayload := hstored rfl hlegible.nonempty
    have hpath : s'.pageFilePath key.1 = s.pageFilePath key.1 := by
      unfold pageFilePath
      rw [hdirectory]
    rw [hid, ← hpath] at hpayload
    obtain ⟨result, s'', hfetch, hresult, hothers'⟩ :=
      fetchPage_of_payload hkept hroom hpayload hload io'
    refine ⟨result, s'', hfetch, fun hio => ?_, fun fetched hfetched => ?_, hothers'⟩
    · rcases hresult with ⟨_, hfailed⟩ | rfl
      · exact absurd hio hfailed
      · rfl
    · rcases hresult with ⟨rfl, _⟩ | rfl
      · cases hfetched
      · cases hfetched
        exact ⟨hid'.trans hid, hclean, hlive⟩
  · constructor
    · rintro rfl
      rcases hstatus with ⟨_, hlarge⟩ | ⟨h | h, _⟩
      · exact hlarge
      · cases h
      · cases h
    · intro hlarge
      rcases hstatus with ⟨hs, _⟩ | ⟨_, hfits⟩
      · exact hs
      · exact absurd hlarge (Nat.not_lt.mpr hfits)
  · rintro rfl
    rcases hstatus with ⟨_, hlarge⟩ | ⟨h | h, _⟩
    · have hnone := writeSlot_of_large hlarge s.files (s.pageFilePath key.1) page.getID.toUInt64 io
      exact congrArg Prod.snd (Except.ok.inj (hwrite.symm.trans hnone))
    · cases h
    · cases h
  · rcases hstatus with ⟨hs, _⟩ | ⟨_, hfits⟩
    · exact Or.inr hs
    · exact Or.inl (writePage_of_unfailing hfits hio hwrite)

end Disk

/-- A new page is evicted and can be fetched again. -/
theorem evict_fetch_freshPage :
    letI := JsonText.ofDocument [1] (freshPage 2).toJson
    ∃ s', ((new "data" FiniteMap.empty).cachePage "orders" (freshPage 2)).evictPage
        "orders" 2 [] = .ok (.OK, s') ∧
      s'.cached ("orders", 2) = none ∧ s'.Refetches ("orders", 2) (freshPage 2) := by
  let _ := JsonText.ofDocument [1] (freshPage 2).toJson
  have hcached : ((new "data" FiniteMap.empty).cachePage "orders" (freshPage 2)).cached
      ("orders", 2) = some (freshPage 2) :=
    (installed_cachePage _ "orders" (freshPage 2)).new
  have hlegible : Legible (freshPage 2) := legible_freshPage (by decide) (List.cons_ne_nil _ _)
  obtain ⟨status, s', hevict, _, hok, _, hlarge, _, hdone⟩ :=
    evict_fetch hcached rfl rfl hlegible []
  obtain rfl : status = .OK := by
    rcases hdone Schedule.unfailing_nil with hs | hs
    · exact hs
    · exact absurd (hlarge.mp hs) (by decide)
  exact ⟨s', hevict, hok rfl⟩

end StorageEngine

end MiniDB.Engine
