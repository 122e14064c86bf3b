import MiniDB.Engine.CacheCalls

/-!
# Clean pages

A cached page that is not dirty should be on disk. All calls keep it so, except that
`compact` also marks a page clean whose changes were never written, and that a page with
large identifiers cannot be read back from its slot.
-/

namespace MiniDB.Engine

open MiniDB.Common MiniDB.JsonPro MiniDB.Core Memory Posix Refinement

namespace StorageEngine

/-- An operation leaves a page alone, marks it dirty, or is `compact`. -/
theorem PageOp.apply_cases (op : PageOp) (page : Page) :
    (op.apply page).2 = page ∨ (op.apply page).2.dirty = true ∨ op = .compact := by
  cases op with
  | addRecord record =>
    unfold apply Page.addRecord
    dsimp only
    split
    · exact Or.inl rfl
    · split
      · exact Or.inl rfl
      · exact Or.inr (Or.inl rfl)
  | updateRecord record =>
    unfold apply Page.updateRecord
    dsimp only
    split
    · exact Or.inl rfl
    · exact Or.inr (Or.inl rfl)
  | deleteRecord id =>
    unfold apply Page.deleteRecord
    dsimp only
    split
    · exact Or.inl rfl
    · exact Or.inr (Or.inl rfl)
  | compact => exact Or.inr (Or.inr rfl)

section Runs

variable [JsonText]

/-- Every cached page that is not dirty is on disk. -/
def CleanStored (s : StorageEngine) : Prop :=
  ∀ key page, s.cached key = some page → page.dirty = false → s.stored key = some page.live

/-- A call that cannot leave a clean page unwritten. What is given to `cachePage` is dirty or
on disk; `compact` is applied to pages that are on disk; a dirty page that is written has the
number of its key, and if the write succeeds it can be read back. -/
def KeepsClean (s : StorageEngine) : Call → Prop
  | .cachePage tableName page =>
    page.dirty = true ∨ s.stored (tableName, page.id) = some page.live
  | .onPage tableName id .compact => ∀ page, s.cached (tableName, id) = some page →
    s.stored (tableName, id) = some page.live
  | .flushPage tableName id io | .evictPage tableName id io =>
    ∀ page, s.cached (tableName, id) = some page → page.dirty = true →
      page.id = id ∧ ∀ files, s.writePage tableName page io = .ok (.OK, files) → Legible page
  | _ => True

/-- After a flush or an eviction the page is still cached and dirty, or it is on disk. -/
def Saves (s : StorageEngine) (c : Call) : Prop :=
  ∀ response s', s.call c = .ok (response, s') →
    match c with
    | .flushPage tableName id _ | .evictPage tableName id _ =>
      ∀ page, s.cached (tableName, id) = some page →
        page.dirty = true ∧ s'.cached (tableName, id) = some page ∨
        s'.stored (tableName, id) = some page.live
    | _ => True

/-- A call that changes no page keeps clean pages on disk. -/
theorem CleanStored.unchanged {s s' : StorageEngine} (h : s.CleanStored) (hsame : s.Unchanged s') :
    s'.CleanStored := by
  intro key page hcached hclean
  rw [hsame.cached] at hcached
  unfold stored
  rw [hsame.onDisk]
  exact h key page hcached hclean

/-- Storing a page that is dirty or on disk keeps clean pages on disk. -/
theorem CleanStored.installed {s s' : StorageEngine} (h : s.CleanStored) {key : PageKey}
    {page : Page} (hinstalled : s.Installed key page s')
    (hdisk : ∀ other, s'.onDisk other = s.onDisk other)
    (hpage : page.dirty = true ∨ s.stored key = some page.live) : s'.CleanStored := by
  intro other found hcached hclean
  unfold stored
  rw [hdisk]
  by_cases hother : other = key
  · subst hother
    rw [hinstalled.new] at hcached
    cases hcached
    rcases hpage with hdirty | hstored
    · rw [hdirty] at hclean
      cases hclean
    · exact hstored
  · rcases hinstalled.gone other hother with hsame | ⟨hgone, _⟩
    · rw [hsame] at hcached
      exact h other found hcached hclean
    · rw [hgone] at hcached
      cases hcached

/-- What a flush keeps, and what it leaves of the flushed page. -/
theorem CleanStored.flushPage {s s' : StorageEngine} (h : s.CleanStored) {tableName : String}
    {id : PageID} {io : Schedule} {status : Status}
    (hflush : s.flushPage tableName id io = .ok (status, s'))
    (hsafe : ∀ page, s.cached (tableName, id) = some page → page.dirty = true →
      page.id = id ∧ ∀ files, s.writePage tableName page io = .ok (.OK, files) → Legible page) :
    s'.CleanStored ∧ ∀ page, s.cached (tableName, id) = some page →
      s'.cached (tableName, id) = some page ∧ page.dirty = true ∧ status ≠ .OK ∨
      s'.stored (tableName, id) = some page.live := by
  rcases flushPage_cases hflush with ⟨hnone, _, hsame⟩ | ⟨page, hpage, ⟨hclean, _, hsame⟩ |
    ⟨hdirty, ⟨files, hwrite⟩, hwrote, hcached⟩⟩
  · refine ⟨h.unchanged hsame, fun page hpage => ?_⟩
    rw [hnone] at hpage
    cases hpage
  · refine ⟨h.unchanged hsame, fun other hother => Or.inr ?_⟩
    rw [hpage] at hother
    cases hother
    have hstored := h (tableName, id) page hpage hclean
    exact stored_of_kept (fun kept hkept => (hsame.onDisk (tableName, id)).trans hkept) hstored
  · obtain ⟨hid, hlegible⟩ := hsafe page hpage hdirty
    have hkey : (tableName, page.id) = (tableName, id) := by rw [hid]
    have hothers : ∀ other, other ≠ (tableName, id) → ∀ found, s.cached other = some found →
        found.dirty = false → s'.stored other = some found.live := by
      intro other hother found hfound hclean
      apply stored_of_kept (hwrote.kept other (by rwa [hkey])) (h other found hfound hclean)
    rcases hcached with ⟨hfailed, hsame⟩ | ⟨hok, hnew, hsame⟩
    · constructor
      · intro other found hfound hclean
        rw [hsame] at hfound
        by_cases hother : other = (tableName, id)
        · subst hother
          rw [hpage] at hfound
          cases hfound
          rw [hdirty] at hclean
          cases hclean
        · exact hothers other hother found hfound hclean
      · intro other hother
        rw [hpage] at hother
        cases hother
        exact Or.inl ⟨(hsame (tableName, id)).trans hpage, hdirty, hfailed⟩
    · subst hok
      have hstored := hwrote.stored rfl (hlegible files hwrite)
      rw [hkey] at hstored
      constructor
      · intro other found hfound hclean
        by_cases hother : other = (tableName, id)
        · subst hother
          rw [hnew] at hfound
          cases hfound
          exact hstored
        · rw [hsame other hother] at hfound
          exact hothers other hother found hfound hclean
      · intro other hother
        rw [hpage] at hother
        cases hother
        exact Or.inr hstored

/-- What an eviction keeps, and what it leaves of the evicted page. -/
theorem CleanStored.evictPage {s s' : StorageEngine} (h : s.CleanStored) {tableName : String}
    {id : PageID} {io : Schedule} {status : Status}
    (hevict : s.evictPage tableName id io = .ok (status, s'))
    (hsafe : ∀ page, s.cached (tableName, id) = some page → page.dirty = true →
      page.id = id ∧ ∀ files, s.writePage tableName page io = .ok (.OK, files) → Legible page) :
    s'.CleanStored ∧ ∀ page, s.cached (tableName, id) = some page →
      s'.cached (tableName, id) = some page ∧ page.dirty = true ∨
      s'.stored (tableName, id) = some page.live := by
  obtain ⟨flushed, s₁, hflush, hdisk, hcached⟩ := evictPage_cases hevict
  obtain ⟨h₁, hpage₁⟩ := h.flushPage hflush hsafe
  have hstored : ∀ other, s'.stored other = s₁.stored other := by
    intro other
    unfold stored
    rw [hdisk]
  constructor
  · intro other found hfound hclean
    rw [hstored]
    rcases hcached with ⟨_, hsame⟩ | ⟨_, hgone, hsame⟩
    · rw [hsame] at hfound
      exact h₁ other found hfound hclean
    · by_cases hother : other = (tableName, id)
      · subst hother
        rw [hgone] at hfound
        cases hfound
      · rw [hsame other hother] at hfound
        exact h₁ other found hfound hclean
  · intro page hpage
    rw [hstored]
    rcases hpage₁ page hpage with ⟨hkept, hdirty, hfailed⟩ | hsaved
    · left
      rcases hcached with ⟨_, hsame⟩ | ⟨hok, _⟩
      · exact ⟨(hsame (tableName, id)).trans hkept, hdirty⟩
      · exact absurd hok hfailed
    · exact Or.inr hsaved

/-- Every call that cannot leave a clean page unwritten keeps clean pages on disk. -/
theorem CleanStored.call {s s' : StorageEngine} {c : Call} {response : Response}
    (h : s.CleanStored) (hsafe : s.KeepsClean c) (hcall : s.call c = .ok (response, s')) :
    s'.CleanStored := by
  cases effect_of_call hcall with
  | stored hinstalled hdisk => exact h.installed hinstalled hdisk hsafe
  | loaded _ hread hinstalled hdisk =>
    apply h.installed hinstalled hdisk
    right
    unfold stored
    rw [onDisk_of_read hread]
    rfl
  | fetched hsame => exact h.unchanged hsame
  | found hsame => exact h.unchanged hsame
  | flushed hflush => exact (h.flushPage hflush hsafe).1
  | evicted hevict => exact (h.evictPage hevict hsafe).1
  | @changed tableName id op page _ hpage hnew hsame hdisk =>
    intro other found hfound hclean
    unfold stored
    rw [hdisk]
    by_cases hother : other = (tableName, id)
    · subst hother
      rw [hnew] at hfound
      cases hfound
      rcases op.apply_cases page with hsamePage | hdirty | rfl
      · rw [hsamePage] at hclean ⊢
        exact h _ page hpage hclean
      · rw [hdirty] at hclean
        cases hclean
      · have hlive : (PageOp.compact.apply page).2.live = page.live := page.live_compact
        rw [hlive]
        exact hsafe page hpage
    · rw [hsame other hother] at hfound
      exact h other found hfound hclean

/-- With clean pages on disk, flushes and evictions leave pages dirty or on disk. -/
theorem CleanStored.saves {s : StorageEngine} {c : Call} (h : s.CleanStored)
    (hsafe : s.KeepsClean c) : s.Saves c := by
  intro response s' hcall
  cases effect_of_call hcall with
  | flushed hflush =>
    intro page hpage
    rcases (h.flushPage hflush hsafe).2 page hpage with ⟨hkept, hdirty, _⟩ | hsaved
    · exact Or.inl ⟨hdirty, hkept⟩
    · exact Or.inr hsaved
  | evicted hevict =>
    intro page hpage
    rcases (h.evictPage hevict hsafe).2 page hpage with ⟨hkept, hdirty⟩ | hsaved
    · exact Or.inl ⟨hdirty, hkept⟩
    · exact Or.inr hsaved
  | _ => trivial

/-- In every run from an empty cache whose calls cannot leave a clean page unwritten, clean
pages are on disk at all times and nothing is lost by flushes and evictions. -/
theorem run_keeps_clean_stored (dataDirectory : String) (files : FileIO.Files) {calls : List Call}
    (h : Along StorageEngine.call KeepsClean (new dataDirectory files) calls) :
    Throughout StorageEngine.call CleanStored (new dataDirectory files) calls ∧
    Along StorageEngine.call Saves (new dataDirectory files) calls := by
  have hstart : (new dataDirectory files).CleanStored := by
    intro key page hpage
    cases hpage
  have hstep : ∀ {s c response s'}, s.CleanStored → s.KeepsClean c →
      StorageEngine.call s c = .ok (response, s') → s'.CleanStored :=
    fun hs hsafe hcall => hs.call hsafe hcall
  exact ⟨Along.throughout hstep hstart h, Along.imp hstep (fun hs hsafe => hs.saves hsafe) hstart h⟩

end Runs

/-- A new page is cached and flushed. -/
theorem run_keeps_clean_stored_flush :
    letI := JsonText.ofDocument [0x7B] (freshPage 0).toJson
    Throughout StorageEngine.call CleanStored (new "data" FiniteMap.empty)
      [.cachePage "orders" (freshPage 0), .flushPage "orders" 0 []] ∧
    Along StorageEngine.call Saves (new "data" FiniteMap.empty)
      [.cachePage "orders" (freshPage 0), .flushPage "orders" 0 []] := by
  let _ := JsonText.ofDocument [0x7B] (freshPage 0).toJson
  apply run_keeps_clean_stored
  refine ⟨Or.inl rfl, fun _ s h => ⟨?_, fun _ _ _ => trivial⟩⟩
  obtain rfl := congrArg Prod.snd (Except.ok.inj h)
  intro page hpage _
  have hcached := (installed_cachePage (new "data" FiniteMap.empty) "orders" (freshPage 0)).new
  obtain rfl := Option.some.inj (hcached.symm.trans hpage)
  exact ⟨rfl, fun _ _ => legible_freshPage (by decide) (List.cons_ne_nil _ _)⟩

/-- A new page that was never written is clean after `compact`, so that nothing will write
it. -/
theorem compact_marks_unwritten_clean :
    letI := JsonText.ofDocument [0x7B] (freshPage 0).toJson
    ∃ responses s, run StorageEngine.call (new "data" FiniteMap.empty)
      [.cachePage "orders" (freshPage 0), .onPage "orders" 0 .compact] = .ok (responses, s) ∧
      ¬s.CleanStored := by
  let _ := JsonText.ofDocument [0x7B] (freshPage 0).toJson
  have hcached := (installed_cachePage (new "data" FiniteMap.empty) "orders" (freshPage 0)).new
  obtain ⟨s, hop, hfiles, hnew⟩ := onPage_of_cached hcached .compact
  have hcall : StorageEngine.call ((new "data" FiniteMap.empty).cachePage "orders" (freshPage 0))
      (.onPage "orders" 0 .compact) = .ok (.status .OK, s) := by
    unfold StorageEngine.call
    exact map_eq_ok.mpr ⟨_, hop, rfl⟩
  refine ⟨[.done, .status .OK], s, ?_, fun hclean => ?_⟩
  · rw [run_cons rfl, run_cons hcall]
    rfl
  · have hstored := hclean ("orders", 0) _ hnew rfl
    rw [stored_eq_none (by rw [hfiles]; rfl)] at hstored
    cases hstored

end StorageEngine

end MiniDB.Engine
