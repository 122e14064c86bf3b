import MiniDB.Engine.QueryScans

/-!
# What compaction leaves unchanged

Compacting a table rewrites its pages and leaves both indexes alone. Queries, lookups and the
encoder pass over deleted records, so none of them can tell a table from the compacted one.
-/

namespace MiniDB.Core

open MiniDB.Common MiniDB.JsonPro

namespace Page

/-- A compacted page finds the same records. -/
theorem getRecord_compact (p : Page) (id : RecordID) :
    p.compact.2.getRecord id = p.getRecord id := by
  rw [getRecord_eq, getRecord_eq, live_compact]

/-- A page without deleted records. -/
def Dense (p : Page) : Prop := ∀ r ∈ p.records, r.isDeleted = false

/-- A page without deleted records has only live ones. -/
theorem Dense.live {p : Page} (h : p.Dense) : p.live = p.records :=
  List.filter_eq_self.mpr fun r hr => by rw [h r hr]; rfl

/-- A compacted page has no deleted records. -/
theorem dense_compact (p : Page) : p.compact.2.Dense := by
  intro r hr
  have hlive := (List.mem_filter.mp hr).2
  rwa [Bool.not_eq_true'] at hlive

/-- Compacting a page without deleted records only clears its dirty mark. -/
theorem Dense.compact {p : Page} (h : p.Dense) : p.compact.2 = { p with dirty := false } := by
  have hnone : p.records.filter (fun r => r.isDeleted) = [] :=
    List.filter_eq_nil_iff.mpr fun r hr => by rw [h r hr]; exact Bool.false_ne_true
  unfold Page.compact
  simp only [h.live, hnone]
  rfl

/-- Compacting a page again changes nothing. -/
theorem compact_compact (p : Page) : p.compact.2.compact = p.compact := by
  have hagain := p.dense_compact.compact
  exact Prod.ext rfl hagain

end Page

namespace Table

/-- The pages of a compacted table are those of the table, compacted. -/
theorem mem_pages_compact {t : Table} {page : Page} :
    page ∈ t.compact.2.pages ↔ ∃ original ∈ t.pages, original.compact.2 = page := by
  rw [compact_eq]
  exact List.mem_map

/-- A page of a compacted table is found where it was before. -/
theorem findPageByID_compact (t : Table) (id : PageID) :
    t.compact.2.findPageByID id =
      (t.findPageByID id).map fun found => (found.1, found.2.compact.2) := by
  rw [compact_eq]
  unfold findPageByID
  dsimp only
  cases t.pageIndex.get? id with
  | none => rfl
  | some position =>
    dsimp only
    rw [List.getElem?_map, Option.map_map, Option.map_map]
    rfl

/-- A compacted table looks up the same records. -/
theorem getRecord_compact (t : Table) (id : RecordID) (out : Record) :
    t.compact.2.getRecord id out = t.getRecord id out := by
  have hindex : t.compact.2.index = t.index := by rw [compact_eq]
  unfold getRecord
  rw [hindex]
  cases t.index.get? id with
  | none => rfl
  | some pid =>
    dsimp only
    rw [findPageByID_compact]
    cases t.findPageByID pid with
    | none => rfl
    | some found =>
      dsimp only [Option.map_some]
      rw [Page.getRecord_compact]

/-- The records of a table are those of its pages together. -/
theorem recordCount_eq (t : Table) : t.recordCount = (t.pages.flatMap Page.records).length := by
  have hloop : ∀ (pages : List Page) (count : ℕ),
      pages.foldl (fun count p => count + p.recordCount) count =
        count + (pages.flatMap Page.records).length := by
    intro pages
    induction pages with
    | nil => intro count; rfl
    | cons page pages ih =>
      intro count
      rw [List.foldl_cons, ih, List.flatMap_cons, List.length_append, Page.recordCount,
        Nat.add_assoc]
  rw [recordCount, hloop, Nat.zero_add]

/-- A compacted table counts its live records. -/
theorem recordCount_compact (t : Table) : t.compact.2.recordCount = t.liveRecords.length := by
  have hpages : t.compact.2.pages.flatMap Page.records = t.compact.2.liveRecords := by
    apply List.flatMap_congr
    intro page hpage
    obtain ⟨original, _, rfl⟩ := mem_pages_compact.mp hpage
    exact original.dense_compact.live.symm
  rw [recordCount_eq, hpages, liveRecords_compact]

/-- Compacting a table again changes nothing. -/
theorem compact_compact (t : Table) : t.compact.2.compact = (.OK, t.compact.2) := by
  rw [compact_eq t, compact_eq]
  dsimp only
  rw [List.map_map]
  congr 2
  apply List.map_congr_left
  intro page _
  rw [Function.comp_apply, page.compact_compact]

end Table

end MiniDB.Core

namespace MiniDB.Engine

open MiniDB.Common MiniDB.JsonPro MiniDB.Core

/-- The scans of a compacted table match the same records. -/
theorem matching_compact (t : Table) (predicates : List FilterPredicate) :
    matching predicates (scanned t.compact.2) = matching predicates (scanned t) := by
  rw [matching_scanned, matching_scanned, matched, matched, Table.liveRecords_compact]

/-- A scan without a limit visits the same records of a compacted table. -/
theorem scanLoop_compact {σ : Type} (t : Table) (predicates : List FilterPredicate)
    (visit : σ → Record → σ) (state : σ) :
    scanLoop predicates visit (scanned t.compact.2) state =
      scanLoop predicates visit (scanned t) state := by
  rw [scanLoop_eq, scanLoop_eq, matching_compact]

/-- So does a scan over the numbers in a field. -/
theorem numberScan_compact {σ : Type} (t : Table) (field : FieldName)
    (predicates : List FilterPredicate) (visit : σ → Double → σ) (state : σ) :
    numberScan t.compact.2 field predicates visit state =
      numberScan t field predicates visit state :=
  scanLoop_compact t predicates _ state

variable [StdSort]

/-- A query returns the same records of a compacted table, in the same order. -/
theorem select_compact (t : Table) (predicates : List FilterPredicate)
    (sort : Option SortCondition) (limit : ℕ) :
    select t.compact.2 predicates sort limit = select t predicates sort limit := by
  unfold select
  rw [selectLoop_start, selectLoop_start, matching_compact]

/-- Two tables that queries, lookups and the encoder cannot tell apart. -/
structure SameMeaning (t t' : Table) : Prop where
  /-- Queries return the same records in the same order. -/
  select : ∀ predicates sort limit, select t' predicates sort limit = select t predicates sort limit
  /-- As many records match. -/
  count : ∀ predicates, QueryEngine.count t' predicates = QueryEngine.count t predicates
  /-- Sums are the same. -/
  sum : ∀ field predicates, QueryEngine.sum t' field predicates = QueryEngine.sum t field predicates
  /-- Averages are the same. -/
  avg : ∀ field predicates, QueryEngine.avg t' field predicates = QueryEngine.avg t field predicates
  /-- Largest numbers are the same. -/
  max : ∀ field predicates, QueryEngine.max t' field predicates = QueryEngine.max t field predicates
  /-- Smallest numbers are the same. -/
  min : ∀ field predicates, QueryEngine.min t' field predicates = QueryEngine.min t field predicates
  /-- Every identifier is looked up with the same outcome. -/
  getRecord : ∀ id out, t'.getRecord id out = t.getRecord id out
  /-- The same envelope is written. -/
  toJson : t'.toJson = t.toJson

/-- Compacting a table keeps its meaning. -/
theorem sameMeaning_compact (t : Table) : SameMeaning t t.compact.2 where
  select := select_compact t
  count predicates := scanLoop_compact t predicates _ 0
  sum field predicates := numberScan_compact t field predicates _ _
  avg field predicates := by
    unfold QueryEngine.avg
    rw [numberScan_compact]
  max field predicates := congrArg Prod.fst (numberScan_compact t field predicates _ _)
  min field predicates := congrArg Prod.fst (numberScan_compact t field predicates _ _)
  getRecord := t.getRecord_compact
  toJson := t.toJson_compact

/-- Compacting a table always succeeds and keeps its meaning. Afterwards only live records are
stored and counted, the slots beside them are free, and compacting again changes nothing. -/
theorem compact_keeps_meaning (t : Table) :
    t.compact.1 = .OK ∧ SameMeaning t t.compact.2 ∧
    t.compact.2.recordCount = t.compact.2.liveRecords.length ∧
    (∀ page ∈ t.compact.2.pages, (∀ r ∈ page.records, r.isDeleted = false) ∧
      page.recordCount = page.live.length ∧ page.freeSlots = 64 - page.live.length) ∧
    t.compact.2.compact = (.OK, t.compact.2) := by
  refine ⟨?_, sameMeaning_compact t, ?_, ?_, t.compact_compact⟩
  · rw [Table.compact_eq]
  · rw [t.recordCount_compact, t.liveRecords_compact]
  · intro page hpage
    obtain ⟨original, _, rfl⟩ := Table.mem_pages_compact.mp hpage
    have hdense := original.dense_compact
    refine ⟨hdense, ?_, ?_⟩
    · rw [hdense.live]
      rfl
    · rw [hdense.live]
      rfl

end MiniDB.Engine
