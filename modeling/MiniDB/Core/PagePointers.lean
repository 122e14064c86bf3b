import MiniDB.Core.TableObject
import MiniDB.Library.Ownership

/-!
# Pages behind pointers

A table that has its pages behind pointers does what a table does that has them as values: its
pointers are to different pages, both indexes find the same page, and a call touches no other
pages in the memory.
-/

namespace MiniDB.Core

open MiniDB.Common MiniDB.JsonPro Memory

namespace TableObject

/-- The table with given pages as values, indexed by position. -/
def valued (t : TableObject) (pages : List Page) (pageIndex : FiniteMap PageID ℕ) : Table where
  name := t.name
  id := t.id
  schema := t.schema
  pages := pages
  index := t.index
  pageIndex := pageIndex
  nextPageId := t.nextPageId
  dirty := t.dirty

/-- An index of pages by address and one by position find the same pages. -/
def Mapped (pages : List Address) (byAddress : FiniteMap PageID Address)
    (byPosition : FiniteMap PageID ℕ) : Prop :=
  ∀ id, byAddress.get? id = none ∧ byPosition.get? id = none ∨
    ∃ position page, byAddress.get? id = some page ∧ byPosition.get? id = some position ∧
      pages[position]? = some page

namespace Mapped

variable {pages : List Address} {byAddress : FiniteMap PageID Address}
  {byPosition : FiniteMap PageID ℕ}

/-- Indexes of nothing. -/
theorem empty (pages : List Address) : Mapped pages FiniteMap.empty FiniteMap.empty :=
  fun _ => Or.inl ⟨rfl, rfl⟩

/-- More pages do not move those that are indexed. -/
theorem append (h : Mapped pages byAddress byPosition) (more : List Address) :
    Mapped (pages ++ more) byAddress byPosition := by
  intro id
  refine (h id).imp_right ?_
  rintro ⟨position, page, haddress, hposition, hpage⟩
  obtain ⟨hinside, _⟩ := List.getElem?_eq_some_iff.mp hpage
  exact ⟨position, page, haddress, hposition, (List.getElem?_append_left hinside).trans hpage⟩

/-- Both indexes treat an insertion alike. -/
theorem insert [InsertPolicy] (h : Mapped pages byAddress byPosition) (id : PageID) {position : ℕ}
    {page : Address} (hpage : pages[position]? = some page) :
    Mapped pages (byAddress.insert id page) (byPosition.insert id position) := by
  have hcontains : byAddress.contains id = byPosition.contains id := by
    unfold FiniteMap.contains
    rcases h id with ⟨haddress, hposition⟩ | ⟨_, _, haddress, hposition, _⟩
    · rw [haddress, hposition]
    · rw [haddress, hposition]
      rfl
  unfold FiniteMap.insert
  rw [hcontains]
  split
  · exact h
  · intro other
    unfold FiniteMap.put
    dsimp only
    split
    · exact Or.inr ⟨position, page, rfl, rfl, hpage⟩
    · exact h other

end Mapped

/-- A table with its pages behind pointers shows a table with the pages as values. -/
structure Shows (t : TableObject) (v : Table) : Prop where
  /-- The other fields are the same. -/
  value : v = t.valued v.pages v.pageIndex
  /-- No page is held twice. -/
  nodup : t.pages.Nodup
  /-- The pages live behind the pointers. -/
  pages : t.pages.map t.heap.get? = v.pages.map some
  /-- Both indexes find the same pages. -/
  mapped : Mapped t.pages t.pageIndex v.pageIndex

namespace Shows

variable {t : TableObject} {v : Table} {position : ℕ} {page : Address} {p : Page}

/-- A page and the pointer at its position. -/
theorem get?_page (h : t.Shows v) (hpage : t.pages[position]? = some page) :
    ∃ p, t.heap.get? page = some p ∧ v.pages[position]? = some p := by
  have hat : (t.pages.map t.heap.get?)[position]? = (v.pages.map some)[position]? := by rw [h.pages]
  rw [List.getElem?_map, List.getElem?_map, hpage] at hat
  cases hp : v.pages[position]? with
  | none =>
    rw [hp] at hat
    cases hat
  | some p =>
    rw [hp] at hat
    exact ⟨p, Option.some.inj hat, rfl⟩

/-- Held pages are alive. -/
theorem alive (h : t.Shows v) : ∀ page ∈ t.pages, t.heap.get? page ≠ none := by
  intro page hheld
  obtain ⟨position, hpage⟩ := List.mem_iff_getElem?.mp hheld
  obtain ⟨p, hp, _⟩ := h.get?_page hpage
  rw [hp]
  exact Option.some_ne_none p

/-- `findPageByID` finds a page, or it does not find any. -/
theorem findPageByID (h : t.Shows v) (id : PageID) :
    t.findPageByID id = none ∧ v.findPageByID id = none ∨
      ∃ position page p, t.findPageByID id = some page ∧ v.findPageByID id = some (position, p) ∧
        t.pages[position]? = some page ∧ t.heap.get? page = some p := by
  unfold TableObject.findPageByID Table.findPageByID
  rcases h.mapped id with ⟨haddress, hposition⟩ | ⟨position, page, haddress, hposition, hpage⟩
  · rw [hposition]
    exact Or.inl ⟨haddress, rfl⟩
  · obtain ⟨p, hp, hvalue⟩ := h.get?_page hpage
    rw [hposition]
    dsimp only
    rw [hvalue]
    exact Or.inr ⟨position, page, p, haddress, rfl, hpage, hp⟩

/-- Fields that no page is behind. -/
theorem fields (h : t.Shows v) :
    v.schema = t.schema ∧ v.index = t.index ∧ v.nextPageId = t.nextPageId :=
  ⟨congrArg Table.schema h.value, congrArg Table.index h.value, congrArg Table.nextPageId h.value⟩

/-- The record index and the mark change. -/
theorem change (h : t.Shows v) (index : FiniteMap RecordID PageID) (dirty : Bool) :
    Shows { t with index, dirty } { v with index, dirty } where
  value := congrArg (fun v => { v with index, dirty }) h.value
  nodup := h.nodup
  pages := h.pages
  mapped := h.mapped

/-- The mark changes. -/
theorem mark (h : t.Shows v) (dirty : Bool) : Shows { t with dirty } { v with dirty } where
  value := congrArg (fun v => { v with dirty }) h.value
  nodup := h.nodup
  pages := h.pages
  mapped := h.mapped

/-- A column is added. -/
theorem addColumn (h : t.Shows v) (column : ColumnDef) :
    Shows { t with schema := t.schema ++ [column] } { v with schema := v.schema ++ [column] } where
  value := congrArg (fun v : Table => { v with schema := v.schema ++ [column] }) h.value
  nodup := h.nodup
  pages := h.pages
  mapped := h.mapped

/-- There are as many pointers as pages. -/
theorem length_pages (h : t.Shows v) : t.pages.length = v.pages.length := by
  have hlengths := congrArg List.length h.pages
  rwa [List.length_map, List.length_map] at hlengths

/-- Pages that are not held come and go. -/
theorem of_heap (h : t.Shows v) {heap : Heap Page}
    (hothers : ∀ page ∈ t.pages, heap.get? page = t.heap.get? page) :
    Shows { t with heap } v where
  value := h.value
  nodup := h.nodup
  pages := (List.map_congr_left hothers).trans h.pages
  mapped := h.mapped

/-- A new page is not one of the held ones. -/
theorem get?_alloc (h : t.Shows v) (p : Page) :
    ∀ page ∈ t.pages, (t.heap.alloc p).get? page = t.heap.get? page := by
  intro page hheld
  obtain ⟨held, hsome⟩ := Option.ne_none_iff_exists'.mp (h.alive page hheld)
  rw [hsome]
  exact Heap.get?_alloc_of_some hsome p

/-- A new page stands behind the others. -/
theorem push (h : t.Shows v) (p : Page) :
    Shows { t with pages := t.pages ++ [t.heap.next], heap := t.heap.alloc p }
      { v with pages := v.pages ++ [p] } where
  value := congrArg (fun v : Table => { v with pages := v.pages ++ [p] }) h.value
  nodup := (Heap.Exchange.alloc h.nodup h.alive p).nodup
  pages := by
    rw [List.map_append, List.map_append, ← h.pages, List.map_congr_left (h.get?_alloc p)]
    change _ ++ [(t.heap.alloc p).get? t.heap.next] = _
    rw [Heap.get?_alloc_self]
    rfl
  mapped := h.mapped.append _

/-- A page is written through its pointer. -/
theorem write (h : t.Shows v) (hpage : t.pages[position]? = some page) (p : Page) :
    ∃ heap, t.heap.write page p = .ok heap ∧ heap.get? page = some p ∧
      Shows { t with heap } (v.setPage position p) ∧
        Heap.Exchange t.heap heap t.pages t.pages := by
  obtain ⟨heap, hwrite, hget, hexchange⟩ :=
    Heap.Exchange.write h.nodup h.alive (List.mem_of_getElem? hpage) p
  have hself : heap.get? page = some p := (hget page).trans (if_pos rfl)
  refine ⟨heap, hwrite, hself, ⟨?_, h.nodup, ?_, h.mapped⟩, hexchange⟩
  · exact congrArg (fun v => Table.setPage v position p) h.value
  · change t.pages.map heap.get? = (v.pages.set position p).map some
    have hheap : heap.get? = Function.update t.heap.get? page (some p) := by
      funext other
      rw [hget, Function.update_apply]
    obtain ⟨hinside, rfl⟩ := List.getElem?_eq_some_iff.mp hpage
    rw [hheap, h.nodup.map_update, if_pos (List.getElem_mem hinside),
      h.nodup.idxOf_getElem position hinside, h.pages, List.map_set]

end Shows

/-- What becomes of a table and of its memory: the pages that it held are replaced by those that
it holds and those that it has lost. -/
structure Becomes (t t' : TableObject) (v : Table) (lost : ℕ) : Prop where
  /-- What the table shows. -/
  shows : t'.Shows v
  /-- What has happened to the memory. -/
  exchange : ∃ leaked : List Address, leaked.length = lost ∧
    Heap.Exchange t.heap t'.heap t.pages (t'.pages ++ leaked)

namespace Becomes

variable {t t' t'' : TableObject} {v v' : Table} {lost : ℕ}

/-- Nothing is lost. -/
theorem of_exchange (hshows : t'.Shows v)
    (h : Heap.Exchange t.heap t'.heap t.pages t'.pages) : t.Becomes t' v 0 :=
  ⟨hshows, [], rfl, by rwa [List.append_nil]⟩

/-- Nothing was lost. -/
theorem exchange_pages (h : t.Becomes t' v 0) :
    Heap.Exchange t.heap t'.heap t.pages t'.pages := by
  obtain ⟨leaked, hnone, hexchange⟩ := h.exchange
  rwa [List.eq_nil_of_length_eq_zero hnone, List.append_nil] at hexchange

/-- Fields that no page is behind have changed. -/
theorem of_fields (hshows : t'.Shows v) (hheap : t'.heap = t.heap) (hpages : t'.pages = t.pages) :
    t.Becomes t' v 0 := by
  refine of_exchange hshows ?_
  rw [← hheap, ← hpages]
  exact .refl hshows.nodup hshows.alive

/-- One change after another. -/
theorem trans (h : t.Becomes t' v 0) (h' : t'.Becomes t'' v' lost) : t.Becomes t'' v' lost := by
  obtain ⟨leaked, hlength, hexchange⟩ := h'.exchange
  exact ⟨h'.shows, leaked, hlength, h.exchange_pages.trans hexchange⟩

end Becomes

/-- A computation over pages behind pointers and one over pages as values end alike. -/
def Ends {α : Type} (t : TableObject) (lost : ℕ) :
    EStateM.Result Fault TableObject α → EStateM.Result Fault Table α → Prop
  | .ok value t', .ok value' v => value = value' ∧ t.Becomes t' v lost
  | .error fault t', .error fault' v => fault = fault' ∧ t.Becomes t' v lost
  | _, _ => False

/-- What comes behind a change. -/
theorem Ends.after {α : Type} {t t' : TableObject} {v : Table} {lost : ℕ}
    {result : EStateM.Result Fault TableObject α} {expected : EStateM.Result Fault Table α}
    (h : t.Becomes t' v 0) (hends : t'.Ends lost result expected) :
    t.Ends lost result expected := by
  cases result with
  | ok value t'' =>
    cases expected with
    | ok value' v' => exact ⟨hends.1, h.trans hends.2⟩
    | error fault v' => exact hends
  | error fault t'' =>
    cases expected with
    | ok value v' => exact hends
    | error fault' v' => exact ⟨hends.1, h.trans hends.2⟩

/-- A call on a living page. -/
theorem onPage_of_write {t : TableObject} {page : Address} {p : Page} {heap : Heap Page}
    {call : Page → Status × Page} (hp : t.heap.get? page = some p)
    (hwrite : t.heap.write page (call p).2 = .ok heap) :
    onPage page (modifyGet call) t = .ok (call p).1 { t with heap } := by
  have hcall : (modifyGet call : EStateM Fault Page Status) p = .ok (call p).1 (call p).2 := rfl
  unfold onPage
  rw [Heap.read_eq_ok.mpr hp]
  dsimp only
  rw [hcall]
  dsimp only
  rw [hwrite]

namespace Shows

variable {t : TableObject} {v : Table}

/-- Nothing has happened. -/
theorem becomes (h : t.Shows v) : t.Becomes t v 0 := .of_fields h rfl rfl

/-- `getRecord` finds the same record. -/
theorem getRecord (h : t.Shows v) (id : RecordID) (out : Record) :
    t.getRecord id out = .ok (v.getRecord id out) := by
  obtain ⟨_, hindex, _⟩ := h.fields
  unfold TableObject.getRecord Table.getRecord
  rw [hindex]
  cases t.index.get? id with
  | none => rfl
  | some pid =>
    dsimp only
    rcases h.findPageByID pid with ⟨hnone, hnone'⟩ | ⟨_, page, p, hsome, hsome', _, hp⟩
    · rw [hnone, hnone']
      rfl
    · rw [hsome, hsome']
      dsimp only
      rw [Heap.read_eq_ok.mpr hp]
      dsimp only [bind, Except.bind]
      cases p.getRecord id with
      | none => rfl
      | some r => rfl

/-- `updateRecord` changes the same page. -/
theorem updateRecord (h : t.Shows v) (record : Record) :
    t.Ends 0 (TableObject.updateRecord record t)
      (.ok (v.updateRecord record).1 (v.updateRecord record).2) := by
  obtain ⟨hschema, hindex, _⟩ := h.fields
  unfold TableObject.updateRecord Table.updateRecord
  rw [get_bind, hschema]
  cases record.validate t.schema with
  | OK =>
    dsimp only
    rw [get_bind, hindex]
    cases t.index.get? record.getID with
    | none => exact ⟨rfl, h.becomes⟩
    | some pid =>
      dsimp only
      rw [get_bind]
      rcases h.findPageByID pid with ⟨hnone, hnone'⟩ | ⟨position, page, p, hsome, hsome', hpage, hp⟩
      · rw [hnone, hnone']
        exact ⟨rfl, h.becomes⟩
      · rw [hsome, hsome']
        obtain ⟨heap, hwrite, _, hshows, hexchange⟩ := h.write hpage (p.updateRecord record).2
        dsimp only
        rw [bind_of_ok (onPage_of_write hp hwrite)]
        generalize p.updateRecord record = result at hshows ⊢
        obtain ⟨s, p'⟩ := result
        cases s with
        | OK => exact ⟨rfl, .of_exchange (hshows.mark true) hexchange⟩
        | _ => exact ⟨rfl, .of_exchange hshows hexchange⟩
  | _ => exact ⟨rfl, h.becomes⟩

/-- `deleteRecord` changes the same page. -/
theorem deleteRecord (h : t.Shows v) (id : RecordID) :
    t.Ends 0 (TableObject.deleteRecord id t)
      (.ok (v.deleteRecord id).1 (v.deleteRecord id).2) := by
  obtain ⟨_, hindex, _⟩ := h.fields
  unfold TableObject.deleteRecord Table.deleteRecord
  rw [get_bind, hindex]
  cases t.index.get? id with
  | none => exact ⟨rfl, h.becomes⟩
  | some pid =>
    dsimp only
    rw [get_bind]
    rcases h.findPageByID pid with ⟨hnone, hnone'⟩ | ⟨position, page, p, hsome, hsome', hpage, hp⟩
    · rw [hnone, hnone']
      exact ⟨rfl, h.becomes⟩
    · rw [hsome, hsome']
      obtain ⟨heap, hwrite, _, hshows, hexchange⟩ := h.write hpage (p.deleteRecord id).2
      dsimp only
      rw [bind_of_ok (onPage_of_write hp hwrite)]
      generalize p.deleteRecord id = result at hshows ⊢
      obtain ⟨s, p'⟩ := result
      cases s with
      | OK => exact ⟨rfl, .of_exchange (hshows.change _ true) hexchange⟩
      | _ => exact ⟨rfl, .of_exchange hshows hexchange⟩

end Shows

/-- The loop of `compact` compacts the pages behind the pointers. -/
theorem compactPages_spec {t : TableObject} {pages : List Address} {values : List Page}
    (hnodup : pages.Nodup) (hpages : pages.map t.heap.get? = values.map some) :
    ∃ heap, compactPages pages t = .ok .OK { t with heap } ∧
      pages.map heap.get? = (values.map fun p => p.compact.2).map some ∧
        ∀ other ∉ pages, heap.get? other = t.heap.get? other := by
  -- induction on the pages; those that come later are others to the first one
  induction pages generalizing t values with
  | nil =>
    obtain rfl : values = [] := List.map_eq_nil_iff.mp hpages.symm
    exact ⟨t.heap, rfl, rfl, fun _ _ => rfl⟩
  | cons page pages ih =>
    obtain ⟨hfirst, hnodup'⟩ := List.nodup_cons.mp hnodup
    cases values with
    | nil => cases hpages
    | cons p values =>
      obtain ⟨hp, hrest⟩ := List.cons_eq_cons.mp hpages
      obtain ⟨heap, hwrite, hget, _⟩ := Heap.Exchange.write (List.nodup_singleton page)
        (by
          intro address haddress
          rw [List.mem_singleton.mp haddress, hp]
          exact Option.some_ne_none p)
        (List.mem_singleton_self page) p.compact.2
      have hkept : pages.map heap.get? = pages.map t.heap.get? := by
        refine List.map_congr_left fun other hother => ?_
        rw [hget, if_neg]
        rintro rfl
        exact hfirst hother
      obtain ⟨heap', hcompact, hcompacted, hothers⟩ :=
        @ih { t with heap } values hnodup' (hkept.trans hrest)
      refine ⟨heap', ?_, ?_, ?_⟩
      · rw [compactPages, bind_of_ok (onPage_of_write hp hwrite)]
        exact hcompact
      · rw [List.map_cons, hcompacted, hothers page hfirst]
        change heap.get? page :: _ = _
        rw [hget, if_pos rfl]
        rfl
      · intro other hother
        rw [List.mem_cons, not_or] at hother
        rw [hothers other hother.2]
        exact (hget other).trans (if_neg hother.1)

/-- The loop of `findPageWithSlot` stops at the first page that is not full. -/
theorem firstPageWithSlot_spec {t : TableObject} {pages : List Address} {values : List Page}
    (hpages : pages.map t.heap.get? = values.map some) :
    firstPageWithSlot pages t =
      .ok ((values.findIdx? fun p => !p.isFull).bind fun position => pages[position]?) t := by
  induction pages generalizing values with
  | nil =>
    obtain rfl : values = [] := List.map_eq_nil_iff.mp hpages.symm
    rfl
  | cons page pages ih =>
    cases values with
    | nil => cases hpages
    | cons p values =>
      obtain ⟨hp, hrest⟩ := List.cons_eq_cons.mp hpages
      rw [firstPageWithSlot, get_bind, lift_bind_of_ok (Heap.read_eq_ok.mpr hp),
        List.findIdx?_cons]
      cases p.isFull with
      | false => rfl
      | true =>
        refine (ih hrest).trans ?_
        cases values.findIdx? fun p => !p.isFull with
        | none => rfl
        | some position => rfl

namespace Shows

variable {t : TableObject} {v : Table}

/-- `compact` compacts the same pages. -/
theorem compact (h : t.Shows v) :
    t.Ends 0 (TableObject.compact t) (.ok v.compact.1 v.compact.2) := by
  obtain ⟨heap, hcompact, hpages, hothers⟩ := compactPages_spec h.nodup h.pages
  have hexchange : Heap.Exchange t.heap heap t.pages t.pages := by
    refine .inPlace h.nodup (fun page hheld => ?_) hothers
    have hmem : heap.get? page ∈ t.pages.map heap.get? := List.mem_map_of_mem hheld
    rw [hpages] at hmem
    obtain ⟨p, _, hp⟩ := List.mem_map.mp hmem
    rw [← hp]
    exact Option.some_ne_none p
  unfold TableObject.compact Table.compact
  rw [get_bind, bind_of_ok hcompact, Table.compactPages_eq]
  refine ⟨rfl, .of_exchange ⟨?_, h.nodup, hpages, h.mapped⟩ hexchange⟩
  exact congrArg (fun v : Table => { v with
    pages := v.pages.map fun p : Page => p.compact.2
    dirty := false }) h.value

/-- `toJson` describes the same table. -/
theorem toJson (h : t.Shows v) : t.toJson = .ok v.toJson := by
  unfold TableObject.toJson
  rw [Heap.mapM_read h.pages, h.value]
  rfl

/-- `findPageWithSlot` finds the same page or creates it. -/
theorem findPageWithSlot [InsertPolicy] (h : t.Shows v) :
    ∃ page t', TableObject.findPageWithSlot t = .ok page t' ∧
      t.Becomes t' v.findPageWithSlot.2 0 ∧
        t'.pages[v.findPageWithSlot.1]? = some page := by
  obtain ⟨pages, pageIndex, rfl⟩ : ∃ pages pageIndex, v = t.valued pages pageIndex :=
    ⟨_, _, h.value⟩
  unfold TableObject.findPageWithSlot Table.findPageWithSlot
  rw [get_bind, bind_of_ok (firstPageWithSlot_spec h.pages)]
  cases hfirst : (t.valued pages pageIndex).pages.findIdx? fun p => !p.isFull with
  | some position =>
    obtain ⟨hinside, _⟩ := List.findIdx?_eq_some_iff_getElem.mp hfirst
    have hlength : position < t.pages.length := by rwa [h.length_pages]
    have hpage : t.pages[position]? = some t.pages[position] := List.getElem?_eq_getElem hlength
    refine ⟨t.pages[position], t, ?_, h.becomes, hpage⟩
    rw [Option.bind_some, hpage]
    rfl
  | none =>
    have hself := Heap.get?_alloc_self t.heap (Page.new t.nextPageId)
    have hlast : (t.pages ++ [t.heap.next])[pages.length]? = some t.heap.next := by
      have hlength : t.pages.length = pages.length := h.length_pages
      rw [← hlength, List.getElem?_concat_length]
    have hpush := h.push (Page.new t.nextPageId)
    refine ⟨t.heap.next, { t with
      pages := t.pages ++ [t.heap.next]
      pageIndex := t.pageIndex.insert t.nextPageId t.heap.next
      nextPageId := t.nextPageId + 1
      heap := t.heap.alloc (Page.new t.nextPageId) }, ?_, .of_exchange ⟨rfl, hpush.nodup,
        hpush.pages, hpush.mapped.insert t.nextPageId hlast⟩
        (.alloc h.nodup h.alive (Page.new t.nextPageId)), hlast⟩
    rw [Option.bind_none]
    dsimp only
    rw [modifyGet_bind, get_bind, modify_bind, get_bind]
    exact lift_bind_of_ok (Heap.read_eq_ok.mpr hself) _ _

/-- `insertRecord` inserts into the same page. -/
theorem insertRecord [InsertPolicy] (h : t.Shows v) (record : Record) :
    t.Ends 0 (TableObject.insertRecord record t)
      (.ok (v.insertRecord record).1 (v.insertRecord record).2) := by
  obtain ⟨hschema, hindex, _⟩ := h.fields
  unfold TableObject.insertRecord Table.insertRecord
  rw [get_bind, hschema]
  cases record.validate t.schema with
  | OK =>
    dsimp only
    rw [get_bind, hindex]
    by_cases hcontains : t.index.contains record.getID = true
    · rw [if_pos hcontains, if_pos hcontains]
      exact ⟨rfl, h.becomes⟩
    · rw [if_neg hcontains, if_neg hcontains]
      obtain ⟨page, t', hfind, hbecomes, hpage⟩ := h.findPageWithSlot
      obtain ⟨p, hp, hvalue⟩ := hbecomes.shows.get?_page hpage
      obtain ⟨heap, hwrite, hself, hshows, hexchange⟩ :=
        hbecomes.shows.write hpage (p.addRecord record).2
      obtain ⟨_, hindex', _⟩ := hbecomes.shows.fields
      rw [bind_of_ok hfind, bind_of_ok (onPage_of_write hp hwrite), hvalue]
      refine .after hbecomes ?_
      dsimp only
      generalize p.addRecord record = result at hshows hself ⊢
      obtain ⟨s, p'⟩ := result
      cases s with
      | OK =>
        change t'.Ends 0 (((liftM (heap.read page) : EStateM Fault TableObject Page) >>= _) _) _
        rw [lift_bind_of_ok (Heap.read_eq_ok.mpr hself)]
        refine ⟨rfl, .of_exchange ?_ hexchange⟩
        dsimp only
        rw [hindex']
        exact hshows.change (t'.index.insert record.getID p'.getID) true
      | _ => exact ⟨rfl, .of_exchange hshows hexchange⟩
  | _ => exact ⟨rfl, h.becomes⟩

end Shows

/-- The loop of `rebuildIndex` indexes the pages behind the pointers as those at positions. -/
theorem indexPages_spec [InsertPolicy] {t : TableObject} {pages : List Address}
    {values : List Page} {position : ℕ} {byPosition : FiniteMap PageID ℕ}
    (hpages : pages.map t.heap.get? = values.map some) (hplace : t.pages.drop position = pages)
    (hmapped : Mapped t.pages t.pageIndex byPosition) :
    ∃ pageIndex, indexPages pages t = .ok () { t with
        index := (Table.indexPages position t.index byPosition values).1
        pageIndex } ∧
      Mapped t.pages pageIndex (Table.indexPages position t.index byPosition values).2 := by
  induction pages generalizing t values position byPosition with
  | nil =>
    obtain rfl : values = [] := List.map_eq_nil_iff.mp hpages.symm
    exact ⟨t.pageIndex, rfl, hmapped⟩
  | cons page pages ih =>
    cases values with
    | nil => cases hpages
    | cons p values =>
      obtain ⟨hp, hrest⟩ := List.cons_eq_cons.mp hpages
      have hpage : t.pages[position]? = some page := by
        rw [← Nat.add_zero position, ← List.getElem?_drop, hplace]
        rfl
      have hplace' : t.pages.drop (position + 1) = pages := by
        rw [← List.drop_drop, hplace]
        rfl
      obtain ⟨pageIndex, hindex, hmapped'⟩ := @ih { t with
        pageIndex := t.pageIndex.insert p.getID page
        index := Table.indexRecords p.getID t.index p.records } values (position + 1) _ hrest
          hplace' (hmapped.insert p.getID hpage)
      refine ⟨pageIndex, ?_, hmapped'⟩
      rw [indexPages, get_bind, lift_bind_of_ok (Heap.read_eq_ok.mpr hp), modify_bind]
      exact hindex

namespace Shows

variable {t : TableObject} {v : Table}

/-- `rebuildIndex` indexes the same pages. -/
theorem rebuildIndex [InsertPolicy] (h : t.Shows v) :
    t.Ends 0 (TableObject.rebuildIndex t) (.ok v.rebuildIndex.1 v.rebuildIndex.2) := by
  obtain ⟨pageIndex, hindex, hmapped⟩ := @indexPages_spec _ { t with
    index := FiniteMap.empty
    pageIndex := FiniteMap.empty } t.pages v.pages 0 FiniteMap.empty h.pages rfl (Mapped.empty _)
  unfold TableObject.rebuildIndex Table.rebuildIndex
  rw [modify_bind, get_bind, bind_of_ok hindex]
  refine ⟨rfl, .of_fields ⟨?_, h.nodup, h.pages, hmapped⟩ rfl rfl⟩
  exact congrArg (fun w : Table => { w with
    index := (Table.indexPages 0 FiniteMap.empty FiniteMap.empty v.pages).1
    pageIndex := (Table.indexPages 0 FiniteMap.empty FiniteMap.empty v.pages).2 }) h.value

end Shows

end TableObject

end MiniDB.Core
