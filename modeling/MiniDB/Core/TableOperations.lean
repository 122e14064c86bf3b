import MiniDB.Core.Table

/-!
# What the operations of a table do

Whatever the indices hold, an update or a deletion acts on the one record that they lead to,
and an insertion on the first page with a free slot or on a new page. Each operation is
rewritten here as such an equation, from which all that it keeps follows.
-/

namespace MiniDB.Core

open MiniDB.Common MiniDB.JsonPro Memory

namespace Table

/-- The live records of all pages, in page and slot order. -/
def liveRecords (t : Table) : List Record := t.pages.flatMap Page.live

/-- Every used slot of a page holds a listed record. -/
def ExactPages (t : Table) : Prop := ∀ page ∈ t.pages, page.Exact

/-- The live records around those of one page, and with that page replaced. -/
theorem liveRecords_around {t : Table} {position : ℕ} {page : Page}
    (h : t.pages[position]? = some page) :
    ∃ left right, t.liveRecords = left ++ page.live ++ right ∧
      ∀ replacement, (t.setPage position replacement).liveRecords =
        left ++ replacement.live ++ right := by
  obtain ⟨left, right, hpages, hset⟩ := KeyedList.exists_around h
  refine ⟨left.flatMap Page.live, right.flatMap Page.live, ?_, fun replacement => ?_⟩
  · rw [liveRecords, hpages, List.flatMap_append, List.flatMap_cons, List.append_assoc]
  · unfold liveRecords setPage
    dsimp only
    rw [hset, List.flatMap_append, List.flatMap_cons, List.append_assoc]

/-- The live records of one page are distinct if all are. -/
theorem page_nodup {t : Table} (h : (t.liveRecords.map Record.id).Nodup) {position : ℕ}
    {page : Page} (hpage : t.pages[position]? = some page) :
    (page.live.map Record.id).Nodup := by
  obtain ⟨left, right, haround, _⟩ := liveRecords_around hpage
  rw [haround, List.map_append, List.map_append] at h
  exact (List.nodup_append.mp (List.nodup_append.mp h).1).2.1

/-- A live record is not marked. -/
theorem deleted_of_mem_liveRecords {t : Table} {r : Record} (h : r ∈ t.liveRecords) :
    r.deleted = false := by
  obtain ⟨page, _, hr⟩ := List.mem_flatMap.mp h
  have hmark := (List.mem_filter.mp hr).2
  simpa [Record.isDeleted] using hmark

/-- A new page holds no live record. -/
theorem liveRecords_append_new (pages : List Page) (id : PageID) :
    (pages ++ [Page.new id]).flatMap Page.live = pages.flatMap Page.live := by
  have hempty : (Page.new id).live = [] := rfl
  rw [List.flatMap_append, List.flatMap_singleton, hempty, List.append_nil]

/-- What the pages are mapped to is kept when one is replaced by another with the same image. -/
theorem map_set_of_eq {β : Type} {f : Page → β} {pages : List Page} {position : ℕ}
    {page replacement : Page} (hpage : pages[position]? = some page)
    (hsame : f replacement = f page) : (pages.set position replacement).map f = pages.map f := by
  rw [List.map_set, hsame]
  apply List.ext_getElem?
  intro other
  rw [List.getElem?_set, List.getElem?_map]
  split
  · rename_i heq
    subst heq
    obtain ⟨hlt, _⟩ := List.getElem?_eq_some_iff.mp hpage
    rw [List.length_map, if_pos hlt, hpage]
    rfl
  · rfl

/-- Replacing a page by one with exact slots keeps all slots exact. -/
theorem ExactPages.set {t : Table} (h : t.ExactPages) (position : ℕ) {replacement : Page}
    (hexact : replacement.Exact) : ∀ page ∈ t.pages.set position replacement, page.Exact := by
  intro page hpage
  rcases List.mem_or_eq_of_mem_set hpage with hold | rfl
  · exact h page hold
  · exact hexact

/-- A page found through the index lies at its position. -/
theorem getElem?_of_findPageByID {t : Table} {id : PageID} {position : ℕ} {page : Page}
    (h : t.findPageByID id = some (position, page)) : t.pages[position]? = some page := by
  unfold findPageByID at h
  split at h
  · cases h
  · obtain ⟨found, hfound, heq⟩ := Option.map_eq_some_iff.mp h
    cases heq
    exact hfound

/-- The position, the page and the record that looking an identifier up leads to. -/
def locate (t : Table) (id : RecordID) : Option (ℕ × Page × Record) :=
  (t.index.get? id).bind fun pid => (t.findPageByID pid).bind fun found =>
    (found.2.getRecord id).map fun r => (found.1, found.2, r)

/-- What is located lies on its page. -/
theorem locate_eq_some {t : Table} {id : RecordID} {position : ℕ} {page : Page} {r : Record}
    (h : t.locate id = some (position, page, r)) :
    t.pages[position]? = some page ∧ page.getRecord id = some r := by
  obtain ⟨pid, _, h⟩ := Option.bind_eq_some_iff.mp h
  obtain ⟨⟨_, _⟩, hfind, h⟩ := Option.bind_eq_some_iff.mp h
  obtain ⟨_, hrecord, heq⟩ := Option.map_eq_some_iff.mp h
  cases heq
  exact ⟨getElem?_of_findPageByID hfind, hrecord⟩

/-- What is located has the identifier. -/
theorem id_of_locate {t : Table} {id : RecordID} {found : ℕ × Page × Record}
    (h : t.locate id = some found) : found.2.2.id = id :=
  Page.id_of_getRecord (locate_eq_some h).2

/-- What is located is live. -/
theorem mem_of_locate {t : Table} {id : RecordID} {found : ℕ × Page × Record}
    (h : t.locate id = some found) : found.2.2 ∈ t.liveRecords := by
  obtain ⟨hpage, hrecord⟩ := locate_eq_some h
  exact List.mem_flatMap.mpr
    ⟨found.2.1, List.mem_of_getElem? hpage, Page.mem_live_of_getRecord hrecord⟩

/-- Getting a record returns the one that is located. -/
theorem getRecord_eq_locate (t : Table) (id : RecordID) (out : Record) :
    t.getRecord id out =
      match t.locate id with
      | none => (.NOT_FOUND, out)
      | some (_, _, r) => (.OK, r) := by
  unfold Table.getRecord locate
  cases t.index.get? id with
  | none => rfl
  | some pid =>
    dsimp only [Option.bind_some]
    cases t.findPageByID pid with
    | none => rfl
    | some found =>
      dsimp only [Option.bind_some]
      cases found.2.getRecord id with
      | none => rfl
      | some r => rfl

/-- Putting a page where it is changes nothing. -/
theorem setPage_self {t : Table} {position : ℕ} {page : Page}
    (h : t.pages[position]? = some page) : t.setPage position page = t := by
  obtain ⟨hlt, rfl⟩ := List.getElem?_eq_some_iff.mp h
  unfold setPage
  rw [List.set_getElem_self]

/-- An update of a valid record gives its data to the one that is located. -/
theorem updateRecord_eq_locate {t : Table} {record : Record}
    (hvalid : record.validate t.schema = .OK) :
    t.updateRecord record =
      match t.locate record.id with
      | none => (.NOT_FOUND, t)
      | some (position, page, _) =>
        (.OK, { t.setPage position (page.change record.id fun existing =>
          { existing with data := record.data }) with dirty := true }) := by
  unfold Table.updateRecord locate Record.getID
  rw [hvalid]
  dsimp only
  cases t.index.get? record.id with
  | none => rfl
  | some pid =>
    dsimp only [Option.bind_some]
    cases hfind : t.findPageByID pid with
    | none => rfl
    | some found =>
      dsimp only [Option.bind_some]
      unfold Page.updateRecord Record.getID
      cases found.2.getRecord record.id with
      | none => exact congrArg (Prod.mk _) (setPage_self (getElem?_of_findPageByID hfind))
      | some r => rfl

/-- A deletion marks the record that is located. -/
theorem deleteRecord_eq_locate (t : Table) (id : RecordID) :
    t.deleteRecord id =
      match t.locate id with
      | none => (.NOT_FOUND, t)
      | some (position, page, _) =>
        (.OK, { t.setPage position (page.change id Record.markDeleted) with
          index := t.index.erase id, dirty := true }) := by
  unfold Table.deleteRecord locate
  cases t.index.get? id with
  | none => rfl
  | some pid =>
    dsimp only [Option.bind_some]
    cases hfind : t.findPageByID pid with
    | none => rfl
    | some found =>
      dsimp only [Option.bind_some]
      unfold Page.deleteRecord
      cases found.2.getRecord id with
      | none => exact congrArg (Prod.mk _) (setPage_self (getElem?_of_findPageByID hfind))
      | some r => rfl

/-- The live records of a table when some of those of one page are replaced by others. -/
theorem liveRecords_splice {t : Table} {position : ℕ} {page replacement : Page}
    {left old new right : List Record} (hpage : t.pages[position]? = some page)
    (hbefore : page.live = left ++ old ++ right)
    (hafter : replacement.live = left ++ new ++ right) :
    ∃ left right, t.liveRecords = left ++ old ++ right ∧
      (t.setPage position replacement).liveRecords = left ++ new ++ right := by
  obtain ⟨before, after, haround, hset⟩ := liveRecords_around hpage
  refine ⟨before ++ left, right ++ after, ?_, ?_⟩
  · rw [haround, hbefore]
    simp only [List.append_assoc]
  · rw [hset, hafter]
    simp only [List.append_assoc]

/-- The live records of a table when a page got one more. -/
theorem liveRecords_store {t : Table} {position : ℕ} {page page' : Page} {r : Record}
    (hpage : t.pages[position]? = some page) (hlive : page'.live = page.live ++ [r]) :
    ∃ left right, t.liveRecords = left ++ right ∧
      (t.setPage position page').liveRecords = left ++ r :: right := by
  have hbefore : page.live = page.live ++ [] ++ [] := by rw [List.append_nil, List.append_nil]
  have hafter : page'.live = page.live ++ [r] ++ [] := by rw [hlive, List.append_nil]
  obtain ⟨left, right, hold, hnew⟩ := liveRecords_splice hpage hbefore hafter
  rw [List.append_nil] at hold
  rw [← List.append_cons] at hnew
  exact ⟨left, right, hold, hnew⟩

/-- The live records of a table when the located record gets other data. -/
theorem liveRecords_update {t : Table} {id : RecordID} {position : ℕ} {page : Page} {r : Record}
    (h : t.locate id = some (position, page, r)) (data : Json) :
    ∃ left right, t.liveRecords = left ++ r :: right ∧
      (t.setPage position (page.change id fun existing => { existing with data })).liveRecords =
        left ++ { r with data } :: right := by
  obtain ⟨hpage, hrecord⟩ := locate_eq_some h
  obtain ⟨_, _, hbefore, hafter⟩ := Page.live_update hrecord data
  obtain ⟨left, right, hold, hnew⟩ := liveRecords_splice hpage hbefore hafter
  rw [← List.append_cons] at hold hnew
  exact ⟨left, right, hold, hnew⟩

/-- The live records of a table when the located record is marked. -/
theorem liveRecords_delete {t : Table} {id : RecordID} {position : ℕ} {page : Page} {r : Record}
    (h : t.locate id = some (position, page, r)) :
    ∃ left right, t.liveRecords = left ++ r :: right ∧
      (t.setPage position (page.change id Record.markDeleted)).liveRecords = left ++ right := by
  obtain ⟨hpage, hrecord⟩ := locate_eq_some h
  obtain ⟨_, _, hbefore, hafter⟩ := Page.live_delete hrecord
  obtain ⟨left, right, hold, hnew⟩ := liveRecords_splice hpage hbefore hafter
  rw [← List.append_cons] at hold
  rw [List.append_nil] at hnew
  exact ⟨left, right, hold, hnew⟩

/-- If live records are distinct, the located one gets other data, and nothing else changes. -/
theorem liveRecords_update_eq {t : Table} (hnodup : (t.liveRecords.map Record.id).Nodup)
    {id : RecordID} {position : ℕ} {page : Page} {r : Record}
    (h : t.locate id = some (position, page, r)) (data : Json) :
    (t.setPage position (page.change id fun existing => { existing with data })).liveRecords =
      t.liveRecords.map fun r => if r.id = id then { r with data } else r := by
  obtain ⟨left, right, hbefore, hafter⟩ := liveRecords_update h data
  have hid : r.id = id := id_of_locate h
  rw [hbefore] at hnodup
  rw [hafter, hbefore, ← hid, KeyedList.change_around Record.id hnodup fun r => { r with data }]

/-- If live records are distinct, the located one is removed, and nothing else changes. -/
theorem liveRecords_delete_eq {t : Table} (hnodup : (t.liveRecords.map Record.id).Nodup)
    {id : RecordID} {position : ℕ} {page : Page} {r : Record}
    (h : t.locate id = some (position, page, r)) :
    (t.setPage position (page.change id Record.markDeleted)).liveRecords =
      t.liveRecords.filter fun r => r.id ≠ id := by
  obtain ⟨left, right, hbefore, hafter⟩ := liveRecords_delete h
  have hid : r.id = id := id_of_locate h
  rw [hbefore] at hnodup
  rw [hafter, hbefore, ← hid, KeyedList.remove_around Record.id hnodup]

/-- A record that fails validation is not inserted. -/
theorem insertRecord_of_invalid [InsertPolicy] {t : Table} {record : Record}
    (hinvalid : record.validate t.schema ≠ .OK) :
    t.insertRecord record = (record.validate t.schema, t) := by
  unfold Table.insertRecord
  split
  · contradiction
  · rfl

/-- A record that fails validation updates nothing. -/
theorem updateRecord_of_invalid {t : Table} {record : Record}
    (hinvalid : record.validate t.schema ≠ .OK) :
    t.updateRecord record = (record.validate t.schema, t) := by
  unfold Table.updateRecord
  split
  · contradiction
  · rfl

/-- A record with an identifier that the record index knows is not inserted. -/
theorem insertRecord_of_contains [InsertPolicy] {t : Table} {record : Record}
    (hvalid : record.validate t.schema = .OK) (hcontains : t.index.contains record.id = true) :
    t.insertRecord record = (.DUPLICATE_KEY, t) := by
  unfold Table.insertRecord Record.getID
  rw [hvalid]
  dsimp only
  rw [if_pos hcontains]

/-- An insertion that stores its record has to create a page for it. -/
def NeedsPage (t : Table) (record : Record) : Prop :=
  record.validate t.schema = .OK ∧ t.index.contains record.id = false ∧
    ∀ page ∈ t.pages, page.isFull = true

section Insertion

variable [InsertPolicy]

/-- The table with an empty page behind the others. -/
def withNewPage (t : Table) : Table :=
  { t with
    nextPageId := t.nextPageId + 1
    pages := t.pages ++ [Page.new t.nextPageId]
    pageIndex := t.pageIndex.insert t.nextPageId t.pages.length }

/-- An empty page may be put behind the others, whose slots stay exact. -/
theorem ExactPages.withNewPage {t : Table} (h : t.ExactPages) : t.withNewPage.ExactPages := by
  intro page hpage
  rcases List.mem_append.mp hpage with hold | hnew
  · exact h page hold
  · rw [List.mem_singleton.mp hnew]
    exact Page.exact_new _

/-- Looking for a page with a free slot finds one, or puts a new page behind full ones. -/
theorem findPageWithSlot_cases (t : Table) :
    (∃ position page, t.findPageWithSlot = (position, t) ∧ t.pages[position]? = some page ∧
      page.isFull = false) ∨
    ((∀ page ∈ t.pages, page.isFull = true) ∧
      t.findPageWithSlot = (t.pages.length, t.withNewPage)) := by
  unfold findPageWithSlot
  cases hfind : t.pages.findIdx? fun p => !p.isFull with
  | some position =>
    obtain ⟨hlt, hslot, _⟩ := List.findIdx?_eq_some_iff_getElem.mp hfind
    exact Or.inl ⟨position, t.pages[position], rfl, List.getElem?_eq_getElem hlt,
      by simpa using hslot⟩
  | none =>
    refine Or.inr ⟨fun page hpage => ?_, rfl⟩
    simpa using List.findIdx?_eq_none_iff.mp hfind page hpage

/-- A table that offers a page with a free slot at a position: the table itself, or the table
with a new page if all are full. -/
structure Offers (t t₁ : Table) (record : Record) (position : ℕ) (page : Page) : Prop where
  /-- The page is at the position. -/
  atPosition : t₁.pages[position]? = some page
  /-- It has a free slot. -/
  room : page.isFull = false
  /-- A page is added if and only if all are full. -/
  table : (¬t.NeedsPage record ∧ t₁ = t) ∨ (t.NeedsPage record ∧ t₁ = t.withNewPage)

namespace Offers

variable {t t₁ : Table} {record : Record} {position : ℕ} {page : Page}

/-- A new page does not change the live records. -/
theorem liveRecords (h : t.Offers t₁ record position page) : t₁.liveRecords = t.liveRecords := by
  rcases h.table with ⟨_, rfl⟩ | ⟨_, rfl⟩
  · rfl
  · exact liveRecords_append_new t.pages t.nextPageId

/-- A new page does not change the record index. -/
theorem index (h : t.Offers t₁ record position page) : t₁.index = t.index := by
  rcases h.table with ⟨_, rfl⟩ | ⟨_, rfl⟩ <;> rfl

/-- A new page does not change the schema. -/
theorem schema (h : t.Offers t₁ record position page) : t₁.schema = t.schema := by
  rcases h.table with ⟨_, rfl⟩ | ⟨_, rfl⟩ <;> rfl

/-- A new page has exact slots. -/
theorem exact (h : t.Offers t₁ record position page) (hexact : t.ExactPages) :
    t₁.ExactPages := by
  rcases h.table with ⟨_, rfl⟩ | ⟨_, rfl⟩
  · exact hexact
  · exact hexact.withNewPage

end Offers

/-- A valid record with an unknown identifier goes to the page that is offered. -/
theorem insertRecord_cases {t : Table} {record : Record} (hvalid : record.validate t.schema = .OK)
    (hcontains : t.index.contains record.id = false) :
    ∃ t₁ position page, t.Offers t₁ record position page ∧
      ((∃ s, s ≠ .OK ∧ page.addRecord record = (s, page) ∧ t.insertRecord record = (s, t₁)) ∨
        ∃ page', page.addRecord record = (.OK, page') ∧ page'.id = page.id ∧
          page'.live = page.live ++ [Record.new record.id record.data] ∧
          t.insertRecord record = (.OK, { t₁.setPage position page' with
            index := t₁.index.insert record.id page'.id, dirty := true })) := by
  obtain ⟨t₁, position, page, hslot, hoffers⟩ : ∃ t₁ position page,
      t.findPageWithSlot = (position, t₁) ∧ t.Offers t₁ record position page := by
    rcases t.findPageWithSlot_cases with ⟨position, page, hslot, hpage, hroom⟩ | ⟨hfull, hslot⟩
    · refine ⟨t, position, page, hslot, hpage, hroom, Or.inl ⟨?_, rfl⟩⟩
      rintro ⟨_, _, hall⟩
      rw [hall page (List.mem_of_getElem? hpage)] at hroom
      cases hroom
    · exact ⟨_, _, Page.new t.nextPageId, hslot, List.getElem?_concat_length, rfl,
        Or.inr ⟨⟨hvalid, hcontains, hfull⟩, rfl⟩⟩
  refine ⟨t₁, position, page, hoffers, ?_⟩
  unfold Table.insertRecord Record.getID
  rw [hvalid]
  dsimp only
  rw [hcontains, if_neg Bool.false_ne_true, hslot]
  dsimp only
  rw [hoffers.atPosition]
  dsimp only
  rcases page.addRecord_cases record with ⟨s, hs, hadd⟩ | ⟨page', hadd, hid, hlive⟩
  · refine Or.inl ⟨s, hs, hadd, ?_⟩
    rw [hadd]
    cases s with
    | OK => contradiction
    | _ => exact congrArg (Prod.mk _) (setPage_self hoffers.atPosition)
  · refine Or.inr ⟨page', hadd, hid, hlive, ?_⟩
    rw [hadd]
    rfl

/-- A table with exact slots stores a valid record with an unknown identifier. -/
theorem ExactPages.insertRecord_eq {t : Table} (h : t.ExactPages) {record : Record}
    (hvalid : record.validate t.schema = .OK) (hcontains : t.index.contains record.id = false) :
    ∃ t₁ position page page', t.Offers t₁ record position page ∧ page'.Exact ∧
      page'.id = page.id ∧ page'.live = page.live ++ [Record.new record.id record.data] ∧
      t.insertRecord record = (.OK, { t₁.setPage position page' with
        index := t₁.index.insert record.id page'.id, dirty := true }) := by
  obtain ⟨t₁, position, page, hoffers, hcases⟩ := insertRecord_cases hvalid hcontains
  have hexact := hoffers.exact h page (List.mem_of_getElem? hoffers.atPosition)
  obtain ⟨page', hadd, hexact'⟩ := Page.addRecord_of_room hexact hoffers.room record
  rcases hcases with ⟨s, hs, hadd', _⟩ | ⟨page'', hadd', hid, hlive, hinsert⟩
  · rw [hadd] at hadd'
    cases hadd'
    contradiction
  · rw [hadd] at hadd'
    cases hadd'
    exact ⟨t₁, position, page, page', hoffers, hexact', hid, hlive, hinsert⟩

/-- What a table with exact slots is after it stored a record. -/
theorem ExactPages.insertRecord {t : Table} (h : t.ExactPages) {record : Record}
    (hvalid : record.validate t.schema = .OK) (hcontains : t.index.contains record.id = false) :
    ∃ t' left right pid, t.insertRecord record = (.OK, t') ∧ t'.ExactPages ∧ t'.isDirty = true ∧
      t'.schema = t.schema ∧ t'.index = t.index.insert record.id pid ∧
      t.liveRecords = left ++ right ∧
      t'.liveRecords = left ++ Record.new record.id record.data :: right := by
  obtain ⟨t₁, position, page, page', hoffers, hexact, _, hlive, hinsert⟩ :=
    h.insertRecord_eq hvalid hcontains
  obtain ⟨left, right, hbefore, hafter⟩ := liveRecords_store hoffers.atPosition hlive
  exact ⟨_, left, right, page'.id, hinsert, (hoffers.exact h).set position hexact, rfl,
    hoffers.schema, congrArg (fun index => index.insert record.id page'.id) hoffers.index,
    hoffers.liveRecords ▸ hbefore, hafter⟩

/-- An insertion leaves the live records and the index alone, or stores a valid record under
an identifier that the index does not know. -/
theorem insertRecord_effect (t : Table) (record : Record) :
    (t.insertRecord record).2.schema = t.schema ∧
    (((t.insertRecord record).2.liveRecords = t.liveRecords ∧
        (t.insertRecord record).2.index = t.index) ∨
      (record.validate t.schema = .OK ∧ t.index.get? record.id = none ∧ ∃ left right pid,
        t.liveRecords = left ++ right ∧
        (t.insertRecord record).2.liveRecords =
          left ++ Record.new record.id record.data :: right ∧
        (t.insertRecord record).2.index = t.index.insert record.id pid)) := by
  by_cases hvalid : record.validate t.schema = .OK
  · cases hcontains : t.index.contains record.id with
    | true =>
      rw [insertRecord_of_contains hvalid hcontains]
      exact ⟨rfl, Or.inl ⟨rfl, rfl⟩⟩
    | false =>
      obtain ⟨t₁, position, page, hoffers, ⟨s, _, _, hinsert⟩ | ⟨page', _, _, hlive, hinsert⟩⟩ :=
        insertRecord_cases hvalid hcontains
      · rw [hinsert]
        exact ⟨hoffers.schema, Or.inl ⟨hoffers.liveRecords, hoffers.index⟩⟩
      · have hunknown : t.index.get? record.id = none := FiniteMap.contains_eq_false.mp hcontains
        obtain ⟨left, right, hbefore, hafter⟩ := liveRecords_store hoffers.atPosition hlive
        rw [hinsert]
        refine ⟨hoffers.schema, Or.inr ⟨hvalid, hunknown, left, right, page'.id, ?_, hafter, ?_⟩⟩
        · rw [← hoffers.liveRecords, hbefore]
        · rw [← hoffers.index]
  · rw [insertRecord_of_invalid hvalid]
    exact ⟨rfl, Or.inl ⟨rfl, rfl⟩⟩

end Insertion

/-- An update leaves the live records alone, or gives other data, which is valid, to one. -/
theorem updateRecord_effect (t : Table) (record : Record) :
    (t.updateRecord record).2.schema = t.schema ∧ (t.updateRecord record).2.index = t.index ∧
    ((t.updateRecord record).2.liveRecords = t.liveRecords ∨
      (record.validate t.schema = .OK ∧ ∃ left r right, r.id = record.id ∧
        t.liveRecords = left ++ r :: right ∧
        (t.updateRecord record).2.liveRecords =
          left ++ { r with data := record.data } :: right)) := by
  by_cases hvalid : record.validate t.schema = .OK
  · rw [updateRecord_eq_locate hvalid]
    cases hlocate : t.locate record.id with
    | none => exact ⟨rfl, rfl, Or.inl rfl⟩
    | some found =>
      obtain ⟨left, right, hbefore, hafter⟩ := liveRecords_update hlocate record.data
      exact ⟨rfl, rfl, Or.inr ⟨hvalid, left, found.2.2, right, id_of_locate hlocate, hbefore,
        hafter⟩⟩
  · rw [updateRecord_of_invalid hvalid]
    exact ⟨rfl, rfl, Or.inl rfl⟩

/-- A deletion leaves the live records and the index alone, or removes one from both. -/
theorem deleteRecord_effect (t : Table) (id : RecordID) :
    (t.deleteRecord id).2.schema = t.schema ∧
    (((t.deleteRecord id).2.liveRecords = t.liveRecords ∧
        (t.deleteRecord id).2.index = t.index) ∨
      ∃ left r right, r.id = id ∧ t.liveRecords = left ++ r :: right ∧
        (t.deleteRecord id).2.liveRecords = left ++ right ∧
        (t.deleteRecord id).2.index = t.index.erase id) := by
  rw [deleteRecord_eq_locate]
  cases hlocate : t.locate id with
  | none => exact ⟨rfl, Or.inl ⟨rfl, rfl⟩⟩
  | some found =>
    obtain ⟨left, right, hbefore, hafter⟩ := liveRecords_delete hlocate
    exact ⟨rfl, Or.inr ⟨left, found.2.2, right, id_of_locate hlocate, hbefore, hafter, rfl⟩⟩

end Table

end MiniDB.Core
