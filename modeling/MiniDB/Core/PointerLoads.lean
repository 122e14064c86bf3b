import MiniDB.Core.PagePointers
import MiniDB.Library.Refinement

/-!
# Loads into pages behind pointers

Decoding creates every page before it decodes it. One whose decoding fails is deleted, one whose
decoding throws is lost; all else is as with pages that are values.
-/

namespace MiniDB.Core

open MiniDB.Common MiniDB.JsonPro Memory

namespace TableObject

/-- A stateless computation in front. -/
theorem Ends.lift_bind {α β : Type} {t : TableObject} {v : Table} (h : t.Shows v)
    {action : Except Fault α} {next : α → EStateM Fault TableObject β}
    {next' : α → EStateM Fault Table β}
    (hnext : ∀ value, action = .ok value → t.Ends 0 (next value t) (next' value v)) :
    t.Ends 0 (((liftM action : EStateM Fault TableObject α) >>= next) t)
      (((liftM action : EStateM Fault Table α) >>= next') v) := by
  cases action with
  | error fault => exact ⟨rfl, h.becomes⟩
  | ok value => exact hnext value rfl

namespace Shows

variable {t : TableObject} {v : Table}

/-- The loop of `fromJson` over the columns reads the same schema. -/
theorem loadColumns (h : t.Shows v) (cols : List Json) :
    t.Ends 0 (TableObject.loadColumns cols t) (Table.loadColumns cols v) := by
  induction cols generalizing t v with
  | nil => exact ⟨rfl, h.becomes⟩
  | cons col cols ih =>
    unfold TableObject.loadColumns Table.loadColumns
    refine .lift_bind h fun nameJson _ => .lift_bind h fun name _ => .lift_bind h fun typeJson _ =>
      .lift_bind h fun number _ => .lift_bind h fun type _ => .lift_bind h fun nullableJson _ =>
      .lift_bind h fun nullable _ => ?_
    rw [modify_bind, modify_bind]
    have hshows := h.addColumn ⟨name, ColumnType.ofInt type.val type.property, nullable⟩
    exact .after (.of_fields hshows rfl rfl) (ih hshows)

end Shows

end TableObject

namespace Table

/-- `fromJson` up to its loop over the pages. -/
def loadHeader (envelope : Json) : EStateM Fault Table (List Json) := do
  let id ← (← (← envelope.index "__table_id___").asNumber).toUInt32
  modify fun t => { t with id }
  let name ← (← envelope.index "__name__").asString
  modify fun t => { t with name, schema := [] }
  loadColumns (← (← envelope.index "schema").asArray)
  (← envelope.index "page").asArray

/-- The number of pages that the loop of `fromJson` loses: one, if the decoding of a page throws and
that of no page in front of it fails. -/
def lostPages : List Json → ℕ
  | [] => 0
  | pageJson :: pageJsons =>
    match Page.fromJson pageJson (Page.new DBConstants.INVALID_PAGE_ID) with
    | .ok .OK _ => lostPages pageJsons
    | .ok _ _ => 0
    | .error _ _ => 1

/-- The number of pages that `fromJson` loses. -/
def lostBy (v : Table) (envelope : Json) : ℕ :=
  if envelope.isNull then 0
  else
    match loadHeader envelope v with
    | .ok pageJsons _ => lostPages pageJsons
    | .error _ _ => 0

/-- `fromJson` in two parts. -/
theorem fromJson_eq [InsertPolicy] (envelope : Json) :
    fromJson envelope = if envelope.isNull then return .PARSE_ERROR
      else loadHeader envelope >>= loadPages 0 := by
  unfold fromJson loadHeader
  simp only [bind_assoc]

end Table

namespace TableObject

/-- `fromJson` up to its loop over the pages. -/
def loadHeader (envelope : Json) : EStateM Fault TableObject (List Json) := do
  let id ← (← (← envelope.index "__table_id___").asNumber).toUInt32
  modify fun t => { t with id }
  let name ← (← envelope.index "__name__").asString
  modify fun t => { t with name, schema := [] }
  loadColumns (← (← envelope.index "schema").asArray)
  (← envelope.index "page").asArray

/-- `fromJson` in two parts. -/
theorem fromJson_eq [InsertPolicy] (envelope : Json) :
    fromJson envelope = if envelope.isNull then return .PARSE_ERROR
      else loadHeader envelope >>= loadPages 0 := by
  unfold fromJson loadHeader
  simp only [bind_assoc]

/-- What is done behind a computation that loses nothing. -/
theorem Ends.bind {α β : Type} {t : TableObject} {v : Table} {lost : ℕ}
    {action : EStateM Fault TableObject α} {action' : EStateM Fault Table α}
    {next : α → EStateM Fault TableObject β} {next' : α → EStateM Fault Table β}
    (h : t.Ends 0 (action t) (action' v))
    (hnext : ∀ value (t' : TableObject) v', action' v = .ok value v' → t'.Shows v' →
      t'.Ends lost (next value t') (next' value v'))
    (hfault : ∀ fault v', action' v = .error fault v' → lost = 0) :
    t.Ends lost ((action >>= next) t) ((action' >>= next') v) := by
  cases haction : action t with
  | ok value t' =>
    cases haction' : action' v with
    | ok value' v' =>
      rw [haction, haction'] at h
      obtain ⟨rfl, hbecomes⟩ := h
      rw [bind_of_ok haction, bind_of_ok haction']
      exact .after hbecomes (hnext value t' v' haction' hbecomes.shows)
    | error fault v' =>
      rw [haction, haction'] at h
      exact h.elim
  | error fault t' =>
    cases haction' : action' v with
    | ok value v' =>
      rw [haction, haction'] at h
      exact h.elim
    | error fault' v' =>
      rw [haction, haction'] at h
      rw [bind_of_error haction, bind_of_error haction', hfault fault' v' haction']
      exact h

/-- A call on a new page. -/
theorem onPage_new {α : Type} (t : TableObject) (p : Page) (action : EStateM Fault Page α) :
    onPage t.heap.next action { t with heap := t.heap.alloc p } =
      match action p with
      | .ok value p' => .ok value { t with heap := t.heap.alloc p' }
      | .error fault p' => .error fault { t with heap := t.heap.alloc p' } := by
  unfold onPage
  rw [Heap.read_eq_ok.mpr (Heap.get?_alloc_self t.heap p)]
  dsimp only
  cases action p with
  | ok value p' =>
    dsimp only
    rw [Heap.write_alloc]
  | error fault p' =>
    dsimp only
    rw [Heap.write_alloc]

namespace Shows

variable {t : TableObject} {v : Table}

/-- The first part of `fromJson` reads the same fields. -/
theorem loadHeader (h : t.Shows v) (envelope : Json) :
    t.Ends 0 (TableObject.loadHeader envelope t) (Table.loadHeader envelope v) := by
  unfold TableObject.loadHeader Table.loadHeader
  refine .lift_bind h fun idJson _ => .lift_bind h fun number _ => .lift_bind h fun id _ => ?_
  rw [modify_bind, modify_bind]
  have hid : Shows { t with id } { v with id } :=
    ⟨congrArg (fun v : Table => { v with id := id }) h.value, h.nodup, h.pages, h.mapped⟩
  refine .after (.of_fields hid rfl rfl) ?_
  refine .lift_bind hid fun nameJson _ => .lift_bind hid fun name _ => ?_
  rw [modify_bind, modify_bind]
  have hname : Shows { t with id, name, schema := [] } { v with id, name, schema := [] } :=
    ⟨congrArg (fun v : Table => { v with id := id, name := name, schema := [] }) h.value, h.nodup,
      h.pages, h.mapped⟩
  refine .after (.of_fields hname rfl rfl) ?_
  refine .lift_bind hname fun schemaJson _ => .lift_bind hname fun cols _ => ?_
  refine .bind (hname.loadColumns cols) (fun _ t' v' _ h' => ?_) fun _ _ _ => rfl
  refine .lift_bind h' fun pageJson _ => ?_
  cases pageJson.asArray with
  | error fault => exact ⟨rfl, h'.becomes⟩
  | ok pageJsons => exact ⟨rfl, h'.becomes⟩

/-- The loop of `fromJson` over the pages decodes the same pages, and loses one whose decoding
throws. -/
theorem loadPages [InsertPolicy] (h : t.Shows v) (maxPageId : PageID) (pageJsons : List Json) :
    t.Ends (Table.lostPages pageJsons) (TableObject.loadPages maxPageId pageJsons t)
      (Table.loadPages maxPageId pageJsons v) := by
  induction pageJsons generalizing t v maxPageId with
  | nil =>
    unfold TableObject.loadPages Table.loadPages
    rw [modify_bind, modify_bind]
    have hempty : t.pages.isEmpty = v.pages.isEmpty := by
      have hsame := congrArg List.isEmpty h.pages
      rwa [List.isEmpty_map, List.isEmpty_map] at hsame
    rw [hempty]
    have hcounter : Shows { t with nextPageId := if v.pages.isEmpty then 0 else maxPageId + 1 }
        { v with nextPageId := if v.pages.isEmpty then 0 else maxPageId + 1 } :=
      ⟨congrArg (fun w : Table => { w with
        nextPageId := if v.pages.isEmpty then 0 else maxPageId + 1 }) h.value, h.nodup, h.pages,
          h.mapped⟩
    exact .after (.of_fields hcounter rfl rfl) hcounter.rebuildIndex
  | cons pageJson pageJsons ih =>
    unfold TableObject.loadPages Table.loadPages Table.lostPages
    rw [get_bind, modify_bind]
    have hpage := t.onPage_new (Page.new DBConstants.INVALID_PAGE_ID) (Page.fromJson pageJson)
    cases hdecoded : Page.fromJson pageJson (Page.new DBConstants.INVALID_PAGE_ID) with
    | error fault p =>
      -- the new page stays behind
      rw [hdecoded] at hpage
      rw [bind_of_error hpage]
      exact ⟨rfl, h.of_heap (h.get?_alloc p), [t.heap.next], rfl, .alloc h.nodup h.alive p⟩
    | ok s p =>
      rw [hdecoded] at hpage
      rw [bind_of_ok hpage]
      cases s with
      | OK =>
        rw [if_neg (fun hne => hne rfl), get_bind,
          lift_bind_of_ok (Heap.read_eq_ok.mpr (Heap.get?_alloc_self t.heap p)), modify_bind]
        have hpush := h.push p
        exact .after (.of_exchange hpush (.alloc h.nodup h.alive p)) (ih hpush _)
      | _ =>
        obtain ⟨heap, hfree, hget⟩ := Heap.free_alloc t.heap p
        have hdelete : deletePage t.heap.next { t with heap := t.heap.alloc p } =
            .ok () { t with heap } := by
          unfold deletePage
          rw [hfree]
        have hshows := h.of_heap fun page _ => hget page
        rw [if_pos (by decide), bind_of_ok hdelete]
        exact ⟨rfl, .of_exchange hshows (.inPlace h.nodup hshows.alive fun page _ => hget page)⟩

/-- `fromJson` decodes the same table. -/
theorem fromJson [InsertPolicy] (h : t.Shows v) (envelope : Json) :
    t.Ends (v.lostBy envelope) (TableObject.fromJson envelope t) (Table.fromJson envelope v) := by
  rw [TableObject.fromJson_eq, Table.fromJson_eq]
  unfold Table.lostBy
  by_cases hnull : envelope.isNull = true
  · rw [if_pos hnull, if_pos hnull, if_pos hnull]
    exact ⟨rfl, h.becomes⟩
  · rw [if_neg hnull, if_neg hnull, if_neg hnull]
    refine .bind (h.loadHeader envelope) (fun pageJsons t' v' hheader h' => ?_)
      fun fault v' hheader => ?_
    · rw [hheader]
      exact h'.loadPages 0 pageJsons
    · rw [hheader]

end Shows

/-- Only the answer is put differently. -/
theorem Ends.map {α β : Type} {t : TableObject} {action : EStateM Fault TableObject α} {value : α}
    {v : Table} (h : t.Ends 0 (action t) (.ok value v)) (f : α → β) :
    t.Ends 0 ((action >>= fun value => pure (f value)) t) (.ok (f value) v) := by
  cases haction : action t with
  | ok value' t' =>
    rw [haction] at h
    obtain ⟨rfl, hbecomes⟩ := h
    rw [bind_of_ok haction]
    exact ⟨rfl, hbecomes⟩
  | error fault t' =>
    rw [haction] at h
    exact h.elim

/-- Exceptions are caught alike. -/
theorem Ends.catching {α : Type} {t : TableObject} {v : Table} {lost : ℕ}
    {action : EStateM Fault TableObject α} {action' : EStateM Fault Table α}
    (h : t.Ends lost (action t) (action' v)) (fallback : α) :
    t.Ends lost (Memory.catching fallback action t) (Memory.catching fallback action' v) := by
  unfold Memory.catching
  cases haction : action t with
  | ok value t' =>
    cases haction' : action' v with
    | ok value' v' =>
      rw [haction, haction'] at h
      exact h
    | error fault v' =>
      rw [haction, haction'] at h
      exact h.elim
  | error fault t' =>
    cases haction' : action' v with
    | ok value v' =>
      rw [haction, haction'] at h
      exact h.elim
    | error fault' v' =>
      rw [haction, haction'] at h
      obtain ⟨rfl, hbecomes⟩ := h
      cases fault with
      | exception => exact ⟨rfl, hbecomes⟩
      | undefined => exact ⟨rfl, hbecomes⟩

/-- Deleting living pages one after the other. -/
theorem deletePages_spec {t : TableObject} {pages : List Address} (hnodup : pages.Nodup)
    (halive : ∀ page ∈ pages, t.heap.get? page ≠ none) :
    ∃ heap, deletePages pages t = .ok () { t with heap } ∧
      ∀ other, heap.get? other = if other ∈ pages then none else t.heap.get? other := by
  induction pages generalizing t with
  | nil => exact ⟨t.heap, rfl, fun _ => (if_neg List.not_mem_nil).symm⟩
  | cons page pages ih =>
    obtain ⟨hfirst, hnodup'⟩ := List.nodup_cons.mp hnodup
    obtain ⟨heap, hfree, hexchange⟩ := Heap.Exchange.free (halive page List.mem_cons_self)
    have hkept : ∀ other ≠ page, heap.get? other = t.heap.get? other := fun other hne =>
      Heap.get?_of_free hfree hne
    obtain ⟨heap', hdelete, hget⟩ := @ih { t with heap } hnodup' (by
      intro other hother
      change heap.get? other ≠ none
      rw [hkept other (by
        rintro rfl
        exact hfirst hother)]
      exact halive other (List.mem_cons_of_mem page hother))
    refine ⟨heap', ?_, fun other => ?_⟩
    · have hpage : deletePage page t = .ok () { t with heap } := by
        unfold deletePage
        rw [hfree]
      rw [deletePages, bind_of_ok hpage]
      exact hdelete
    · rw [hget]
      by_cases hsame : other = page
      · subst hsame
        rw [if_neg hfirst, if_pos List.mem_cons_self]
        exact hexchange.freed other (List.mem_singleton_self other) List.not_mem_nil
      · rw [hkept other hsame]
        simp only [List.mem_cons, hsame, false_or]

end TableObject

/-- The number of pages that a call loses. -/
def Table.lost [JsonText] (v : Table) : StoreCall → ℕ
  | .table _ => 0
  | .fromJson envelope => v.lostBy envelope
  | .deserialize raw =>
    match JsonText.parse raw with
    | .ok envelope => v.lostBy envelope
    | .error _ => 0

namespace TableObject.Shows

open Refinement

variable {t : TableObject} {v : Table}

/-- Calls other than loads do the same. -/
theorem call [InsertPolicy] (h : t.Shows v) (c : TableCall) :
    ∃ response v', v.call c = .ok (response, v') ∧
      t.Ends 0 (TableObject.call c t) (.ok response v') := by
  cases c with
  | insertRecord record => exact ⟨_, _, rfl, (h.insertRecord record).map _⟩
  | updateRecord record => exact ⟨_, _, rfl, (h.updateRecord record).map _⟩
  | deleteRecord id => exact ⟨_, _, rfl, (h.deleteRecord id).map _⟩
  | getRecord id out =>
    have hcall : TableObject.call (.getRecord id out) t =
        .ok (.record (v.getRecord id out).1 (v.getRecord id out).2) t :=
      lift_bind_of_ok (h.getRecord id out) _ _
    refine ⟨_, v, rfl, ?_⟩
    rw [hcall]
    exact ⟨rfl, h.becomes⟩
  | compact => exact ⟨_, _, rfl, h.compact.map _⟩
  | rebuildIndex => exact ⟨_, _, rfl, h.rebuildIndex.map _⟩

/-- What a decoding reports is the same. -/
theorem loadResponse {result : EStateM.Result Fault TableObject Status}
    {expected : EStateM.Result Fault Table Status} {lost : ℕ} (h : t.Ends lost result expected) :
    Lockstep (fun t' v' => t.Becomes t' v' lost) (TableObject.loadResponse result)
      (Table.loadResponse expected) := by
  cases result with
  | ok s t' =>
    cases expected with
    | ok s' v' => exact ⟨congrArg StoreResponse.status h.1, h.2⟩
    | error fault v' => exact h.elim
  | error fault t' =>
    cases expected with
    | ok s v' => exact h.elim
    | error fault' v' =>
      obtain ⟨rfl, hbecomes⟩ := h
      cases fault with
      | exception => exact ⟨rfl, hbecomes⟩
      | undefined => rfl

/-- Every call does the same, and loses a page exactly if the decoding of a page throws. -/
theorem storeCall [JsonText] [InsertPolicy] (h : t.Shows v) (c : StoreCall) :
    Lockstep (fun t' v' => t.Becomes t' v' (v.lost c)) (t.storeCall c) (v.storeCall c) := by
  cases c with
  | table c =>
    obtain ⟨response, v', hcall, hends⟩ := h.call c
    unfold TableObject.storeCall Table.storeCall
    dsimp only
    rw [hcall]
    cases hobject : TableObject.call c t with
    | ok response' t' =>
      rw [hobject] at hends
      exact ⟨congrArg StoreResponse.table hends.1, hends.2⟩
    | error fault t' =>
      rw [hobject] at hends
      exact hends.elim
  | fromJson envelope => exact loadResponse (h.fromJson envelope)
  | deserialize raw =>
    refine loadResponse (.catching ?_ _)
    unfold Table.lost
    dsimp only
    rw [lift_bind, lift_bind]
    cases JsonText.parse raw with
    | error fault => exact ⟨rfl, h.becomes⟩
    | ok envelope =>
      dsimp only
      by_cases hnull : envelope.isNull = true
      · rw [if_pos hnull, if_pos hnull, Table.lostBy, if_pos hnull]
        exact ⟨rfl, h.becomes⟩
      · rw [if_neg hnull, if_neg hnull]
        exact h.fromJson envelope

/-- The destructor deletes the pages. -/
theorem deletePages (h : t.Shows v) :
    ∃ heap, TableObject.deletePages t.pages t = .ok () { t with heap } ∧
      Heap.Exchange t.heap heap t.pages [] := by
  obtain ⟨heap, hdelete, hget⟩ := deletePages_spec h.nodup h.alive
  exact ⟨heap, hdelete, .release h.nodup (List.nil_sublist _)
    (fun _ hmem => absurd hmem List.not_mem_nil) fun page _ => hget page⟩

end TableObject.Shows

end MiniDB.Core
