import MiniDB.Core.PointerLoads

/-!
# Lifetimes of tables

The tables of a program are constructed, moved, called and destroyed in any order, and their pages
live in one memory. What is seen of them is what is seen of tables that have their pages as
values. Every page is held by one table, except for those that loads have lost.
-/

namespace MiniDB.Core

open MiniDB.Common MiniDB.JsonPro Memory Refinement

/-- The tables of a program. -/
structure TableProgram (ι : Type) where
  /-- The memory of all their pages; it is passed to the table that is used. -/
  heap : Heap Page
  /-- The tables that are constructed and not yet destroyed. -/
  tables : ι → Option TableObject

/-- What happens to the tables of a program. A move says what it leaves behind. -/
inductive TableEvent (ι : Type)
  | construct (i : ι) (name : String) (id : TableID) (schema : List ColumnDef)
  | moveConstruct (i j : ι) (left : Remains)
  | moveAssign (i j : ι) (left : Remains)
  | destroy (i : ι)
  | call (i : ι) (call : StoreCall)
  | toJson (i : ι)

/-- What is seen of an event. -/
inductive TableOutcome
  | done
  | responded (response : StoreResponse)
  | document (envelope : Json)

namespace TableProgram

variable {ι : Type}

/-- The program before the first table. -/
def start : TableProgram ι := ⟨Heap.empty, fun _ => none⟩

/-- A table, with the memory as it is now. -/
def table? (p : TableProgram ι) (i : ι) : Option TableObject :=
  (p.tables i).map fun t => { t with heap := p.heap }

/-- The pages that a table holds, if it exists. -/
def pagesOf (t : Option TableObject) : List Address := (t.map TableObject.pages).getD []

/-- The pages that a table of the program holds. -/
def held (p : TableProgram ι) (i : ι) : List Address := pagesOf (p.tables i)

variable [DecidableEq ι]

/-- The program with what has become of a table and of the memory. -/
def set (p : TableProgram ι) (i : ι) (t : Option TableObject) (heap : Heap Page) :
    TableProgram ι :=
  ⟨heap, Function.update p.tables i t⟩

/-- The program after a table was used. -/
def put (p : TableProgram ι) (i : ι) (t : TableObject) : TableProgram ι := p.set i (some t) t.heap

variable [JsonText] [InsertPolicy]

/-- One event. Using a table that does not exist is undefined, and so is constructing one that
does. -/
def step (p : TableProgram ι) : TableEvent ι → Except Fault (TableOutcome × TableProgram ι)
  | .construct i name id schema =>
    match p.table? i with
    | some _ => .error .undefined
    | none => .ok (.done, p.put i (TableObject.new name id schema p.heap))
  | .moveConstruct i j left =>
    match p.table? i, p.table? j with
    | none, some other =>
      let (t, other) := other.moveConstruct left
      .ok (.done, (p.put j other).put i t)
    | _, _ => .error .undefined
  | .moveAssign i j left =>
    match p.table? i, p.table? j with
    | some t, some other =>
      if i = j then .ok (.done, p)
      else
        match TableObject.moveAssign other left t with
        | .ok other t => .ok (.done, (p.put j other).put i t)
        | .error fault _ => .error fault
    | _, _ => .error .undefined
  | .destroy i =>
    match p.table? i with
    | none => .error .undefined
    | some t =>
      match TableObject.destroy t with
      | .ok _ t => .ok (.done, p.set i none t.heap)
      | .error fault _ => .error fault
  | .call i call =>
    match p.table? i with
    | none => .error .undefined
    | some t =>
      match t.storeCall call with
      | .ok (response, t) => .ok (.responded response, p.put i t)
      | .error fault => .error fault
  | .toJson i =>
    match p.table? i with
    | none => .error .undefined
    | some t =>
      match t.toJson with
      | .ok envelope => .ok (.document envelope, p)
      | .error fault => .error fault

end TableProgram

/-- Tables with their pages as values, and the number of pages lost so far. -/
structure TableValues (ι : Type) where
  /-- The tables that exist. -/
  tables : ι → Option Table
  /-- The number of pages that no table holds. -/
  lost : ℕ

/-- A table that was moved from. -/
def Table.movedFrom (left : Remains) : Table :=
  { Table.new left.name DBConstants.INVALID_TABLE_ID left.schema with index := left.index }

namespace TableValues

variable {ι : Type}

/-- No tables. -/
def start : TableValues ι := ⟨fun _ => none, 0⟩

variable [DecidableEq ι]

/-- The tables with what has become of one. -/
def set (values : TableValues ι) (i : ι) (v : Option Table) (lost : ℕ) : TableValues ι :=
  ⟨Function.update values.tables i v, values.lost + lost⟩

variable [JsonText] [InsertPolicy]

/-- One event. A move hands a value over; a table that is destroyed is gone. -/
def step (values : TableValues ι) :
    TableEvent ι → Except Fault (TableOutcome × TableValues ι)
  | .construct i name id schema =>
    match values.tables i with
    | some _ => .error .undefined
    | none => .ok (.done, values.set i (some (Table.new name id schema)) 0)
  | .moveConstruct i j left =>
    match values.tables i, values.tables j with
    | none, some other =>
      .ok (.done, (values.set j (some (Table.movedFrom left)) 0).set i (some other) 0)
    | _, _ => .error .undefined
  | .moveAssign i j left =>
    match values.tables i, values.tables j with
    | some _, some other =>
      .ok (.done, if i = j then values
        else (values.set j (some (Table.movedFrom left)) 0).set i (some other) 0)
    | _, _ => .error .undefined
  | .destroy i =>
    match values.tables i with
    | none => .error .undefined
    | some _ => .ok (.done, values.set i none 0)
  | .call i call =>
    match values.tables i with
    | none => .error .undefined
    | some v =>
      match v.storeCall call with
      | .ok (response, v') => .ok (.responded response, values.set i (some v') (v.lost call))
      | .error fault => .error fault
  | .toJson i =>
    match values.tables i with
    | none => .error .undefined
    | some v => .ok (.document v.toJson, values)

end TableValues

namespace TableProgram

variable {ι : Type}

/-- A table and its value, or neither. -/
def ShowsValue : Option TableObject → Option Table → Prop
  | none, none => True
  | some t, some v => t.Shows v
  | _, _ => False

/-- Who holds the pages: the tables, and nobody. -/
def holders (p : TableProgram ι) (leaked : List Address) (holder : Option ι) : List Address :=
  holder.elim leaked p.held

/-- A program shows the values, and every page is held once, but for the lost ones. -/
structure Shows (p : TableProgram ι) (values : TableValues ι) : Prop where
  /-- The tables show their values. -/
  tables : ∀ i, ShowsValue (p.table? i) (values.tables i)
  /-- A living page belongs to one table, or it is one of the lost ones. -/
  owned : ∃ leaked : List Address, leaked.length = values.lost ∧
    p.heap.Apportioned (p.holders leaked)

variable {p : TableProgram ι} {values : TableValues ι} {i j : ι} {t other : TableObject}

/-- A table that exists is used with the memory of the program. -/
theorem table?_eq_some (h : p.table? i = some t) : p.held i = t.pages ∧ t.heap = p.heap := by
  obtain ⟨stored, hstored, rfl⟩ := Option.map_eq_some_iff.mp h
  unfold held
  rw [hstored]
  exact ⟨rfl, rfl⟩

/-- A table that does not exist holds nothing. -/
theorem held_eq_nil (h : p.table? i = none) : p.held i = [] := by
  unfold held
  rw [Option.map_eq_none_iff.mp h]
  rfl

/-- A table and its value exist together. -/
theorem Shows.exists_iff (h : p.Shows values) (i : ι) :
    p.table? i = none ∧ values.tables i = none ∨
      ∃ t v, p.table? i = some t ∧ values.tables i = some v ∧ t.Shows v := by
  have hi := h.tables i
  cases ht : p.table? i with
  | none =>
    cases hv : values.tables i with
    | none => exact Or.inl ⟨rfl, rfl⟩
    | some v =>
      rw [ht, hv] at hi
      exact hi.elim
  | some t =>
    cases hv : values.tables i with
    | none =>
      rw [ht, hv] at hi
      exact hi.elim
    | some v =>
      rw [ht, hv] at hi
      exact Or.inr ⟨t, v, rfl, rfl, hi⟩

/-- A table without pages. -/
theorem shows_new (name : String) (id : TableID) (schema : List ColumnDef) (heap : Heap Page) :
    (TableObject.new name id schema heap).Shows (Table.new name id schema) :=
  ⟨rfl, List.nodup_nil, rfl, TableObject.Mapped.empty _⟩

/-- A table that was moved from. -/
theorem shows_movedFrom (t : TableObject) (left : Remains) (heap : Heap Page) :
    (({ t with heap } : TableObject).movedFrom left).Shows (Table.movedFrom left) :=
  (shows_new left.name _ left.schema heap).change left.index false

variable [DecidableEq ι]

/-- Who holds the pages after a table has changed. -/
theorem holders_set (p : TableProgram ι) (i : ι) (t : Option TableObject) (heap : Heap Page)
    (leaked : List Address) :
    (p.set i t heap).holders leaked = Function.update (p.holders leaked) (some i) (pagesOf t) := by
  funext holder
  cases holder with
  | none => rfl
  | some k =>
    change pagesOf (Function.update p.tables i t k) = _
    rw [Function.update_apply, Function.update_apply]
    by_cases hk : k = i
    · rw [if_pos hk, if_pos (congrArg some hk)]
    · rw [if_neg hk, if_neg (fun heq => hk (Option.some.inj heq))]
      rfl

/-- The tables after one has changed. -/
theorem table?_set (p : TableProgram ι) (i : ι) (t : Option TableObject) (heap : Heap Page)
    (k : ι) :
    (p.set i t heap).table? k =
      (if k = i then t else p.tables k).map fun t => { t with heap } := by
  unfold table? set
  dsimp only
  rw [Function.update_apply]

/-- What a table was before it is replaced does not matter. -/
theorem put_put_set (hne : i ≠ j) (rest t : TableObject) (old : Option TableObject)
    (heap : Heap Page) : ((p.set i old heap).put j rest).put i t = (p.put j rest).put i t := by
  unfold put set
  dsimp only
  rw [Function.update_comm hne, Function.update_idem]

/-- What a value was before it is replaced does not matter. -/
theorem set_set_set (hne : i ≠ j) (rest v old : Option Table) :
    ((values.set i old 0).set j rest 0).set i v 0 = (values.set j rest 0).set i v 0 := by
  unfold TableValues.set
  dsimp only
  rw [Function.update_comm hne, Function.update_idem]

namespace Shows

/-- What has become of one table, with what it has done to the memory. -/
theorem set (h : p.Shows values) {t : Option TableObject} {v : Option Table} {heap : Heap Page}
    {lost : ℕ} (hshows : ShowsValue (t.map fun t => { t with heap }) v)
    (hexchange : ∃ leaked : List Address, leaked.length = lost ∧
      Heap.Exchange p.heap heap (p.held i) (pagesOf t ++ leaked)) :
    (p.set i t heap).Shows (values.set i v lost) := by
  obtain ⟨leaked, hlost, howned⟩ := h.owned
  obtain ⟨more, hmore, hexchange⟩ := hexchange
  have hexchange : Heap.Exchange p.heap heap (p.holders leaked (some i)) (pagesOf t ++ more) :=
    hexchange
  constructor
  · intro k
    rw [table?_set]
    unfold TableValues.set
    dsimp only
    rw [Function.update_apply]
    split
    · exact hshows
    · rename_i hne
      rcases h.exists_iff k with ⟨hnone, hnone'⟩ | ⟨shown, v', hsome, hsome', hk⟩
      · rw [hnone', Option.map_eq_none_iff.mp hnone]
        trivial
      · obtain ⟨stored, hstored, rfl⟩ := Option.map_eq_some_iff.mp hsome
        rw [hstored, hsome']
        refine @TableObject.Shows.of_heap _ _ hk heap fun page hheld => ?_
        refine howned.undisturbed hexchange (j := some k) (fun heq => hne (Option.some.inj heq)) ?_
        change page ∈ p.held k
        rw [(table?_eq_some hsome).1]
        exact hheld
  · refine ⟨leaked ++ more, ?_, ?_⟩
    · rw [List.length_append, hlost, hmore]
      rfl
    · have hgiven := (howned.exchange hexchange).handOver (i := some i) (j := none)
        (Option.some_ne_none i) (Function.update_self _ _ _)
      rw [Function.update_idem, Function.update_of_ne (Option.some_ne_none i).symm] at hgiven
      have hholders : (p.set i t heap).holders (leaked ++ more) =
          Function.update (Function.update (p.holders leaked) (some i) (pagesOf t)) none
            (p.holders leaked none ++ more) := by
        rw [holders_set]
        funext holder
        cases holder with
        | none =>
          rw [Function.update_self, Function.update_of_ne (Option.some_ne_none i).symm]
          rfl
        | some k =>
          rw [Function.update_of_ne (Option.some_ne_none k), Function.update_apply,
            Function.update_apply]
          rfl
      rw [hholders]
      exact hgiven

/-- A table that holds nothing takes over the pages of another one. -/
theorem takeOver (h : p.Shows values) (hne : i ≠ j) (hempty : p.held i = []) {v : Table}
    (hother : p.table? j = some other) (hv : values.tables j = some v) (left : Remains)
    (heap : Heap Page) :
    ((p.put j (({ other with heap } : TableObject).movedFrom left)).put i other).Shows
      ((values.set j (some (Table.movedFrom left)) 0).set i (some v) 0) := by
  obtain ⟨leaked, hlost, howned⟩ := h.owned
  obtain ⟨hheld, hheap⟩ := table?_eq_some hother
  constructor
  · intro k
    unfold put TableValues.set
    rw [table?_set]
    dsimp only
    rw [Function.update_apply]
    split
    · have hj := h.tables j
      rw [hother, hv] at hj
      exact hj
    · change ShowsValue ((Function.update p.tables j _ k).map _) _
      rw [Function.update_apply, Function.update_apply]
      split
      · exact shows_movedFrom other left _
      · rw [hheap]
        exact h.tables k
  · refine ⟨leaked, hlost, ?_⟩
    have htaken := howned.takeOver (i := some i) (j := some j)
      (fun heq => hne (Option.some.inj heq)) hempty
    rw [Function.update_comm (fun heq => hne (Option.some.inj heq))] at htaken
    unfold put
    rw [holders_set, holders_set]
    change other.heap.Apportioned (Function.update (Function.update _ _ []) _ other.pages)
    rw [hheap, ← hheld]
    exact htaken

end Shows

variable [JsonText] [InsertPolicy]

/-- One event does the same to the program and to the values. -/
theorem step_lockstep (h : p.Shows values) (event : TableEvent ι) :
    Lockstep Shows (p.step event) (values.step event) := by
  unfold step TableValues.step
  cases event with
  | construct i name id schema =>
    dsimp only
    rcases h.exists_iff i with ⟨hnone, hnone'⟩ | ⟨t, v, hsome, hsome', _⟩
    · rw [hnone, hnone']
      refine ⟨rfl, h.set (t := some (TableObject.new name id schema p.heap)) ?_ ⟨[], rfl, ?_⟩⟩
      · exact shows_new name id schema p.heap
      · rw [held_eq_nil hnone]
        exact .refl List.nodup_nil fun _ hmem => absurd hmem List.not_mem_nil
    · rw [hsome, hsome']
      rfl
  | moveConstruct i j left =>
    dsimp only
    rcases h.exists_iff i with ⟨hnone, hnone'⟩ | ⟨t, v, hsome, hsome', _⟩
    · rcases h.exists_iff j with ⟨hother, hother'⟩ | ⟨other, v, hother, hother', _⟩
      · rw [hnone, hnone', hother, hother']
        rfl
      · have hne : i ≠ j := by
          rintro rfl
          cases hnone.symm.trans hother
        rw [hnone, hnone', hother, hother']
        exact ⟨rfl, h.takeOver hne (held_eq_nil hnone) hother hother' left other.heap⟩
    · rw [hsome, hsome']
      rfl
  | moveAssign i j left =>
    dsimp only
    rcases h.exists_iff i with ⟨hnone, hnone'⟩ | ⟨t, v, hsome, hsome', ht⟩
    · rw [hnone, hnone']
      rfl
    · rcases h.exists_iff j with ⟨hother, hother'⟩ | ⟨other, w, hother, hother', _⟩
      · rw [hsome, hsome', hother, hother']
        rfl
      · rw [hsome, hsome', hother, hother']
        dsimp only
        by_cases hsame : i = j
        · rw [if_pos hsame, if_pos hsame]
          exact ⟨rfl, h⟩
        · obtain ⟨heap, hdelete, hexchange⟩ := ht.deletePages
          have hassign : TableObject.moveAssign other left t =
              .ok (other.movedFrom left) { other with heap } := by
            unfold TableObject.moveAssign
            rw [get_bind, bind_of_ok hdelete]
            rfl
          rw [if_neg hsame, if_neg hsame, hassign]
          refine ⟨rfl, ?_⟩
          have hclosed : (p.set i (some (t.movedFrom left)) heap).Shows
              (values.set i (some (Table.movedFrom left)) 0) := by
            obtain ⟨hheld, hheap⟩ := table?_eq_some hsome
            refine h.set (shows_movedFrom t left heap) ⟨[], rfl, ?_⟩
            rw [hheld, ← hheap]
            exact hexchange
          have hempty : (p.set i (some (t.movedFrom left)) heap).held i = [] := by
            change pagesOf (Function.update p.tables i _ i) = []
            rw [Function.update_self]
            rfl
          have hother₁ : (p.set i (some (t.movedFrom left)) heap).table? j =
              some { other with heap } := by
            obtain ⟨stored, hstored, rfl⟩ := Option.map_eq_some_iff.mp hother
            rw [table?_set, if_neg (Ne.symm hsame), hstored]
            rfl
          have hvalue₁ : (values.set i (some (Table.movedFrom left)) 0).tables j = some w := by
            change Function.update values.tables i _ j = _
            rw [Function.update_of_ne (Ne.symm hsame), hother']
          have htaken := hclosed.takeOver hsame hempty hother₁ hvalue₁ left other.heap
          rw [put_put_set hsame, set_set_set hsame] at htaken
          exact htaken
  | destroy i =>
    dsimp only
    rcases h.exists_iff i with ⟨hnone, hnone'⟩ | ⟨t, v, hsome, hsome', ht⟩
    · rw [hnone, hnone']
      rfl
    · rw [hsome, hsome']
      obtain ⟨hheld, hheap⟩ := table?_eq_some hsome
      obtain ⟨heap, hdelete, hexchange⟩ := ht.deletePages
      have hdestroy : TableObject.destroy t = .ok () { t with heap } := by
        unfold TableObject.destroy
        rw [get_bind, hdelete]
      dsimp only
      rw [hdestroy]
      refine ⟨rfl, h.set (t := none) trivial ⟨[], rfl, ?_⟩⟩
      rw [hheld, ← hheap]
      exact hexchange
  | call i call =>
    dsimp only
    rcases h.exists_iff i with ⟨hnone, hnone'⟩ | ⟨t, v, hsome, hsome', ht⟩
    · rw [hnone, hnone']
      rfl
    · rw [hsome, hsome']
      obtain ⟨hheld, hheap⟩ := table?_eq_some hsome
      have hcall := ht.storeCall call
      dsimp only
      cases hobject : t.storeCall call with
      | error fault =>
        cases hvalue : v.storeCall call with
        | error fault' =>
          rw [hobject, hvalue] at hcall
          exact hcall
        | ok result =>
          rw [hobject, hvalue] at hcall
          exact hcall.elim
      | ok result =>
        cases hvalue : v.storeCall call with
        | error fault' =>
          rw [hobject, hvalue] at hcall
          exact hcall.elim
        | ok result' =>
          rw [hobject, hvalue] at hcall
          obtain ⟨hresponse, hbecomes⟩ := hcall
          refine ⟨congrArg TableOutcome.responded hresponse,
            h.set (t := some result.2) hbecomes.shows ?_⟩
          rw [hheld, ← hheap]
          exact hbecomes.exchange
  | toJson i =>
    dsimp only
    rcases h.exists_iff i with ⟨hnone, hnone'⟩ | ⟨t, v, hsome, hsome', ht⟩
    · rw [hnone, hnone']
      rfl
    · rw [hsome, hsome']
      dsimp only
      rw [ht.toJson]
      exact ⟨rfl, h⟩

omit [DecidableEq ι] [JsonText] [InsertPolicy] in
/-- Before the first table there is no page. -/
theorem shows_start : (start : TableProgram ι).Shows TableValues.start where
  tables _ := trivial
  owned := by
    have hnone : ∀ holder, (start : TableProgram ι).holders [] holder = [] := by
      intro holder
      cases holder with
      | none => rfl
      | some i => rfl
    refine ⟨[], rfl, fun holder => ?_, fun {holder _ page} hmem => ?_, fun page => ⟨?_, ?_⟩⟩
    · rw [hnone]
      exact List.nodup_nil
    · rw [hnone] at hmem
      exact absurd hmem List.not_mem_nil
    · intro halive
      exact absurd rfl halive
    · rintro ⟨holder, hmem⟩
      rw [hnone] at hmem
      exact absurd hmem List.not_mem_nil

/-- Whatever happens to the tables of a program, it is answered as if they had their pages as
values, up to the first event that is undefined for both. No pointer dangles, every page is held by
one table, and the pages that no table holds are as many as loads in which the decoding of a page
threw. -/
theorem pages_behind_pointers (events : List (TableEvent ι)) :
    Lockstep Shows (run step start events) (run TableValues.step TableValues.start events) :=
  run_lockstep step_lockstep shows_start events

end TableProgram

end MiniDB.Core
