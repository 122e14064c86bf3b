import MiniDB.Core.TableExchange

/-!
# Lifetimes of databases

The databases of a program are constructed, moved, called and destroyed in any order, and their
tables live in one memory. Each database deletes the tables that it holds, and hands them over
when it is moved: every living table is held by exactly one database.
-/

namespace MiniDB.Core

open MiniDB.Common MiniDB.JsonPro Memory Refinement

namespace Database

/-- `~Database()`. -/
def destroy : EStateM Fault Database Unit := do deleteTables (← get).tables

/-- What becomes of a database that is moved from; what is left of its name is not specified. -/
def movedFrom (other : Database) (left : String) : Database :=
  { other with
    name := left
    tables := []
    index := FiniteMap.empty
    tableIndex := FiniteMap.empty
    dirty := false
    nextTableId := 0 }

/-- `Database(Database&&)`: the new database, and what becomes of the other one. -/
def moveConstruct (other : Database) (left : String) : Database × Database :=
  (other, other.movedFrom left)

/-- `operator=(Database&&)` from another database, and what becomes of that one. -/
def moveAssign (other : Database) (left : String) : EStateM Fault Database Database := do
  deleteTables (← get).tables
  modify fun db => { other with heap := db.heap }
  return other.movedFrom left

end Database

/-- The databases of a program. -/
structure Program (ι : Type) where
  /-- The memory of all their tables; it is passed to the database that is used. -/
  heap : Heap Table
  /-- The databases that are constructed and not yet destroyed. -/
  databases : ι → Option Database

/-- What happens to the databases of a program. A move says what is left of the name. -/
inductive LifetimeEvent (ι : Type)
  | construct (i : ι) (name : String)
  | moveConstruct (i j : ι) (left : String)
  | moveAssign (i j : ι) (left : String)
  | destroy (i : ι)
  | call (i : ι) (call : SessionCall)

/-- The database that an event is about. -/
def LifetimeEvent.target {ι : Type} : LifetimeEvent ι → ι
  | .construct i _ | .moveConstruct i _ _ | .moveAssign i _ _ | .destroy i | .call i _ => i

namespace Program

variable {ι : Type}

/-- The program before the first database. -/
def start : Program ι := ⟨Heap.empty, fun _ => none⟩

/-- A database, with the memory as it is now. -/
def database? (p : Program ι) (i : ι) : Option Database :=
  (p.databases i).map fun db => { db with heap := p.heap }

/-- The tables that a database holds, if it exists. -/
def tablesOf (db : Option Database) : List Address := (db.map Database.tables).getD []

/-- The tables that a database of the program holds. -/
def held (p : Program ι) (i : ι) : List Address := tablesOf (p.databases i)

variable [DecidableEq ι]

/-- The program with what has become of a database and of the memory. -/
def set (p : Program ι) (i : ι) (db : Option Database) (heap : Heap Table) : Program ι :=
  ⟨heap, Function.update p.databases i db⟩

/-- The program after a database was used. -/
def put (p : Program ι) (i : ι) (db : Database) : Program ι := p.set i (some db) db.heap

variable [JsonText] [InsertPolicy]

/-- One event. Using a database that does not exist is undefined, and so is constructing one that
does. -/
def step (p : Program ι) :
    LifetimeEvent ι → Except Fault (Option DatabaseResponse × Program ι)
  | .construct i name =>
    match p.database? i with
    | some _ => .error .undefined
    | none => .ok (none, p.put i { Database.new name with heap := p.heap })
  | .moveConstruct i j left =>
    match p.database? i, p.database? j with
    | none, some other =>
      let (db, other) := other.moveConstruct left
      .ok (none, (p.put j other).put i db)
    | _, _ => .error .undefined
  | .moveAssign i j left =>
    match p.database? i, p.database? j with
    | some db, some other =>
      if i = j then .ok (none, p)
      else
        match Database.moveAssign other left db with
        | .ok other db => .ok (none, (p.put j other).put i db)
        | .error fault _ => .error fault
    | _, _ => .error .undefined
  | .destroy i =>
    match p.database? i with
    | none => .error .undefined
    | some db =>
      match Database.destroy db with
      | .ok _ db => .ok (none, p.set i none db.heap)
      | .error fault _ => .error fault
  | .call i call =>
    match p.database? i with
    | none => .error .undefined
    | some db =>
      match (Session.mk db db).call call with
      | .ok (response, s) => .ok (some response, p.put i s.db)
      | .error fault => .error fault

/-- A database is constructed once and used while it exists, and its calls settle. -/
def Orderly (p : Program ι) : LifetimeEvent ι → Prop
  | .construct i _ => p.database? i = none
  | .moveConstruct i j _ => p.database? i = none ∧ (p.database? j).isSome = true
  | .moveAssign i j _ => (p.database? i).isSome = true ∧ (p.database? j).isSome = true
  | .destroy i => (p.database? i).isSome = true
  | .call i call => ∃ db, p.database? i = some db ∧ db.SettlesCall call

omit [DecidableEq ι] [JsonText] [InsertPolicy] in
/-- Every living table is held once, by one database. -/
def Owned (p : Program ι) : Prop := p.heap.Apportioned p.held

omit [DecidableEq ι] [JsonText] [InsertPolicy] in
/-- The databases hold their tables. -/
def Sound (p : Program ι) : Prop := ∀ i db, p.database? i = some db → ∃ entries, db.Held entries

/-- An event leaves the tables of the other databases alone. -/
def LeavesOthers (p : Program ι) (event : LifetimeEvent ι) : Prop :=
  ∀ response p', p.step event = .ok (response, p') → ∀ j ≠ event.target, ∀ address ∈ p.held j,
    p'.heap.get? address = p.heap.get? address

section Steps

omit [JsonText] [InsertPolicy]

variable {p : Program ι} {i j : ι} {db other : Database}

omit [DecidableEq ι] in
/-- A database that exists is used with the memory of the program. -/
theorem database?_eq_some (h : p.database? i = some db) :
    p.held i = db.tables ∧ db.heap = p.heap := by
  obtain ⟨stored, hstored, rfl⟩ := Option.map_eq_some_iff.mp h
  unfold held
  rw [hstored]
  exact ⟨rfl, rfl⟩

omit [DecidableEq ι] in
/-- A database that does not exist holds nothing. -/
theorem held_eq_nil (h : p.database? i = none) : p.held i = [] := by
  unfold held
  rw [Option.map_eq_none_iff.mp h]
  rfl

/-- What the databases hold after one has changed. -/
theorem held_set (p : Program ι) (i : ι) (db : Option Database) (heap : Heap Table) :
    (p.set i db heap).held = Function.update p.held i (tablesOf db) :=
  Function.comp_update tablesOf p.databases i db

/-- The databases after one has changed. -/
theorem database?_set (p : Program ι) (i : ι) (db : Option Database) (heap : Heap Table) (k : ι) :
    (p.set i db heap).database? k =
      (if k = i then db else p.databases k).map fun db => { db with heap } := by
  unfold database? set
  dsimp only
  rw [Function.update_apply]

/-- An exchange of the tables of one database keeps every table held once, and the other
databases keep theirs. -/
theorem set_keeps (howned : p.Owned) (hsound : p.Sound) (db : Option Database) {heap : Heap Table}
    (hexchange : Heap.Exchange p.heap heap (p.held i) (tablesOf db))
    (hheld : ∀ db' ∈ db, ∃ entries, Database.Held { db' with heap } entries) :
    (p.set i db heap).Owned ∧ (p.set i db heap).Sound ∧
      ∀ k ≠ i, ∀ address ∈ p.held k, heap.get? address = p.heap.get? address := by
  have hothers : ∀ k ≠ i, ∀ address ∈ p.held k, heap.get? address = p.heap.get? address :=
    fun k hne address hmem => howned.undisturbed hexchange hne hmem
  refine ⟨?_, fun k db' hdb' => ?_, hothers⟩
  · unfold Owned
    rw [held_set]
    exact howned.exchange hexchange
  · rw [database?_set] at hdb'
    split at hdb'
    · obtain ⟨stored, hstored, rfl⟩ := Option.map_eq_some_iff.mp hdb'
      exact hheld stored hstored
    · rename_i hne
      obtain ⟨stored, hstored, rfl⟩ := Option.map_eq_some_iff.mp hdb'
      have hk : p.database? k = some { stored with heap := p.heap } := by
        unfold database?
        rw [hstored]
        rfl
      obtain ⟨entries, h⟩ := hsound k _ hk
      refine ⟨entries, @Database.Held.of_heap _ _ h heap fun address haddress => ?_⟩
      apply hothers k hne
      rw [(database?_eq_some hk).1]
      exact haddress

/-- A database that holds nothing takes over the tables of another one. -/
theorem takeOver_keeps (howned : p.Owned) (hsound : p.Sound) (hne : i ≠ j)
    (hempty : p.held i = []) (hother : p.database? j = some other) (rest : Database)
    (htables : rest.tables = []) (hindex : rest.tableIndex = FiniteMap.empty) :
    ((p.put j rest).put i other).Owned ∧ ((p.put j rest).put i other).Sound := by
  obtain ⟨hheld, hheap⟩ := database?_eq_some hother
  have howned' := howned.takeOver hne hempty
  rw [Function.update_comm hne, hheld] at howned'
  constructor
  · unfold Owned put
    rw [held_set, held_set]
    change other.heap.Apportioned (Function.update (Function.update _ j rest.tables) _ _)
    rw [hheap, htables]
    exact howned'
  · intro k db hdb
    unfold put at hdb
    rw [database?_set] at hdb
    split at hdb
    · cases hdb
      exact hsound j other hother
    · change (Function.update p.databases j _ k).map _ = _ at hdb
      rw [Function.update_apply] at hdb
      split at hdb
      · cases hdb
        exact ⟨[], Database.Held.of_nil htables hindex⟩
      · refine hsound k db ?_
        rw [hheap] at hdb
        exact hdb

/-- What a database was before it is replaced does not matter. -/
theorem put_put_set (hne : i ≠ j) (rest db : Database) (old : Option Database)
    (heap : Heap Table) : ((p.set i old heap).put j rest).put i db = (p.put j rest).put i db := by
  unfold put set
  dsimp only
  rw [Function.update_comm hne, Function.update_idem]

omit [DecidableEq ι] in
/-- Deleting all tables of a database leaves it holding none. -/
theorem exchange_deleteTables (hsound : p.Sound) (hdb : p.database? i = some db) :
    ∃ heap, Database.deleteTables db.tables db = .ok () { db with heap } ∧
      Heap.Exchange p.heap heap (p.held i) [] := by
  obtain ⟨entries, h⟩ := hsound i db hdb
  obtain ⟨hheld, hheap⟩ := database?_eq_some hdb
  obtain ⟨db', hdelete, hget⟩ := Database.deleteTables_of_alive h.owned.nodup h.owned.alive
  have hframe := @Database.Frame.deleteTables _ db.tables (fun _ hmem => hmem) db
  rw [hdelete] at hframe
  have hfields : db' = { db with heap := db'.heap } := hframe.fields
  refine ⟨db'.heap, hfields ▸ hdelete, ?_⟩
  rw [hheld, ← hheap]
  exact .release h.owned.nodup (List.nil_sublist _) (fun _ hmem => absurd hmem List.not_mem_nil)
    fun address _ => hget address

end Steps

/-- An orderly event completes, keeps every table held once, and leaves the tables of the other
databases alone. -/
theorem step_keeps {p : Program ι} {event : LifetimeEvent ι} (howned : p.Owned) (hsound : p.Sound)
    (horderly : p.Orderly event) :
    ∃ response p', p.step event = .ok (response, p') ∧ p'.Owned ∧ p'.Sound ∧
      ∀ k ≠ event.target, ∀ address ∈ p.held k, p'.heap.get? address = p.heap.get? address := by
  cases event with
  | construct i name =>
    have hnone : p.database? i = none := horderly
    have hexchange : Heap.Exchange p.heap p.heap (p.held i) [] := by
      rw [held_eq_nil hnone]
      exact .refl List.nodup_nil fun _ hmem => absurd hmem List.not_mem_nil
    refine ⟨none, p.put i { Database.new name with heap := p.heap }, ?_,
      set_keeps howned hsound _ hexchange ?_⟩
    · unfold step
      dsimp only
      rw [hnone]
    · rintro db ⟨⟩
      exact ⟨[], Database.Held.of_nil rfl rfl⟩
  | moveConstruct i j left =>
    obtain ⟨hnone, hsome⟩ := horderly
    obtain ⟨other, hother⟩ := Option.isSome_iff_exists.mp hsome
    have hne : i ≠ j := by
      rintro rfl
      cases hnone.symm.trans hother
    obtain ⟨howned', hsound'⟩ :=
      takeOver_keeps howned hsound hne (held_eq_nil hnone) hother (other.movedFrom left) rfl rfl
    refine ⟨none, (p.put j (other.movedFrom left)).put i other, ?_, howned', hsound',
      fun _ _ address _ => ?_⟩
    · unfold step
      dsimp only
      rw [hnone, hother]
      rfl
    · change other.heap.get? address = _
      rw [(database?_eq_some hother).2]
  | moveAssign i j left =>
    obtain ⟨hsome, hsome'⟩ := horderly
    obtain ⟨db, hdb⟩ := Option.isSome_iff_exists.mp hsome
    obtain ⟨other, hother⟩ := Option.isSome_iff_exists.mp hsome'
    unfold step
    dsimp only
    rw [hdb, hother]
    dsimp only
    by_cases hsame : i = j
    · rw [if_pos hsame]
      exact ⟨none, p, rfl, howned, hsound, fun _ _ _ _ => rfl⟩
    · obtain ⟨heap, hdelete, hexchange⟩ := exchange_deleteTables hsound hdb
      have hassign : Database.moveAssign other left db =
          .ok (other.movedFrom left) { other with heap } := by
        unfold Database.moveAssign
        rw [get_bind, bind_of_ok hdelete]
        rfl
      rw [if_neg hsame, hassign]
      obtain ⟨howned', hsound', hothers⟩ := set_keeps howned hsound (some (db.movedFrom left))
        hexchange (by
          rintro _ ⟨⟩
          exact ⟨[], Database.Held.of_nil rfl rfl⟩)
      have hempty : (p.set i (some (db.movedFrom left)) heap).held i = [] := by
        rw [held_set, Function.update_self]
        rfl
      have hother' : (p.set i (some (db.movedFrom left)) heap).database? j =
          some { other with heap } := by
        obtain ⟨stored, hstored, rfl⟩ := Option.map_eq_some_iff.mp hother
        rw [database?_set, if_neg (Ne.symm hsame), hstored]
        rfl
      have hkeeps := takeOver_keeps howned' hsound' hsame hempty hother' (other.movedFrom left)
        rfl rfl
      rw [put_put_set hsame] at hkeeps
      exact ⟨none, _, rfl, hkeeps.1, hkeeps.2, hothers⟩
  | destroy i =>
    obtain ⟨db, hdb⟩ := Option.isSome_iff_exists.mp horderly
    obtain ⟨heap, hdelete, hexchange⟩ := exchange_deleteTables hsound hdb
    refine ⟨none, p.set i none heap, ?_, set_keeps howned hsound _ hexchange ?_⟩
    · unfold step
      dsimp only
      rw [hdb]
      dsimp only
      unfold Database.destroy
      rw [get_bind, hdelete]
    · intro _ hnone
      cases hnone
  | call i call =>
    obtain ⟨db, hdb, hsettles⟩ := horderly
    obtain ⟨hheld, hheap⟩ := database?_eq_some hdb
    obtain ⟨entries, h⟩ := hsound i db hdb
    obtain ⟨response, s, hcall, hkeeps⟩ := h.keeps_call hsettles
    have hexchange : Heap.Exchange p.heap s.db.heap (p.held i) s.db.tables := by
      rw [hheld, ← hheap]
      exact hkeeps.exchange
    refine ⟨some response, p.put i s.db, ?_, set_keeps howned hsound _ hexchange ?_⟩
    · unfold step
      dsimp only
      rw [hdb]
      dsimp only
      rw [hcall]
    · rintro _ ⟨⟩
      exact hkeeps.held

/-- An event that is not orderly faults, or leaves a table that nothing holds or holds a table
that is deleted. -/
theorem step_breaks {p p' : Program ι} {event : LifetimeEvent ι}
    {response : Option DatabaseResponse} (howned : p.Owned) (hsound : p.Sound)
    (hnot : ¬p.Orderly event) (hstep : p.step event = .ok (response, p')) : ¬p'.Owned := by
  unfold step at hstep
  cases event with
  | construct i name =>
    dsimp only at hstep
    split at hstep
    · cases hstep
    · rename_i hnone
      exact absurd hnone hnot
  | moveConstruct i j left =>
    dsimp only at hstep
    split at hstep
    · rename_i other hnone hother
      exact absurd ⟨hnone, Option.isSome_iff_exists.mpr ⟨other, hother⟩⟩ hnot
    · cases hstep
  | moveAssign i j left =>
    dsimp only at hstep
    split at hstep
    · rename_i db other hdb hother
      exact absurd ⟨Option.isSome_iff_exists.mpr ⟨db, hdb⟩,
        Option.isSome_iff_exists.mpr ⟨other, hother⟩⟩ hnot
    · cases hstep
  | destroy i =>
    dsimp only at hstep
    split at hstep
    · cases hstep
    · rename_i db hdb
      exact absurd (Option.isSome_iff_exists.mpr ⟨db, hdb⟩) hnot
  | call i call =>
    dsimp only at hstep
    split at hstep
    · cases hstep
    · rename_i db hdb
      split at hstep
      · rename_i answer s hcall
        cases hstep
        obtain ⟨hheld, hheap⟩ := database?_eq_some hdb
        obtain ⟨entries, h⟩ := hsound i db hdb
        obtain ⟨htables, hlost⟩ := h.call_of_not_settles (fun hsettles =>
          hnot ⟨db, hdb, hsettles⟩) hcall
        have hsame : (p.put i s.db).held = p.held := by
          unfold put
          rw [held_set]
          change Function.update p.held i s.db.tables = p.held
          rw [htables, ← hheld, Function.update_eq_self]
        intro howned'
        unfold Owned at howned'
        rw [hsame] at howned'
        rcases hlost with ⟨address, haddress, hdead⟩ | ⟨address, hnew, halive⟩
        · rw [← hheld] at haddress
          exact howned'.alive_of_mem haddress hdead
        · obtain ⟨k, hk⟩ := (howned'.alive address).mp halive
          refine howned.alive_of_mem hk (p.heap.get?_eq_none address ?_)
          rw [← hheap]
          exact hnew
      · cases hstep

omit [DecidableEq ι] [JsonText] [InsertPolicy] in
/-- Before the first database there is no table. -/
theorem owned_start : (start : Program ι).Owned where
  nodup _ := List.nodup_nil
  apart hmem := absurd hmem List.not_mem_nil
  alive _ := ⟨fun halive => absurd rfl halive, fun ⟨_, hmem⟩ => absurd hmem List.not_mem_nil⟩

omit [DecidableEq ι] [JsonText] [InsertPolicy] in
/-- Before the first database none has to hold anything. -/
theorem sound_start : (start : Program ι).Sound := fun _ _ hdb => by cases hdb

/-- Whatever happens to the databases of a program, no event faults and every living table is
held once, by one database, in every state, exactly if databases are constructed once and used
while they exist, and no load throws with tables in its hands. Then an event leaves the tables of
the other databases alone, and no table is alive when no database is. -/
theorem tables_held_once (events : List (LifetimeEvent ι)) :
    ((∃ responses p, run step start events = .ok (responses, p)) ∧
      Throughout step Owned start events ↔ Along step Orderly start events) ∧
    (Along step Orderly start events → Along step LeavesOthers start events ∧
      Throughout step (fun p => (∀ i, p.database? i = none) →
        ∀ address, p.heap.get? address = none) start events) := by
  have hiff : (∃ responses p, run step start events = .ok (responses, p)) ∧
      Throughout step Owned start events ↔ Along step Orderly start events := by
    have hkeeps : ∀ {p : Program ι} {event}, p.Sound → p.Owned → p.Orderly event →
        ∃ response p', p.step event = .ok (response, p') ∧ p'.Sound ∧ p'.Owned := by
      intro p event hsound howned horderly
      obtain ⟨response, p', hstep, howned', hsound', _⟩ := step_keeps howned hsound horderly
      exact ⟨response, p', hstep, hsound', howned'⟩
    exact completes_throughout_iff_along hkeeps
      (fun hsound howned hnot hstep => step_breaks howned hsound hnot hstep) sound_start owned_start
  refine ⟨hiff, fun horderly => ⟨?_, ?_⟩⟩
  · have hinv : ∀ {p p' : Program ι} {event response}, p.Owned ∧ p.Sound → p.Orderly event →
        p.step event = .ok (response, p') → p'.Owned ∧ p'.Sound := by
      rintro p p' event response ⟨howned, hsound⟩ hallowed hstep
      obtain ⟨_, _, hsame, howned', hsound', _⟩ := step_keeps howned hsound hallowed
      cases hstep.symm.trans hsame
      exact ⟨howned', hsound'⟩
    refine Along.imp hinv ?_ ⟨owned_start, sound_start⟩ horderly
    rintro p event ⟨howned, hsound⟩ hallowed response p' hstep
    obtain ⟨_, _, hsame, _, _, hothers⟩ := step_keeps howned hsound hallowed
    cases hstep.symm.trans hsame
    exact hothers
  · refine (hiff.mpr horderly).2.imp fun howned hnone => ?_
    exact howned.none_alive fun i => held_eq_nil (hnone i)

end Program

end MiniDB.Core
