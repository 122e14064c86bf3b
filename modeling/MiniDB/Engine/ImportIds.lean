import MiniDB.Core.TableEffects
import MiniDB.Engine.ImportBoundary

/-!
# The identifiers an import assigns

An entry without a number under `id` is stored under its position in the array. Positions and
numbers under `id` share one space of identifiers, so that the position of an entry may be the
number of another.
-/

namespace MiniDB.Engine

open MiniDB.Common MiniDB.JsonPro MiniDB.Core Refinement

/-- The identifier of the entry at a position. -/
def assignedId (position : ℕ) (entry : Json) : RecordID :=
  match numberOf? "id" entry with
  | some value => UInt64.ofNat (value.integralPart.getD 0).toNat
  | none => UInt64.ofNat position

/-- The data of the record of an entry. -/
def storedData (entry : Json) : Json :=
  if (numberOf? "id" entry).isSome then withoutId entry else entry

/-- The records of entries from a position on. -/
def importedRecords (position : ℕ) (entries : List Json) : List Record :=
  entries.mapIdx fun i entry => Record.new (assignedId (position + i) entry) (storedData entry)

/-- The numbers under `id` are whole and below a bound. -/
def IdsBelow (bound : ℕ) (entries : List Json) : Prop :=
  ∀ entry ∈ entries, ∀ value, numberOf? "id" entry = some value →
    ∃ id : ℕ, id < bound ∧ value = .finite id

/-- A bound may be raised. -/
theorem IdsBelow.mono {bound larger : ℕ} {entries : List Json} (h : IdsBelow bound entries)
    (hle : bound ≤ larger) : IdsBelow larger entries := by
  intro entry hentry value hnumber
  obtain ⟨id, hid, hvalue⟩ := h entry hentry value hnumber
  exact ⟨id, hid.trans_le hle, hvalue⟩

/-- The numbers under `id` are small identifiers, and no two are equal. -/
structure DistinctIds (entries : List Json) : Prop where
  /-- They are identifiers below `2 ^ 31`. -/
  small : ∀ entry ∈ entries, ∀ value, numberOf? "id" entry = some value →
    ∃ id : ℕ, id < 2 ^ 31 ∧ value = .finite id
  /-- They are distinct. -/
  nodup : (entries.filterMap (numberOf? "id")).Nodup

/-- Identifiers of entries: numbers under `id` are kept, and the identifiers of other entries differ
from all others. -/
structure Identifies (ids : List RecordID) (entries : List Json) : Prop where
  /-- Every entry has an identifier. -/
  length : ids.length = entries.length
  /-- Numbers under `id` are kept. -/
  kept : ∀ (i : ℕ) (id : RecordID) entry value, ids[i]? = some id → entries[i]? = some entry →
    numberOf? "id" entry = some value → value = .finite id.toNat
  /-- Other identifiers are unlike all others. -/
  unlike : ∀ (i j : ℕ) (id : RecordID) entry, i ≠ j → ids[i]? = some id → entries[i]? = some entry →
    numberOf? "id" entry = none → ids[j]? ≠ some id

/-- No entry without a number under `id` stands at a position that is the number of another. -/
def PositionsFree (entries : List Json) : Prop :=
  ∀ i j entry other, i ≠ j → entries[i]? = some entry → entries[j]? = some other →
    numberOf? "id" entry = none → UInt64.ofNat i ≠ assignedId j other

/-- An entry whose number is an identifier is given its identifier. -/
theorem entryRecord_eq {entry : Json}
    (hwhole : ∀ value, numberOf? "id" entry = some value →
      ∃ id : ℕ, id < UInt64.size ∧ value = .finite id) (position : ℕ) :
    entryRecord (UInt64.ofNat position) entry =
      .ok (Record.new (assignedId position entry) (storedData entry)) := by
  unfold entryRecord assignedId storedData
  cases hnumber : numberOf? "id" entry with
  | none =>
    split
    · rename_i hmember
      rw [numberOf?_eq_some.mpr hmember] at hnumber
      cases hnumber
    · rfl
  | some value =>
    obtain ⟨id, hrange, rfl⟩ := hwhole value hnumber
    have hmember := numberOf?_eq_some.mp hnumber
    have hconverted : (Double.finite id).toUInt64 = .ok (UInt64.ofNat id) := by
      rw [Double.toUInt64_eq_ok, UInt64.toNat_ofNat_of_lt' hrange]
      simp [Double.integralPart]
    rw [hmember]
    dsimp only
    rw [hconverted]
    have hwhole : ((Double.finite id).integralPart.getD 0).toNat = id := by
      simp [Double.integralPart]
    rw [hwhole]
    cases entry with
    | object members => rfl
    | _ => cases hmember

/-- The identifiers of small numbers are these numbers. -/
theorem assignedId_of_some {position : ℕ} {entry : Json} {id : ℕ}
    (h : numberOf? "id" entry = some (.finite id)) :
    assignedId position entry = UInt64.ofNat id := by
  unfold assignedId
  rw [h]
  simp [Double.integralPart]

/-- The identifier of another entry is its position. -/
theorem assignedId_of_none {position : ℕ} {entry : Json} (h : numberOf? "id" entry = none) :
    assignedId position entry = UInt64.ofNat position := by
  unfold assignedId
  rw [h]

/-- The records of entries begin with the record of the first. -/
theorem importedRecords_cons (position : ℕ) (entry : Json) (entries : List Json) :
    importedRecords position (entry :: entries) =
      Record.new (assignedId position entry) (storedData entry) ::
        importedRecords (position + 1) entries := by
  unfold importedRecords
  rw [List.mapIdx_cons, Nat.add_zero]
  congr 2
  funext i other
  rw [Nat.add_assoc, Nat.add_comm 1 i]

/-- The identifiers of the records of an array. -/
theorem getElem?_ids (entries : List Json) (i : ℕ) :
    ((importedRecords 0 entries).map Record.id)[i]? = entries[i]?.map (assignedId i) := by
  unfold importedRecords
  rw [List.getElem?_map, List.getElem?_mapIdx, Option.map_map, Nat.zero_add]
  rfl

/-- Every entry of an array has an identifier. -/
theorem length_ids (entries : List Json) :
    ((importedRecords 0 entries).map Record.id).length = entries.length := by
  simp [importedRecords]

section Importing

variable [InsertPolicy]

/-- An import that succeeds has stored the record of every entry, and all of them were valid. -/
theorem Stores.records {position : ℕ} {entries : List Json} {t t' : Table} (h : t.Receptive)
    (hwhole : IdsBelow UInt64.size entries)
    (hstores : Stores (UInt64.ofNat position) entries t t') :
    t'.Receptive ∧ (∀ r ∈ importedRecords position entries, r.validate t.schema = .OK) ∧
      t'.liveRecords.Perm (importedRecords position entries ++ t.liveRecords) := by
  induction entries generalizing position t with
  | nil =>
    cases hstores
    exact ⟨h, fun _ hr => absurd hr List.not_mem_nil, List.Perm.refl _⟩
  | cons entry entries ih =>
    rw [IdsBelow, List.forall_mem_cons] at hwhole
    cases hstores with
    | cons hr hinsert hrest =>
      rename_i t₁ r
      rw [entryRecord_eq hwhole.1] at hr
      cases hr
      rw [importedRecords_cons, List.forall_mem_cons]
      generalize hrecord : Record.new (assignedId position entry) (storedData entry) = r at hinsert
      have hnext : UInt64.ofNat position + 1 = UInt64.ofNat (position + 1) := by simp
      rw [hnext] at hrest
      rcases h.insertRecord_cases r with
        ⟨s, hs, hrejected⟩ | ⟨hvalid, t₂, hstored, h₂, hschema, _, hadded⟩
      · rw [hinsert] at hrejected
        cases hrejected
        exact absurd rfl hs
      · rw [hinsert] at hstored
        cases hstored
        obtain ⟨h', hvalids, hperm⟩ := ih h₂ hwhole.2 hrest
        rw [hschema] at hvalids
        have hsame : Record.new r.id r.data = r := by rw [← hrecord]; rfl
        rw [hsame] at hadded
        exact ⟨h', ⟨hvalid, hvalids⟩, hperm.trans ((hadded.append_left _).trans List.perm_middle)⟩

/-- An import of valid records with distinct identifiers that no live record has succeeds. -/
theorem exists_stores {position : ℕ} {entries : List Json} {t : Table} (h : t.Receptive)
    (hwhole : IdsBelow UInt64.size entries)
    (hvalid : ∀ r ∈ importedRecords position entries, r.validate t.schema = .OK)
    (hnodup : ((importedRecords position entries ++ t.liveRecords).map Record.id).Nodup) :
    ∃ t', Stores (UInt64.ofNat position) entries t t' := by
  induction entries generalizing position t with
  | nil => exact ⟨t, .nil _ _⟩
  | cons entry entries ih =>
    rw [IdsBelow, List.forall_mem_cons] at hwhole
    rw [importedRecords_cons, List.forall_mem_cons] at hvalid
    rw [importedRecords_cons] at hnodup
    have hnext : UInt64.ofNat position + 1 = UInt64.ofNat (position + 1) := by simp
    have hfresh : assignedId position entry ∉ t.liveRecords.map Record.id := by
      rw [List.cons_append, List.map_cons, List.nodup_cons, List.map_append] at hnodup
      exact fun hmem => hnodup.1 (List.mem_append_right _ hmem)
    obtain ⟨t₁, left, right, hinsert, h₁, hschema, hbefore, hafter⟩ :=
      h.insertRecord hvalid.1 hfresh
    have hperm : (importedRecords (position + 1) entries ++ t₁.liveRecords).Perm
        (Record.new (assignedId position entry) (storedData entry) ::
          importedRecords (position + 1) entries ++ t.liveRecords) := by
      rw [hafter, hbefore, ← List.append_assoc, ← List.append_assoc]
      exact List.perm_middle
    obtain ⟨t', hstores⟩ := ih h₁ hwhole.2 (hschema ▸ hvalid.2)
      ((hperm.map Record.id).nodup_iff.mpr hnodup)
    exact ⟨t', .cons (entryRecord_eq hwhole.1 position) hinsert (hnext ▸ hstores)⟩

end Importing

/-- The identifiers of entries are distinct exactly if positions are free. -/
theorem nodup_importedRecords_iff {entries : List Json} (h : DistinctIds entries) :
    ((importedRecords 0 entries).map Record.id).Nodup ↔ PositionsFree entries := by
  have hids := getElem?_ids entries
  constructor
  · intro hnodup i j entry other hne hentry hother hnumber heq
    have hsame : ((importedRecords 0 entries).map Record.id)[i]? =
        ((importedRecords 0 entries).map Record.id)[j]? := by
      rw [hids, hids, hentry, hother, Option.map_some, Option.map_some,
        assignedId_of_none hnumber, heq]
    obtain ⟨hi, _⟩ := List.getElem?_eq_some_iff.mp hentry
    exact hne ((List.getElem?_inj (length_ids entries ▸ hi) hnodup).mp hsame)
  · intro hfree
    rw [List.nodup_iff_getElem?_ne_getElem?, length_ids]
    intro i j hlt hj hsame
    have hi : i < entries.length := hlt.trans hj
    rw [hids, hids, List.getElem?_eq_getElem hi, List.getElem?_eq_getElem hj, Option.map_some,
      Option.map_some, Option.some.injEq] at hsame
    cases hnumber : numberOf? "id" entries[i] with
    | none =>
      apply hfree i j _ _ hlt.ne (List.getElem?_eq_getElem hi) (List.getElem?_eq_getElem hj) hnumber
      rw [← hsame, assignedId_of_none hnumber]
    | some value =>
      cases hnumber' : numberOf? "id" entries[j] with
      | none =>
        apply hfree j i _ _ hlt.ne' (List.getElem?_eq_getElem hj) (List.getElem?_eq_getElem hi)
          hnumber'
        rw [hsame, assignedId_of_none hnumber']
      | some value' =>
        obtain ⟨id, hid, rfl⟩ := h.small _ (List.getElem_mem hi) value hnumber
        obtain ⟨id', hid', rfl⟩ := h.small _ (List.getElem_mem hj) value' hnumber'
        rw [assignedId_of_some hnumber, assignedId_of_some hnumber'] at hsame
        have hpairs := List.pairwise_iff_getElem.mp (List.pairwise_filterMap.mp h.nodup) i j hi hj
          hlt _ hnumber _ hnumber'
        have hnat := congrArg UInt64.toNat hsame
        rw [UInt64.toNat_ofNat', UInt64.toNat_ofNat'] at hnat
        rw [Nat.mod_eq_of_lt (by omega), Nat.mod_eq_of_lt (by omega)] at hnat
        exact hpairs (by rw [hnat])

/-- Distinct identifiers of the records of an array identify its entries. -/
theorem identifies_ids {entries : List Json} (h : DistinctIds entries)
    (hnodup : ((importedRecords 0 entries).map Record.id).Nodup) :
    Identifies ((importedRecords 0 entries).map Record.id) entries where
  length := length_ids entries
  kept i id entry value hid hentry hnumber := by
    obtain ⟨small, hsmall, rfl⟩ := h.small entry (List.mem_of_getElem? hentry) value hnumber
    rw [getElem?_ids, hentry, Option.map_some, assignedId_of_some hnumber] at hid
    obtain rfl := Option.some.inj hid
    rw [UInt64.toNat_ofNat_of_lt' (hsmall.trans (by decide))]
  unlike i j id entry hne hid _ _ hother := by
    obtain ⟨hi, _⟩ := List.getElem?_eq_some_iff.mp hid
    exact hne ((List.getElem?_inj hi hnodup).mp (hid.trans hother.symm))

/-- The records of an array are made of their identifiers and data. -/
theorem importedRecords_eq_zipWith (entries : List Json) :
    importedRecords 0 entries = List.zipWith Record.new
      ((importedRecords 0 entries).map Record.id) (entries.map storedData) := by
  apply List.ext_getElem?
  intro i
  rw [List.getElem?_zipWith, getElem?_ids, List.getElem?_map]
  unfold importedRecords
  rw [List.getElem?_mapIdx, Nat.zero_add]
  cases entries[i]? with
  | none => rfl
  | some entry => rfl

/-- An import makes one live record of every entry. Numbers under `id` become identifiers, and the
identifiers of the other entries are unlike all others. -/
def ImportsAll [InsertPolicy] (entries : List Json) (t : Table) : Prop :=
  ∃ ids t', importTable (.array entries) t = .ok .OK t' ∧ Identifies ids entries ∧
    t'.liveRecords.Perm (List.zipWith Record.new ids (entries.map storedData))

/-- An import into an empty table of entries whose numbers under `id` are small and distinct makes
one live record of every entry if and only if their data is valid and no entry without a number
stands at the position that is the number of another. -/
theorem importsAll_iff [InsertPolicy] {name : String} {id : TableID} {schema : List ColumnDef}
    {calls : List TableCall} {responses : List TableResponse} {t : Table}
    (hrun : run Table.call (Table.new name id schema) calls = .ok (responses, t))
    (hempty : t.liveRecords = []) {entries : List Json} (hids : DistinctIds entries) :
    ImportsAll entries t ↔
      (∀ entry ∈ entries, (Record.new 0 (storedData entry)).validate t.schema = .OK) ∧
        PositionsFree entries := by
  have hreceptive := Table.receptive_of_run hrun
  have hwhole : IdsBelow UInt64.size entries := IdsBelow.mono hids.small (by decide)
  have hvalid : (∀ r ∈ importedRecords 0 entries, r.validate t.schema = .OK) ↔
      ∀ entry ∈ entries, (Record.new 0 (storedData entry)).validate t.schema = .OK := by
    have hsame : ∀ i entry, (Record.new (assignedId i entry) (storedData entry)).validate t.schema =
        (Record.new 0 (storedData entry)).validate t.schema := by
      intro i entry
      apply Record.validate_congr
      rfl
    unfold importedRecords
    constructor
    · intro h entry hentry
      obtain ⟨i, hi, rfl⟩ := List.mem_iff_getElem.mp hentry
      rw [← hsame (0 + i)]
      exact h _ (List.mem_mapIdx.mpr ⟨i, hi, rfl⟩)
    · intro h r hr
      obtain ⟨i, hi, rfl⟩ := List.mem_mapIdx.mp hr
      rw [hsame]
      exact h _ (List.getElem_mem hi)
  rw [← hvalid, ← nodup_importedRecords_iff hids]
  constructor
  · rintro ⟨ids, t', himport, _, _⟩
    obtain ⟨h', hvalids, hperm⟩ := (importEntries_eq_ok.mp himport).records hreceptive hwhole
    rw [hempty, List.append_nil] at hperm
    exact ⟨hvalids, (hperm.map Record.id).nodup_iff.mp h'.nodup⟩
  · rintro ⟨hvalids, hnodup⟩
    obtain ⟨t', hstores⟩ := @exists_stores _ 0 entries t hreceptive hwhole hvalids (by
      rw [hempty, List.append_nil]
      exact hnodup)
    obtain ⟨_, _, hperm⟩ := hstores.records hreceptive hwhole
    rw [hempty, List.append_nil] at hperm
    refine ⟨_, t', importEntries_eq_ok.mpr hstores, identifies_ids hids hnodup, ?_⟩
    rwa [← importedRecords_eq_zipWith]

/-- The numbers of two entries, one of which has none. -/
theorem distinctIds_single (id : ℕ) (hid : id < 2 ^ 31) :
    DistinctIds [.object [("id", .number (.finite id))], Json.emptyObject] where
  small entry hentry value hnumber := by
    simp only [List.mem_cons, List.not_mem_nil, or_false] at hentry
    rcases hentry with rfl | rfl
    · exact ⟨id, hid, (Option.some.inj hnumber).symm⟩
    · cases hnumber
  nodup := List.nodup_singleton _

/-- An entry without a number is imported after one with another number than its position. -/
theorem importsAll_mixed :
    letI : InsertPolicy := ⟨true⟩
    ImportsAll [.object [("id", .number (.finite (5 : ℕ)))], Json.emptyObject]
      (Table.new "people" 0 []) := by
  let _ : InsertPolicy := ⟨true⟩
  have hrun : run Table.call (Table.new "people" 0 []) [] = .ok ([], Table.new "people" 0 []) := rfl
  refine (importsAll_iff hrun rfl (distinctIds_single 5 (by decide))).mpr ⟨?_, ?_⟩
  · intro entry hentry
    simp only [List.mem_cons, List.not_mem_nil, or_false] at hentry
    rcases hentry with rfl | rfl <;> rfl
  · intro i j entry other hne hentry hother hnumber
    match i, j with
    | 0, _ =>
      cases hentry
      cases hnumber
    | 1, 0 =>
      cases hother
      decide
    | 1, 1 => exact absurd rfl hne
    | 1, _ + 2 => cases hother
    | _ + 2, _ => cases hentry

/-- The position of an entry is the number of the entry before it. -/
theorem not_importsAll_position :
    letI : InsertPolicy := ⟨true⟩
    ¬ImportsAll [.object [("id", .ofInt 1)], Json.emptyObject] (Table.new "people" 0 []) := by
  let _ : InsertPolicy := ⟨true⟩
  rintro ⟨ids, t', himport, _⟩
  have hduplicate : ∃ t', importTable (.array [.object [("id", .ofInt 1)], Json.emptyObject])
      (Table.new "people" 0 []) = .ok .DUPLICATE_KEY t' := ⟨_, rfl⟩
  obtain ⟨_, hduplicate⟩ := hduplicate
  rw [himport] at hduplicate
  cases hduplicate

end MiniDB.Engine
