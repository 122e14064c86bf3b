import MiniDB.Common.SlotArray

/-!
# Damage to a slot file

`writeSlot` writes in place and forces nothing out. A call that fails, or whose process ends inside
it, may leave its slot half written, and when the power goes, every slot that was written since it
last went may be left with anything in it. The damage stays in these slots.
-/

namespace MiniDB.Common.FileIO

open Memory Posix ByteSequence Refinement

/-- A slot file on a medium. -/
structure SlotVolume where
  /-- What programs see. -/
  files : Files
  /-- The bytes of the slot file that the power left when it last went. -/
  settled : List UInt8
  /-- The slots written since. -/
  written : List UInt64

/-- What happens to a slot file. A process that ends inside a call leaves what a call leaves whose
next system call fails. -/
inductive SlotEvent
  | write (call : SlotWrite)
  | powerLoss (left : File)

/-- The positions of a slot. -/
def InSlot (slotSize : UInt32) (slotIndex : UInt64) (position : ℕ) : Prop :=
  slotIndex.toNat * slotSize.toNat ≤ position ∧
    position < slotIndex.toNat * slotSize.toNat + slotSize.toNat

/-- What a slot of a file holds: a payload or only zero bytes; nothing is said of other slots. -/
def contentAt (slotSize : UInt32) (bytes : List UInt8) (slotIndex : UInt64) :
    Option (Option (List UInt8)) :=
  let offset := slotIndex.toNat * slotSize.toNat
  match payloadAt slotSize bytes offset with
  | some payload => some (some payload)
  | none =>
    if window 0 bytes offset slotSize.toNat = List.replicate slotSize.toNat 0 then some none
    else none

/-- What a read finds in a slot. -/
def found : Option (List UInt8) → Status × List UInt8
  | some payload => (.OK, payload)
  | none => (.NOT_FOUND, [])

/-- What a call stores; an empty payload cannot be told from none. -/
def SlotWrite.stored (call : SlotWrite) : Option (List UInt8) :=
  if call.payload = [] then none else some call.payload

/-- What is known of the slots. -/
structure SlotKnowledge where
  /-- What a read finds. -/
  seen : UInt64 → Option (Option (List UInt8))
  /-- What a read will find when the power has gone. -/
  safe : UInt64 → Option (Option (List UInt8))

namespace SlotKnowledge

/-- Before the first write all slots are empty. -/
def blank : SlotKnowledge := ⟨fun _ => some none, fun _ => some none⟩

/-- What is known after an event with a result. Only the slot that a call is about is concerned; a
loss of power replaces what was not safe by what it leaves. -/
def after (slotSize : UInt32) (known : SlotKnowledge) : SlotEvent → Option Status → SlotKnowledge
  | .write call, status =>
    if call.Fits slotSize then {
      seen := Function.update known.seen call.slotIndex
        (if status = some .OK then some call.stored else none)
      safe := Function.update known.safe call.slotIndex none }
    else known
  | .powerLoss left, _ =>
    let safe := fun slotIndex =>
      (known.safe slotIndex).orElse fun _ => contentAt slotSize left.bytes slotIndex
    ⟨safe, safe⟩

end SlotKnowledge

namespace SlotVolume

/-- The medium before the first write. -/
def new (files : Files) : SlotVolume := ⟨files, [], []⟩

variable (path : String) (slotSize : UInt32)

/-- One event. -/
def step (v : SlotVolume) : SlotEvent → Except Fault (Option Status × SlotVolume)
  | .write call => do
    let (status, files) ← writeCall path slotSize v.files call
    let written := if call.Fits slotSize then v.written ++ [call.slotIndex] else v.written
    return (some status, { v with files, written })
  | .powerLoss left => .ok (none, ⟨v.files.put path left, left.bytes, []⟩)

/-- Calls stay within the range of offsets, and the power leaves every byte outside the slots that
were written. -/
def Possible (v : SlotVolume) : SlotEvent → Prop
  | .write call => call.slotIndex.toNat * slotSize.toNat + slotSize.toNat < offsetLimit
  | .powerLoss left => v.settled.length ≤ left.bytes.length ∧ ∀ position,
    (∀ slotIndex ∈ v.written, ¬InSlot slotSize slotIndex position) →
      left.bytes[position]?.getD 0 = v.settled[position]?.getD 0

end SlotVolume

/-- A slot holds a payload, or only zero bytes. -/
def Shows (slotSize : UInt32) (bytes : List UInt8) (slotIndex : UInt64) :
    Option (List UInt8) → Prop
  | some payload => payloadAt slotSize bytes (slotIndex.toNat * slotSize.toNat) = some payload
  | none => window 0 bytes (slotIndex.toNat * slotSize.toNat) slotSize.toNat =
      List.replicate slotSize.toNat 0

/-- What is known holds of what programs see and of what the power left, and what is safe was not
written since. -/
structure SlotKnowledge.Describes (path : String) (slotSize : UInt32) (known : SlotKnowledge)
    (v : SlotVolume) : Prop where
  /-- Programs see what is known. -/
  seen : ∀ slotIndex content, known.seen slotIndex = some content →
    Shows slotSize (bytesIn v.files path) slotIndex content
  /-- The power left what is known to be safe. -/
  safe : ∀ slotIndex content, known.safe slotIndex = some content →
    Shows slotSize v.settled slotIndex content ∧ slotIndex ∉ v.written

section Slots

variable {path : String} {slotSize : UInt32} {bytes bytes' : List UInt8}
  {content : Option (List UInt8)}

/-- What a slot is found to hold, it holds. -/
theorem shows_of_contentAt {slotIndex : UInt64}
    (h : contentAt slotSize bytes slotIndex = some content) :
    Shows slotSize bytes slotIndex content := by
  unfold contentAt at h
  dsimp only at h
  split at h
  · rename_i payload hpayload
    cases h
    exact hpayload
  · split at h
    · rename_i hblank
      cases h
      exact hblank
    · cases h

/-- A slot holds what it held as long as its bytes stay and the file is not cut. -/
theorem Shows.congr {slotIndex : UInt64} (h : Shows slotSize bytes slotIndex content)
    (hlength : bytes.length ≤ bytes'.length)
    (hsame : ∀ position, InSlot slotSize slotIndex position →
      bytes'[position]?.getD 0 = bytes[position]?.getD 0) :
    Shows slotSize bytes' slotIndex content := by
  have hwindow : window 0 bytes' (slotIndex.toNat * slotSize.toNat) slotSize.toNat =
      window 0 bytes (slotIndex.toNat * slotSize.toNat) slotSize.toNat := by
    apply List.ext_getElem?
    intro position
    rw [getElem?_window, getElem?_window]
    split
    · rw [hsame _ ⟨by omega, by omega⟩]
    · rfl
  cases content with
  | none => exact hwindow.trans h
  | some payload =>
    unfold Shows payloadAt at h ⊢
    dsimp only at h ⊢
    rw [hwindow]
    split at h
    · cases h
    · rename_i hholds
      rw [if_neg (by omega)]
      exact h

/-- A write to a slot leaves the other slots alone. -/
theorem Shows.overwrite {slotIndex other : UInt64} (h : Shows slotSize bytes other content)
    (hne : other ≠ slotIndex) {data : List UInt8} (hdata : data.length ≤ slotSize.toNat) :
    Shows slotSize (ByteSequence.overwrite 0 bytes (slotIndex.toNat * slotSize.toNat) data) other
      content := by
  have hindex : other.toNat ≠ slotIndex.toNat := fun heq => hne (UInt64.toNat_inj.mp heq)
  have hdisjoint := slots_disjoint hindex slotSize.toNat
  refine h.congr ?_ ?_
  · rw [overwrite_length]
    omega
  · rintro position ⟨hstart, hend⟩
    rw [getD_overwrite, if_pos (by omega)]

/-- A slot that was written whole holds what was stored. -/
theorem shows_stored {call : SlotWrite} (hfits : call.Fits slotSize) (bytes : List UInt8) :
    Shows slotSize (ByteSequence.overwrite 0 bytes (call.slotIndex.toNat * slotSize.toNat)
      (slotBytes slotSize call.payload)) call.slotIndex call.stored := by
  unfold SlotWrite.stored
  split
  · rename_i hempty
    have hlength := slotBytes_length hfits
    have hwindow := window_overwrite_self (0 : UInt8) bytes
      (call.slotIndex.toNat * slotSize.toNat) (slotBytes slotSize call.payload)
    rw [hlength] at hwindow
    refine hwindow.trans ?_
    have hprefix : littleEndian LENGTH_SIZE 0 = List.replicate LENGTH_SIZE 0 := by decide
    have hfits : call.payload.length + LENGTH_SIZE ≤ slotSize.toNat := hfits
    rw [hempty] at hfits ⊢
    unfold slotBytes
    rw [List.length_nil, hprefix, List.append_nil, List.replicate_append_replicate]
    congr 1
    rw [List.length_nil] at hfits
    omega
  · rename_i hne
    exact payloadAt_overwrite_self hne hfits _ _

/-- What a slot holds is read. -/
theorem readSlot_of_shows {files : Files} {slotIndex : UInt64}
    (h : Shows slotSize (bytesIn files path) slotIndex content)
    (hsize : LENGTH_SIZE ≤ slotSize.toNat)
    (hwithin : slotIndex.toNat * slotSize.toNat < offsetLimit) {io : Schedule}
    (hio : io.Unfailing) :
    readSlot files path slotIndex slotSize io = .ok (found content) := by
  have hpositive := LENGTH_SIZE_pos
  rw [readSlot_of_unfailing hsize (slotOffset_of_within (by omega) hwithin) hio]
  cases content with
  | some payload => exact congrArg Except.ok (slotAt_eq_ok.mpr h)
  | none => exact congrArg Except.ok (slotAt_of_zero h)

/-- A file without bytes has empty slots. -/
theorem shows_nil (slotIndex : UInt64) : Shows slotSize [] slotIndex none := by
  apply window_of_blank
  rw [List.drop_nil]
  exact fun _ hmem => absurd hmem List.not_mem_nil

/-- Nothing has been written to a file that does not exist. -/
theorem describes_new {files : Files} (hmissing : files.get? path = none) :
    SlotKnowledge.blank.Describes path slotSize (SlotVolume.new files) := by
  have hbytes : bytesIn files path = [] := by
    unfold bytesIn
    rw [hmissing]
    rfl
  constructor
  · rintro slotIndex _ ⟨⟩
    change Shows slotSize (bytesIn files path) slotIndex none
    rw [hbytes]
    exact shows_nil slotIndex
  · rintro slotIndex _ ⟨⟩
    exact ⟨shows_nil slotIndex, List.not_mem_nil⟩

variable {known : SlotKnowledge} {v : SlotVolume}

/-- A call tells about its slot, and the others stay. -/
theorem SlotKnowledge.Describes.write (h : known.Describes path slotSize v)
    (hsize : LENGTH_SIZE ≤ slotSize.toNat) {call : SlotWrite}
    (hwithin : call.slotIndex.toNat * slotSize.toNat + slotSize.toNat < offsetLimit) :
    ∃ status v', v.step path slotSize (.write call) = .ok (some status, v') ∧
      (known.after slotSize (.write call) (some status)).Describes path slotSize v' := by
  have hpositive := LENGTH_SIZE_pos
  have hoffset := @slotOffset_of_within call.slotIndex slotSize (by omega) (by omega)
  obtain ⟨status, files', hwrite, hcases⟩ :=
    writeSlot_cases hoffset v.files path call.payload call.io
  have hcall : writeCall path slotSize v.files call = .ok (status, files') := hwrite
  unfold SlotVolume.step
  dsimp only
  rw [hcall]
  refine ⟨status, _, rfl, ?_⟩
  by_cases hfits : call.Fits slotSize
  · rw [if_pos hfits]
    unfold after
    dsimp only
    rw [if_pos hfits]
    constructor
    · intro slotIndex content hknown
      dsimp only at hknown ⊢
      rw [Function.update_apply] at hknown
      split at hknown
      · rename_i hslot
        subst hslot
        split at hknown
        · rename_i hstatus
          cases hknown
          cases hstatus
          rcases hcases with ⟨hfailed, _⟩ | ⟨file, rfl, ⟨_, _, hbytes⟩ | ⟨hfailed, _⟩⟩
          · exact absurd rfl hfailed
          · rw [bytesIn_put, hbytes]
            exact shows_stored hfits _
          · exact absurd rfl hfailed
        · cases hknown
      · rename_i hother
        have hshows := h.seen slotIndex content hknown
        rcases (bytesIn_of_writeSlot hoffset hwrite).2 with hsame | ⟨data, hdata, hbytes⟩
        · rw [hsame]
          exact hshows
        · rw [hbytes]
          exact hshows.overwrite hother hdata
    · intro slotIndex content hknown
      dsimp only at hknown ⊢
      rw [Function.update_apply] at hknown
      split at hknown
      · cases hknown
      · rename_i hother
        obtain ⟨hshows, hnot⟩ := h.safe slotIndex content hknown
        refine ⟨hshows, fun hmem => ?_⟩
        rcases List.mem_append.mp hmem with hold | hnew
        · exact hnot hold
        · exact hother (List.mem_singleton.mp hnew)
  · rw [if_neg hfits]
    unfold after
    dsimp only
    rw [if_neg hfits]
    have hlarge := writeSlot_of_large (Nat.lt_of_not_le hfits) v.files path call.slotIndex call.io
    cases hwrite.symm.trans hlarge
    exact h

/-- A call leaves a mark on the slot that it writes to. -/
theorem SlotVolume.written_of_step {call : SlotWrite} {result : Option Status} {v' : SlotVolume}
    (h : v.step path slotSize (.write call) = .ok (result, v')) :
    v'.settled = v.settled ∧ v'.written =
      if call.Fits slotSize then v.written ++ [call.slotIndex] else v.written := by
  obtain ⟨_, _, h⟩ := except_bind_eq_ok.mp h
  cases h
  exact ⟨rfl, rfl⟩

/-- When the power goes, what was safe stays, and the rest is what is left. -/
theorem SlotKnowledge.Describes.powerLoss (h : known.Describes path slotSize v) {left : File}
    (hleft : v.Possible slotSize (.powerLoss left)) :
    (known.after slotSize (.powerLoss left) none).Describes path slotSize
      ⟨v.files.put path left, left.bytes, []⟩ := by
  obtain ⟨hlength, hbytes⟩ := hleft
  have hshows : ∀ slotIndex content,
      (known.after slotSize (.powerLoss left) none).safe slotIndex = some content →
        Shows slotSize left.bytes slotIndex content := by
    intro slotIndex content hknown
    unfold after at hknown
    dsimp only at hknown
    cases hsafe : known.safe slotIndex with
    | none =>
      rw [hsafe] at hknown
      exact shows_of_contentAt hknown
    | some kept =>
      rw [hsafe] at hknown
      cases hknown
      obtain ⟨hkept, hnot⟩ := h.safe slotIndex content hsafe
      refine hkept.congr hlength fun position hinside => hbytes position ?_
      rintro other hother ⟨hstart, hend⟩
      have hindex : slotIndex.toNat ≠ other.toNat := fun heq =>
        hnot (UInt64.toNat_inj.mp heq ▸ hother)
      have hdisjoint := slots_disjoint hindex slotSize.toNat
      unfold InSlot at hinside
      omega
  constructor
  · intro slotIndex content hknown
    dsimp only
    rw [bytesIn_put]
    exact hshows slotIndex content hknown
  · exact fun slotIndex content hknown => ⟨hshows slotIndex content hknown, List.not_mem_nil⟩

end Slots

/-- What is known follows what happens. -/
def slotSimulation (path : String) {slotSize : UInt32} (hsize : LENGTH_SIZE ≤ slotSize.toNat) :
    Simulation (SlotVolume.step path slotSize)
      (fun known event status known' => known' = SlotKnowledge.after slotSize known event status)
      (SlotVolume.Possible slotSize) where
  Related v known := known.Describes path slotSize v
  step_follows := by
    intro v known event h hpossible
    cases event with
    | write call =>
      obtain ⟨status, v', hstep, h'⟩ := h.write hsize hpossible
      exact ⟨some status, v', _, hstep, rfl, h'⟩
    | powerLoss left => exact ⟨none, _, _, rfl, rfl, h.powerLoss hpossible⟩

/-- Calls of `writeSlot` whose system calls fail or whose processes end, and losses of power that
leave anything in the slots written since the last one, follow each other in any order. What is
read from a slot follows from the events that concern this slot: it is what the last call stored if
that call succeeded, and once the power has gone what was left then, until the next call for the
slot begins, whatever happens to the other slots. -/
theorem damage_stays_in_slot {path : String} {slotSize : UInt32}
    (hsize : LENGTH_SIZE ≤ slotSize.toNat) {files : Files} (hmissing : files.get? path = none)
    {events : List SlotEvent}
    (h : Along (SlotVolume.step path slotSize) (SlotVolume.Possible slotSize)
      (SlotVolume.new files) events) :
    ∃ results v known, run (SlotVolume.step path slotSize) (SlotVolume.new files) events =
        .ok (results, v) ∧
      Follows (fun known event status known' =>
        known' = SlotKnowledge.after slotSize known event status) .blank events results known ∧
      ∀ slotIndex content io, known.seen slotIndex = some content →
        slotIndex.toNat * slotSize.toNat < offsetLimit → io.Unfailing →
        readSlot v.files path slotIndex slotSize io = .ok (found content) := by
  obtain ⟨results, v, known, hrun, hfollows, hdescribes⟩ :=
    (slotSimulation path hsize).run_follows (describes_new hmissing) h
  refine ⟨results, v, known, hrun, hfollows, fun slotIndex content io hknown hwithin hio => ?_⟩
  exact readSlot_of_shows (hdescribes.seen slotIndex content hknown) hsize hwithin hio

/-- The power leaves one version of a slot and nonsense in another one. A write to that one then
fails, and the power goes again: the first slot is read as it was left, and a third is empty. -/
theorem damage_stays_in_slot_neighbour :
    let left : File := ⟨List.replicate 8 255 ++ slotBytes 8 [5, 6], by decide⟩
    let torn : File := ⟨List.replicate 8 7 ++ slotBytes 8 [5, 6], by decide⟩
    ∃ results v, run (SlotVolume.step "people.pages" 8) (SlotVolume.new FiniteMap.empty)
        [.write ⟨1, [5, 6], [.full, .short 2]⟩, .write ⟨0, [9], []⟩, .powerLoss left,
          .write ⟨0, [3], [.full, .short 2, .fail]⟩, .powerLoss torn] = .ok (results, v) ∧
      readSlot v.files "people.pages" 1 8 [] = .ok (.OK, [5, 6]) ∧
      readSlot v.files "people.pages" 2 8 [] = .ok (.NOT_FOUND, []) := by
  intro left torn
  have hsize : LENGTH_SIZE ≤ (8 : UInt32).toNat := by decide
  have hone : (1 : UInt64).toNat * (8 : UInt32).toNat + (8 : UInt32).toNat < offsetLimit := by
    decide
  have hzero : (0 : UInt64).toNat * (8 : UInt32).toNat + (8 : UInt32).toNat < offsetLimit := by
    decide
  have hlow : ∀ {slots : List UInt64} {position : ℕ},
      (∀ slotIndex ∈ slots, ¬InSlot 8 slotIndex position) → 0 ∈ slots → 8 ≤ position := by
    intro slots position hnot hmem
    by_contra hlt
    exact hnot 0 hmem ⟨Nat.zero_le _, Nat.not_le.mp hlt⟩
  have hpossible : Along (SlotVolume.step "people.pages" 8) (SlotVolume.Possible 8)
      (SlotVolume.new FiniteMap.empty) [.write ⟨1, [5, 6], [.full, .short 2]⟩,
        .write ⟨0, [9], []⟩, .powerLoss left, .write ⟨0, [3], [.full, .short 2, .fail]⟩,
        .powerLoss torn] := by
    refine ⟨hone, fun _ v₁ h₁ => ⟨hzero, fun _ v₂ h₂ => ⟨?_, ?_⟩⟩⟩
    · obtain ⟨hsettled₁, hwritten₁⟩ := SlotVolume.written_of_step h₁
      obtain ⟨hsettled₂, hwritten₂⟩ := SlotVolume.written_of_step h₂
      rw [if_pos (by decide)] at hwritten₁ hwritten₂
      have hsettled : v₂.settled = [] := hsettled₂.trans hsettled₁
      have hwritten : v₂.written = [1, 0] := by
        rw [hwritten₂, hwritten₁]
        rfl
      unfold SlotVolume.Possible
      rw [hsettled, hwritten]
      refine ⟨Nat.zero_le _, fun position hnot => ?_⟩
      have hfirst := hlow hnot (by decide)
      have hsecond : 16 ≤ position := by
        by_contra hlt
        exact hnot 1 List.mem_cons_self ⟨hfirst, Nat.not_le.mp hlt⟩
      rw [List.getElem?_eq_none (by exact hsecond), List.getElem?_nil]
    · rintro _ v₃ ⟨⟩
      refine ⟨hzero, fun _ v₄ h₄ => ⟨?_, fun _ _ _ => trivial⟩⟩
      obtain ⟨hsettled, hwritten⟩ := SlotVolume.written_of_step h₄
      rw [if_pos (by decide)] at hwritten
      unfold SlotVolume.Possible
      rw [hsettled, hwritten]
      refine ⟨le_of_eq rfl, fun position hnot => ?_⟩
      have hfirst := hlow hnot (List.mem_singleton_self (0 : UInt64))
      change (List.replicate 8 7 ++ slotBytes 8 [5, 6])[position]?.getD 0 =
        (List.replicate 8 255 ++ slotBytes 8 [5, 6])[position]?.getD 0
      rw [List.getElem?_append_right (by exact hfirst),
        List.getElem?_append_right (by exact hfirst)]
      rfl
  obtain ⟨results, v, known, hrun, hfollows, hread⟩ :=
    @damage_stays_in_slot "people.pages" 8 hsize FiniteMap.empty rfl _ hpossible
  rcases hfollows with _ | ⟨rfl, _ | ⟨rfl, _ | ⟨rfl, _ | ⟨rfl, _ | ⟨rfl, ⟨⟩⟩⟩⟩⟩⟩
  refine ⟨_, v, hrun, ?_, ?_⟩
  · exact hread 1 (some [5, 6]) [] rfl (by decide) Schedule.unfailing_nil
  · exact hread 2 none [] rfl (by decide) Schedule.unfailing_nil

end MiniDB.Common.FileIO
