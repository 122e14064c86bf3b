import MiniDB.Common.Type
import MiniDB.Library.FileSystem

/-!
# Reading a whole file

`readFile` of `FileIO.h`: the size is asked for, the file is opened and read at once. The
calls one by one, for readers that take turns with others, do what the function does if
nothing changes in between.
-/

namespace MiniDB.Common.FileIO

open Posix

/-- `readFile`. An empty file is not read. -/
def readFile (fs : FileSystem) (path : String) (io : Schedule) : Status × List UInt8 :=
  let (sized, io) := io.next
  match if sized.succeeds then fs.read path else none with
  | none => (.IO_ERROR, [])
  | some content =>
    let (opened, io) := io.next
    if !opened.succeeds then (.IO_ERROR, [])
    else if content.isEmpty then (.OK, [])
    else
      let (received, _) := io.next
      if received.succeeds then (.OK, content) else (.IO_ERROR, [])

/-- A file that is not there is not read. -/
theorem readFile_of_none {fs : FileSystem} {path : String} (h : fs.read path = none)
    (io : Schedule) : readFile fs path io = (.IO_ERROR, []) := by
  unfold readFile
  dsimp only
  rw [h, ite_self]

/-- A file that is there is read whole, or not at all. -/
theorem readFile_of_read {fs : FileSystem} {path : String} {content : List UInt8}
    (h : fs.read path = some content) (io : Schedule) :
    readFile fs path io = (.OK, content) ∨ readFile fs path io = (.IO_ERROR, []) := by
  unfold readFile
  dsimp only
  split
  · exact .inr rfl
  · rename_i content' hsized
    split at hsized
    · rw [h] at hsized
      cases hsized
      split
      · exact .inr rfl
      · split
        · rename_i hempty
          rw [List.isEmpty_iff.mp hempty]
          exact .inl rfl
        · split
          · exact .inl rfl
          · exact .inr rfl
    · cases hsized

/-- Without a failure it is read. -/
theorem readFile_of_unfailing {fs : FileSystem} {path : String} {content : List UInt8}
    (h : fs.read path = some content) {io : Schedule} (hio : io.Unfailing) :
    readFile fs path io = (.OK, content) := by
  have hio₁ := hio.suffix io.next_suffix
  have hio₂ := hio₁.suffix io.next.2.next_suffix
  unfold readFile
  dsimp only
  rw [Outcome.succeeds_of_ne hio.next_ne_fail, if_pos rfl, h]
  dsimp only
  rw [Outcome.succeeds_of_ne hio₁.next_ne_fail, Outcome.succeeds_of_ne hio₂.next_ne_fail,
    if_pos rfl]
  split
  · rename_i hfalse
    cases hfalse
  · split
    · rename_i hempty
      rw [List.isEmpty_iff.mp hempty]
    · rfl

/-- Where a call stands: which system call is next, or how it ended. -/
inductive ReadStage
  | sizing
  | opening (size : ℕ)
  | reading (fd size : ℕ)
  | returned (s : Status) (out : List UInt8)

/-- One system call with a given outcome. Reading fails if the file has become shorter. -/
def readStep (fs : FileSystem) (path : String) (outcome : Outcome) : ReadStage → ReadStage
  | .sizing =>
    match if outcome.succeeds then fs.read path else none with
    | none => .returned .IO_ERROR []
    | some content => .opening content.length
  | .opening size =>
    match if outcome.succeeds then fs.directory.get? path else none with
    | none => .returned .IO_ERROR []
    | some fd => if size = 0 then .returned .OK [] else .reading fd size
  | .reading fd size =>
    if outcome.succeeds ∧ size ≤ (fs.bytes fd).length then
      .returned .OK ((fs.bytes fd).take size)
    else .returned .IO_ERROR []
  | .returned s out => .returned s out

/-- The calls one after the other. -/
def readSteps (fs : FileSystem) (path : String) : ℕ → Schedule → ReadStage → ReadStage
  | 0, _, stage => stage
  | turns + 1, io, stage => readSteps fs path turns io.next.2 (readStep fs path io.next.1 stage)

/-- A call that has returned makes no system calls. -/
theorem readSteps_returned (fs : FileSystem) (path : String) (turns : ℕ) (io : Schedule)
    (s : Status) (out : List UInt8) :
    readSteps fs path turns io (.returned s out) = .returned s out := by
  induction turns generalizing io with
  | zero => rfl
  | succ turns ih => exact ih io.next.2

/-- Three system calls are all that `readFile` makes. -/
theorem readSteps_eq_readFile (fs : FileSystem) (path : String) (io : Schedule) :
    readSteps fs path 3 io .sizing =
      .returned (readFile fs path io).1 (readFile fs path io).2 := by
  unfold readFile
  dsimp only [readSteps]
  cases hsized : io.next.1.succeeds with
  | false =>
    dsimp only [readStep]
    rw [hsized]
    rfl
  | true =>
    unfold readStep
    rw [hsized, if_pos rfl]
    cases hfile : fs.directory.get? path with
    | none =>
      rw [FileSystem.read_of_none hfile]
    | some fd =>
      rw [FileSystem.read_of_some hfile]
      dsimp only
      cases hopened : io.next.2.next.1.succeeds with
      | false => rfl
      | true =>
        rw [if_pos rfl]
        dsimp only
        by_cases hempty : fs.bytes fd = []
        · rw [hempty]
          rfl
        · have hlength : (fs.bytes fd).length ≠ 0 := List.length_eq_zero_iff.not.mpr hempty
          rw [if_neg hlength, List.isEmpty_eq_false_iff.mpr hempty]
          dsimp only
          cases hreceived : io.next.2.next.2.next.1.succeeds with
          | false => rfl
          | true =>
            rw [if_pos ⟨rfl, le_rfl⟩, List.take_length]
            rfl

end MiniDB.Common.FileIO
