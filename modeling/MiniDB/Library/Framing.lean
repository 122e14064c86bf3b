import Mathlib.Data.List.Basic
import Mathlib.Data.List.Infix

/-!
# Numbered frames in a flat sequence

A log stores items one after another, each in a frame that carries the item's own
number and marks its own end. The development needs a single law: decoding the head
of a sequence yields an item exactly when the sequence begins with that item's frame.
From it follow uniqueness of the decoding, the longest valid run of frames in an
arbitrary sequence, and the effect of cutting a sequence in the middle of a frame.
-/

universe u v

/-- A numbered, self-delimiting frame format over symbols `β` for items `α`. -/
structure Framing (α : Type u) (β : Type v) where
  /-- The items that have a frame under a given number. -/
  Fits : ℕ → α → Prop
  /-- The frame of an item under its number. -/
  encode : ℕ → α → List β
  /-- The item whose frame, under the expected number, begins the sequence. -/
  decode : ℕ → List β → Option α
  /-- A frame occupies at least one symbol. -/
  encode_ne_nil : ∀ number item, encode number item ≠ []
  /-- Decoding recognizes exactly the frames of items that fit. -/
  decode_eq_some : ∀ {number item symbols},
    decode number symbols = some item ↔ Fits number item ∧ encode number item <+: symbols

namespace Framing

variable {α : Type u} {β : Type v} (F : Framing α β)

/-- The frames of consecutively numbered items, concatenated. -/
def encodeAll : ℕ → List α → List β
  | _, [] => []
  | number, item :: items => F.encode number item ++ encodeAll (number + 1) items

/-- Every item fits under its consecutive number. -/
def AllFit : ℕ → List α → Prop
  | _, [] => True
  | number, item :: items => F.Fits number item ∧ AllFit (number + 1) items

/-- A recognized frame is no longer than the sequence it begins. -/
theorem encode_length_le {number : ℕ} {item : α} {symbols : List β}
    (h : F.decode number symbols = some item) :
    (F.encode number item).length ≤ symbols.length :=
  (F.decode_eq_some.mp h).2.length_le

/-- Frames have positive length. -/
theorem encode_length_pos (number : ℕ) (item : α) : 0 < (F.encode number item).length :=
  List.length_pos_of_ne_nil (F.encode_ne_nil number item)

/-- The longest run of consecutively numbered frames at the head of a sequence. -/
def scan (number : ℕ) (symbols : List β) : List α :=
  match _h : F.decode number symbols with
  | none => []
  | some item => item :: scan (number + 1) (symbols.drop (F.encode number item).length)
termination_by symbols.length
decreasing_by
  have hle := F.encode_length_le _h
  have hpos := F.encode_length_pos number item
  rw [List.length_drop]
  omega

/-- A sequence without a frame at its head yields nothing. -/
theorem scan_of_none {number : ℕ} {symbols : List β} (h : F.decode number symbols = none) :
    F.scan number symbols = [] := by
  rw [scan]
  split
  · rfl
  · simp_all

/-- A frame at the head yields its item and the scan of the remainder. -/
theorem scan_of_some {number : ℕ} {item : α} {symbols : List β}
    (h : F.decode number symbols = some item) :
    F.scan number symbols =
      item :: F.scan (number + 1) (symbols.drop (F.encode number item).length) := by
  rw [scan]
  split <;> simp_all

/-- The frame of an item that fits decodes to it, whatever follows. -/
theorem decode_encode {number : ℕ} {item : α} (h : F.Fits number item) (rest : List β) :
    F.decode number (F.encode number item ++ rest) = some item :=
  F.decode_eq_some.mpr ⟨h, List.prefix_append _ _⟩

/-- Items with the same number whose frames begin one sequence are equal. -/
theorem eq_of_encode_prefix {number : ℕ} {first second : α} {symbols : List β}
    (hfirst : F.Fits number first) (hsecond : F.Fits number second)
    (hpre : F.encode number first <+: symbols) (hpre' : F.encode number second <+: symbols) :
    first = second := by
  have h₁ := F.decode_eq_some.mpr ⟨hfirst, hpre⟩
  have h₂ := F.decode_eq_some.mpr ⟨hsecond, hpre'⟩
  exact Option.some.inj (h₁.symm.trans h₂)

/-- Concatenating item lists concatenates their frames. -/
theorem encodeAll_append (number : ℕ) (left right : List α) :
    F.encodeAll number (left ++ right) =
      F.encodeAll number left ++ F.encodeAll (number + left.length) right := by
  induction left generalizing number with
  | nil => simp [encodeAll]
  | cons item items ih =>
    simp only [List.cons_append, encodeAll, ih, List.append_assoc, List.length_cons]
    rw [Nat.add_right_comm, Nat.add_assoc]

/-- The fitting condition splits along a concatenation. -/
theorem allFit_append {number : ℕ} {left right : List α} :
    F.AllFit number (left ++ right) ↔
      F.AllFit number left ∧ F.AllFit (number + left.length) right := by
  induction left generalizing number with
  | nil => simp [AllFit]
  | cons item items ih =>
    simp only [List.cons_append, AllFit, ih, List.length_cons, and_assoc]
    rw [Nat.add_right_comm, Nat.add_assoc]

/-- Leading items of a fitting list fit. -/
theorem AllFit.take {number : ℕ} {items : List α} (h : F.AllFit number items) (count : ℕ) :
    F.AllFit number (items.take count) := by
  rw [← List.take_append_drop count items, allFit_append] at h
  exact h.1

/-- A prefix of a fitting list fits. -/
theorem AllFit.of_prefix {number : ℕ} {left items : List α} (h : F.AllFit number items)
    (hleft : left <+: items) : F.AllFit number left := by
  obtain ⟨rest, rfl⟩ := hleft
  exact (F.allFit_append.mp h).1

/-- Every framed item contributes at least one symbol. -/
theorem length_le_encodeAll_length (number : ℕ) (items : List α) :
    items.length ≤ (F.encodeAll number items).length := by
  induction items generalizing number with
  | nil => simp
  | cons item items ih =>
    have hpos := F.encode_length_pos number item
    have hrest := ih (number + 1)
    simp only [encodeAll, List.length_cons, List.length_append]
    omega

/-- Scanning written frames returns their items and continues behind them. -/
theorem scan_encodeAll {number : ℕ} {items : List α} (h : F.AllFit number items)
    (rest : List β) :
    F.scan number (F.encodeAll number items ++ rest) =
      items ++ F.scan (number + items.length) rest := by
  induction items generalizing number with
  | nil => simp [encodeAll]
  | cons item items ih =>
    have hdecode := F.decode_encode h.1 (F.encodeAll (number + 1) items ++ rest)
    rw [encodeAll, List.append_assoc, F.scan_of_some hdecode, List.drop_left, ih h.2,
      List.length_cons, List.cons_append, Nat.add_right_comm, Nat.add_assoc]

/-- The scanned items fit, and their frames begin the scanned sequence. -/
theorem scan_sound (number : ℕ) (symbols : List β) :
    F.AllFit number (F.scan number symbols) ∧
      F.encodeAll number (F.scan number symbols) <+: symbols := by
  induction number, symbols using scan.induct F with
  | case1 number symbols hnone => simp [F.scan_of_none hnone, AllFit, encodeAll]
  | case2 number symbols item hsome ih =>
    obtain ⟨hfits, rest, rfl⟩ := F.decode_eq_some.mp hsome
    rw [List.drop_left] at ih
    rw [F.scan_of_some hsome, List.drop_left]
    exact ⟨⟨hfits, ih.1⟩, (List.prefix_append_right_inj _).mpr ih.2⟩

/-- A scanned sequence is its frames followed by a remainder. -/
theorem scan_append_drop (number : ℕ) (symbols : List β) :
    F.encodeAll number (F.scan number symbols) ++
      symbols.drop (F.encodeAll number (F.scan number symbols)).length = symbols :=
  (List.prefix_append_drop (F.scan_sound number symbols).2).symm

/-- No further frame begins where the scan stopped. -/
theorem scan_maximal (number : ℕ) (symbols : List β) :
    F.decode (number + (F.scan number symbols).length)
      (symbols.drop (F.encodeAll number (F.scan number symbols)).length) = none := by
  induction number, symbols using scan.induct F with
  | case1 number symbols hnone => simpa [F.scan_of_none hnone, encodeAll] using hnone
  | case2 number symbols item hsome ih =>
    rw [F.scan_of_some hsome]
    simp only [List.length_cons, encodeAll, List.length_append, ← List.drop_drop]
    rwa [Nat.add_assoc, Nat.add_comm 1] at ih

/-- The scan is the only fitting run of frames after which no frame follows. -/
theorem scan_eq_of_maximal {number : ℕ} {items : List α} {rest : List β}
    (h : F.AllFit number items) (hstop : F.decode (number + items.length) rest = none) :
    F.scan number (F.encodeAll number items ++ rest) = items := by
  rw [F.scan_encodeAll h, F.scan_of_none hstop, List.append_nil]

/-- No frame begins the empty sequence. -/
theorem decode_nil (number : ℕ) : F.decode number [] = none := by
  cases hdecode : F.decode number [] with
  | none => rfl
  | some item =>
    have hle := F.encode_length_le hdecode
    have hpos := F.encode_length_pos number item
    rw [List.length_nil] at hle
    omega

/-- Scanning written frames with nothing behind them returns their items. -/
theorem scan_encodeAll_self {number : ℕ} {items : List α} (h : F.AllFit number items) :
    F.scan number (F.encodeAll number items) = items := by
  have hscan := F.scan_eq_of_maximal h (F.decode_nil (number + items.length))
  rwa [List.append_nil] at hscan

/-- Scanning one frame returns its item. -/
theorem scan_encode {number : ℕ} {item : α} (h : F.Fits number item) :
    F.scan number (F.encode number item) = [item] := by
  have hall : F.AllFit number [item] := ⟨h, trivial⟩
  have hscan := F.scan_encodeAll_self hall
  rwa [encodeAll, encodeAll, List.append_nil] at hscan

/-- A sequence begins with no frame other than the given item's, and with no frame
behind that one. -/
def NoOther (number : ℕ) (item : α) (symbols : List β) : Prop :=
  ∀ other, F.Fits number other → F.encode number other <+: symbols →
    other = item ∧ ∀ next, F.Fits (number + 1) next →
      ¬F.encode (number + 1) next <+: symbols.drop (F.encode number item).length

/-- A sequence that begins with no other frame yields nothing or the given item. -/
theorem scan_nil_or_singleton_iff {number : ℕ} {item : α} {symbols : List β} :
    F.scan number symbols = [] ∨ F.scan number symbols = [item] ↔
      F.NoOther number item symbols := by
  cases hdecode : F.decode number symbols with
  | none =>
    constructor
    · intro _ other hfits hpre
      rw [F.decode_eq_some.mpr ⟨hfits, hpre⟩] at hdecode
      cases hdecode
    · intro _
      exact Or.inl (F.scan_of_none hdecode)
  | some first =>
    obtain ⟨hfits, hpre⟩ := F.decode_eq_some.mp hdecode
    rw [F.scan_of_some hdecode]
    constructor
    · rintro (hnil | hone)
      · cases hnil
      · injection hone with hitem hrest
        subst hitem
        intro other hother hpre'
        refine ⟨F.eq_of_encode_prefix hother hfits hpre' hpre, fun next hnext hbehind => ?_⟩
        rw [F.scan_of_some (F.decode_eq_some.mpr ⟨hnext, hbehind⟩)] at hrest
        cases hrest
    · intro hno
      obtain ⟨rfl, hstop⟩ := hno first hfits hpre
      right
      rw [F.scan_of_none]
      cases hbehind : F.decode (number + 1) (symbols.drop (F.encode number first).length) with
      | none => rfl
      | some next =>
        obtain ⟨hnext, hpre'⟩ := F.decode_eq_some.mp hbehind
        exact absurd hpre' (hstop next hnext)

/-- Leading items have the leading frames. -/
theorem encodeAll_prefix (number : ℕ) {left right : List α} (h : left <+: right) :
    F.encodeAll number left <+: F.encodeAll number right := by
  obtain ⟨rest, rfl⟩ := h
  rw [F.encodeAll_append]
  exact List.prefix_append _ _

/-- The position just behind the frame of the `count`-th item. -/
def frameEnd (number : ℕ) (items : List α) (count : ℕ) : ℕ :=
  (F.encodeAll number (items.take count)).length

/-- The last frame ends where the frames end. -/
@[simp] theorem frameEnd_length (number : ℕ) (items : List α) :
    F.frameEnd number items items.length = (F.encodeAll number items).length := by
  rw [frameEnd, List.take_length]

/-- Appending items does not move the ends of earlier frames. -/
theorem frameEnd_append {number count : ℕ} {left : List α} (right : List α)
    (h : count ≤ left.length) :
    F.frameEnd number (left ++ right) count = F.frameEnd number left count := by
  rw [frameEnd, frameEnd, List.take_append_of_le_length h]

/-- Behind the first `count` frames the next item's frame begins. -/
theorem encodeAll_drop_frameEnd {number count : ℕ} {items : List α} (h : count < items.length) :
    (F.encodeAll number items).drop (F.frameEnd number items count) =
      F.encode (number + count) items[count] ++
        F.encodeAll (number + count + 1) (items.drop (count + 1)) := by
  have hsplit := F.encodeAll_append number (items.take count) (items.drop count)
  rw [List.take_append_drop, List.length_take, min_eq_left (by omega)] at hsplit
  rw [hsplit, frameEnd, List.drop_left, List.drop_eq_getElem_cons h, encodeAll]

/-- The frames around one item's frame. -/
theorem encodeAll_eq_around {number count : ℕ} {items : List α} (h : count < items.length) :
    F.encodeAll number items =
      F.encodeAll number (items.take count) ++ F.encode (number + count) items[count] ++
        F.encodeAll (number + count + 1) (items.drop (count + 1)) := by
  have hsplit := F.encodeAll_append number (items.take count) (items.drop count)
  rw [List.take_append_drop, List.length_take, min_eq_left (by omega),
    List.drop_eq_getElem_cons h, encodeAll] at hsplit
  rw [hsplit, List.append_assoc]

/-- A frame ends its length behind the end of the one before it. -/
theorem frameEnd_succ {number count : ℕ} {items : List α} (h : count < items.length) :
    F.frameEnd number items (count + 1) =
      F.frameEnd number items count + (F.encode (number + count) items[count]).length := by
  have hlength : (items.take count).length = count := by
    rw [List.length_take]
    omega
  rw [frameEnd, frameEnd, ← List.take_concat_get' items count h, F.encodeAll_append, hlength,
    List.length_append, encodeAll, encodeAll, List.append_nil]

/-- Each item of a fitting list fits under its number. -/
theorem AllFit.getElem {number : ℕ} {items : List α} (h : F.AllFit number items) {count : ℕ}
    (hcount : count < items.length) : F.Fits (number + count) items[count] := by
  rw [← List.take_append_drop count items, List.drop_eq_getElem_cons hcount, allFit_append,
    List.length_take, min_eq_left (by omega)] at h
  exact h.2.1

/-- A proper part of one frame is not recognized as a frame. -/
theorem decode_take_of_lt {number length : ℕ} {item : α} (h : F.Fits number item)
    (hlength : length < (F.encode number item).length) :
    F.decode number ((F.encode number item).take length) = none := by
  cases hdecode : F.decode number ((F.encode number item).take length) with
  | none => rfl
  | some other =>
    obtain ⟨hfits, hpre⟩ := F.decode_eq_some.mp hdecode
    have heq := F.eq_of_encode_prefix hfits h (hpre.trans (List.take_prefix _ _))
      (List.prefix_refl _)
    subst heq
    have hle := hpre.length_le
    rw [List.length_take] at hle
    omega

/-- Cutting written frames anywhere keeps exactly the items whose frames end at or
before the cut. -/
theorem scan_take {number : ℕ} {items : List α} (h : F.AllFit number items) (cut : ℕ) :
    ∃ kept ≤ items.length,
      F.scan number ((F.encodeAll number items).take cut) = items.take kept ∧
      ∀ count ≤ items.length, F.frameEnd number items count ≤ cut ↔ count ≤ kept := by
  induction items generalizing number cut with
  | nil =>
    refine ⟨0, le_rfl, ?_, ?_⟩
    · simpa [encodeAll] using F.scan_of_none (F.decode_nil number)
    · intro count hcount
      simp [frameEnd, encodeAll]
      simpa using hcount
  | cons item items ih =>
    by_cases hcut : (F.encode number item).length ≤ cut
    · obtain ⟨kept, hkept, hscan, hends⟩ := ih h.2 (cut - (F.encode number item).length)
      refine ⟨kept + 1, by simpa using hkept, ?_, ?_⟩
      · have hdecode := F.decode_encode h.1
          ((F.encodeAll (number + 1) items).take (cut - (F.encode number item).length))
        rw [encodeAll, List.take_append, List.take_of_length_le hcut, F.scan_of_some hdecode,
          List.drop_left, hscan, List.take_succ_cons]
      · intro count hcount
        cases count with
        | zero => simp [frameEnd, encodeAll]
        | succ count =>
          have hend := hends count (by simpa using hcount)
          simp only [frameEnd, List.take_succ_cons, encodeAll, List.length_append] at hend ⊢
          omega
    · refine ⟨0, Nat.zero_le _, ?_, ?_⟩
      · have hnone : F.decode number ((F.encodeAll number (item :: items)).take cut) = none := by
          rw [encodeAll, List.take_append_of_le_length (by omega)]
          exact F.decode_take_of_lt h.1 (by omega)
        simpa using F.scan_of_none hnone
      · intro count hcount
        cases count with
        | zero => simp [frameEnd, encodeAll]
        | succ count =>
          simp only [frameEnd, List.take_succ_cons, encodeAll, List.length_append]
          omega

end Framing
