import Mathlib.Data.List.Pairwise
import Mathlib.Data.List.Perm.Subperm
import Mathlib.Data.Nat.Notation
import Mathlib.Order.Lattice

/-!
# Reading a sequence page by page

Each page holds the first values of the sequence that lie behind a bound, in order, and the last
of them is the bound of the next page. The pages make up the whole sequence in order exactly if
the sequence is in order up to blocks of the size of a page.
-/

universe u v w

variable {α : Type u} {γ : Type v} {β : Type w} [LinearOrder β]

/-- The values behind a bound, all if there is none. -/
def behind (place : γ → β) (bound : α → γ) (values : List α) (after : Option γ) : List α :=
  values.filter fun a => decide (∀ b ∈ after, place b < place (bound a))

/-- The pages from a bound on: the next bound is taken from the last value of a page, and a page
that is not full is the last. -/
def pagesFrom (read : Option γ → List α) (bound : α → γ) (k : ℕ) :
    ℕ → Option γ → Option (List (List α))
  | 0, _ => none
  | fuel + 1, after =>
    let page := read after
    if page.length < k then some [page]
    else (pagesFrom read bound k fuel (page.getLast?.map bound)).map (page :: ·)

/-- A page holds the first values behind its bound, sorted. -/
structure ReadsPages (place : γ → β) (bound : α → γ) (values : List α) (k : ℕ)
    (read : Option γ → List α) : Prop where
  /-- The values of a page. -/
  perm : ∀ after, (read after).Perm ((behind place bound values after).take k)
  /-- Their order. -/
  sorted : ∀ after, (read after).Pairwise fun a b => place (bound a) ≤ place (bound b)

/-- A sequence is in order up to blocks: what lies in an earlier block is less. -/
def InBlocks (key : α → β) (k : ℕ) (values : List α) : Prop :=
  ∀ (i j : ℕ) (hi : i < values.length) (hj : j < values.length),
    i / k < j / k → key values[i] < key values[j]

/-- A sequence within one block is in order up to blocks. -/
theorem inBlocks_of_length_le {key : α → β} {k : ℕ} {values : List α} (h : values.length ≤ k) :
    InBlocks key k values := by
  intro i j hi hj hblock
  rw [Nat.div_eq_of_lt (by omega), Nat.div_eq_of_lt (by omega)] at hblock
  omega

/-- The first block is less than what follows, and what follows is in order up to blocks. -/
theorem inBlocks_iff {key : α → β} {k : ℕ} (hk : 0 < k) {values : List α} :
    InBlocks key k values ↔
      (∀ a ∈ values.take k, ∀ b ∈ values.drop k, key a < key b) ∧
        InBlocks key k (values.drop k) := by
  constructor
  · intro h
    constructor
    · intro a ha b hb
      obtain ⟨i, hi, rfl⟩ := List.mem_iff_getElem.mp ha
      obtain ⟨j, hj, rfl⟩ := List.mem_iff_getElem.mp hb
      rw [List.length_take] at hi
      rw [List.length_drop] at hj
      rw [List.getElem_take, List.getElem_drop]
      apply h
      rw [Nat.div_eq_of_lt (by omega), Nat.add_div_left j hk]
      exact Nat.succ_pos _
    · intro i j hi hj hblock
      rw [List.getElem_drop, List.getElem_drop]
      rw [List.length_drop] at hi hj
      apply h
      rw [Nat.add_div_left i hk, Nat.add_div_left j hk]
      exact Nat.succ_lt_succ hblock
  · rintro ⟨hfirst, hrest⟩ i j hi hj hblock
    have hbehind : k ≤ j := by
      by_contra hlt
      rw [Nat.div_eq_of_lt (Nat.lt_of_not_le hlt)] at hblock
      exact Nat.not_lt_zero _ hblock
    obtain ⟨j, rfl⟩ := Nat.exists_eq_add_of_le hbehind
    have hj' : j < (values.drop k).length := by
      rw [List.length_drop]
      omega
    have hdrop : values[k + j] = (values.drop k)[j] := List.getElem_drop.symm
    rw [hdrop]
    by_cases hfront : i < k
    · refine hfirst _ (List.mem_iff_getElem.mpr ⟨i, ?_, List.getElem_take⟩) _
        (List.getElem_mem hj')
      rw [List.length_take]
      omega
    · obtain ⟨i, rfl⟩ := Nat.exists_eq_add_of_le (Nat.le_of_not_lt hfront)
      rw [Nat.add_div_left i hk, Nat.add_div_left j hk] at hblock
      have hi' : i < (values.drop k).length := by
        rw [List.length_drop]
        omega
      have hrest' := hrest i j hi' hj' (Nat.lt_of_succ_lt_succ hblock)
      rwa [List.getElem_drop] at hrest'

/-- A full page and what is read behind it make up a sequence in order exactly if the sequence is in
order up to blocks, given that this holds of what lies behind the page. -/
theorem append_iff_inBlocks {key : α → β} {k : ℕ} (hk : 0 < k) {values page rest : List α}
    {last : α} (hfull : k ≤ values.length) (hpage : page.Perm (values.take k))
    (hstrict : page.Pairwise fun a b => key a < key b) (hlast : last ∈ page)
    (hrest : rest.Subperm ((values.drop k).filter fun a => decide (key last < key a)))
    (hiff : rest.Perm ((values.drop k).filter fun a => decide (key last < key a)) ∧
        rest.Pairwise (fun a b => key a < key b) ↔
      InBlocks key k ((values.drop k).filter fun a => decide (key last < key a))) :
    (page ++ rest).Perm values ∧ (page ++ rest).Pairwise (fun a b => key a < key b) ↔
      InBlocks key k values := by
  rw [inBlocks_iff hk]
  constructor
  · rintro ⟨hperm, hsorted⟩
    -- as many values are read behind the page as there are, so none of them is passed over
    have hcount : rest.length = (values.drop k).length := by
      have hlength := hperm.length_eq
      rw [List.length_append, hpage.length_eq, List.length_take, Nat.min_eq_left hfull] at hlength
      rw [List.length_drop]
      omega
    have hall : ((values.drop k).filter fun a => decide (key last < key a)) = values.drop k :=
      List.filter_sublist.eq_of_length_le (hcount ▸ hrest.length_le)
    rw [hall] at hrest hiff
    have hbehind := hrest.perm_of_length_le (Nat.le_of_eq hcount.symm)
    rw [List.pairwise_append] at hsorted
    refine ⟨fun a ha b hb => ?_, hiff.mp ⟨hbehind, hsorted.2.1⟩⟩
    exact hsorted.2.2 a (hpage.mem_iff.mpr ha) b (hbehind.mem_iff.mpr hb)
  · rintro ⟨hfirst, hblocks⟩
    have hall : ((values.drop k).filter fun a => decide (key last < key a)) = values.drop k := by
      rw [List.filter_eq_self]
      exact fun b hb => decide_eq_true (hfirst last (hpage.mem_iff.mp hlast) b hb)
    rw [hall] at hiff
    obtain ⟨hbehind, hsorted⟩ := hiff.mpr hblocks
    constructor
    · have hboth := hpage.append hbehind
      rwa [List.take_append_drop] at hboth
    · rw [List.pairwise_append]
      refine ⟨hstrict, hsorted, fun a ha b hb => ?_⟩
      exact hfirst a (hpage.mem_iff.mp ha) b (hbehind.mem_iff.mp hb)

namespace ReadsPages

variable {place : γ → β} {bound : α → γ} {values : List α} {k : ℕ} {read : Option γ → List α}

/-- The values of a page are strictly ordered if no two values have the same place. -/
theorem strictly (h : ReadsPages place bound values k read)
    (hnodup : (values.map fun a => place (bound a)).Nodup) (after : Option γ) :
    (read after).Pairwise fun a b => place (bound a) < place (bound b) := by
  have hsub : ((behind place bound values after).take k).Sublist values :=
    (List.take_sublist k _).trans List.filter_sublist
  have hdistinct : ((read after).map fun a => place (bound a)).Nodup :=
    ((h.perm after).map _).nodup_iff.mpr (hnodup.sublist (hsub.map _))
  have hne : (read after).Pairwise fun a b => place (bound a) ≠ place (bound b) :=
    List.pairwise_map.mp hdistinct
  exact (h.sorted after).imp₂ (fun _ _ hle hne => lt_of_le_of_ne hle hne) hne

/-- Behind the last value of a full page lie the values behind the page that are greater. -/
theorem behind_last (h : ReadsPages place bound values k read) {after : Option γ} {last : α}
    (hlast : (read after).getLast? = some last) :
    behind place bound values (some (bound last)) =
      ((behind place bound values after).drop k).filter
        fun a => decide (place (bound last) < place (bound a)) := by
  have hpage : ∀ a ∈ (behind place bound values after).take k,
      place (bound a) ≤ place (bound last) := by
    intro a ha
    obtain ⟨front, hfront⟩ := List.getLast?_eq_some_iff.mp hlast
    have hmem : a ∈ front ++ [last] := hfront ▸ (h.perm after).mem_iff.mpr ha
    have hsorted := h.sorted after
    rw [hfront, List.pairwise_append] at hsorted
    rcases List.mem_append.mp hmem with hmem | hmem
    · exact hsorted.2.2 a hmem last (List.mem_singleton_self last)
    · rw [List.mem_singleton.mp hmem]
  have hbehind : last ∈ behind place bound values after := by
    have hmem := (h.perm after).mem_iff.mp (List.mem_of_getLast? hlast)
    exact List.mem_of_mem_take hmem
  have hall : behind place bound values (some (bound last)) =
      (behind place bound values after).filter
        fun a => decide (place (bound last) < place (bound a)) := by
    unfold behind at hbehind ⊢
    rw [List.filter_filter]
    apply List.filter_congr
    intro a _
    have hgreater := of_decide_eq_true (List.mem_filter.mp hbehind).2
    rw [← Bool.decide_and, decide_eq_decide]
    constructor
    · intro hlt
      have hlast := hlt _ rfl
      exact ⟨hlast, fun b hb => (hgreater b hb).trans hlast⟩
    · rintro ⟨hlt, _⟩ b hb
      cases hb
      exact hlt
  have hnone : ((behind place bound values after).take k).filter
      (fun a => decide (place (bound last) < place (bound a))) = [] := by
    rw [List.filter_eq_nil_iff]
    intro a ha hlt
    exact absurd (of_decide_eq_true hlt) (not_lt.mpr (hpage a ha))
  rw [hall]
  conv_lhs => rw [← List.take_append_drop k (behind place bound values after)]
  rw [List.filter_append, hnone, List.nil_append]

/-- The pages from a bound on end, hold no value twice and nothing but values behind the bound, and
are these values in order exactly if these are in order up to blocks. -/
theorem pages (h : ReadsPages place bound values k read) (hk : 0 < k)
    (hnodup : (values.map fun a => place (bound a)).Nodup) (after : Option γ) :
    ∃ pages, (∀ fuel, (behind place bound values after).length < fuel →
        pagesFrom read bound k fuel after = some pages) ∧
      pages.flatten.Subperm (behind place bound values after) ∧
      (pages.flatten.Perm (behind place bound values after) ∧
        pages.flatten.Pairwise (fun a b => place (bound a) < place (bound b)) ↔
          InBlocks (fun a => place (bound a)) k (behind place bound values after)) := by
  -- induction on how many values lie behind the bound: a full page leaves fewer
  induction hlength : (behind place bound values after).length using Nat.strongRecOn
    generalizing after with
  | _ n ih =>
    subst hlength
    have hpage := h.perm after
    have hstrict := h.strictly hnodup after
    by_cases hshort : (read after).length < k
    · have hfew : (behind place bound values after).length < k := by
        rw [hpage.length_eq, List.length_take] at hshort
        omega
      rw [List.take_of_length_le (Nat.le_of_lt hfew)] at hpage
      refine ⟨[read after], ?_, ?_, ?_⟩
      · intro fuel hfuel
        cases fuel with
        | zero => omega
        | succ fuel => exact if_pos hshort
      · rw [List.flatten_singleton]
        exact hpage.subperm
      · rw [List.flatten_singleton]
        exact ⟨fun _ => inBlocks_of_length_le (Nat.le_of_lt hfew), fun _ => ⟨hpage, hstrict⟩⟩
    · have hfull : k ≤ (behind place bound values after).length := by
        rw [hpage.length_eq, List.length_take] at hshort
        omega
      obtain ⟨last, hlast⟩ : ∃ last, (read after).getLast? = some last := by
        rw [← Option.isSome_iff_exists, List.getLast?_isSome, ← List.length_pos_iff]
        omega
      have hnext := h.behind_last hlast
      have hsub : (behind place bound values (some (bound last))).Sublist
          ((behind place bound values after).drop k) := hnext ▸ List.filter_sublist
      have hless : (behind place bound values (some (bound last))).length <
          (behind place bound values after).length := by
        have hle := hsub.length_le
        rw [List.length_drop] at hle
        omega
      obtain ⟨pages, hpages, hsubperm, hiff⟩ := ih _ hless (some (bound last)) rfl
      refine ⟨read after :: pages, ?_, ?_, ?_⟩
      · intro fuel hfuel
        cases fuel with
        | zero => omega
        | succ fuel =>
          unfold pagesFrom
          dsimp only
          rw [if_neg hshort, hlast, Option.map_some, hpages fuel (by omega), Option.map_some]
      · rw [List.flatten_cons]
        have hboth := hpage.subperm.append (hsubperm.trans hsub.subperm)
        rwa [List.take_append_drop] at hboth
      · rw [List.flatten_cons]
        rw [hnext] at hsubperm hiff
        exact append_iff_inBlocks hk hfull hpage hstrict (List.mem_of_getLast? hlast) hsubperm hiff

end ReadsPages
