import Mathlib.Data.List.Sublists

/-!
# Contents that survive a crash

A medium holds a content that is safe and the changes made to it since. Programs see all
changes; a crash may lose or keep each of them, in order. A barrier makes what programs
see the safe content. The type of contents and the effect of a change are arbitrary.
-/

namespace Durability

universe u v

/-- What a program does to a medium. -/
inductive Effect (δ : Type v)
  | alter (change : δ)
  | sync
  deriving DecidableEq

/-- A safe content and the changes made since it was made safe. -/
structure Medium (σ : Type u) (δ : Type v) where
  /-- The content of the last barrier. -/
  durable : σ
  /-- The changes since then, oldest first. -/
  pending : List δ
  deriving DecidableEq

/-- What programs see after an effect. -/
def Effect.visible {σ : Type u} {δ : Type v} (apply : σ → δ → σ) (seen : σ) : Effect δ → σ
  | .alter change => apply seen change
  | .sync => seen

/-- The change of an effect. -/
def Effect.change? {δ : Type v} : Effect δ → Option δ
  | .alter change => some change
  | .sync => none

/-- The changes among several effects. -/
def changes {δ : Type v} (effects : List (Effect δ)) : List δ := effects.filterMap Effect.change?

@[simp] theorem changes_map_alter {δ : Type v} (list : List δ) :
    changes (list.map Effect.alter) = list := by
  induction list with
  | nil => rfl
  | cons change list ih => exact congrArg (change :: ·) ih

@[simp] theorem changes_concat_sync {δ : Type v} (effects : List (Effect δ)) :
    changes (effects ++ [.sync]) = changes effects := by
  rw [changes, List.filterMap_append]
  exact List.append_nil _

/-- Programs see changes one after the other. -/
theorem foldl_visible_map_alter {σ : Type u} {δ : Type v} (apply : σ → δ → σ) (seen : σ)
    (list : List δ) :
    (list.map Effect.alter).foldl (Effect.visible apply) seen = list.foldl apply seen := by
  rw [List.foldl_map]
  rfl

namespace Medium

variable {σ : Type u} {δ : Type v} (apply : σ → δ → σ)

/-- The content that programs see. -/
def content (m : Medium σ δ) : σ := m.pending.foldl apply m.durable

/-- The medium after one effect. -/
def perform (m : Medium σ δ) : Effect δ → Medium σ δ
  | .alter change => { m with pending := m.pending ++ [change] }
  | .sync => ⟨m.content apply, []⟩

/-- The medium after several effects. -/
def performAll (m : Medium σ δ) (effects : List (Effect δ)) : Medium σ δ :=
  effects.foldl (perform apply) m

/-- The contents a crash can leave: each pending change is lost or kept. -/
def survivors (m : Medium σ δ) : List σ :=
  m.pending.sublists.map fun kept => kept.foldl apply m.durable

/-- A content survives if some of the pending changes lead to it. -/
theorem mem_survivors {m : Medium σ δ} {s : σ} :
    s ∈ m.survivors apply ↔
      ∃ kept : List δ, kept.Sublist m.pending ∧ kept.foldl apply m.durable = s := by
  simp only [survivors, List.mem_map, List.mem_sublists]

/-- A crash can lose every pending change. -/
theorem durable_mem_survivors (m : Medium σ δ) : m.durable ∈ m.survivors apply :=
  (mem_survivors apply).mpr ⟨[], List.nil_sublist _, rfl⟩

/-- A crash can keep every pending change. -/
theorem content_mem_survivors (m : Medium σ δ) : m.content apply ∈ m.survivors apply :=
  (mem_survivors apply).mpr ⟨m.pending, List.Sublist.refl _, rfl⟩

/-- With nothing pending programs see the safe content. -/
theorem content_of_pending_nil {m : Medium σ δ} (h : m.pending = []) :
    m.content apply = m.durable := by
  rw [content, h, List.foldl_nil]

/-- Programs see the effects of what they do, whatever is safe. -/
theorem content_performAll (m : Medium σ δ) (effects : List (Effect δ)) :
    (m.performAll apply effects).content apply =
      effects.foldl (Effect.visible apply) (m.content apply) := by
  induction effects generalizing m with
  | nil => rfl
  | cons effect effects ih =>
    have hstep : (m.perform apply effect).content apply =
        Effect.visible apply (m.content apply) effect := by
      cases effect with
      | alter change => simp only [perform, content, List.foldl_append, List.foldl_cons,
          List.foldl_nil, Effect.visible]
      | sync => rfl
    rw [performAll, List.foldl_cons, List.foldl_cons, ← hstep]
    exact ih (m.perform apply effect)

/-- Changes without a barrier become pending. -/
theorem performAll_changes (m : Medium σ δ) (changes : List δ) :
    m.performAll apply (changes.map .alter) =
      { m with pending := m.pending ++ changes } := by
  induction changes generalizing m with
  | nil => simp only [List.map_nil, performAll, List.foldl_nil, List.append_nil]
  | cons change changes ih =>
    rw [List.map_cons, performAll, List.foldl_cons]
    refine (ih (m.perform apply (.alter change))).trans ?_
    simp only [perform, List.append_assoc, List.singleton_append]

/-- After further changes a crash leaves what it could leave before, with some of the new
changes made to it. -/
theorem mem_survivors_changes {m : Medium σ δ} {changes : List δ} {s : σ} :
    s ∈ (m.performAll apply (changes.map .alter)).survivors apply ↔
      ∃ t ∈ m.survivors apply, ∃ kept : List δ, kept.Sublist changes ∧ kept.foldl apply t = s := by
  rw [performAll_changes, mem_survivors]
  constructor
  · rintro ⟨kept, hkept, rfl⟩
    obtain ⟨first, second, rfl, hfirst, hsecond⟩ := List.sublist_append_iff.mp hkept
    refine ⟨first.foldl apply m.durable, (mem_survivors apply).mpr ⟨first, hfirst, rfl⟩, second,
      hsecond, ?_⟩
    rw [List.foldl_append]
  · rintro ⟨t, ht, second, hsecond, rfl⟩
    obtain ⟨first, hfirst, rfl⟩ := (mem_survivors apply).mp ht
    exact ⟨first ++ second, hfirst.append hsecond, List.foldl_append⟩

/-- After one more change a crash leaves what it could leave before, with or without it. -/
theorem mem_survivors_alter {m : Medium σ δ} {change : δ} {s : σ} :
    s ∈ (m.perform apply (.alter change)).survivors apply ↔
      s ∈ m.survivors apply ∨ ∃ t ∈ m.survivors apply, apply t change = s := by
  refine (@mem_survivors_changes _ _ apply m [change] s).trans ?_
  constructor
  · rintro ⟨t, ht, kept, hkept, rfl⟩
    rcases List.sublist_singleton.mp hkept with rfl | rfl
    · exact Or.inl ht
    · exact Or.inr ⟨t, ht, rfl⟩
  · rintro (hs | ⟨t, ht, rfl⟩)
    · exact ⟨s, hs, [], List.nil_sublist _, rfl⟩
    · exact ⟨t, ht, [change], List.Sublist.refl _, rfl⟩

/-- With nothing pending a crash changes nothing. -/
theorem mem_survivors_of_pending_nil {m : Medium σ δ} (h : m.pending = []) {s : σ} :
    s ∈ m.survivors apply ↔ s = m.durable := by
  rw [mem_survivors, h]
  constructor
  · rintro ⟨kept, hkept, rfl⟩
    rw [List.sublist_nil.mp hkept]
    rfl
  · rintro rfl
    exact ⟨[], List.nil_sublist _, rfl⟩

/-- What all survivors have in common, and every change keeps, all survivors still have in
common after further effects. -/
theorem survivors_performAll {P : σ → Prop} {effects : List (Effect δ)}
    (hkeeps : ∀ change ∈ changes effects, ∀ s, P s → P (apply s change)) {m : Medium σ δ}
    (h : ∀ s ∈ m.survivors apply, P s) :
    ∀ s ∈ (m.performAll apply effects).survivors apply, P s := by
  induction effects generalizing m with
  | nil => exact h
  | cons effect effects ih =>
    rw [performAll, List.foldl_cons]
    cases effect with
    | alter change =>
      refine ih (fun other hmem => hkeeps other (List.mem_cons_of_mem change hmem)) ?_
      intro s hs
      rcases (mem_survivors_alter apply).mp hs with hold | ⟨t, ht, rfl⟩
      · exact h s hold
      · exact hkeeps change List.mem_cons_self t (h t ht)
    | sync =>
      refine ih hkeeps ?_
      intro s hs
      rw [(mem_survivors_of_pending_nil apply rfl).mp hs]
      exact h _ (m.content_mem_survivors apply)

/-- Effects that end with a barrier leave nothing pending. -/
theorem performAll_sync (m : Medium σ δ) (effects : List (Effect δ)) :
    m.performAll apply (effects ++ [.sync]) =
      ⟨effects.foldl (Effect.visible apply) (m.content apply), []⟩ := by
  rw [← content_performAll, performAll, List.foldl_append]
  rfl

end Medium

end Durability
