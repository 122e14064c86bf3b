import MiniDB.Library.ByteSequence

/-!
# Raw memory

A computation may leave its defined course in two ways: it throws an exception, which
a caller can catch, or it performs an operation whose behaviour is undefined. Copies
from and into buffers are checked against the buffer's size, so that an access outside
it is visible as the second kind of fault.
-/

namespace Memory

open ByteSequence

/-- The ways a computation fails to return. -/
inductive Fault
  | exception
  | undefined
  deriving DecidableEq

/-- Copy `count` bytes out of a buffer, starting at `offset`. -/
def copyOut (buffer : List UInt8) (offset count : ℕ) : Except Fault (List UInt8) :=
  if offset + count ≤ buffer.length then .ok ((buffer.drop offset).take count)
  else .error .undefined

/-- Copy bytes into a buffer, starting at `offset`. -/
def copyIn (buffer : List UInt8) (offset : ℕ) (data : List UInt8) : Except Fault (List UInt8) :=
  if offset + data.length ≤ buffer.length then .ok (overwrite 0 buffer offset data)
  else .error .undefined

/-- Element access of a vector, undefined outside it. -/
def elementAt {α : Type*} (items : List α) (position : ℕ) : Except Fault α :=
  match items[position]? with
  | some item => .ok item
  | none => .error .undefined

/-- The value of a computation that did not fault. -/
theorem toOption_eq_some {α : Type*} {action : Except Fault α} {value : α} :
    action.toOption = some value ↔ action = .ok value := by
  cases action with
  | error fault => simp [Except.toOption]
  | ok result => simp [Except.toOption]

/-- A mapped computation ends normally exactly if the computation does. -/
theorem map_eq_ok {α β : Type*} {f : α → β} {action : Except Fault α} {result : β} :
    action.map f = .ok result ↔ ∃ value, action = .ok value ∧ f value = result := by
  cases action with
  | error fault => simp [Except.map]
  | ok value => simp [Except.map]

/-- A stateless computation ends normally exactly if its first part and then the rest do. -/
theorem except_bind_eq_ok {α β : Type} {action : Except Fault α} {next : α → Except Fault β}
    {result : β} :
    (action >>= next) = .ok result ↔ ∃ value, action = .ok value ∧ next value = .ok result := by
  cases action with
  | error fault => simp [bind, Except.bind]
  | ok value => simp [bind, Except.bind]

/-- A stateless computation inside a stateful one; the state survives its fault. -/
instance {State : Type} : MonadLift (Except Fault) (EStateM Fault State) where
  monadLift action := match action with
    | .ok value => pure value
    | .error fault => throw fault

/-- A handler that turns every exception into a fallback value. Undefined behaviour is not
caught. -/
def catching {State α : Type} (fallback : α) (action : EStateM Fault State α) :
    EStateM Fault State α := fun s =>
  match action s with
  | .ok value s' => .ok value s'
  | .error .exception s' => .ok fallback s'
  | .error .undefined s' => .error .undefined s'

/-- A handled computation ends with another value than the fallback exactly if the
computation does. -/
theorem catching_eq_ok {State α : Type} {fallback value : α} (hvalue : value ≠ fallback)
    {action : EStateM Fault State α} {s s' : State} :
    catching fallback action s = .ok value s' ↔ action s = .ok value s' := by
  unfold catching
  cases action s with
  | ok result s₁ => rfl
  | error fault s₁ =>
    cases fault with
    | exception =>
      constructor
      · intro h
        injection h with hfallback
        exact absurd hfallback.symm hvalue
      · intro h
        cases h
    | undefined =>
      constructor
      · intro h
        cases h
      · intro h
        cases h

/-- A handled computation ends with a value, or it is undefined. -/
theorem catching_cases {State α : Type} (fallback : α) (action : EStateM Fault State α)
    (s : State) : (∃ value s', catching fallback action s = .ok value s') ∨
      ∃ s', catching fallback action s = .error .undefined s' := by
  unfold catching
  cases action s with
  | ok value s' => exact Or.inl ⟨value, s', rfl⟩
  | error fault s' =>
    cases fault with
    | exception => exact Or.inl ⟨fallback, s', rfl⟩
    | undefined => exact Or.inr ⟨s', rfl⟩

/-- A handled exception becomes the fallback. -/
theorem catching_of_exception {State α : Type} {fallback : α} {action : EStateM Fault State α}
    {s s' : State} (h : action s = .error .exception s') :
    catching fallback action s = .ok fallback s' := by
  unfold catching
  rw [h]

/-- A computation that ends normally behind a bind ended normally in front of it. -/
theorem bind_eq_ok {State α β : Type} {action : EStateM Fault State α}
    {next : α → EStateM Fault State β} {s s'' : State} {result : β}
    (h : (action >>= next) s = .ok result s'') :
    ∃ value s', action s = .ok value s' ∧ next value s' = .ok result s'' := by
  change EStateM.bind action next s = _ at h
  unfold EStateM.bind at h
  split at h
  · rename_i value s' haction
    exact ⟨value, s', haction, h⟩
  · cases h

/-- A computation that ends normally passes its value and state on. -/
theorem bind_of_ok {State α β : Type} {action : EStateM Fault State α} {s s' : State} {value : α}
    (h : action s = .ok value s') (next : α → EStateM Fault State β) :
    (action >>= next) s = next value s' := by
  change EStateM.bind action next s = _
  unfold EStateM.bind
  rw [h]

/-- A computation that faults ends what is bound to it. -/
theorem bind_of_error {State α β : Type} {action : EStateM Fault State α} {s s' : State}
    {fault : Fault} (h : action s = .error fault s') (next : α → EStateM Fault State β) :
    (action >>= next) s = .error fault s' := by
  change EStateM.bind action next s = _
  unfold EStateM.bind
  rw [h]

/-- A stateless computation in front of one that ends normally ended normally and left the
state alone. -/
theorem lift_bind_eq_ok {State α β : Type} {action : Except Fault α}
    {next : α → EStateM Fault State β} {s s' : State} {result : β}
    (h : ((liftM action : EStateM Fault State α) >>= next) s = .ok result s') :
    ∃ value, action = .ok value ∧ next value s = .ok result s' := by
  cases action with
  | error fault => cases h
  | ok value => exact ⟨value, rfl, h⟩

/-- A stateless computation that ends normally passes its value on. -/
theorem lift_bind_of_ok {State α β : Type} {action : Except Fault α} {value : α}
    (h : action = .ok value) (next : α → EStateM Fault State β) (s : State) :
    ((liftM action : EStateM Fault State α) >>= next) s = next value s := by
  rw [h]
  rfl

/-- A stateless computation passes its value on, or its fault ends the computation. -/
theorem lift_bind {State α β : Type} (action : Except Fault α) (next : α → EStateM Fault State β)
    (s : State) :
    ((liftM action : EStateM Fault State α) >>= next) s =
      match action with
      | .ok value => next value s
      | .error fault => .error fault s := by
  cases action with
  | error fault => rfl
  | ok value => rfl

/-- Stateless computations one behind the other are one stateless computation. -/
theorem lift_lift_bind {State α β γ : Type} (action : Except Fault α) (f : α → Except Fault β)
    (next : β → EStateM Fault State γ) (s : State) :
    ((liftM action : EStateM Fault State α) >>= fun value =>
      (liftM (f value) : EStateM Fault State β) >>= next) s =
        ((liftM (action >>= f) : EStateM Fault State β) >>= next) s := by
  cases action with
  | error fault => rfl
  | ok value => rfl

/-- Reading the state passes it on. -/
theorem get_bind {State β : Type} (next : State → EStateM Fault State β) (s : State) :
    ((get : EStateM Fault State State) >>= next) s = next s s := rfl

/-- A state change is seen by everything behind it. -/
theorem modify_bind {State β : Type} (change : State → State)
    (next : PUnit → EStateM Fault State β) (s : State) :
    ((modify change : EStateM Fault State PUnit) >>= next) s = next ⟨⟩ (change s) := rfl

/-- A state change with a result passes both on. -/
theorem modifyGet_bind {State α β : Type} (change : State → α × State)
    (next : α → EStateM Fault State β) (s : State) :
    ((modifyGet change : EStateM Fault State α) >>= next) s = next (change s).1 (change s).2 := rfl

/-- The state that a computation ends in, normally or by a fault. -/
def finalState {State α : Type} : EStateM.Result Fault State α → State
  | .ok _ s => s
  | .error _ s => s

/-- What both parts of a computation respect, the computation respects. -/
theorem finalState_bind {State α β : Type} {R : State → State → Prop}
    (htrans : ∀ {s s' s''}, R s s' → R s' s'' → R s s'') {action : EStateM Fault State α}
    {next : α → EStateM Fault State β} {s : State} (haction : R s (finalState (action s)))
    (hnext : ∀ value s', action s = .ok value s' → R s' (finalState (next value s'))) :
    R s (finalState ((action >>= next) s)) := by
  change R s (finalState (EStateM.bind action next s))
  unfold EStateM.bind
  cases h : action s with
  | error fault s' =>
    rw [h] at haction
    exact haction
  | ok value s' =>
    rw [h] at haction
    exact htrans haction (hnext value s' h)

/-- What the rest of a computation respects, it respects with a stateless computation in
front. -/
theorem finalState_lift_bind {State α β : Type} {R : State → State → Prop} {s : State}
    (hrefl : R s s) {action : Except Fault α} {next : α → EStateM Fault State β}
    (hnext : ∀ value, action = .ok value → R s (finalState (next value s))) :
    R s (finalState (((liftM action : EStateM Fault State α) >>= next) s)) := by
  cases action with
  | error fault => exact hrefl
  | ok value => exact hnext value rfl

/-- Handling an exception leaves the state where it was thrown. -/
theorem finalState_catching {State α : Type} (fallback : α) (action : EStateM Fault State α)
    (s : State) : finalState (catching fallback action s) = finalState (action s) := by
  unfold catching
  cases action s with
  | ok value s' => rfl
  | error fault s' =>
    cases fault with
    | exception => rfl
    | undefined => rfl

/-- Reading inside a buffer is defined. -/
theorem copyOut_of_le {buffer : List UInt8} {offset count : ℕ}
    (h : offset + count ≤ buffer.length) :
    copyOut buffer offset count = .ok ((buffer.drop offset).take count) :=
  if_pos h

/-- Reading a field behind known bytes returns that field. -/
theorem copyOut_append (before field after : List UInt8) :
    copyOut (before ++ field ++ after) before.length field.length = .ok field := by
  rw [copyOut_of_le (by simp)]
  simp

/-- Filling a buffer from its start: the next field lands behind those already
written. -/
theorem copyIn_append {before blank : List UInt8} (field : List UInt8)
    (h : field.length ≤ blank.length) :
    copyIn (before ++ blank) before.length field =
      .ok ((before ++ field) ++ blank.drop field.length) := by
  have hinside : before.length + field.length ≤ (before ++ blank).length := by
    rw [List.length_append]
    omega
  rw [copyIn, if_pos hinside, overwrite_of_le 0 _ (by simp)]
  simp

/-- Element access inside a vector is defined. -/
theorem elementAt_of_lt {α : Type*} {items : List α} {position : ℕ} (h : position < items.length) :
    elementAt items position = .ok items[position] := by
  simp [elementAt, h]

end Memory
