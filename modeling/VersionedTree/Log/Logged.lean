import VersionedTree.Log.Event

/-!
# Computations that record events

`Logged α` is a value together with the events that were recorded on the way to it. `Traced ε α`
may also fail; the events recorded before a failure are kept.

## What is proved

* `Logged` is a lawful monad, so `Traced ε` is one.
* `Traced.result_bind` — the result of a computation does not depend on the events.
-/

namespace VersionedTree

/-- A value and the events recorded on the way to it, first one first. -/
structure Logged (α : Type) where
  /-- The events. -/
  events : List Event
  /-- The value. -/
  value : α

namespace Logged

instance : Monad Logged where
  pure a := ⟨[], a⟩
  bind x f := ⟨x.events ++ (f x.value).events, (f x.value).value⟩

/-- Record an event. -/
def record (e : Event) : Logged Unit := ⟨[e], ()⟩

@[simp]
theorem value_pure {α : Type} (a : α) : (pure a : Logged α).value = a := rfl

@[simp]
theorem events_pure {α : Type} (a : α) : (pure a : Logged α).events = [] := rfl

@[simp]
theorem value_bind {α β : Type} (x : Logged α) (f : α → Logged β) :
    (x >>= f).value = (f x.value).value := rfl

@[simp]
theorem events_bind {α β : Type} (x : Logged α) (f : α → Logged β) :
    (x >>= f).events = x.events ++ (f x.value).events := rfl

instance : LawfulMonad Logged :=
  LawfulMonad.mk' Logged
    (fun x => by
      show (⟨x.events ++ [], x.value⟩ : Logged _) = x
      rw [List.append_nil])
    (fun _ _ => rfl)
    (fun x f g => by
      show (⟨(x.events ++ _) ++ _, _⟩ : Logged _) = ⟨x.events ++ (_ ++ _), _⟩
      rw [List.append_assoc]
      rfl)

end Logged

/-- A computation that records events and may fail. -/
abbrev Traced (ε : Type) := ExceptT ε Logged

namespace Traced

variable {ε α β : Type}

/-- What the computation gives. -/
def result (x : Traced ε α) : Except ε α := x.run.value

/-- What the computation records. -/
def events (x : Traced ε α) : List Event := x.run.events

/-- Record an event. -/
def record (e : Event) : Traced ε Unit := ExceptT.lift (Logged.record e)

@[simp]
theorem result_pure (a : α) : (pure a : Traced ε α).result = .ok a := rfl

@[simp]
theorem result_throw (e : ε) : (throw e : Traced ε α).result = .error e := rfl

@[simp]
theorem result_record (e : Event) : (record e : Traced ε Unit).result = .ok () := rfl

/-- The result of a computation does not depend on the events. -/
theorem result_bind (x : Traced ε α) (f : α → Traced ε β) :
    (x >>= f).result = x.result >>= fun a => (f a).result := by
  show (ExceptT.bindCont f x.run.value).value = _
  unfold result
  cases x.run.value <;> rfl

end Traced

end VersionedTree
