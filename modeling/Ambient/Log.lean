/-!
Notes about a run. A note has the verbosity it needs; a failure is shown always. Code that makes
notes returns them beside its value (`Noted`), and the value never depends on them.
-/

namespace Ambient

inductive Note
  /-- A message shown from verbosity `level` on. -/
  | trace (level : Int) (message : String)
  | failure (message : String)
  deriving DecidableEq, Repr

namespace Note

/-- A trace of a level that is not positive is never shown. -/
def isShown (verbosity : Int) : Note → Bool
  | trace level _ => level ≤ verbosity && 0 < level
  | failure _ => true

/-- The notes that a run of the given verbosity shows. -/
def shown (verbosity : Int) (notes : List Note) : List Note := notes.filter (isShown verbosity)

end Note

/-- A value with the notes made on the way to it. -/
structure Noted (α : Type) where
  value : α
  notes : List Note

namespace Noted

instance : Monad Noted where
  pure a := ⟨a, []⟩
  bind x f := ⟨(f x.value).value, x.notes ++ (f x.value).notes⟩

/-- Makes one note. -/
def trace (level : Int) (message : String) : Noted Unit := ⟨(), [.trace level message]⟩

@[simp] theorem value_pure {α : Type} (a : α) : (pure a : Noted α).value = a := rfl

@[simp] theorem value_bind {α β : Type} (x : Noted α) (f : α → Noted β) :
    (x >>= f).value = (f x.value).value := rfl

@[simp] theorem value_map {α β : Type} (f : α → β) (x : Noted α) :
    (f <$> x).value = f x.value := rfl

@[simp] theorem notes_pure {α : Type} (a : α) : (pure a : Noted α).notes = [] := rfl

@[simp] theorem notes_bind {α β : Type} (x : Noted α) (f : α → Noted β) :
    (x >>= f).notes = x.notes ++ (f x.value).notes := rfl

end Noted

end Ambient
