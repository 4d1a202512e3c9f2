-- Work that can fail and that leaves a trace: which classes were decoded, which
-- fixes ran, and which calls the remap engine got. The trace only grows, so the
-- outcome of a piece of work never depends on it.
import JarDerivation.Error

namespace JarDerivation

inductive Event where
  /-- Bytes were given to the codec of the project. -/
  | decoded
  | fixed (fix entry : String)
  /-- A call of an engine that the project brings along. -/
  | remapped (source target : String) (classpath classes : List String)
  deriving DecidableEq, Repr

structure Traced (α : Type) where
  outcome : Except Error α
  events : List Event

namespace Traced

instance : Monad Traced where
  pure a := ⟨.ok a, []⟩
  bind x f :=
    match x.outcome with
    | .ok a => ⟨(f a).outcome, x.events ++ (f a).events⟩
    | .error e => ⟨.error e, x.events⟩

def fail {α : Type} (e : Error) : Traced α := ⟨.error e, []⟩

def ofExcept {α : Type} (r : Except Error α) : Traced α := ⟨r, []⟩

def note (e : Event) : Traced Unit := ⟨.ok (), [e]⟩

@[simp] theorem outcome_pure {α : Type} (a : α) : (pure a : Traced α).outcome = .ok a := rfl

@[simp] theorem outcome_bind {α β : Type} (x : Traced α) (f : α → Traced β) :
    (x >>= f).outcome = x.outcome >>= fun a => (f a).outcome := by
  cases x with
  | mk outcome events => cases outcome <;> rfl

@[simp] theorem outcome_fail {α : Type} (e : Error) : (fail e : Traced α).outcome = .error e := rfl

@[simp] theorem outcome_ofExcept {α : Type} (r : Except Error α) : (ofExcept r).outcome = r := rfl

@[simp] theorem outcome_note (e : Event) : (note e).outcome = .ok () := rfl

end Traced

end JarDerivation
