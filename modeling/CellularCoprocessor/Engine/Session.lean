import CellularCoprocessor.Engine.Execute

/-!
# Sessions

A session is a computation on an engine that may fail. A failure keeps the effects that came
before it, and nothing after it has an effect.
-/

namespace CellularCoprocessor

def Session (ε α : Type) : Type :=
  Engine → Except ε α × Engine

namespace Session

variable {ε α β : Type}

def run (x : Session ε α) (e : Engine) : Except ε α × Engine :=
  x e

def succeed (a : α) : Session ε α :=
  fun e => (.ok a, e)

def fail (failure : ε) : Session ε α :=
  fun e => (.error failure, e)

def andThen (x : Session ε α) (f : α → Session ε β) : Session ε β :=
  fun e =>
    match x e with
    | (.ok a, e) => f a e
    | (.error failure, e) => (.error failure, e)

instance : Monad (Session ε) where
  pure := succeed
  bind := andThen

/-- Runs an action of the engine; its errors become errors of the session. -/
def ofEngine (wrap : EngineError → ε) (action : Engine → Except EngineError α × Engine) :
    Session ε α :=
  fun e =>
    let (outcome, e) := action e
    (outcome.mapError wrap, e)

def execute (wrap : EngineError → ε) (i : Instruction) : Session ε Completion :=
  ofEngine wrap (·.execute i)

def engine : Session ε Engine :=
  fun e => (.ok e, e)

def updateMemory (f : Memory → Memory) : Session ε Unit :=
  fun e => (.ok (), e.withMemory (f e.memory))

def require (holds : Bool) (failure : ε) : Session ε Unit :=
  if holds then succeed () else fail failure

theorem run_pure (a : α) (e : Engine) : (pure a : Session ε α).run e = (.ok a, e) :=
  rfl

theorem run_bind_ok {x : Session ε α} {e t : Engine} {a : α} (h : x.run e = (.ok a, t))
    (f : α → Session ε β) : (x >>= f).run e = (f a).run t := by
  change andThen x f e = f a t
  rw [andThen, show x e = (.ok a, t) from h]

theorem run_bind_error {x : Session ε α} {e t : Engine} {failure : ε}
    (h : x.run e = (.error failure, t)) (f : α → Session ε β) :
    (x >>= f).run e = (.error failure, t) := by
  change andThen x f e = (.error failure, t)
  rw [andThen, show x e = (.error failure, t) from h]

theorem run_bind_eq_ok_iff {x : Session ε α} {f : α → Session ε β} {e u : Engine} {b : β} :
    (x >>= f).run e = (.ok b, u) ↔
      ∃ a t, x.run e = (.ok a, t) ∧ (f a).run t = (.ok b, u) := by
  constructor
  · intro h
    cases hx : x.run e with
    | mk outcome t =>
      cases outcome with
      | ok a => exact ⟨a, t, rfl, (run_bind_ok hx f).symm.trans h⟩
      | error failure =>
        rw [run_bind_error hx f] at h
        cases h
  · intro h
    obtain ⟨a, t, hx, hf⟩ := h
    rw [run_bind_ok hx f, hf]

theorem run_execute (wrap : EngineError → ε) (i : Instruction) (e : Engine) :
    (execute wrap i).run e = ((e.execute i).1.mapError wrap, (e.execute i).2) :=
  rfl

end Session

end CellularCoprocessor
