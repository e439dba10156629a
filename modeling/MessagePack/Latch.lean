import MessagePack.Error

/-!
Sticky errors.

An `Attempt` is an operation that may fail and, failing or not, leaves a state behind. A
`Latch` keeps the first error of the attempts made through it; from then on every call
returns that error and the state stays as the failing attempt left it.
-/

namespace MessagePack

abbrev Attempt (σ α : Type) := ExceptT Error (StateM σ) α

namespace Attempt

def lift (result : Except Error α) : Attempt σ α :=
  fun state => (result, state)

/-- Run an attempt on a part of the state. -/
def within (part : σ → ρ) (replace : ρ → σ → σ) (attempt : Attempt ρ α) : Attempt σ α :=
  fun state =>
    let (result, changed) := attempt (part state)
    (result, replace changed state)

/-- Update a part of the state by an operation that leaves it alone when it fails. -/
def update (part : σ → ρ) (replace : ρ → σ → σ) (operation : ρ → Except Error ρ) :
    Attempt σ Unit :=
  fun state =>
    match operation (part state) with
    | .ok changed => (.ok (), replace changed state)
    | .error error => (.error error, state)

theorem bind_eq_ok {attempt : Attempt σ α} {next : α → Attempt σ β} {state final : σ}
    {result : β} (hbind : (attempt >>= next) state = (.ok result, final)) :
    ∃ value middle, attempt state = (.ok value, middle) ∧
      next value middle = (.ok result, final) := by
  rcases hattempt : attempt state with ⟨outcome, middle⟩
  have hstep : (attempt >>= next) state =
      ExceptT.bindCont next outcome middle := by
    show ExceptT.bindCont next (attempt state).1 (attempt state).2 = _
    rw [hattempt]
  rw [hstep] at hbind
  cases outcome with
  | ok value => exact ⟨value, middle, rfl, hbind⟩
  | error error => cases hbind

theorem lift_eq_ok {outcome : Except Error α} {state final : σ} {value : α}
    (hlift : lift outcome state = (.ok value, final)) : outcome = .ok value ∧ final = state := by
  cases hlift
  exact ⟨rfl, rfl⟩

end Attempt

structure Latch (σ : Type) where
  state : σ
  error? : Option Error := none

namespace Latch

def call (attempt : Attempt σ α) : Attempt (Latch σ) α :=
  fun latch =>
    match latch.error? with
    | some error => (.error error, latch)
    | none =>
        match attempt latch.state with
        | (.ok value, state) => (.ok value, { state })
        | (.error error, state) => (.error error, { state, error? := some error })

/-- An attempt that only looks at the state. -/
def query (look : σ → Except Error α) : Attempt (Latch σ) α :=
  call fun state => (look state, state)

/-- Record an error; the first one wins and is the one returned. -/
def fail (error : Error) (latch : Latch σ) : Error × Latch σ :=
  match latch.error? with
  | some first => (first, latch)
  | none => (error, { latch with error? := some error })

end Latch
end MessagePack
