import MessagePack.Latch

/-!
Running attempts: how an attempt made of two goes on, and when attempts over different states
agree.
-/

namespace MessagePack
namespace Attempt

variable {σ τ α β : Type} {state middle : σ}

theorem bind_of_ok {attempt : Attempt σ α} {next : α → Attempt σ β} {value : α}
    (hattempt : attempt state = (.ok value, middle)) :
    (attempt >>= next) state = next value middle := by
  show ExceptT.bindCont next (attempt state).1 (attempt state).2 = _
  rw [hattempt]
  rfl

theorem bind_of_error {attempt : Attempt σ α} {next : α → Attempt σ β} {error : Error}
    (hattempt : attempt state = (.error error, middle)) :
    (attempt >>= next) state = (.error error, middle) := by
  show ExceptT.bindCont next (attempt state).1 (attempt state).2 = _
  rw [hattempt]
  rfl

theorem get_bind (next : σ → Attempt σ β) (state : σ) :
    ((get : Attempt σ σ) >>= next) state = next state state :=
  rfl

theorem modify_bind (change : σ → σ) (next : PUnit → Attempt σ β) (state : σ) :
    ((modify change : Attempt σ PUnit) >>= next) state = next ⟨⟩ (change state) :=
  rfl

theorem lift_bind_ok (value : α) (next : α → Attempt σ β) (state : σ) :
    (lift (.ok value) >>= next) state = next value state :=
  rfl

theorem update_of_ok {part : σ → τ} {replace : τ → σ → σ} {operation : τ → Except Error τ}
    {changed : τ} (hoperation : operation (part state) = .ok changed) :
    update part replace operation state = (.ok (), replace changed state) := by
  simp only [update, hoperation]

theorem update_of_error {part : σ → τ} {replace : τ → σ → σ}
    {operation : τ → Except Error τ} {error : Error}
    (hoperation : operation (part state) = .error error) :
    update part replace operation state = (.error error, state) := by
  simp only [update, hoperation]

theorem update_eq_ok {part : σ → τ} {replace : τ → σ → σ} {operation : τ → Except Error τ}
    {done : Unit} {after : σ} (hupdate : update part replace operation state = (.ok done, after)) :
    ∃ changed, operation (part state) = .ok changed ∧ after = replace changed state := by
  cases hoperation : operation (part state) with
  | error error =>
      rw [update_of_error hoperation] at hupdate
      cases hupdate
  | ok changed =>
      rw [update_of_ok hoperation] at hupdate
      cases hupdate
      exact ⟨changed, rfl, rfl⟩

theorem within_eq_ok {part : σ → τ} {replace : τ → σ → σ} {attempt : Attempt τ α} {value : α}
    {after : σ} (hwithin : within part replace attempt state = (.ok value, after)) :
    ∃ changed, attempt (part state) = (.ok value, changed) ∧ after = replace changed state := by
  rcases hattempt : attempt (part state) with ⟨result, changed⟩
  simp only [within, hattempt] at hwithin
  cases hwithin
  exact ⟨changed, rfl, rfl⟩

/-! Two attempts agree along a relation between their states when they come to the same
outcome and keep the states related, failing or not. -/

def Agrees (related : σ → τ → Prop) (first : Attempt σ α) (second : Attempt τ α) : Prop :=
  ∀ state other, related state other →
    (first state).1 = (second other).1 ∧ related (first state).2 (second other).2

namespace Agrees

variable {related : σ → τ → Prop}

/-- What comes out on the one side comes out on the other. -/
theorem run {first : Attempt σ α} {second : Attempt τ α} {state after : σ} {other : τ}
    {result : Except Error α} (hagrees : Agrees related first second)
    (hrelated : related state other) (hrun : first state = (result, after)) :
    ∃ later, second other = (result, later) ∧ related after later := by
  obtain ⟨hresult, hafter⟩ := hagrees state other hrelated
  rw [hrun] at hresult hafter
  exact ⟨(second other).2, Prod.ext hresult.symm rfl, hafter⟩

theorem pure (value : α) :
    Agrees related (Pure.pure value : Attempt σ α) (Pure.pure value : Attempt τ α) :=
  fun _ _ hrelated => ⟨rfl, hrelated⟩

theorem throw (error : Error) :
    Agrees related (throwThe Error error : Attempt σ α) (throwThe Error error : Attempt τ α) :=
  fun _ _ hrelated => ⟨rfl, hrelated⟩

/-- What would follow an error does not matter. -/
theorem throw_bind (error : Error) (next : α → Attempt σ β) (later : α → Attempt τ β) :
    Agrees related (throwThe Error error >>= next) (throwThe Error error >>= later) :=
  fun _ _ hrelated => ⟨rfl, hrelated⟩

theorem lift (outcome : Except Error α) :
    Agrees related (Attempt.lift outcome : Attempt σ α) (Attempt.lift outcome : Attempt τ α) :=
  fun _ _ hrelated => ⟨rfl, hrelated⟩

theorem bind {first : Attempt σ α} {second : Attempt τ α} {next : α → Attempt σ β}
    {later : α → Attempt τ β} (hfirst : Agrees related first second)
    (hnext : ∀ value, Agrees related (next value) (later value)) :
    Agrees related (first >>= next) (second >>= later) := by
  intro state other hrelated
  obtain ⟨hresult, hafter⟩ := hfirst state other hrelated
  rcases hrun : first state with ⟨result, after⟩
  rcases hother : second other with ⟨outcome, changed⟩
  rw [hrun, hother] at hresult hafter
  cases hresult
  cases result with
  | ok value =>
      rw [bind_of_ok hrun, bind_of_ok hother]
      exact hnext value after changed hafter
  | error error =>
      rw [bind_of_error hrun, bind_of_error hother]
      exact ⟨rfl, hafter⟩

/-- One operation on parts that are the same. -/
theorem update {ρ : Type} {part : σ → ρ} {other : τ → ρ} {replace : ρ → σ → σ}
    {restore : ρ → τ → τ} (operation : ρ → Except Error ρ)
    (hpart : ∀ state later, related state later → part state = other later)
    (hrelated : ∀ changed state later, related state later →
      related (replace changed state) (restore changed later)) :
    Agrees related (Attempt.update part replace operation)
      (Attempt.update other restore operation) := by
  intro state later hstate
  cases hoperation : operation (part state) with
  | error error =>
      have hother : operation (other later) = .error error := hpart state later hstate ▸ hoperation
      rw [update_of_error hoperation, update_of_error hother]
      exact ⟨rfl, hstate⟩
  | ok changed =>
      have hother : operation (other later) = .ok changed := hpart state later hstate ▸ hoperation
      rw [update_of_ok hoperation, update_of_ok hother]
      exact ⟨rfl, hrelated changed state later hstate⟩

/-- What is read off the two states may differ, as long as what follows agrees. -/
theorem get {next : σ → Attempt σ β} {later : τ → Attempt τ β}
    (hnext : ∀ state other, related state other → Agrees related (next state) (later other)) :
    Agrees related (MonadState.get >>= next) (MonadState.get >>= later) :=
  fun state other hrelated => hnext state other hrelated state other hrelated

end Agrees

/-! Of two runs of one attempt the first may be left behind by an I/O error. Until then they
come to the same. -/

/-- How two runs end. -/
inductive Met (related : σ → σ → Prop) (behind : IoFailure → σ → σ → Prop) :
    Except Error α × σ → Except Error α × σ → Prop
  | along {result : Except Error α} {after later : σ} (hrelated : related after later) :
      Met related behind (result, after) (result, later)
  | behind {failure : IoFailure} {result : Except Error α} {after later : σ}
      (hbehind : behind failure after later) :
      Met related behind (.error (.io failure), after) (result, later)

/-- A run that has been left behind stays there, whatever the other one goes on to do. -/
structure Lags (related : σ → σ → Prop) (behind : IoFailure → σ → σ → Prop)
    (attempt : Attempt σ α) : Prop where
  meets : ∀ state other, related state other →
    Met related behind (attempt state) (attempt other)
  keeps : ∀ failure state other, behind failure state other →
    behind failure state (attempt other).2

namespace Lags

variable {ρ : Type} {related : σ → σ → Prop} {behind : IoFailure → σ → σ → Prop}

theorem pure (value : α) : Lags related behind (Pure.pure value : Attempt σ α) where
  meets := fun _ _ hrelated => .along hrelated
  keeps := fun _ _ _ hbehind => hbehind

theorem throw (error : Error) : Lags related behind (throwThe Error error : Attempt σ α) where
  meets := fun _ _ hrelated => .along hrelated
  keeps := fun _ _ _ hbehind => hbehind

theorem lift (outcome : Except Error α) :
    Lags related behind (Attempt.lift outcome : Attempt σ α) where
  meets := fun _ _ hrelated => .along hrelated
  keeps := fun _ _ _ hbehind => hbehind

theorem bind {attempt : Attempt σ α} {next : α → Attempt σ β}
    (hattempt : Lags related behind attempt) (hnext : ∀ value, Lags related behind (next value)) :
    Lags related behind (attempt >>= next) where
  meets := by
    intro state other hrelated
    have hmet := hattempt.meets state other hrelated
    rcases hfirst : attempt state with ⟨result, after⟩
    rcases hsecond : attempt other with ⟨outcome, later⟩
    rw [hfirst, hsecond] at hmet
    cases hmet with
    | along hrelated =>
        cases result with
        | ok value =>
            rw [bind_of_ok hfirst, bind_of_ok hsecond]
            exact (hnext value).meets after later hrelated
        | error error =>
            rw [bind_of_error hfirst, bind_of_error hsecond]
            exact .along hrelated
    | behind hbehind =>
        rw [bind_of_error hfirst]
        -- The other run may go on; only what it keeps matters.
        cases outcome with
        | ok value =>
            rw [bind_of_ok hsecond]
            exact .behind ((hnext value).keeps _ _ _ hbehind)
        | error error =>
            rw [bind_of_error hsecond]
            exact .behind hbehind
  keeps := by
    intro failure state other hbehind
    have hkept := hattempt.keeps failure state other hbehind
    rcases hrun : attempt other with ⟨outcome, later⟩
    rw [hrun] at hkept
    cases outcome with
    | ok value =>
        rw [bind_of_ok hrun]
        exact (hnext value).keeps failure state later hkept
    | error error =>
        rw [bind_of_error hrun]
        exact hkept

/-- What follows a look at the state must not tell the two states apart. -/
theorem get {next : σ → Attempt σ α} (hnext : ∀ state, Lags related behind (next state))
    (hsame : ∀ state other, related state other → next state = next other) :
    Lags related behind (MonadState.get >>= next) where
  meets := by
    intro state other hrelated
    rw [get_bind, get_bind, hsame state other hrelated]
    exact (hnext other).meets state other hrelated
  keeps := fun failure state other hbehind => (hnext other).keeps failure state other hbehind

theorem update {part : σ → ρ} {replace : ρ → σ → σ} (operation : ρ → Except Error ρ)
    (hpart : ∀ state other, related state other → part state = part other)
    (hrelated : ∀ changed state other, related state other →
      related (replace changed state) (replace changed other))
    (hbehind : ∀ changed failure state other, behind failure state other →
      behind failure state (replace changed other)) :
    Lags related behind (Attempt.update part replace operation) where
  meets := by
    intro state other hstate
    cases hoperation : operation (part state) with
    | ok changed =>
        have hother : operation (part other) = .ok changed := hpart state other hstate ▸ hoperation
        rw [update_of_ok hoperation, update_of_ok hother]
        exact .along (hrelated changed state other hstate)
    | error error =>
        have hother : operation (part other) = .error error :=
          hpart state other hstate ▸ hoperation
        rw [update_of_error hoperation, update_of_error hother]
        exact .along hstate
  keeps := by
    intro failure state other hother
    cases hoperation : operation (part other) with
    | ok changed =>
        rw [update_of_ok hoperation]
        exact hbehind changed failure state other hother
    | error error =>
        rw [update_of_error hoperation]
        exact hother

end Lags
end Attempt

namespace Latch

variable {σ τ α β : Type} {related : σ → τ → Prop}

/-- Related states, with the same error or none. -/
structure Related (related : σ → τ → Prop) (latch : Latch σ) (other : Latch τ) : Prop where
  state : related latch.state other.state
  error : latch.error? = other.error?

theorem call_eq_ok {attempt : Attempt σ α} {latch after : Latch σ} {value : α}
    (hcall : call attempt latch = (.ok value, after)) :
    latch.error? = none ∧ after.error? = none ∧
      attempt latch.state = (.ok value, after.state) := by
  unfold call at hcall
  cases herror : latch.error? with
  | some error => rw [herror] at hcall; cases hcall
  | none =>
      rw [herror] at hcall
      rcases hattempt : attempt latch.state with ⟨result, state⟩
      rw [hattempt] at hcall
      cases result with
      | error error => cases hcall
      | ok value => cases hcall; exact ⟨rfl, rfl, rfl⟩

theorem call_agrees {first : Attempt σ α} {second : Attempt τ α}
    (hagrees : Attempt.Agrees related first second) :
    Attempt.Agrees (Related related) (call first) (call second) := by
  intro latch other hrelated
  obtain ⟨state, error?⟩ := latch
  obtain ⟨plain, found?⟩ := other
  obtain ⟨hstate, rfl⟩ : related state plain ∧ error? = found? :=
    ⟨hrelated.state, hrelated.error⟩
  cases error? with
  | some error => exact ⟨rfl, hrelated⟩
  | none =>
      rcases hfirst : first state with ⟨result, after⟩
      obtain ⟨later, hsecond, hafter⟩ := hagrees.run hstate hfirst
      simp only [call, hfirst, hsecond]
      cases result with
      | ok value => exact ⟨rfl, hafter, rfl⟩
      | error error => exact ⟨rfl, hafter, rfl⟩

/-! A call on a latch that has not failed. -/

theorem call_of_ok {attempt : Attempt σ α} {state after : σ} {value : α}
    (hattempt : attempt state = (.ok value, after)) :
    call attempt { state } = (.ok value, { state := after }) := by
  simp only [call, hattempt]

theorem call_of_error {attempt : Attempt σ α} {state after : σ} {error : Error}
    (hattempt : attempt state = (.error error, after)) :
    call attempt { state } = (.error error, { state := after, error? := some error }) := by
  simp only [call, hattempt]

theorem call_result (attempt : Attempt σ α) (state : σ) :
    (call attempt { state }).1 = (attempt state).1 := by
  rcases hattempt : attempt state with ⟨outcome, after⟩
  cases outcome with
  | ok value => rw [call_of_ok hattempt]
  | error error => rw [call_of_error hattempt]

theorem call_state (attempt : Attempt σ α) (state : σ) :
    (call attempt { state }).2.state = (attempt state).2 := by
  rcases hattempt : attempt state with ⟨outcome, after⟩
  cases outcome with
  | ok value => rw [call_of_ok hattempt]
  | error error => rw [call_of_error hattempt]

theorem call_bind (attempt : Attempt σ α) (next : α → Attempt σ β) (latch : Latch σ) :
    call (attempt >>= next) latch = (call attempt >>= fun value => call (next value)) latch := by
  obtain ⟨state, error?⟩ := latch
  cases error? with
  | some error => rfl
  | none =>
      rcases hattempt : attempt state with ⟨outcome, after⟩
      cases outcome with
      | ok value =>
          rw [Attempt.bind_of_ok (call_of_ok hattempt), call, call,
            Attempt.bind_of_ok hattempt]
      | error error =>
          rw [Attempt.bind_of_error (call_of_error hattempt),
            call_of_error (Attempt.bind_of_error hattempt)]

end Latch
end MessagePack
