import MessagePack.Proofs.Attempt
import MessagePack.Proofs.Nesting

/-!
What an enabled nesting accepts: exactly the runs in which compounds are entered and left like
brackets and every count is kept. The events accepted so far say which compounds are open and
what has been charged to each.
-/

namespace MessagePack
namespace Nesting

/-- A compound that has been opened, and what has been charged to it while it was innermost. -/
structure Account where
  kind : Compound
  /-- The declared count; none of an open-ended compound. -/
  count? : Option Nat
  charged : Nat := 0

namespace Account

variable {account : Account}

def count (account : Account) : Nat :=
  account.count?.getD 0

/-- An open-ended compound takes any number of elements; it never takes payload. -/
def Uncounted (account : Account) : Prop :=
  account.count? = none ∧ account.kind.holdsBytes = false

def Fits (account : Account) (total : Nat) : Prop :=
  account.Uncounted ∨ total ≤ account.count

def Filled (account : Account) (total : Nat) : Prop :=
  account.Uncounted ∨ total = account.count

def frame (account : Account) : Frame where
  kind := account.kind
  remaining := account.count - account.charged
  openEnded := account.count?.isNone

def charge (n : Nat) (account : Account) : Account :=
  { account with charged := account.charged + n }

theorem Fits.mono {total less : Nat} (hfits : account.Fits total) (hle : less ≤ total) :
    account.Fits less :=
  hfits.imp_right (Nat.le_trans hle)

theorem Filled.fits {total : Nat} (hfilled : account.Filled total) : account.Fits total :=
  hfilled.imp_right Nat.le_of_eq

theorem Uncounted.count_eq (huncounted : account.Uncounted) : account.count = 0 := by
  simp [count, huncounted.1]

theorem uncounted_iff :
    account.Uncounted ↔ account.frame.openEnded = true ∧ account.kind.holdsBytes = false := by
  rw [Uncounted, frame, Option.isNone_iff_eq_none]

theorem frame_charge (n : Nat) : (account.charge n).frame =
    { account.frame with remaining := account.frame.remaining - n } := by
  simp [frame, charge, count, Nat.sub_sub]

theorem Uncounted.frame_charge (huncounted : account.Uncounted) (n : Nat) :
    (account.charge n).frame = account.frame := by
  have hcount : account.count? = none := huncounted.1
  simp [frame, charge, count, hcount]

theorem Uncounted.remaining_eq (huncounted : account.Uncounted) :
    account.frame.remaining = 0 := by
  show account.count - account.charged = 0
  rw [huncounted.count_eq, Nat.zero_sub]

theorem Fits.charge_iff (hfits : account.Fits account.charged) (n : Nat) :
    account.Fits (account.charged + n) ↔ account.Uncounted ∨ n ≤ account.frame.remaining := by
  show _ ∨ _ ↔ _ ∨ n ≤ account.count - account.charged
  rcases hfits with huncounted | hle
  · exact iff_of_true (.inl huncounted) (.inl huncounted)
  · exact or_congr_right ⟨fun hroom => by omega, fun hroom => by omega⟩

theorem Fits.filled_iff (hfits : account.Fits account.charged) :
    account.Filled account.charged ↔ account.frame.remaining = 0 := by
  rcases hfits with huncounted | hle
  · exact iff_of_true (.inl huncounted) huncounted.remaining_eq
  · show _ ∨ _ ↔ account.count - account.charged = 0
    constructor
    · rintro (huncounted | heq)
      · exact huncounted.remaining_eq
      · omega
    · intro hzero
      exact .inr (by omega)

end Account

/-- Compounds have to stay within the limit. -/
def Within (limit : Option Nat) (depth : Nat) : Prop :=
  ∀ most ∈ limit, depth < most

def Event.opens? : Event → Option Account
  | .enter kind count => some { kind, count? := some count }
  | .enterOpenEnded kind => some { kind, count? := none }
  | .element | .bytes _ | .leave _ => none

/-- A run at one level in which everything opened is closed again, and what it charges to the
level. Payload is charged where a compound of bytes is open, elements anywhere else. -/
inductive Balanced (limit : Option Nat) : Nat → Bool → List Event → Nat → Prop where
  | nothing {depth : Nat} {holds : Bool} : Balanced limit depth holds [] 0
  | element {depth charged : Nat} {before : List Event} :
      Balanced limit depth false before charged →
      Balanced limit depth false (before ++ [.element]) (charged + 1)
  | bytes {depth charged : Nat} {before : List Event} (n : Nat) :
      Balanced limit depth true before charged →
      Balanced limit depth true (before ++ [.bytes n]) (charged + n)
  | compound {depth charged total : Nat} {holds : Bool} {before inside : List Event}
      {opening : Event} {account : Account} :
      Balanced limit depth holds before charged →
      Within limit depth → opening.opens? = some account →
      Balanced limit (depth + 1) account.kind.holdsBytes inside total →
      account.Filled total →
      Balanced limit depth holds
        (before ++ ([opening] ++ inside ++ [.leave account.kind])) charged

/-- A run and the compounds it opens and does not close, innermost first. -/
inductive Opened (limit : Option Nat) : List Account → List Event → Prop where
  | outermost {total : Nat} {events : List Event} :
      Balanced limit 0 false events total → Opened limit [] events
  | compound {accounts : List Account} {before inside : List Event} {opening : Event}
      {account : Account} {total : Nat} :
      Opened limit accounts before →
      Within limit accounts.length → opening.opens? = some account →
      Balanced limit (accounts.length + 1) account.kind.holdsBytes inside total →
      account.Fits total →
      Opened limit ({ account with charged := total } :: accounts)
        (before ++ ([opening] ++ inside))

/-- The events that may not follow where these compounds are open. -/
def Refused (limit : Option Nat) (accounts : List Account) : Event → Prop
  | .enter _ _ | .enterOpenEnded _ => ¬Within limit accounts.length
  | .element => ∃ top ∈ accounts.head?,
      top.kind.holdsBytes = true ∨ ¬top.Fits (top.charged + 1)
  | .bytes n => ∀ top ∈ accounts.head?,
      top.kind.holdsBytes = false ∨ ¬top.Fits (top.charged + n)
  | .leave kind => ∀ top ∈ accounts.head?, top.kind ≠ kind ∨ ¬top.Filled top.charged

def perform (event : Event) : Attempt Nesting Unit :=
  .update id (fun after _ => after) (apply event)

/-- The events a run gets accepted, and where it leads. -/
def run : List Event → Nesting → List Event × Nesting
  | [], nesting => ([], nesting)
  | event :: rest, nesting =>
      match perform event nesting with
      | (.ok (), after) => (event :: (run rest after).1, (run rest after).2)
      | (.error _, after) => run rest after

/-! One event, where the accounts are known. -/

def booked (limit : Option Nat) (accounts : List Account) : Nesting where
  frames := accounts.map Account.frame
  limit := limit

def chargeTop (n : Nat) : List Account → List Account
  | [] => []
  | top :: outer => top.charge n :: outer

def settle : Event → List Account → List Account
  | .enter kind count, accounts => { kind, count? := some count } :: accounts
  | .enterOpenEnded kind, accounts => { kind, count? := none } :: accounts
  | .element, accounts => chargeTop 1 accounts
  | .bytes n, accounts => chargeTop n accounts
  | .leave _, accounts => accounts.tail

/-- Whether payload is charged to the innermost of some compounds. -/
def takesPayload (accounts : List Account) : Bool :=
  accounts.head?.any fun top => top.kind.holdsBytes

/-- There is room for more at the innermost level. -/
def Spare (more : Nat) (accounts : List Account) : Prop :=
  ∀ top ∈ accounts.head?, top.Fits (top.charged + more)

variable {limit : Option Nat} {accounts : List Account} {account : Account} {event : Event}

theorem settle_opens (hopens : event.opens? = some account) :
    settle event accounts = account :: accounts := by
  cases event <;> cases hopens <;> rfl

theorem push_booked (account : Account) (hwithin : Within limit accounts.length) :
    (booked limit accounts).push account.frame = .ok (booked limit (account :: accounts)) := by
  cases limit with
  | none => rfl
  | some most =>
      have hroom : ¬most ≤ accounts.length := Nat.not_le.mpr (hwithin most rfl)
      simp [push, booked, depth, hroom]

theorem within_of_push {frame : Frame} {after : Nesting}
    (hpush : (booked limit accounts).push frame = .ok after) : Within limit accounts.length := by
  intro most hmost
  cases hmost
  refine Nat.lt_of_not_le fun hfull => ?_
  simp [push, booked, depth, hfull] at hpush

/-! The innermost account decides whether an event is accepted. -/

theorem element_booked (hfits : account.Fits account.charged)
    (hholds : account.kind.holdsBytes = false) (hroom : account.Fits (account.charged + 1)) :
    (booked limit (account :: accounts)).element =
      .ok (booked limit (account.charge 1 :: accounts)) := by
  have hkind : account.frame.kind.holdsBytes = false := hholds
  cases hended : account.frame.openEnded with
  | true =>
      have huncounted := Account.uncounted_iff.mpr ⟨hended, hholds⟩
      simp only [element, booked, List.map_cons, hkind, hended, huncounted.frame_charge]
      rfl
  | false =>
      have hcounted : ¬account.Uncounted := by
        rw [Account.uncounted_iff, hended]
        exact fun hopen => Bool.false_ne_true hopen.1
      have hremaining := ((hfits.charge_iff 1).mp hroom).resolve_left hcounted
      simp [element, booked, hkind, hended, Account.frame_charge, Nat.ne_of_gt hremaining]

theorem bytes_booked {n : Nat} (hfits : account.Fits account.charged)
    (hholds : account.kind.holdsBytes = true) (hroom : account.Fits (account.charged + n)) :
    (booked limit (account :: accounts)).bytes n =
      .ok (booked limit (account.charge n :: accounts)) := by
  have hkind : account.frame.kind.holdsBytes = true := hholds
  have hremaining := ((hfits.charge_iff n).mp hroom).resolve_left
    (fun huncounted => nomatch huncounted.2.symm.trans hholds)
  simp [bytes, booked, hkind, Account.frame_charge, Nat.not_lt.mpr hremaining]

theorem leave_booked (hfits : account.Fits account.charged)
    (hfilled : account.Filled account.charged) :
    (booked limit (account :: accounts)).leave account.kind = .ok (booked limit accounts) := by
  have hremaining := hfits.filled_iff.mp hfilled
  have hkind : account.frame.kind = account.kind := rfl
  simp [leave, booked, hkind, hremaining]

/-- What is not refused is accepted, and booked. -/
theorem apply_booked (hspare : Spare 0 accounts)
    (haccepted : ¬Refused limit accounts event) :
    apply event (booked limit accounts) = .ok (booked limit (settle event accounts)) := by
  cases event with
  | enter kind count =>
      exact push_booked { kind, count? := some count } (Classical.not_not.mp haccepted)
  | enterOpenEnded kind =>
      exact push_booked { kind, count? := none } (Classical.not_not.mp haccepted)
  | element =>
      cases accounts with
      | nil => rfl
      | cons top outer =>
          have hroom : top.kind.holdsBytes = false ∧ top.Fits (top.charged + 1) := by
            simpa [Refused] using haccepted
          exact element_booked (hspare top rfl) hroom.1 hroom.2
  | bytes n =>
      cases accounts with
      | nil => exact absurd (fun _ htop => nomatch htop) haccepted
      | cons top outer =>
          have hroom : top.kind.holdsBytes = true ∧ top.Fits (top.charged + n) := by
            simpa [Refused] using haccepted
          exact bytes_booked (hspare top rfl) hroom.1 hroom.2
  | leave kind =>
      cases accounts with
      | nil => exact absurd (fun _ htop => nomatch htop) haccepted
      | cons top outer =>
          have hclosed : top.kind = kind ∧ top.Filled top.charged := by
            simpa [Refused] using haccepted
          obtain ⟨rfl, hfilled⟩ := hclosed
          exact leave_booked (hspare top rfl) hfilled

theorem of_booked_frames {accounts : List Account} {top : Frame} {outer : List Frame}
    (hframes : (booked limit accounts).frames = top :: outer) :
    ∃ account rest, accounts = account :: rest ∧ account.frame = top := by
  obtain ⟨account, rest, rfl, htop, -⟩ := List.map_eq_cons_iff.mp hframes
  exact ⟨account, rest, rfl, htop⟩

/-- Nothing that is refused is accepted. -/
theorem accepted_of_apply {after : Nesting} (hspare : Spare 0 accounts)
    (happly : apply event (booked limit accounts) = .ok after) :
    ¬Refused limit accounts event := by
  cases event with
  | enter kind count => exact fun hrefused => hrefused (within_of_push happly)
  | enterOpenEnded kind => exact fun hrefused => hrefused (within_of_push happly)
  | element =>
      rintro ⟨top, htop, hrefused⟩
      obtain ⟨outer, rfl⟩ := List.head?_eq_some_iff.mp htop
      rcases element_eq_ok rfl happly with ⟨hframes, -⟩ | ⟨_, _, hframes, hholds, hroom⟩
      · cases hframes
      · cases hframes
        have hfull := hrefused.resolve_left (fun h => nomatch h.symm.trans hholds)
        rw [(hspare top rfl).charge_iff, Account.uncounted_iff, not_or] at hfull
        rcases hroom with ⟨hended, -⟩ | ⟨-, hremaining, -⟩
        · exact hfull.1 ⟨hended, hholds⟩
        · omega
  | bytes n =>
      obtain ⟨_, _, hframes, hholds, hroom, -⟩ := bytes_eq_ok rfl happly
      obtain ⟨top, outer, rfl, rfl⟩ := of_booked_frames hframes
      intro hrefused
      rcases hrefused top rfl with hplain | hfull
      · exact nomatch hplain.symm.trans hholds
      · exact hfull (((hspare top rfl).charge_iff n).mpr (.inr hroom))
  | leave kind =>
      obtain ⟨_, _, hframes, hkind, hremaining, -⟩ := leave_eq_ok rfl happly
      obtain ⟨top, outer, rfl, rfl⟩ := of_booked_frames hframes
      intro hrefused
      rcases hrefused top rfl with hother | hopen
      · exact hother hkind
      · exact hopen ((hspare top rfl).filled_iff.mpr hremaining)

/-! Runs. -/

theorem perform_of_ok {nesting after : Nesting} (happly : apply event nesting = .ok after) :
    perform event nesting = (.ok (), after) :=
  Attempt.update_of_ok happly

theorem perform_of_error {nesting : Nesting} {error : Error}
    (happly : apply event nesting = .error error) :
    perform event nesting = (.error error, nesting) :=
  Attempt.update_of_error happly

theorem run_single {nesting after : Nesting} (happly : apply event nesting = .ok after) :
    run [event] nesting = ([event], after) := by
  simp only [run, perform_of_ok happly]

theorem run_append (first second : List Event) (nesting : Nesting) :
    run (first ++ second) nesting =
      ((run first nesting).1 ++ (run second (run first nesting).2).1,
        (run second (run first nesting).2).2) := by
  induction first generalizing nesting with
  | nil => rfl
  | cons event rest ih =>
      rw [List.cons_append, run, run]
      split
      · rw [ih]
        rfl
      · exact ih _

theorem run_trans {first second : List Event} {nesting middle after : Nesting}
    (hfirst : run first nesting = (first, middle))
    (hsecond : run second middle = (second, after)) :
    run (first ++ second) nesting = (first ++ second, after) := by
  rw [run_append, hfirst, hsecond]

theorem chargeTop_chargeTop (first second : Nat) (accounts : List Account) :
    chargeTop second (chargeTop first accounts) = chargeTop (first + second) accounts := by
  cases accounts with
  | nil => rfl
  | cons top outer => simp [chargeTop, Account.charge, Nat.add_assoc]

theorem length_chargeTop (n : Nat) (accounts : List Account) :
    (chargeTop n accounts).length = accounts.length := by
  cases accounts <;> rfl

theorem takesPayload_chargeTop (n : Nat) (accounts : List Account) :
    takesPayload (chargeTop n accounts) = takesPayload accounts := by
  cases accounts <;> rfl

theorem Spare.mono {less more : Nat} (hspare : Spare more accounts) (hle : less ≤ more) :
    Spare less accounts :=
  fun top htop => (hspare top htop).mono (Nat.add_le_add_left hle _)

theorem spare_chargeTop {charged more : Nat} (hspare : Spare (charged + more) accounts) :
    Spare more (chargeTop charged accounts) := by
  cases accounts with
  | nil => exact fun _ htop => nomatch htop
  | cons top outer =>
      intro other hother
      cases hother
      show top.Fits (top.charged + charged + more)
      rw [Nat.add_assoc]
      exact hspare top rfl

theorem run_accepted (limit : Option Nat) (accounts : List Account) (hspare : Spare 0 accounts)
    (haccepted : ¬Refused limit accounts event) :
    run [event] (booked limit accounts) = ([event], booked limit (settle event accounts)) :=
  run_single (apply_booked hspare haccepted)

theorem accepts_element (hholds : takesPayload accounts = false) (hspare : Spare 1 accounts) :
    ¬Refused limit accounts .element := by
  rintro ⟨top, htop, hrefused⟩
  obtain ⟨outer, rfl⟩ := List.head?_eq_some_iff.mp htop
  rcases hrefused with hbytes | hfull
  · exact nomatch hholds.symm.trans hbytes
  · exact hfull (hspare top rfl)

theorem accepts_bytes {n : Nat} (hholds : takesPayload accounts = true)
    (hspare : Spare n accounts) : ¬Refused limit accounts (.bytes n) := by
  intro hrefused
  cases accounts with
  | nil => cases hholds
  | cons top outer =>
      rcases hrefused top rfl with hplain | hfull
      · exact nomatch hplain.symm.trans hholds
      · exact hfull (hspare top rfl)

theorem accepts_opening (hwithin : Within limit accounts.length)
    (hopens : event.opens? = some account) : ¬Refused limit accounts event := by
  cases event <;> cases hopens <;> exact fun hrefused => hrefused hwithin

theorem accepts_leave (hfilled : account.Filled account.charged) :
    ¬Refused limit (account :: accounts) (.leave account.kind) := by
  intro hrefused
  rcases hrefused account rfl with hother | hopen
  · exact hother rfl
  · exact hopen hfilled

theorem charged_opening (hopens : event.opens? = some account) : account.charged = 0 := by
  cases event <;> cases hopens <;> rfl

theorem spare_opening {total : Nat} (hopens : event.opens? = some account)
    (hfits : account.Fits total) : Spare total (account :: accounts) := by
  intro top htop
  cases htop
  rwa [charged_opening hopens, Nat.zero_add]

/-- An event that opens a compound, and what comes inside. -/
theorem run_opening {inside : List Event} {total : Nat} (hspare : Spare 0 accounts)
    (hwithin : Within limit accounts.length) (hopens : event.opens? = some account)
    (hinside : run inside (booked limit (account :: accounts)) =
      (inside, booked limit (chargeTop total (account :: accounts)))) :
    run ([event] ++ inside) (booked limit accounts) =
      ([event] ++ inside, booked limit ({ account with charged := total } :: accounts)) := by
  have hevent := run_accepted limit accounts hspare (accepts_opening hwithin hopens)
  rw [settle_opens hopens] at hevent
  have hrun := run_trans hevent hinside
  rwa [chargeTop, Account.charge, charged_opening hopens, Nat.zero_add] at hrun

/-- Everything in a balanced run is accepted; only what it charges is left behind. -/
theorem Balanced.run_booked {depth total : Nat} {holds : Bool} {events : List Event}
    (hbalanced : Balanced limit depth holds events total) (accounts : List Account)
    (hdepth : accounts.length = depth) (hholds : takesPayload accounts = holds)
    (hspare : Spare total accounts) :
    run events (booked limit accounts) = (events, booked limit (chargeTop total accounts)) := by
  induction hbalanced generalizing accounts with
  | nothing => cases accounts <;> rfl
  | @element depth charged before hbefore ih =>
      have hrun := ih accounts hdepth hholds (hspare.mono (Nat.le_succ charged))
      have hlast : Spare 1 (chargeTop charged accounts) := spare_chargeTop hspare
      have hstep := run_accepted limit _ (hlast.mono (Nat.zero_le 1))
        (accepts_element ((takesPayload_chargeTop charged accounts).trans hholds) hlast)
      rw [settle, chargeTop_chargeTop] at hstep
      exact run_trans hrun hstep
  | @bytes depth charged before n hbefore ih =>
      have hrun := ih accounts hdepth hholds (hspare.mono (Nat.le_add_right charged n))
      have hlast : Spare n (chargeTop charged accounts) := spare_chargeTop hspare
      have hstep := run_accepted limit _ (hlast.mono (Nat.zero_le n))
        (accepts_bytes ((takesPayload_chargeTop charged accounts).trans hholds) hlast)
      rw [settle, chargeTop_chargeTop] at hstep
      exact run_trans hrun hstep
  | @compound depth charged total holds before inside opening account hbefore hwithin hopens
      hinside hfilled ihbefore ihinside =>
      have hrun := ihbefore accounts hdepth hholds hspare
      have houter : (chargeTop charged accounts).length = depth :=
        (length_chargeTop charged accounts).trans hdepth
      have hlevel := ihinside (account :: chargeTop charged accounts)
        (congrArg Nat.succ houter) rfl (spare_opening hopens hfilled.fits)
      have hopened := run_opening (spare_chargeTop hspare) (by rwa [houter]) hopens hlevel
      have hclosed := run_accepted limit
        ({ account with charged := total } :: chargeTop charged accounts)
        (fun top htop => by cases htop; exact hfilled.fits) (accepts_leave hfilled)
      exact run_trans hrun (run_trans hopened hclosed)

theorem Opened.spare {events : List Event} (hopened : Opened limit accounts events) :
    Spare 0 accounts := by
  cases hopened with
  | outermost hbalanced => exact fun _ htop => nomatch htop
  | compound hbefore hwithin hopens hinside hfits =>
      intro top htop
      cases htop
      exact hfits

/-- A run that keeps to the rules is accepted as a whole. -/
theorem Opened.run_eq {events : List Event} (hopened : Opened limit accounts events) :
    run events (booked limit []) = (events, booked limit accounts) := by
  induction hopened with
  | outermost hbalanced => exact hbalanced.run_booked [] rfl rfl fun _ htop => nomatch htop
  | @compound accounts before inside opening account total hbefore hwithin hopens hinside hfits
      ih =>
      have hlevel := hinside.run_booked (account :: accounts) rfl rfl
        (spare_opening hopens hfits)
      have hopened := run_opening hbefore.spare hwithin hopens hlevel
      exact run_trans ih hopened

/-- A run goes on at its innermost level with what may follow there. -/
theorem Opened.extend {events more : List Event} {n : Nat}
    (hopened : Opened limit accounts events) (hspare : Spare n accounts)
    (hmore : ∀ before charged,
      Balanced limit accounts.length (takesPayload accounts) before charged →
      Balanced limit accounts.length (takesPayload accounts) (before ++ more) (charged + n)) :
    Opened limit (chargeTop n accounts) (events ++ more) := by
  cases hopened with
  | outermost hbalanced => exact .outermost (hmore _ _ hbalanced)
  | compound hbefore hwithin hopens hinside hfits =>
      have hnext := hbefore.compound hwithin hopens (hmore _ _ hinside) (hspare _ rfl)
      rw [List.append_assoc, List.append_assoc]
      exact hnext

theorem Opened.opening {events : List Event} (hopened : Opened limit accounts events)
    (hwithin : Within limit accounts.length) (hopens : event.opens? = some account) :
    Opened limit (account :: accounts) (events ++ [event]) := by
  obtain ⟨kind, count?, charged⟩ := account
  obtain rfl : charged = 0 := charged_opening hopens
  exact hopened.compound hwithin hopens .nothing (.inr (Nat.zero_le _))

theorem Opened.leave {events : List Event} (hopened : Opened limit (account :: accounts) events)
    (hfilled : account.Filled account.charged) :
    Opened limit accounts (events ++ [.leave account.kind]) := by
  cases hopened with
  | compound hbefore hwithin hopens hinside hfits =>
      have hclosed := hbefore.extend hbefore.spare
        fun _ _ hlevel => hlevel.compound hwithin hopens hinside hfilled
      rw [List.append_assoc]
      cases accounts <;> exact hclosed

theorem Opened.settle {events : List Event} (hopened : Opened limit accounts events)
    (haccepted : ¬Refused limit accounts event) :
    Opened limit (settle event accounts) (events ++ [event]) := by
  cases event with
  | enter kind count => exact hopened.opening (Classical.not_not.mp haccepted) rfl
  | enterOpenEnded kind => exact hopened.opening (Classical.not_not.mp haccepted) rfl
  | element =>
      have hroom : takesPayload accounts = false ∧ Spare 1 accounts := by
        cases accounts <;> simp_all [Refused, takesPayload, Spare]
      exact hopened.extend hroom.2 fun _ _ hlevel => by
        rw [hroom.1] at hlevel ⊢
        exact hlevel.element
  | bytes n =>
      have hroom : takesPayload accounts = true ∧ Spare n accounts := by
        cases accounts <;> simp_all [Refused, takesPayload, Spare]
      exact hopened.extend hroom.2 fun _ _ hlevel => by
        rw [hroom.1] at hlevel ⊢
        exact hlevel.bytes n
  | leave kind =>
      cases accounts with
      | nil => exact absurd (fun _ htop => nomatch htop) haccepted
      | cons top outer =>
          have hclosed : top.kind = kind ∧ top.Filled top.charged := by
            simpa [Refused] using haccepted
          obtain ⟨rfl, hfilled⟩ := hclosed
          exact hopened.leave hfilled

/-- What a run gets accepted adds to the history it begins with. -/
theorem Opened.run_booked {before : List Event} (hopened : Opened limit accounts before)
    (events : List Event) :
    ∃ later, Opened limit later (before ++ (run events (booked limit accounts)).1) ∧
      (run events (booked limit accounts)).2 = booked limit later := by
  induction events generalizing accounts before with
  | nil => exact ⟨accounts, by rwa [run, List.append_nil], rfl⟩
  | cons event rest ih =>
      by_cases hrefused : Refused limit accounts event
      · cases happly : apply event (booked limit accounts) with
        | ok after => exact absurd hrefused (accepted_of_apply hopened.spare happly)
        | error error =>
            rw [run, perform_of_error happly]
            exact ih hopened
      · rw [run, perform_of_ok (apply_booked hopened.spare hrefused)]
        obtain ⟨later, hlater, hbooked⟩ := ih (hopened.settle hrefused)
        rw [List.append_assoc] at hlater
        exact ⟨later, hlater, hbooked⟩

theorem Opened.fits {events : List Event} (hopened : Opened limit accounts events) :
    ∀ account ∈ accounts, account.Fits account.charged := by
  induction hopened with
  | outermost hbalanced => exact fun _ haccount => nomatch haccount
  | compound hbefore hwithin hopens hinside hfits ih =>
      intro account haccount
      rcases List.mem_cons.mp haccount with rfl | haccount
      · exact hfits
      · exact ih account haccount

theorem perform_booked_error_iff (hspare : Spare 0 accounts) :
    (∃ error, (perform event (booked limit accounts)).1 = .error error) ↔
      Refused limit accounts event := by
  cases happly : apply event (booked limit accounts) with
  | ok after =>
      rw [perform_of_ok happly]
      exact iff_of_false (fun ⟨_, herror⟩ => nomatch herror) (accepted_of_apply hspare happly)
  | error error =>
      rw [perform_of_error happly]
      refine iff_of_true ⟨error, rfl⟩ (Classical.byContradiction fun haccepted => ?_)
      rw [apply_booked hspare haccepted] at happly
      cases happly

theorem checkClosed_booked_iff : (booked limit accounts).checkClosed = .ok () ↔ accounts = [] := by
  cases accounts with
  | nil => exact iff_of_true rfl rfl
  | cons top outer => exact iff_of_false (fun hclosed => nomatch hclosed) (List.cons_ne_nil _ _)

theorem perform_error_eq {nesting : Nesting} {error : Error}
    (herror : (perform event nesting).1 = .error error) : (perform event nesting).2 = nesting := by
  cases happly : apply event nesting with
  | ok after =>
      rw [perform_of_ok happly] at herror
      cases herror
  | error found => rw [perform_of_error happly]

theorem apply_disabled {nesting : Nesting} (hdisabled : nesting.enabled = false) :
    apply event nesting = .ok nesting := by
  cases event <;>
    simp [apply, enter, enterOpenEnded, push, element, bytes, leave, hdisabled]

theorem run_disabled {nesting : Nesting} (hdisabled : nesting.enabled = false)
    (events : List Event) : run events nesting = (events, nesting) := by
  induction events with
  | nil => rfl
  | cons event rest ih => simp only [run, perform_of_ok (apply_disabled hdisabled), ih]

/-- An enabled nesting accepts exactly the balanced runs. What it has accepted says which
compounds are open and what is charged to each; it refuses an event that would charge too much
or in the wrong place, leave what is not innermost or not filled, or go beyond the limit, and
is not changed by it. A disabled nesting accepts everything. -/
theorem run_history (limit : Option Nat) (events : List Event) :
    (match run events { limit } with
    | (done, nesting) =>
        (∃ accounts, Opened limit accounts done) ∧
        (∀ accounts, Opened limit accounts done →
          nesting.frames = accounts.map Account.frame ∧
          (∀ account ∈ accounts, account.Fits account.charged) ∧
          (∀ event, (∃ error, (perform event nesting).1 = .error error) ↔
            Refused limit accounts event) ∧
          (nesting.checkClosed = .ok () ↔ accounts = [])) ∧
        (∀ event error, (perform event nesting).1 = .error error →
          (perform event nesting).2 = nesting) ∧
        (done = events ∧ nesting.checkClosed = .ok () ↔
          ∃ total, Balanced limit 0 false events total)) ∧
    run events { enabled := false, limit } = (events, { enabled := false, limit }) := by
  refine ⟨?_, run_disabled rfl events⟩
  have hempty : Opened limit [] [] := .outermost .nothing
  obtain ⟨later, hlater, hbooked⟩ := hempty.run_booked events
  rw [show ({ limit } : Nesting) = booked limit [] from rfl]
  generalize hrun : run events (booked limit []) = outcome at *
  obtain ⟨done, nesting⟩ := outcome
  obtain rfl : nesting = booked limit later := hbooked
  refine ⟨⟨later, hlater⟩, ?_, fun _ _ herror => perform_error_eq herror, ?_⟩
  · intro accounts haccounts
    have hsame : booked limit later = booked limit accounts :=
      congrArg Prod.snd (hlater.run_eq.symm.trans haccounts.run_eq)
    rw [hsame]
    exact ⟨rfl, haccounts.fits, fun _ => perform_booked_error_iff haccounts.spare,
      checkClosed_booked_iff⟩
  · constructor
    · rintro ⟨rfl, hclosed⟩
      obtain rfl := checkClosed_booked_iff.mp hclosed
      cases hlater with
      | outermost hbalanced => exact ⟨_, hbalanced⟩
    · rintro ⟨total, hbalanced⟩
      have hall := (Opened.outermost hbalanced).run_eq
      rw [hrun] at hall
      obtain ⟨rfl, hclosed⟩ := Prod.mk.inj hall
      rw [hclosed]
      exact ⟨rfl, rfl⟩

end Nesting
end MessagePack
