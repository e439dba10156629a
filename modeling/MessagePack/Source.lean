import MessagePack.Latch

/-!
Byte sources that deliver their bytes piecemeal.

A source is what its reads will deliver, in order. `read room` never returns more than
`room` bytes; no bytes at all means there is nothing to read now. `fetch` reads again after
an interruption.
-/

namespace MessagePack

inductive Delivery where
  | chunk (bytes : Bytes)
  /-- One read that finds nothing. -/
  | pause
  /-- One read that fails. -/
  | failure (failure : IoFailure)
  deriving DecidableEq

def Delivery.size : Delivery → Nat
  | .chunk bytes => bytes.length
  | _ => 0

def Delivery.totalSize : List Delivery → Nat
  | [] => 0
  | delivery :: rest => delivery.size + totalSize rest

structure Source where
  deliveries : List Delivery := []
  /-- The most bytes a single read gives. -/
  maxRead? : Option Nat := none
  reads : Nat := 0
  deriving DecidableEq

namespace Source

/-- Bytes that no read has handed out. -/
def unread (source : Source) : Nat :=
  Delivery.totalSize source.deliveries

/-- A chunk stays in front until it is used up. -/
def deliver (most : Nat) : List Delivery → Except IoFailure Bytes × List Delivery
  | [] => (.ok [], [])
  | .chunk [] :: rest => deliver most rest
  | .chunk (byte :: bytes) :: rest =>
      let (now, later) := (byte :: bytes).splitAt most
      (.ok now, .chunk later :: rest)
  | .pause :: rest => (.ok [], rest)
  | .failure failure :: rest => (.error failure, rest)

def read (room : Nat) (source : Source) : Except IoFailure Bytes × Source :=
  let (result, deliveries) :=
    deliver (min room (source.maxRead?.getD room)) source.deliveries
  (result, { source with deliveries, reads := source.reads + 1 })

theorem deliver_error {most : Nat} {deliveries rest : List Delivery} {failure : IoFailure}
    (hdeliver : deliver most deliveries = (.error failure, rest)) :
    rest.length < deliveries.length := by
  fun_induction deliver most deliveries with
  | case1 => cases hdeliver
  | case2 tail ih =>
    have := ih hdeliver
    simp only [List.length_cons]
    omega
  | case3 => cases hdeliver
  | case4 => cases hdeliver
  | case5 => cases hdeliver; simp

theorem deliver_error_size {most : Nat} {deliveries rest : List Delivery}
    {failure : IoFailure} (hdeliver : deliver most deliveries = (.error failure, rest)) :
    Delivery.totalSize deliveries = Delivery.totalSize rest := by
  fun_induction deliver most deliveries with
  | case1 => cases hdeliver
  | case2 tail ih => simpa [Delivery.totalSize, Delivery.size] using ih hdeliver
  | case3 => cases hdeliver
  | case4 => cases hdeliver
  | case5 => cases hdeliver; simp [Delivery.totalSize, Delivery.size]

theorem deliver_ok {most : Nat} {deliveries rest : List Delivery} {bytes : Bytes}
    (hdeliver : deliver most deliveries = (.ok bytes, rest)) :
    Delivery.totalSize deliveries = bytes.length + Delivery.totalSize rest := by
  fun_induction deliver most deliveries with
  | case1 => cases hdeliver; rfl
  | case2 tail ih => simpa [Delivery.totalSize, Delivery.size] using ih hdeliver
  | case3 byte tail rest now later hsplit =>
    cases hdeliver
    rw [List.splitAt_eq] at hsplit
    cases hsplit
    simp only [Delivery.totalSize, Delivery.size, List.length_take, List.length_drop]
    omega
  | case4 => cases hdeliver; simp [Delivery.totalSize, Delivery.size]
  | case5 => cases hdeliver

theorem read_error {room : Nat} {source after : Source} {failure : IoFailure}
    (hread : source.read room = (.error failure, after)) :
    after.deliveries.length < source.deliveries.length := by
  unfold read at hread
  split at hread
  next result rest hdeliver =>
    cases hread
    exact deliver_error hdeliver

theorem read_ok {room : Nat} {source after : Source} {bytes : Bytes}
    (hread : source.read room = (.ok bytes, after)) :
    source.unread = bytes.length + after.unread := by
  unfold read at hread
  split at hread
  next result rest hdeliver =>
    cases hread
    exact deliver_ok hdeliver

theorem read_error_unread {room : Nat} {source after : Source} {failure : IoFailure}
    (hread : source.read room = (.error failure, after)) : source.unread = after.unread := by
  unfold read at hread
  split at hread
  next result rest hdeliver =>
    cases hread
    exact deliver_error_size hdeliver

/-- A read that is repeated as long as it is interrupted. -/
def fetch (room : Nat) (source : Source) : Except IoFailure Bytes × Source :=
  match _hread : source.read room with
  | (.ok bytes, after) => (.ok bytes, after)
  | (.error failure, after) =>
      if failure.kind = .interrupted then
        fetch room after
      else
        (.error failure, after)
termination_by source.deliveries.length
decreasing_by exact read_error _hread

theorem fetch_ok {room : Nat} {source after : Source} {bytes : Bytes}
    (hfetch : source.fetch room = (.ok bytes, after)) :
    source.unread = bytes.length + after.unread := by
  fun_induction fetch room source with
  | case1 source bytes after hread => cases hfetch; exact read_ok hread
  | case2 source failure after hread _ ih => rw [read_error_unread hread]; exact ih hfetch
  | case3 => cases hfetch

/-- Fetch until `n` bytes are there or a read finds nothing. -/
def collect (n : Nat) (got : Array UInt8) (source : Source) : Except IoFailure Bytes × Source :=
  if n ≤ got.size then
    (.ok got.toList, source)
  else
    match _hfetch : source.fetch (n - got.size) with
    | (.ok [], after) => (.ok got.toList, after)
    | (.ok (byte :: bytes), after) => collect n (got ++ byte :: bytes) after
    | (.error failure, after) => (.error failure, after)
termination_by source.unread
decreasing_by
  have := fetch_ok _hfetch
  simp only [List.length_cons] at this
  omega

end Source
end MessagePack
