import MessagePack.Proofs.Attempt
import MessagePack.Writer.Output

/-!
Output in front of a sink. What is written is with the sink or waits, in the order of writing,
until a call on the sink fails; the sink then has a front part of it and is not called again.
Nothing fails over a sink that takes everything in the end, whatever the sizes of the buffer
and of the sink's partial writes.
-/

namespace MessagePack

/-- A sink that takes everything in the end, in calls as small as it likes. -/
structure Sink.Reliable (sink : Sink) : Prop where
  unlimited : sink.limit? = none
  flushes : sink.flushFailure? = none
  takes : sink.maxWrite? ≠ some 0
  replies : ∀ reply ∈ sink.replies, ∃ most, reply = .takes (most + 1)

namespace Sink

def bytes (sink : Sink) : Bytes :=
  sink.taken.toList

/-- A single call and what it fails with. A write that is made again is no failure, and one
that takes nothing is. -/
inductive Call : Sink → Option IoFailure → Sink → Prop
  | took {sink after : Sink} {bytes : Bytes} {count : Nat}
      (hwrite : sink.write bytes = (.ok (count + 1), after)) : Call sink none after
  | nothing {sink after : Sink} {bytes : Bytes} (hbytes : bytes ≠ [])
      (hwrite : sink.write bytes = (.ok 0, after)) : Call sink (some nothingTaken) after
  | interrupted {sink after : Sink} {bytes : Bytes} {failure : IoFailure}
      (hwrite : sink.write bytes = (.error failure, after)) (hretries : sink.retries failure) :
      Call sink none after
  | refused {sink after : Sink} {bytes : Bytes} {failure : IoFailure}
      (hwrite : sink.write bytes = (.error failure, after)) (hretries : ¬sink.retries failure) :
      Call sink (some failure) after
  | flushed {sink after : Sink} (hflush : sink.flush = (.ok (), after)) : Call sink none after
  | unflushed {sink after : Sink} {failure : IoFailure}
      (hflush : sink.flush = (.error failure, after)) : Call sink (some failure) after

/-- Calls up to the first failure, or as many as there are. -/
inductive Calls : Sink → Option IoFailure → Sink → Prop
  | silent {sink : Sink} : Calls sink none sink
  | last {sink after : Sink} {failure : IoFailure} (hcall : sink.Call (some failure) after) :
      Calls sink (some failure) after
  | next {sink middle after : Sink} {failure? : Option IoFailure}
      (hcall : sink.Call none middle) (hcalls : middle.Calls failure? after) :
      Calls sink failure? after

theorem Call.calls {sink after : Sink} (hcall : sink.Call none after) : sink.Calls none after :=
  .next hcall .silent

theorem Calls.trans {sink middle after : Sink} {failure? : Option IoFailure}
    (hcalls : sink.Calls none middle) (hmore : middle.Calls failure? after) :
    sink.Calls failure? after := by
  generalize hnone : (none : Option IoFailure) = ended? at hcalls
  induction hcalls with
  | silent => exact hmore
  | last hcall => cases hnone
  | next hcall _ ih => exact .next hcall (ih hmore hnone)

section Write

variable {sink after : Sink} {bytes : Bytes}

theorem write_eq_ok {count : Nat} (hwrite : sink.write bytes = (.ok count, after)) :
    after.bytes = sink.bytes ++ bytes.take count := by
  simp only [Sink.write] at hwrite
  split at hwrite
  · cases hwrite
    simp [Sink.bytes]
  · cases hwrite
  · cases hwrite
  · split at hwrite <;> cases hwrite
    simp [Sink.bytes]

theorem write_eq_error {failure : IoFailure} (hwrite : sink.write bytes = (.error failure, after)) :
    after.bytes = sink.bytes := by
  simp only [Sink.write] at hwrite
  split at hwrite
  · cases hwrite
  · cases hwrite
    rfl
  · cases hwrite
    rfl
  · split at hwrite <;> cases hwrite
    rfl

theorem bytes_flush {result : Except IoFailure Unit} (hflush : sink.flush = (result, after)) :
    after.bytes = sink.bytes := by
  simp only [Sink.flush] at hflush
  split at hflush <;> cases hflush <;> rfl

end Write

/-- Bytes that a sink has taken stay where they are. -/
theorem Call.bytes_prefix {sink after : Sink} {failure? : Option IoFailure}
    (hcall : sink.Call failure? after) : sink.bytes <+: after.bytes := by
  cases hcall with
  | took hwrite => exact ⟨_, (write_eq_ok hwrite).symm⟩
  | nothing _ hwrite => exact ⟨_, (write_eq_ok hwrite).symm⟩
  | interrupted hwrite => exact write_eq_error hwrite ▸ List.prefix_rfl
  | refused hwrite => exact write_eq_error hwrite ▸ List.prefix_rfl
  | flushed hflush => exact bytes_flush hflush ▸ List.prefix_rfl
  | unflushed hflush => exact bytes_flush hflush ▸ List.prefix_rfl

theorem Calls.bytes_prefix {sink after : Sink} {failure? : Option IoFailure}
    (hcalls : sink.Calls failure? after) : sink.bytes <+: after.bytes := by
  induction hcalls with
  | silent => exact List.prefix_rfl
  | last hcall => exact hcall.bytes_prefix
  | next hcall _ ih => exact hcall.bytes_prefix.trans ih

/-- What comes of bytes that are all to be taken. -/
inductive Took (sink : Sink) (bytes : Bytes) : Except IoFailure Unit × Sink → Prop
  | all {after : Sink} (hcalls : sink.Calls none after)
      (hbytes : after.bytes = sink.bytes ++ bytes) : Took sink bytes (.ok (), after)
  | part {failure : IoFailure} {after : Sink} (hcalls : sink.Calls (some failure) after)
      (hbytes : after.bytes <+: sink.bytes ++ bytes) : Took sink bytes (.error failure, after)

theorem Took.next {sink middle : Sink} {bytes : Bytes} {count : Nat}
    {outcome : Except IoFailure Unit × Sink} (hcall : sink.Call none middle)
    (hbytes : middle.bytes = sink.bytes ++ bytes.take count)
    (htook : middle.Took (bytes.drop count) outcome) : sink.Took bytes outcome := by
  have hall : middle.bytes ++ bytes.drop count = sink.bytes ++ bytes := by
    rw [hbytes, List.append_assoc, List.take_append_drop]
  cases htook with
  | all hcalls hafter => exact .all (.next hcall hcalls) (hafter.trans hall)
  | part hcalls hafter => exact .part (.next hcall hcalls) (by rwa [hall] at hafter)

theorem writeAll_took (bytes : Bytes) (sink : Sink) : sink.Took bytes (sink.writeAll bytes) := by
  -- Along the calls: what a call has taken and what is left for the next are the bytes.
  fun_induction Sink.writeAll bytes sink with
  | case1 sink => exact .all .silent (List.append_nil _).symm
  | case2 bytes sink hbytes after hwrite =>
      refine .part (.last (.nothing hbytes hwrite)) ?_
      rw [write_eq_ok hwrite, List.take_zero, List.append_nil]
      exact List.prefix_append _ _
  | case3 bytes sink hbytes count after hwrite ih =>
      exact .next (.took hwrite) (write_eq_ok hwrite) ih
  | case4 bytes sink hbytes failure after hwrite hretries ih =>
      have hbytes : after.bytes = sink.bytes ++ bytes.take 0 := by
        rw [write_eq_error hwrite, List.take_zero, List.append_nil]
      exact .next (.interrupted hwrite hretries) hbytes ih
  | case5 bytes sink hbytes failure after hwrite hretries =>
      refine .part (.last (.refused hwrite hretries)) ?_
      rw [write_eq_error hwrite]
      exact List.prefix_append _ _

namespace Reliable

variable {sink after : Sink}

theorem plain (taken : Array UInt8) : Sink.Reliable { taken } :=
  ⟨rfl, rfl, nofun, nofun⟩

theorem write {bytes : Bytes} {result : Except IoFailure Nat} (hreliable : sink.Reliable)
    (hwrite : sink.write bytes = (result, after)) :
    after.Reliable ∧ match result with
      | .ok count => bytes ≠ [] → count ≠ 0
      | .error failure => sink.retries failure := by
  obtain ⟨hunlimited, hflushes, htakes, hreplies⟩ := hreliable
  simp only [Sink.write] at hwrite
  split at hwrite
  · next most replies hscript =>
      cases hwrite
      have hlater : ∀ reply ∈ replies, ∃ most, reply = .takes (most + 1) := fun reply hmember =>
        hreplies reply (by rw [hscript]; exact List.mem_cons_of_mem _ hmember)
      obtain ⟨more, hmore⟩ := hreplies (.takes most) (by rw [hscript]; exact List.mem_cons_self)
      cases hmore
      refine ⟨⟨hunlimited, hflushes, htakes, hlater⟩, fun hbytes => ?_⟩
      have hlength := List.length_pos_iff.mpr hbytes
      omega
  · next failure replies hscript =>
      obtain ⟨most, hmost⟩ := hreplies (.fails failure) (by rw [hscript]; exact List.mem_cons_self)
      cases hmost
  · next interrupts hscript hinterrupts =>
      cases hwrite
      refine ⟨⟨hunlimited, hflushes, htakes, hreplies⟩, rfl, ?_⟩
      rw [patience, hinterrupts]
      omega
  · next hscript hinterrupts =>
      simp only [allowance, hunlimited] at hwrite
      cases hwrite
      refine ⟨⟨rfl, hflushes, htakes, hreplies⟩, fun hbytes => ?_⟩
      have hlength := List.length_pos_iff.mpr hbytes
      cases hmost : sink.maxWrite? with
      | none =>
          simp only [Option.getD_none]
          omega
      | some most =>
          have hsome : most ≠ 0 := fun hzero => htakes (by rw [hmost, hzero])
          simp only [Option.getD_some]
          omega

theorem flush {result : Except IoFailure Unit} (hreliable : sink.Reliable)
    (hflush : sink.flush = (result, after)) : after.Reliable ∧ result = .ok () := by
  obtain ⟨hunlimited, hflushes, htakes, hreplies⟩ := hreliable
  simp only [Sink.flush] at hflush
  split at hflush
  · next most replies hscript =>
      cases hflush
      refine ⟨⟨hunlimited, hflushes, htakes, fun reply hmember => ?_⟩, rfl⟩
      exact hreplies reply (by rw [hscript]; exact List.mem_cons_of_mem _ hmember)
  · next failure replies hscript =>
      obtain ⟨most, hmost⟩ := hreplies (.fails failure) (by rw [hscript]; exact List.mem_cons_self)
      cases hmost
  · next failure hscript hfailure => cases hflushes.symm.trans hfailure
  · cases hflush
    exact ⟨⟨hunlimited, hflushes, htakes, hreplies⟩, rfl⟩

theorem call {failure? : Option IoFailure} (hreliable : sink.Reliable)
    (hcall : sink.Call failure? after) : failure? = none ∧ after.Reliable := by
  cases hcall with
  | took hwrite => exact ⟨rfl, (hreliable.write hwrite).1⟩
  | nothing hbytes hwrite => exact absurd rfl ((hreliable.write hwrite).2 hbytes)
  | interrupted hwrite => exact ⟨rfl, (hreliable.write hwrite).1⟩
  | refused hwrite hretries => exact absurd (hreliable.write hwrite).2 hretries
  | flushed hflush => exact ⟨rfl, (hreliable.flush hflush).1⟩
  | unflushed hflush => cases (hreliable.flush hflush).2

theorem calls {failure? : Option IoFailure} (hreliable : sink.Reliable)
    (hcalls : sink.Calls failure? after) : failure? = none ∧ after.Reliable := by
  induction hcalls with
  | silent => exact ⟨rfl, hreliable⟩
  | last hcall => cases (hreliable.call hcall).1
  | next hcall _ ih => exact ih (hreliable.call hcall).2

end Reliable
end Sink

namespace Output

/-- Everything written so far: what the sink has taken, then what waits. -/
def text (output : Output) : Bytes :=
  output.sink.bytes ++ output.waiting.toList

/-- What comes of bytes that are written. -/
inductive Wrote (output : Output) (bytes : Bytes) : Except Error Unit × Output → Prop
  | all {after : Output} (hcalls : output.sink.Calls none after.sink)
      (htext : after.text = output.text ++ bytes) : Wrote output bytes (.ok (), after)
  | part {failure : IoFailure} {after : Output}
      (hcalls : output.sink.Calls (some failure) after.sink)
      (hbytes : after.sink.bytes <+: output.text ++ bytes) :
      Wrote output bytes (.error (.io failure), after)

theorem Wrote.trans {output middle : Output} {first second : Bytes}
    {outcome : Except Error Unit × Output} (hfirst : output.Wrote first (.ok (), middle))
    (hsecond : middle.Wrote second outcome) : output.Wrote (first ++ second) outcome := by
  cases hfirst with
  | all hcalls htext =>
      cases hsecond with
      | all hmore hafter =>
          refine .all (hcalls.trans hmore) ?_
          rw [hafter, htext, List.append_assoc]
      | part hmore hafter =>
          refine .part (hcalls.trans hmore) ?_
          rwa [htext, List.append_assoc] at hafter

/-- Bytes are not delivered past others that wait. -/
theorem deliver_wrote {output : Output} (bytes : Bytes) (hempty : output.waiting = #[]) :
    output.Wrote bytes (deliver bytes output) := by
  have htext : output.text = output.sink.bytes := by
    rw [text, hempty, Array.toList_empty, List.append_nil]
  have htook := Sink.writeAll_took bytes output.sink
  rcases hwrite : output.sink.writeAll bytes with ⟨result, sink⟩
  rw [hwrite] at htook
  simp only [deliver, hwrite]
  cases htook with
  | all hcalls hbytes =>
      refine .all hcalls ?_
      rw [text, hempty, Array.toList_empty, List.append_nil, hbytes, htext]
  | part hcalls hbytes => exact .part hcalls (by rwa [htext])

theorem release_wrote (output : Output) : output.Wrote [] (release output) := by
  have htook := Sink.writeAll_took output.waiting.toList output.sink
  rw [release, Attempt.get_bind]
  rcases hwrite : output.sink.writeAll output.waiting.toList with ⟨result, sink⟩
  rw [hwrite] at htook
  cases htook with
  | all hcalls hbytes =>
      have hdeliver : deliver output.waiting.toList output = (.ok (), { output with sink }) := by
        simp only [deliver, hwrite]
      rw [Attempt.bind_of_ok hdeliver]
      show output.Wrote [] (.ok (), { output with sink, waiting := #[] })
      refine .all hcalls ?_
      rw [text, hbytes, text]
  | @part failure _ hcalls hbytes =>
      have hdeliver : deliver output.waiting.toList output =
          (.error (.io failure), { output with sink }) := by
        simp only [deliver, hwrite]
      rw [Attempt.bind_of_error hdeliver]
      exact .part hcalls (by rwa [List.append_nil])

theorem release_waiting {output after : Output} (hrelease : release output = (.ok (), after)) :
    after.waiting = #[] := by
  rw [release, Attempt.get_bind] at hrelease
  obtain ⟨_, middle, -, hclear⟩ := Attempt.bind_eq_ok hrelease
  cases hclear
  rfl

/-- The end of a write: bytes that need the whole buffer pass it by, once it is empty. -/
private def settle (capacity : Nat) (bytes : Bytes) : Attempt Output Unit :=
  if capacity ≤ bytes.length then
    deliver bytes
  else
    modify fun output => { output with waiting := output.waiting ++ bytes }

private theorem settle_wrote {output : Output} (capacity : Nat) (bytes : Bytes)
    (hroom : capacity ≤ bytes.length → output.waiting = #[]) :
    output.Wrote bytes (settle capacity bytes output) := by
  unfold settle
  split
  · next hlarge => exact deliver_wrote bytes (hroom hlarge)
  · refine .all .silent ?_
    simp [text, List.append_assoc]

theorem write_wrote (bytes : Bytes) (output : Output) :
    output.Wrote bytes (write bytes output) := by
  rw [write, Attempt.get_bind]
  by_cases hfull : output.capacity < output.waiting.size + bytes.length
  · rw [if_pos hfull]
    have hreleased := release_wrote output
    rcases hrelease : release output with ⟨result, middle⟩
    rw [hrelease] at hreleased
    cases hreleased with
    | all hcalls htext =>
        rw [Attempt.bind_of_ok hrelease]
        exact Wrote.trans (.all hcalls htext)
          (settle_wrote output.capacity bytes fun _ => release_waiting hrelease)
    | part hcalls hbytes =>
        rw [Attempt.bind_of_error hrelease]
        rw [List.append_nil] at hbytes
        exact .part hcalls (hbytes.trans (List.prefix_append _ _))
  · rw [if_neg hfull]
    -- Nothing waits behind a piece that is as large as the buffer and still fits.
    refine settle_wrote _ _ fun hlarge => ?_
    exact Array.eq_empty_of_size_eq_zero (by omega)

theorem flush_wrote (output : Output) : output.Wrote [] (flush output) := by
  have hreleased := release_wrote output
  rw [flush]
  rcases hrelease : release output with ⟨result, middle⟩
  rw [hrelease] at hreleased
  cases hreleased with
  | part hcalls hbytes =>
      rw [Attempt.bind_of_error hrelease]
      exact .part hcalls hbytes
  | all hcalls htext =>
      rw [Attempt.bind_of_ok hrelease, Attempt.get_bind]
      rcases hflush : middle.sink.flush with ⟨result, sink⟩
      have hsame : ({ middle with sink } : Output).text = output.text ++ [] := by
        rw [← htext, text, text, Sink.bytes_flush hflush]
      cases result with
      | ok done => exact .all (hcalls.trans (Sink.Call.flushed hflush).calls) hsame
      | error failure =>
          refine .part (hcalls.trans (.last (.unflushed hflush))) ?_
          rw [← hsame]
          exact List.prefix_append _ _

/-- Nothing waits behind a flush. -/
theorem flush_bytes {output after : Output} (hflush : flush output = (.ok (), after)) :
    after.sink.bytes = after.text := by
  obtain ⟨_, middle, hrelease, hrest⟩ := Attempt.bind_eq_ok hflush
  have hempty := release_waiting hrelease
  have hafter : after.waiting = #[] := by
    rw [Attempt.get_bind] at hrest
    rcases hdone : middle.sink.flush with ⟨result, sink⟩
    simp only [hdone] at hrest
    cases result <;> cases hrest
    exact hempty
  rw [text, hafter, Array.toList_empty, List.append_nil]

/-! Over a reliable sink. -/

theorem Wrote.reliable {output : Output} {bytes : Bytes} {outcome : Except Error Unit × Output}
    (hwrote : output.Wrote bytes outcome) (hreliable : output.sink.Reliable) :
    ∃ after, outcome = (.ok (), after) ∧ after.sink.Reliable ∧
      after.text = output.text ++ bytes := by
  cases hwrote with
  | all hcalls htext => exact ⟨_, rfl, (hreliable.calls hcalls).2, htext⟩
  | part hcalls => cases (hreliable.calls hcalls).1

theorem write_reliable {output : Output} (hreliable : output.sink.Reliable) (bytes : Bytes) :
    ∃ after, write bytes output = (.ok (), after) ∧ after.sink.Reliable ∧
      after.text = output.text ++ bytes :=
  (write_wrote bytes output).reliable hreliable

theorem flush_reliable {output : Output} (hreliable : output.sink.Reliable) :
    ∃ after, flush output = (.ok (), after) ∧ after.sink.Reliable ∧ after.text = output.text := by
  obtain ⟨after, hflush, hafter, htext⟩ := (flush_wrote output).reliable hreliable
  exact ⟨after, hflush, hafter, by rw [htext, List.append_nil]⟩

end Output
end MessagePack
