import ShmIpc.Conn.Wakeup

/-! # Raw sends: `ShmConnection::WriteRaw` and `ShmClient::SendMessage`

Both check once that the ring has space for all the bytes and then write them in pieces, each with a
`TryWrite` that checks again. Here the two loops stand with the counters of the source: `WriteRaw`
counts down what is left in a `uint32_t`, `SendMessage` counts up what is sent in an `int`
(`writeRawLoop`, `sendMessageLoop`; a turn of the loop costs fuel). Fuel for one turn per byte and
one more is enough, and then both loops are `writeChunks` (`writeRawLoop_eq`, `sendMessageLoop_eq`),
which never fails behind the check. -/

namespace ShmIpc.Conn.RawSend

open ShmIpc.Lib.RelyGuarantee
open ShmIpc.Ring.RingBuf ShmIpc.Ring.History ShmIpc.Ring.Writer ShmIpc.Ring.Channel
open ShmIpc.Codec.Frame
open ShmIpc.Conn.DrainRing ShmIpc.Conn.SendCmd ShmIpc.Conn.Wakeup

/-! ### The program -/

/-- The loop of `WriteRaw`, with the pointer `p` as an offset into `data`; `none` is that the fuel
ran out, `some false` a `TryWrite` that failed. -/
def writeRawLoop (cap : Capacity) (data : List UInt8) : ℕ → ℕ → UInt32 → RingM (Option Bool)
  | 0, _, _ => return none
  | fuel + 1, p, left =>
    if 0 < left then do
      let n := chunk cap left
      let rc ← tryWrite cap (some (first (data.drop p) n))
      if rc ≠ 0 then
        return some false
      writeRawLoop cap data fuel (p + n.toNat) (left - n)
    else return some true

/-- `WriteRaw`. -/
def writeRawWith (cap : Capacity) (fuel : ℕ) (data : List UInt8) (len : UInt32) :
    RingM (Option Bool) :=
  if len = 0 then return some true
  else do
    let free ← writableBytes cap
    if free < len.toUInt64 then
      return some false
    match ← writeRawLoop cap data fuel 0 len with
    | none => return none
    | some false => return some false
    | some true =>
      notifyPeer
      return some true

/-- The length of the next piece of `SendMessage`. -/
def pieceOf (cap : Capacity) (len sent : Int32) : UInt32 :=
  let n := (len - sent).toUInt32
  if cap.maxWriteSize < n.toNat then UInt32.ofNat cap.maxWriteSize else n

/-- The loop of `SendMessage`: `some (some sent)` at its end, `some none` for a `TryWrite` that
failed. -/
def sendMessageLoop (cap : Capacity) (message : List UInt8) (len : Int32) :
    ℕ → Int32 → RingM (Option (Option Int32))
  | 0, _ => return none
  | fuel + 1, sent =>
    if sent < len then do
      let n := pieceOf cap len sent
      let rc ← tryWrite cap (some (first (message.drop sent.toInt.toNat) n))
      if rc ≠ 0 then
        return some none
      sendMessageLoop cap message len fuel (sent + n.toInt32)
    else return some (some sent)

/-- `SendMessage`. -/
def sendMessageWith (cap : Capacity) (fuel : ℕ) (connected : Bool) (message : Option (List UInt8))
    (len : Int32) : RingM (Option ℤ) :=
  match message with
  | none => return some (-1)
  | some bytes =>
    if connected = false ∨ len ≤ 0 then return some (-1)
    else do
      let free ← writableBytes cap
      if free < len.toInt64.toUInt64 then
        return some (-1)
      match ← sendMessageLoop cap bytes len fuel 0 with
      | none => return none
      | some none => return some (-1)
      | some (some sent) =>
        notifyPeer
        return some sent.toInt

/-! ### The loops -/

variable {cap : Capacity} {base : ℕ} {g g' : World}

theorem length_first {l : List UInt8} {n : UInt32} (h : n.toNat ≤ l.length) :
    (first l n).bytes.length = n.toNat := by
  show (l.take n.toNat).length = _
  rw [List.length_take_of_le h]

theorem len_first {l : List UInt8} {n : UInt32} (h : n.toNat ≤ l.length) :
    (first l n).len = n := by
  apply UInt32.toNat_inj.mp
  rw [Buf.toNat_len, length_first h]

/-- The first `n` bytes of the first `m` are the first `n`. -/
theorem first_first {l : List UInt8} {n m : UInt32} (h : n.toNat ≤ m.toNat) :
    first (first l m).bytes n = first l n := by
  unfold first
  simp only [List.take_take, Nat.min_eq_left h]

theorem rest_first {l : List UInt8} {n m : UInt32} (h : n ≤ m) :
    rest (first l m) n = first (l.drop n.toNat) (m - n) := by
  unfold rest first
  simp only [UInt32.toNat_sub_of_le _ _ h, List.drop_take]

/-- The next piece is not empty, nor longer than what is left. -/
theorem chunk_bounds (cap : Capacity) {left : UInt32} (hpos : 0 < left) :
    0 < (chunk cap left).toNat ∧ (chunk cap left).toNat ≤ left.toNat := by
  have hmax := maxWriteSize_pos cap
  have hlen : (first (List.replicate left.toNat 0) left).len = left := len_first (by simp)
  have hchunk := toNat_chunk cap (first (List.replicate left.toNat 0) left)
  rw [hlen, length_first (by simp)] at hchunk
  rw [UInt32.lt_iff_toNat_lt] at hpos
  have hz : (0 : UInt32).toNat = 0 := rfl
  omega

/-- One turn of `writeChunks`, on the first `left` bytes from `p` on. -/
theorem writeChunks_first {data : List UInt8} {p : ℕ} {left : UInt32} (hpos : 0 < left)
    (hlen : p + left.toNat ≤ data.length) :
    writeChunks cap (first (data.drop p) left) = (do
      let rc ← tryWrite cap (some (first (data.drop p) (chunk cap left)))
      if rc ≠ 0 then
        return false
      writeChunks cap
        (first (data.drop (p + (chunk cap left).toNat)) (left - chunk cap left))) := by
  obtain ⟨-, hle⟩ := chunk_bounds cap hpos
  rw [UInt32.lt_iff_toNat_lt] at hpos
  have hdrop : left.toNat ≤ (data.drop p).length := by
    rw [List.length_drop]
    omega
  rw [writeChunks, if_neg (by rw [length_first hdrop]; exact Nat.ne_of_gt hpos), len_first hdrop,
    first_first hle, rest_first (UInt32.le_iff_toNat_le.mpr hle), List.drop_drop]

theorem writeChunks_nil (l : List UInt8) : writeChunks cap (first l 0) = pure true := by
  have h0 : (first l 0).bytes.length = 0 := length_first (Nat.zero_le _)
  rw [writeChunks, if_pos h0]

/-- **The loop of `WriteRaw`** ends, within one turn for each byte and one more. -/
theorem writeRawLoop_eq {data : List UInt8} : ∀ {fuel p : ℕ} {left : UInt32},
    left.toNat < fuel → p + left.toNat ≤ data.length →
    writeRawLoop cap data fuel p left = (do
      let ok ← writeChunks cap (first (data.drop p) left)
      return some ok)
  | 0, _, _, h, _ => absurd h (Nat.not_lt_zero _)
  | fuel + 1, p, left, hfuel, hlen => by
    rw [writeRawLoop]
    split_ifs with hpos
    · obtain ⟨hn, hle⟩ := chunk_bounds cap hpos
      have hsub := UInt32.toNat_sub_of_le _ _ (UInt32.le_iff_toNat_le.mpr hle)
      rw [writeChunks_first hpos hlen, Prog.bind_bind]
      refine congrArg (tryWrite cap _ >>= ·) (funext fun rc => ?_)
      split_ifs
      · rfl
      · exact writeRawLoop_eq (by omega) (by omega)
    · have h0 : left = 0 := UInt32.not_lt.mp hpos |> UInt32.le_zero_iff.mp
      subst h0
      rw [writeChunks_nil]
      rfl

/-! ### The counters of `SendMessage` -/

theorem toInt_toInt32 {n : UInt32} (h : n.toNat < 2 ^ 31) : n.toInt32.toInt = n.toNat := by
  have hn : n.toInt32 = Int32.ofNat n.toNat := by
    rw [← UInt32.toInt32_ofNat', UInt32.ofNat_toNat]
  rw [hn, Int32.toInt_ofNat_of_lt h]

/-- While `left` of `len` bytes are left, the next piece is that of `WriteRaw`, and adding it to
`sent` does not overflow. -/
theorem pieceOf_eq {len sent : Int32} {left : UInt32} (h0 : 0 ≤ sent.toInt)
    (hleft : (left.toNat : ℤ) = len.toInt - sent.toInt) (hpos : 0 < left) :
    pieceOf cap len sent = chunk cap left ∧
      (sent + (chunk cap left).toInt32).toInt = sent.toInt + (chunk cap left).toNat := by
  have hlt := len.toInt_lt
  obtain ⟨-, hle⟩ := chunk_bounds cap hpos
  have hsub : (len - sent).toInt = left.toNat := by
    rw [Int32.toInt_sub, Int.bmod_eq_of_le (by omega) (by omega)]
    omega
  have hn : (len - sent).toUInt32 = left := by
    apply UInt32.toNat_inj.mp
    have hz : ((len - sent).toUInt32.toNat : ℤ) = _ := toNat_toUInt32 (by omega)
    omega
  have hcap := cap.lt
  have hm : (UInt32.ofNat cap.maxWriteSize).toNat = cap.maxWriteSize := by
    rw [UInt32.toNat_ofNat', Nat.mod_eq_of_lt (by unfold Capacity.maxWriteSize; omega)]
  constructor
  · unfold pieceOf chunk
    rw [hn]
    simp only [UInt32.lt_iff_toNat_lt, hm]
  · rw [Int32.toInt_add, toInt_toInt32 (by omega), Int.bmod_eq_of_le (by omega) (by omega)]

/-- **The loop of `SendMessage`** ends likewise, and then all of `len` is sent. -/
theorem sendMessageLoop_eq {message : List UInt8} {len : Int32}
    (hlen : len.toInt ≤ message.length) :
    ∀ {fuel : ℕ} {sent : Int32} {left : UInt32}, 0 ≤ sent.toInt →
      (left.toNat : ℤ) = len.toInt - sent.toInt → left.toNat < fuel →
      sendMessageLoop cap message len fuel sent = (do
        let ok ← writeChunks cap (first (message.drop sent.toInt.toNat) left)
        return some (if ok then some len else none))
  | 0, _, _, _, _, h => absurd h (Nat.not_lt_zero _)
  | fuel + 1, sent, left, h0, hleft, hfuel => by
    rw [sendMessageLoop]
    split_ifs with hlt
    · rw [Int32.lt_iff_toInt_lt] at hlt
      have hpos : 0 < left := by
        rw [UInt32.lt_iff_toNat_lt]
        show 0 < left.toNat
        omega
      obtain ⟨hn, hle⟩ := chunk_bounds cap hpos
      obtain ⟨hpiece, hsent⟩ := pieceOf_eq h0 hleft hpos
      have hsub := UInt32.toNat_sub_of_le _ _ (UInt32.le_iff_toNat_le.mpr hle)
      rw [hpiece, writeChunks_first hpos (by omega), Prog.bind_bind]
      refine congrArg (tryWrite cap _ >>= ·) (funext fun rc => ?_)
      split_ifs
      · rfl
      · have hleft' : ((left - chunk cap left).toNat : ℤ) =
            len.toInt - (sent + (chunk cap left).toInt32).toInt := by omega
        have ih : sendMessageLoop cap message len fuel _ = _ :=
          sendMessageLoop_eq hlen (by omega) hleft' (by omega)
        have hp : (sent + (chunk cap left).toInt32).toInt.toNat =
            sent.toInt.toNat + (chunk cap left).toNat := by omega
        rw [hp] at ih
        exact ih
    · rw [Int32.lt_iff_toInt_lt] at hlt
      have hl : left = 0 := by
        apply UInt32.toNat_inj.mp
        show left.toNat = 0
        omega
      have hs : sent = len := by
        apply Int32.toInt_inj.mp
        omega
      subst hl
      rw [writeChunks_nil, hs]
      rfl

theorem sendMessageLoop_start {message : List UInt8} {len : Int32} {fuel : ℕ}
    (hlen : len.toInt ≤ message.length) (h0 : 0 ≤ len.toInt) (hfuel : len.toInt < fuel) :
    sendMessageLoop cap message len fuel 0 = (do
      let ok ← writeChunks cap (first message len.toUInt32)
      return some (if ok then some len else none)) := by
  have hn := toNat_toUInt32 h0
  have hz : (0 : Int32).toInt = 0 := rfl
  have hleft : (len.toUInt32.toNat : ℤ) = len.toInt - (0 : Int32).toInt := by omega
  have hloop : sendMessageLoop cap message len fuel 0 = _ :=
    sendMessageLoop_eq hlen le_rfl hleft (by omega)
  rw [hz, Int.toNat_zero, List.drop_zero] at hloop
  exact hloop

/-! ### All or nothing -/

/-- `WriteRaw` with enough fuel. -/
theorem writeRawWith_eq {fuel : ℕ} {data : List UInt8} {len : UInt32}
    (hlen : len.toNat ≤ data.length) (hfuel : len.toNat < fuel) :
    writeRawWith cap fuel data len = (do
      let ok ← writeRaw cap (first data len)
      return some ok) := by
  unfold writeRawWith writeRaw writeAll
  rw [len_first hlen]
  split_ifs with h0
  · rfl
  · rw [Prog.bind_bind]
    refine congrArg (writableBytes cap >>= ·) (funext fun free => ?_)
    split_ifs with hfree
    · rfl
    · rw [writeRawLoop_eq hfuel (by omega), Prog.bind_bind, Prog.bind_bind, List.drop_zero]
      refine congrArg (writeChunks cap _ >>= ·) (funext fun ok => ?_)
      cases ok <;> rfl

/-- `static_cast<uint64_t>(len)` of a length that is not negative. -/
theorem toUInt64_toInt64 {len : Int32} (h : 0 ≤ len.toInt) :
    len.toInt64.toUInt64 = len.toUInt32.toUInt64 := by
  apply UInt64.toNat_inj.mp
  have h0 : (0 : Int64) ≤ len.toInt64 := by
    rw [Int64.le_iff_toInt_le, Int32.toInt_toInt64]
    exact h
  have hn := toNat_toUInt32 h
  rw [Int64.toNat_toUInt64_of_le h0, UInt32.toNat_toUInt64, Int32.toNatClampNeg_toInt64,
    ← Int32.toNat_toInt]
  omega

/-- `SendMessage` with enough fuel. -/
theorem sendMessageWith_eq {fuel : ℕ} {connected : Bool} {message : List UInt8} {len : Int32}
    (hlen : len.toInt ≤ message.length) (hfuel : len.toInt < fuel) :
    sendMessageWith cap fuel connected (some message) len = (do
      let n ← sendMessage cap connected (some message) len
      return some n) := by
  unfold sendMessageWith sendMessage
  simp only []
  split_ifs with hno
  · rfl
  · rw [not_or, Int32.le_iff_toInt_le] at hno
    have hpos : 0 < len.toInt := not_le.mp hno.2
    have hn := toNat_toUInt32 hpos.le
    unfold writeAll
    rw [len_first (by omega), toUInt64_toInt64 hpos.le, Prog.bind_bind, Prog.bind_bind]
    refine congrArg (writableBytes cap >>= ·) (funext fun free => ?_)
    split_ifs with hfree
    · rfl
    · rw [sendMessageLoop_start hlen hpos.le hfuel]
      simp only [Prog.bind_bind]
      refine congrArg (writeChunks cap _ >>= ·) (funext fun ok => ?_)
      cases ok <;> rfl

theorem writeAll_runs (hi : Inv cap base g) {data : Buf} {ok : Bool}
    (h : Runs cap (writeAll cap data) g ok g') :
    (ok = false ∧ Nothing g g' ∧
        g.consumed + cap.val < g.published.length + data.bytes.length) ∨
      (ok = true ∧ Flushed cap base g data.bytes True g') := by
  have hwp : wpW cap base (writeAll cap data) (fun ok g' => (ok = false ∧ Nothing g g' ∧
        g.consumed + cap.val < g.published.length + data.bytes.length) ∨
      (ok = true ∧ Flushed cap base g data.bytes True g')) g := by
    refine writeAll_spec hi (fun g' hf => Or.inr ⟨rfl, hf⟩) fun g' hw hs => Or.inl ⟨rfl, ?_, hs⟩
    have hd := hw.data
    rw [← hd] at hw
    exact nothing_of_wrote hi hw
  have hpost := Prog.wp_exec h hwp
  exact hpost

/-- Behind the check, the pieces go in. -/
theorem writeChunks_runs (hi : Inv cap base g) {data : Buf} {free : UInt64} {g₁ g₂ : World}
    {ok : Bool} (h : Runs cap (writableBytes cap) g free g₁)
    (hfree : ¬ free < data.len.toUInt64) (h' : Runs cap (writeChunks cap data) g₁ ok g₂) :
    ok = true := by
  have hwp : wpW cap base (writableBytes cap) (fun free g₁ => Inv cap base g₁ ∧
      free.toNat = g₁.consumed + cap.val - g₁.published.length) g := by
    refine writableBytes_spec hi fun free g₁ hw hf => ⟨hw.inv, ?_⟩
    rw [hw.published, List.append_nil]
    exact hf
  obtain ⟨hi₁, hf⟩ := Prog.wp_exec h hwp
  have hfit := hi₁.fit
  rw [UInt64.lt_iff_toNat_lt, UInt32.toNat_toUInt64, data.toNat_len, hf] at hfree
  have hwp' : wpW cap base (writeChunks cap data) (fun ok _ => ok = true) g₁ :=
    writeChunks_spec hi₁ (by omega) fun _ _ => rfl
  have hpost := Prog.wp_exec h' hwp'
  exact hpost

theorem writeRawWith_runs (hi : Inv cap base g) {fuel : ℕ} {data : List UInt8} {len : UInt32}
    (hpos : 0 < len) (hlen : len.toNat ≤ data.length) (hfuel : len.toNat < fuel)
    {out : Option Bool} (h : Runs cap (writeRawWith cap fuel data len) g out g') :
    (out = some false ∧ Nothing g g' ∧
        g.consumed + cap.val < g.published.length + len.toNat) ∨
      (out = some true ∧ Flushed cap base g (data.take len.toNat) True g') := by
  rw [writeRawWith_eq hlen hfuel] at h
  obtain ⟨ok, g₁, hrun, hret⟩ := Prog.exec_bind.mp h
  obtain ⟨rfl, rfl⟩ := Prog.exec_ret_iff.mp hret
  unfold writeRaw at hrun
  rw [len_first hlen, if_neg (UInt32.pos_iff_ne_zero.mp hpos)] at hrun
  rcases writeAll_runs hi hrun with ⟨rfl, hno, hs⟩ | ⟨rfl, hf⟩
  · rw [length_first hlen] at hs
    exact Or.inl ⟨rfl, hno, hs⟩
  · exact Or.inr ⟨rfl, hf⟩

theorem writeRawLoop_runs (hi : Inv cap base g) {fuel : ℕ} {data : List UInt8} {len : UInt32}
    {free : UInt64} {g₁ g₂ : World} {out : Option Bool} (hlen : len.toNat ≤ data.length)
    (hfuel : len.toNat < fuel) (h : Runs cap (writableBytes cap) g free g₁)
    (hfree : ¬ free < len.toUInt64) (h' : Runs cap (writeRawLoop cap data fuel 0 len) g₁ out g₂) :
    out = some true := by
  rw [writeRawLoop_eq hfuel (by omega)] at h'
  obtain ⟨ok, g₃, hrun, hret⟩ := Prog.exec_bind.mp h'
  obtain ⟨rfl, rfl⟩ := Prog.exec_ret_iff.mp hret
  rw [← len_first hlen] at hfree
  rw [writeChunks_runs hi h hfree hrun]

theorem sendMessageWith_runs (hi : Inv cap base g) {fuel : ℕ} {connected : Bool}
    {message : List UInt8} {len : Int32} (hpos : 0 < len) (hlen : len.toInt ≤ message.length)
    (hfuel : len.toInt < fuel) {out : Option ℤ}
    (h : Runs cap (sendMessageWith cap fuel connected (some message) len) g out g') :
    (out = some (-1) ∧ Nothing g g' ∧ (connected = false ∨
        g.consumed + cap.val < g.published.length + len.toInt)) ∨
      (out = some len.toInt ∧ Flushed cap base g (message.take len.toInt.toNat) True g') := by
  have hpos' : 0 < len.toInt := Int32.lt_iff_toInt_lt.mp hpos
  have hn := toNat_toUInt32 hpos'.le
  rw [sendMessageWith_eq hlen hfuel] at h
  obtain ⟨n, g₁, hrun, hret⟩ := Prog.exec_bind.mp h
  obtain ⟨rfl, rfl⟩ := Prog.exec_ret_iff.mp hret
  unfold sendMessage at hrun
  simp only [] at hrun
  split_ifs at hrun with hno
  · obtain ⟨rfl, rfl⟩ := Prog.exec_ret_iff.mp hrun
    rw [Int32.le_iff_toInt_le] at hno
    have hoff : connected = false := hno.resolve_right (not_le.mpr hpos')
    exact Or.inl ⟨rfl, ⟨rfl, rfl, rfl, Or.inl rfl⟩, Or.inl hoff⟩
  · obtain ⟨ok, g₂, hrun, hret⟩ := Prog.exec_bind.mp hrun
    obtain ⟨rfl, rfl⟩ := Prog.exec_ret_iff.mp hret
    rcases writeAll_runs hi hrun with ⟨rfl, hno, hs⟩ | ⟨rfl, hf⟩
    · rw [length_first (by omega)] at hs
      exact Or.inl ⟨rfl, hno, Or.inr (by omega)⟩
    · refine Or.inr ⟨rfl, ?_⟩
      have hb : (first message len.toUInt32).bytes = message.take len.toUInt32.toNat := rfl
      have he : len.toInt.toNat = len.toUInt32.toNat := by omega
      rw [he, ← hb]
      exact hf

theorem sendMessageLoop_runs (hi : Inv cap base g) {fuel : ℕ} {message : List UInt8} {len : Int32}
    {free : UInt64} {g₁ g₂ : World} {out : Option (Option Int32)} (hpos : 0 < len)
    (hlen : len.toInt ≤ message.length) (hfuel : len.toInt < fuel)
    (h : Runs cap (writableBytes cap) g free g₁) (hfree : ¬ free < len.toInt64.toUInt64)
    (h' : Runs cap (sendMessageLoop cap message len fuel 0) g₁ out g₂) :
    out = some (some len) := by
  have hpos' : 0 < len.toInt := Int32.lt_iff_toInt_lt.mp hpos
  have hn := toNat_toUInt32 hpos'.le
  rw [sendMessageLoop_start hlen hpos'.le hfuel] at h'
  obtain ⟨ok, g₃, hrun, hret⟩ := Prog.exec_bind.mp h'
  obtain ⟨rfl, rfl⟩ := Prog.exec_ret_iff.mp hret
  have hb : (first message len.toUInt32).len = len.toUInt32 := len_first (by omega)
  rw [toUInt64_toInt64 hpos'.le, ← hb] at hfree
  rw [writeChunks_runs hi h hfree hrun]
  rfl

/-- **Raw sends are all or nothing**, and their loops end, whatever the reader releases meanwhile.
They fail only for want of space, or on a client that is not connected; behind the check no
`TryWrite` fails. -/
theorem raw_send (hi : Inv cap base g) :
    (∀ (data : List UInt8) (len : UInt32) (fuel : ℕ), 0 < len → len.toNat ≤ data.length →
      len.toNat < fuel →
      (∀ out g', Runs cap (writeRawWith cap fuel data len) g out g' →
        (out = some false ∧ Nothing g g' ∧
            g.consumed + cap.val < g.published.length + len.toNat) ∨
          (out = some true ∧ Flushed cap base g (data.take len.toNat) True g')) ∧
      ∀ free g₁ out g₂, Runs cap (writableBytes cap) g free g₁ → ¬ free < len.toUInt64 →
        Runs cap (writeRawLoop cap data fuel 0 len) g₁ out g₂ → out = some true) ∧
    ∀ (message : List UInt8) (len : Int32) (fuel : ℕ) (connected : Bool), 0 < len →
      len.toInt ≤ message.length → len.toInt < fuel →
      (∀ out g', Runs cap (sendMessageWith cap fuel connected (some message) len) g out g' →
        (out = some (-1) ∧ Nothing g g' ∧ (connected = false ∨
            g.consumed + cap.val < g.published.length + len.toInt)) ∨
          (out = some len.toInt ∧
            Flushed cap base g (message.take len.toInt.toNat) True g')) ∧
      ∀ free g₁ out g₂, Runs cap (writableBytes cap) g free g₁ →
        ¬ free < len.toInt64.toUInt64 →
        Runs cap (sendMessageLoop cap message len fuel 0) g₁ out g₂ → out = some (some len) := by
  refine ⟨fun data len fuel hpos hlen hfuel => ?_,
    fun message len fuel connected hpos hlen hfuel => ?_⟩
  · exact ⟨fun _ _ => writeRawWith_runs hi hpos hlen hfuel,
      fun _ _ _ _ => writeRawLoop_runs hi hlen hfuel⟩
  · exact ⟨fun _ _ => sendMessageWith_runs hi hpos hlen hfuel,
      fun _ _ _ _ => sendMessageLoop_runs hi hpos hlen hfuel⟩

/-- Five bytes across the ring end. -/
theorem raw_send_five :
    Inv .min 1020 (.empty 1020 fun _ => 0) ∧
    ∀ out g', Runs .min (writeRawWith .min 6 [1, 2, 3, 4, 5] 5) (.empty 1020 fun _ => 0) out g' →
      out = some true ∧ g'.published = [1, 2, 3, 4, 5] ∧ g'.notified = 1 := by
  have hi := inv_empty .min 1020 fun _ => 0
  refine ⟨hi, fun out g' hrun => ?_⟩
  rcases ((raw_send hi).1 [1, 2, 3, 4, 5] 5 6 (by decide) (by decide) (by decide)).1 out g' hrun
    with ⟨-, -, hs⟩ | ⟨rfl, hf⟩
  · exact absurd hs (by decide)
  · exact ⟨rfl, hf.published, (hf.notified trivial).1⟩

end ShmIpc.Conn.RawSend
