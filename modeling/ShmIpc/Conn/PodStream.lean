import ShmIpc.Conn.SendCmd
import ShmIpc.Lib.LittleEndian
import ShmIpc.Lib.Threads

/-! # Streams of POD messages: `simple_pod_codec.hpp` on a connection

`SimplePodCodec` writes a value as the tag of its type and its bytes. `refParse` is what a stream of
such values means, read as a whole. A peer publishes the stream in chunks of any size, or sends
values with `SendCmd`; the connection takes turns of the loop of `DrainRing` in between. The
reader's invariant is that what it has released is exactly the encoding of what the message
callback has been given; then a turn does what `refParse` does next (`turnOn_refStep`). The size of
a packet is computed in 32 bits, so all this needs that `4 + sizeof(T)` does not overflow. -/

namespace ShmIpc.Conn.PodStream

open Relation
open ShmIpc.Lib.RelyGuarantee ShmIpc.Lib.Threads ShmIpc.Lib.LittleEndian
open ShmIpc.Ring.RingBuf ShmIpc.Ring.History ShmIpc.Ring.Writer ShmIpc.Ring.Reader
open ShmIpc.Ring.Channel
open ShmIpc.Conn.DrainRing ShmIpc.Conn.SendCmd

/-! ### `SimplePodCodec` -/

/-- A POD type `T`: `typeid(T)`, `TypeTag<T>::value` and `sizeof(T)`. The braces around `TypeOps`
do not compile for a size of more than 32 bits. -/
structure PodType where
  id : ℕ
  tag : UInt32
  size : UInt32
  deriving DecidableEq, Repr

/-- A value of a POD type. -/
structure Value where
  ty : PodType
  bytes : List UInt8
  length : bytes.length = ty.size.toNat

/-- The two tables of the codec. -/
structure Registry where
  tagOf : PodType → Option UInt32
  opsOf : UInt32 → Option PodType

/-- `RegisterPod<T>`. -/
def Registry.registerPod (r : Registry) (T : PodType) : Registry where
  tagOf ty := if ty = T then some T.tag else r.tagOf ty
  opsOf tag := if tag = T.tag then some T else r.opsOf tag

/-- The tables after `RegisterPod` of the types in turn. -/
def registry (types : List PodType) : Registry :=
  types.foldl Registry.registerPod ⟨fun _ => none, fun _ => none⟩

/-- `kTagSize`. -/
def kTagSize : UInt32 := 4

/-- The `decode` of a `TypeOps`: `sizeof(T)` bytes from the start of `data`. -/
def opsDecode (T : PodType) (data : List UInt8) : Option Value :=
  if h : T.size.toNat ≤ data.length then
    some ⟨T, data.take T.size.toNat, List.length_take_of_le h⟩
  else none

/-- `SimplePodCodec`; the packages are `std::any`s, `none` an empty one. -/
def simplePodCodec (r : Registry) : Codec Unit (Option Value) where
  encode _ pkg buflen :=
    match pkg with
    | none => some (⟨kCodecDisconnect, [], 0⟩, ())
    | some v =>
      match r.tagOf v.ty with
      | none => some (⟨kCodecDisconnect, [], 0⟩, ())
      | some tag =>
        match r.opsOf tag with
        | none => some (⟨kCodecDisconnect, [], 0⟩, ())
        | some T =>
          let need := kTagSize + T.size
          if buflen < need.toNat then some (⟨kCodecNeedMoreBuffer, [], need.toNat⟩, ())
          else if v.ty = T then some (⟨need.toInt32, le32 tag ++ v.bytes, 0⟩, ())
          else some (⟨kCodecDisconnect, le32 tag, 0⟩, ())
  decode _ buf :=
    if buf.length < kTagSize.toNat then some (⟨kCodecNeedMoreBuffer, none, 0⟩, ())
    else
      match r.opsOf (ofLe buf) with
      | none => some (⟨kCodecDisconnect, none, 0⟩, ())
      | some T =>
        let need := kTagSize + T.size
        if buf.length < need.toNat then some (⟨kCodecNeedMoreBuffer, none, 0⟩, ())
        else
          match opsDecode T (buf.drop kTagSize.toNat) with
          | none => none
          | some v => some (⟨need.toInt32, some v, 0⟩, ())

/-! ### The registered types -/

/-- No two registered types have the same tag. -/
def Distinct (types : List PodType) : Prop :=
  ∀ T ∈ types, ∀ T' ∈ types, T.tag = T'.tag → T = T'

theorem foldl_tagOf (types : List PodType) (r : Registry) (ty : PodType) :
    (types.foldl Registry.registerPod r).tagOf ty =
      if ty ∈ types then some ty.tag else r.tagOf ty := by
  induction types generalizing r with
  | nil => simp
  | cons T types ih =>
    rw [List.foldl_cons, ih]
    by_cases h : ty ∈ types
    · rw [if_pos h, if_pos (List.mem_cons_of_mem T h)]
    · rw [if_neg h, Registry.registerPod]
      by_cases hT : ty = T
      · simp [hT]
      · simp [hT, h]

theorem tagOf_registry (types : List PodType) (ty : PodType) :
    (registry types).tagOf ty = if ty ∈ types then some ty.tag else none :=
  foldl_tagOf types _ ty

theorem foldl_opsOf_of_ne {types : List PodType} {r : Registry} {tag : UInt32}
    (h : ∀ T ∈ types, T.tag ≠ tag) :
    (types.foldl Registry.registerPod r).opsOf tag = r.opsOf tag := by
  induction types generalizing r with
  | nil => rfl
  | cons T types ih =>
    rw [List.foldl_cons, ih fun T' hT' => h T' (List.mem_cons_of_mem T hT')]
    exact if_neg fun he => h T List.mem_cons_self he.symm

theorem foldl_opsOf_of_mem {types : List PodType} {r : Registry} (hd : Distinct types)
    {T : PodType} (hT : T ∈ types) :
    (types.foldl Registry.registerPod r).opsOf T.tag = some T := by
  induction types generalizing r with
  | nil => exact absurd hT List.not_mem_nil
  | cons T₀ types ih =>
    rw [List.foldl_cons]
    by_cases hin : T ∈ types
    · exact ih (fun T₁ h₁ T₂ h₂ he => hd T₁ (List.mem_cons_of_mem T₀ h₁) T₂
        (List.mem_cons_of_mem T₀ h₂) he) hin
    · have h0 : T = T₀ := by simpa [hin] using hT
      subst h0
      rw [foldl_opsOf_of_ne fun T' hT' he => hin ?_]
      · exact if_pos rfl
      · rw [← hd T' (List.mem_cons_of_mem T hT') T List.mem_cons_self he]
        exact hT'

/-- The type of a tag among the registered ones. -/
theorem find?_tag {types : List PodType} (hd : Distinct types) {T : PodType} (hT : T ∈ types) :
    (types.find? fun T' => T'.tag = T.tag) = some T := by
  cases hf : types.find? fun T' => T'.tag = T.tag with
  | none =>
    have := List.find?_eq_none.mp hf T hT
    simp at this
  | some T' =>
    have h1 : T'.tag = T.tag := by simpa using List.find?_some hf
    rw [hd T' (List.mem_of_find?_eq_some hf) T hT h1]

/-- With distinct tags, the table finds the type of a tag. -/
theorem opsOf_registry {types : List PodType} (hd : Distinct types) (tag : UInt32) :
    (registry types).opsOf tag = types.find? fun T => T.tag = tag := by
  by_cases h : ∃ T ∈ types, T.tag = tag
  · obtain ⟨T, hT, rfl⟩ := h
    rw [find?_tag hd hT]
    exact foldl_opsOf_of_mem hd hT
  · have hne : ∀ T ∈ types, T.tag ≠ tag := fun T hT he => h ⟨T, hT, he⟩
    rw [List.find?_eq_none.mpr fun T hT => by simpa using hne T hT]
    exact foldl_opsOf_of_ne hne

/-! ### What a stream means -/

/-- The next step of the reference parser. -/
inductive RefStep : Type
  /-- the next message has not arrived as a whole -/
  | more
  /-- a tag that is not registered -/
  | stop
  | message (v : Value)

/-- Read a tag; if it is registered with size `n`, take the next `n` bytes. -/
def refStep (types : List PodType) (S : List UInt8) : RefStep :=
  if S.length < 4 then .more
  else
    match types.find? fun T => T.tag = ofLe S with
    | none => .stop
    | some T =>
      match opsDecode T (S.drop 4) with
      | none => .more
      | some v => .message v

/-- The messages of a stream, the bytes behind them, and whether these start with an unregistered
tag. -/
structure Parse where
  msgs : List Value
  rest : List UInt8
  stopped : Bool

theorem opsDecode_eq_some {T : PodType} {data : List UInt8} {v : Value} :
    opsDecode T data = some v ↔ v.ty = T ∧ v.bytes <+: data := by
  unfold opsDecode
  constructor
  · intro h
    split_ifs at h
    cases h
    exact ⟨rfl, List.take_prefix _ _⟩
  · rintro ⟨rfl, t, rfl⟩
    have hl := v.length
    rw [dif_pos (by rw [List.length_append]; omega)]
    congr 1
    obtain ⟨ty, bytes, h⟩ := v
    simp only [Value.mk.injEq, true_and]
    exact List.take_left' h

/-- The bytes of a value on the wire. -/
def wire (v : Value) : List UInt8 := le32 v.ty.tag ++ v.bytes

theorem length_wire (v : Value) : (wire v).length = 4 + v.ty.size.toNat := by
  rw [wire, List.length_append, length_le32, v.length]

/-- A message starts the stream with its bytes on the wire. -/
theorem refStep_eq_message {types : List PodType} {S : List UInt8} {v : Value}
    (h : refStep types S = .message v) : v.ty ∈ types ∧ ∃ t, S = wire v ++ t := by
  unfold refStep at h
  split_ifs at h with hl
  split at h
  · cases h
  · rename_i T hT
    split at h
    · cases h
    · rename_i v' hv
      cases h
      obtain ⟨rfl, t, ht⟩ := opsDecode_eq_some.mp hv
      have htag : v.ty.tag = ofLe S := by simpa using List.find?_some hT
      refine ⟨List.mem_of_find?_eq_some hT, t, ?_⟩
      rw [wire, List.append_assoc, ht, htag]
      exact (le32_ofLe (by omega)).symm

theorem refStep_wire {types : List PodType} (hd : Distinct types) {v : Value} (hv : v.ty ∈ types)
    (t : List UInt8) : refStep types (wire v ++ t) = .message v := by
  have hdec : opsDecode v.ty ((wire v ++ t).drop 4) = some v := by
    refine opsDecode_eq_some.mpr ⟨rfl, t, ?_⟩
    rw [wire, List.append_assoc, List.drop_left' (length_le32 _)]
  unfold refStep
  rw [if_neg (by rw [List.length_append, length_wire]; omega), wire, List.append_assoc,
    ofLe_le32, find?_tag hd hv, ← List.append_assoc, ← wire]
  simp only [hdec]

/-- The reference parse: message by message until one is incomplete or unregistered. -/
def refParse (types : List PodType) (S : List UInt8) : Parse :=
  match _h : refStep types S with
  | .more => ⟨[], S, false⟩
  | .stop => ⟨[], S, true⟩
  | .message v =>
    let p := refParse types (S.drop (wire v).length)
    { p with msgs := v :: p.msgs }
termination_by S.length
decreasing_by
  obtain ⟨-, t, rfl⟩ := refStep_eq_message _h
  rw [List.length_drop, List.length_append, length_wire]
  omega

theorem refParse_more {types : List PodType} {S : List UInt8} (h : refStep types S = .more) :
    refParse types S = ⟨[], S, false⟩ := by
  rw [refParse]
  split <;> simp_all

theorem refParse_stop {types : List PodType} {S : List UInt8} (h : refStep types S = .stop) :
    refParse types S = ⟨[], S, true⟩ := by
  rw [refParse]
  split <;> simp_all

/-- The parse of a stream that starts with values on the wire. -/
theorem refParse_wires {types : List PodType} (hd : Distinct types) (t : List UInt8) :
    ∀ {vs : List Value}, (∀ v ∈ vs, v.ty ∈ types) →
      refParse types (vs.flatMap wire ++ t) =
        { refParse types t with msgs := vs ++ (refParse types t).msgs }
  | [], _ => by simp
  | v :: vs, hvs => by
    have hstep := refStep_wire hd (hvs v List.mem_cons_self) (vs.flatMap wire ++ t)
    rw [List.flatMap_cons, List.append_assoc, refParse]
    split <;> rename_i h <;> rw [hstep] at h <;> cases h
    rw [List.drop_left, refParse_wires hd t fun v hv => hvs v (List.mem_cons_of_mem _ hv)]
    rfl

/-! ### A turn of the loop against a step of the parser -/

/-- No packet is longer than 32 bits can say. -/
def SizesFit (types : List PodType) : Prop := ∀ T ∈ types, 4 + T.size.toNat < 4294967296

theorem toNat_need {T : PodType} (h : 4 + T.size.toNat < 4294967296) :
    (kTagSize + T.size).toNat = 4 + T.size.toNat := by
  have h4 : kTagSize.toNat = 4 := rfl
  rw [UInt32.toNat_add, h4, Nat.mod_eq_of_lt h]

/-- A length below `2^31` that the codec returns is what it says. -/
theorem judge_package {M : Type} (n buflen : UInt32) (pkg : M) (size : ℕ) (hpos : 0 < n.toNat)
    (hle : n.toNat ≤ buflen.toNat) (hlt : n.toNat < 2147483648) :
    judge buflen ⟨n.toInt32, pkg, size⟩ = .package n pkg := by
  have hne : ∀ k : Int32, k.toUInt32.toNat = 0 ∨ 2147483648 ≤ k.toUInt32.toNat →
      n.toInt32 ≠ k := by
    intro k hk he
    rw [← he, UInt32.toUInt32_toInt32] at hk
    omega
  have hneg : ¬ n.toInt32 < 0 := by
    have htoInt : n.toInt32.toInt = n.toNat := by
      show n.toBitVec.toInt = _
      rw [BitVec.toInt_eq_toNat_of_lt (by show 2 * n.toNat < _; omega)]
      rfl
    rw [Int32.lt_iff_toInt_lt, htoInt]
    have hz : (0 : Int32).toInt = 0 := rfl
    omega
  unfold judge
  simp only []
  rw [if_neg (hne _ (by decide)), if_neg (hne _ (by decide)), if_neg (hne _ (by decide)),
    if_neg hneg, UInt32.toUInt32_toInt32, if_neg (by rw [UInt32.lt_iff_toNat_lt]; omega)]

/-- What a turn does, by what the reference parser does next. -/
def turnOf : RefStep → Turn (Option Value)
  | .more => .wait
  | .stop => .error
  | .message v => .package (kTagSize + v.ty.size) (some v)

/-- **A turn of `DrainRing` is a step of the reference parser** on the bytes it saw. -/
theorem turnOn_refStep {types : List PodType} (hd : Distinct types) (hfit : SizesFit types)
    {buf : List UInt8} (hlen : buf.length < 2147483648) :
    turnOn (simplePodCodec (registry types)) () buf = (turnOf (refStep types buf), ()) := by
  by_cases hnil : buf = []
  · subst hnil
    rfl
  have h4 : kTagSize.toNat = 4 := rfl
  unfold turnOn decodeTurn refStep
  rw [if_neg hnil]
  simp only [simplePodCodec, opsOf_registry hd, h4]
  by_cases hshort : buf.length < 4
  · rw [if_pos hshort, if_pos hshort]
    rfl
  rw [if_neg hshort, if_neg hshort]
  cases hf : types.find? fun T => T.tag = ofLe buf with
  | none => rfl
  | some T =>
    have hneed := toNat_need (hfit T (List.mem_of_find?_eq_some hf))
    simp only [hneed]
    by_cases hpart : buf.length < 4 + T.size.toNat
    · have hdec : opsDecode T (buf.drop 4) = none := by
        rw [opsDecode, dif_neg (by rw [List.length_drop]; omega)]
      rw [if_pos hpart, hdec]
      rfl
    · rw [if_neg hpart]
      have hle : T.size.toNat ≤ (buf.drop 4).length := by rw [List.length_drop]; omega
      rw [opsDecode, dif_pos hle]
      have hj := judge_package (kTagSize + T.size) (UInt32.ofNat buf.length)
        (some (⟨T, (buf.drop 4).take T.size.toNat, List.length_take_of_le hle⟩ : Value)) 0
        (by omega)
        (by rw [hneed, UInt32.toNat_ofNat', Nat.mod_eq_of_lt (by omega)]; omega) (by omega)
      simp only [hj]
      rfl

variable {types : List PodType} {cap : Capacity} {base : ℕ} {g g' : World}

/-! ### The reader -/

/-- The reader between two turns of the loop. -/
structure DrainLoc where
  inbox : Inbox Unit
  state : TcpConnStates
  /-- the packages given to the message callback -/
  got : List (Option Value)
  /-- `count`, inside a call of `DrainRing` -/
  count : Option ℤ
  /-- how many bytes had arrived when the last call started -/
  arrived : ℕ
  /-- how the last call ended -/
  ret : Option Ret

/-- `OnMessage`, for a message callback that does not close the connection. -/
def onMessage (s : TcpConnStates) (got pkgs : List (Option Value)) : List (Option Value) :=
  if s.IsOpen then got ++ pkgs else got

/-- The reader after a turn. -/
def DrainLoc.turn (l : DrainLoc) (arrived : ℕ) (count : ℤ) (t : Turn (Option Value))
    (c : Inbox Unit) : DrainLoc where
  inbox := c
  state := l.state
  got := onMessage l.state l.got t.pkgs
  count := if t.ret count = none then some (t.count count) else none
  arrived := arrived
  ret := t.ret count

/-- The calls of the reader: the first turn of a `DrainRing`, and the next ones. -/
inductive DrainCall (types : List PodType) (cap : Capacity) :
    DrainLoc → World → RingM DrainLoc → Prop
  | enter {l : DrainLoc} {g : World} (h : l.count = none) :
      DrainCall types cap l g (do
        let (t, c) ← drainTurn (simplePodCodec (registry types)) cap l.inbox
        return l.turn g.published.length 0 t c)
  | next {l : DrainLoc} {g : World} {n : ℤ} (h : l.count = some n) :
      DrainCall types cap l g (do
        let (t, c) ← drainTurn (simplePodCodec (registry types)) cap l.inbox
        return l.turn l.arrived n t c)

/-- How a call may have ended that saw the first `m` bytes of the stream. -/
def Ended (types : List PodType) (g : World) (m : ℕ) (r : Ret) : Prop :=
  (refStep types ((g.published.take m).drop g.consumed) = .more ∧ ∃ n, 0 ≤ n ∧ r = .value n) ∨
    (refStep types ((g.published.take m).drop g.consumed) = .stop ∧ r = .value (-1))

/-- What the reader keeps between its turns. -/
structure DrainInv (types : List PodType) (cap : Capacity) (base : ℕ) (l : DrainLoc) (g : World) :
    Prop where
  inv : Inv cap base g
  isOpen : l.state.IsOpen
  got : ∃ vs : List Value, l.got = vs.map some ∧ (∀ v ∈ vs, v.ty ∈ types) ∧
    g.published.take g.consumed = vs.flatMap wire
  count : ∀ n, l.count = some n → 0 ≤ n ∧ l.arrived ≤ g.published.length
  ret : ∀ r, l.ret = some r → ∃ m, l.arrived ≤ m ∧ m ≤ g.published.length ∧ g.consumed ≤ m ∧
    Ended types g m r

theorem DrainInv.stable {l : DrainLoc} (h : DrainInv types cap base l g)
    (hw : WStep cap base g g') : DrainInv types cap base l g' := by
  have hl := hw.published.length_le
  refine ⟨hw.inv h.inv, h.isOpen, ?_, fun n hn => ?_, fun r hr => ?_⟩
  · obtain ⟨vs, h1, h2, h3⟩ := h.got
    exact ⟨vs, h1, h2, by rw [hw.consumed, take_mono hw.published h.inv.le, h3]⟩
  · obtain ⟨h1, h2⟩ := h.count n hn
    exact ⟨h1, by omega⟩
  · obtain ⟨m, h1, h2, h3, h4⟩ := h.ret r hr
    refine ⟨m, h1, by omega, by rw [hw.consumed]; exact h3, ?_⟩
    unfold Ended
    rw [hw.consumed, take_mono hw.published h2]
    exact h4

/-- A turn keeps the invariant. -/
theorem DrainInv.turn {l : DrainLoc} (hd : Distinct types) (hfit : SizesFit types)
    (hcap : cap.val < 2147483648) (h : DrainInv types cap base l g) {arrived m : ℕ} {n : ℤ}
    {t : Turn (Option Value)} {c : Inbox Unit} (hn : 0 ≤ n) (ha : arrived ≤ m)
    (hm : g.published.length ≤ m) (hm' : m ≤ g'.published.length)
    (hwin : m ≤ g.consumed + cap.val)
    (hon : turnOn (simplePodCodec (registry types)) () ((g'.published.take m).drop g.consumed) =
      (t, ()))
    (ht : Took cap base g t.released g') :
    DrainInv types cap base (l.turn arrived n t c) g' := by
  obtain ⟨vs, hvs, hty, hpre⟩ := h.got
  have hle := h.inv.le
  have hfit' := ht.inv.fit
  have hcons := ht.consumed
  have hlen : ((g'.published.take m).drop g.consumed).length = m - g.consumed := by
    rw [List.length_drop, List.length_take_of_le hm']
  have hrel : t.released ≤ m - g.consumed := by
    have hr := congrArg (fun x => Turn.released x.1) hon
    simp only [turnOn] at hr
    split_ifs at hr with hnil
    · rw [← hr]
      exact Nat.zero_le _
    · rw [← hr]
      refine (decodeTurn_released _ _ _ _).trans ?_
      rw [UInt32.toNat_ofNat', hlen]
      exact Nat.mod_le _ _
  rw [turnOn_refStep hd hfit (by rw [hlen]; omega)] at hon
  obtain ⟨ht', -⟩ := Prod.mk.inj hon
  have hgot : ∀ pkgs, onMessage l.state l.got pkgs = l.got ++ pkgs := fun _ => if_pos h.isOpen
  have hpre' : g'.published.take g.consumed = vs.flatMap wire := by
    rw [take_mono ht.published hle, hpre]
  cases hstep : refStep types ((g'.published.take m).drop g.consumed) with
  | more =>
    rw [hstep] at ht'
    subst ht'
    have hc : g'.consumed = g.consumed := hcons
    refine ⟨ht.inv, h.isOpen, ⟨vs, ?_, hty, by rw [hc]; exact hpre'⟩,
      fun k hk => absurd hk (by simp [DrainLoc.turn, turnOf, Turn.ret]), fun r hr => ?_⟩
    · exact (hgot []).trans (by rw [List.append_nil, hvs])
    · refine ⟨m, ha, hm', by omega, Or.inl ⟨by rw [hc]; exact hstep, n, hn, ?_⟩⟩
      exact (Option.some.inj hr).symm
  | stop =>
    rw [hstep] at ht'
    subst ht'
    have hc : g'.consumed = g.consumed := hcons
    refine ⟨ht.inv, h.isOpen, ⟨vs, ?_, hty, by rw [hc]; exact hpre'⟩,
      fun k hk => absurd hk (by simp [DrainLoc.turn, turnOf, Turn.ret]), fun r hr => ?_⟩
    · exact (hgot []).trans (by rw [List.append_nil, hvs])
    · refine ⟨m, ha, hm', by omega, Or.inr ⟨by rw [hc]; exact hstep, ?_⟩⟩
      exact (Option.some.inj hr).symm
  | message v =>
    rw [hstep] at ht'
    subst ht'
    obtain ⟨hv, rest, hrest⟩ := refStep_eq_message hstep
    have hneed : (kTagSize + v.ty.size).toNat = (wire v).length := by
      rw [toNat_need (hfit _ hv), length_wire]
    have hc : g'.consumed = g.consumed + (wire v).length := by rw [← hneed]; exact hcons
    refine ⟨ht.inv, h.isOpen, ⟨vs ++ [v], ?_, ?_, ?_⟩, fun k hk => ?_,
      fun r hr => absurd hr (by simp [DrainLoc.turn, turnOf, Turn.ret])⟩
    · exact (hgot [some v]).trans (by rw [hvs, List.map_append]; rfl)
    · intro v' hv'
      rcases List.mem_append.mp hv' with h1 | h1
      · exact hty v' h1
      · rw [List.mem_singleton.mp h1]
        exact hv
    · have hwl : (wire v).length ≤ m - g.consumed := by rw [← hneed]; exact hrel
      have hnext : (g'.published.drop g.consumed).take (wire v).length = wire v := by
        have h1 := congrArg (List.take (wire v).length) hrest
        rw [List.take_left, List.drop_take, List.take_take, Nat.min_eq_left hwl] at h1
        exact h1
      rw [hc, List.take_add, hpre', hnext, List.flatMap_append]
      simp
    · have hk' : n + 1 = k := by simpa [DrainLoc.turn, turnOf, Turn.ret, Turn.count] using hk
      exact ⟨by omega, ha.trans hm'⟩

theorem drain_contract (hd : Distinct types) (hfit : SizesFit types)
    (hcap : cap.val < 2147483648) (base : ℕ) :
    Contract (World.exec cap) (WStep cap base) RStep (DrainCall types cap)
      (DrainInv types cap base) (fun _ g => Inv cap base g) where
  call {l g p} h hc := by
    cases hc with
    | enter _ =>
      rw [Prog.wp_bind]
      exact drainTurn_spec h.inv fun m g' st t s hm hm' hwin hon ht =>
        h.turn hd hfit hcap le_rfl hm hm hm' hwin hon ht
    | next hn =>
      obtain ⟨h1, h2⟩ := h.count _ hn
      rw [Prog.wp_bind]
      exact drainTurn_spec h.inv fun m g' st t s hm hm' hwin hon ht =>
        h.turn hd hfit hcap h1 (h2.trans hm) hm hm' hwin hon ht
  stable := DrainInv.stable
  weak h := h.inv
  keepRely h hw := hw.inv h
  keepGuar h hr := hr.inv h

/-- `DrainRing` ends when the peer rests: a turn that goes on has released a message. -/
theorem drainRing_returns (hd : Distinct types) (hfit : SizesFit types)
    (hcap : cap.val < 2147483648) :
    ∀ (fuel : ℕ) (n : ℤ) (c : Inbox Unit) {g : World}, Inv cap base g →
      g.published.length < g.consumed + fuel →
      ((drainRing (simplePodCodec (registry types)) cap fuel n c).run
        (World.exec cap) g).1.1 ≠ none
  | 0, n, c, g, hi, hlt => absurd hi.le (by omega)
  | fuel + 1, n, c, g, hi, hlt => by
    rcases hrun : (drainTurn (simplePodCodec (registry types)) cap c).run (World.exec cap) g with
      ⟨⟨t, c'⟩, g'⟩
    obtain ⟨hi', hp, hc, hon⟩ := drainTurn_run hi hrun
    have hfit' := hi.fit
    rw [turnOn_refStep hd hfit (by rw [List.length_drop]; omega)] at hon
    obtain ⟨ht, -⟩ := Prod.mk.inj hon
    rw [drainRing_run hrun]
    cases hstep : refStep types (g.published.drop g.consumed) with
    | more => rw [hstep] at ht; subst ht; simp [turnOf, Turn.ret]
    | stop => rw [hstep] at ht; subst ht; simp [turnOf, Turn.ret]
    | message v =>
      rw [hstep] at ht
      subst ht
      have hneed := toNat_need (hfit _ (refStep_eq_message hstep).1)
      refine drainRing_returns hd hfit hcap fuel _ c' hi' ?_
      rw [hp, hc]
      simp only [turnOf, Turn.released, hneed]
      omega

/-! ### What the message callback has been given -/

/-- The reader has given the callback a part of the reference parse of what has arrived; and after a
call of `DrainRing`, all messages of the bytes that the last turn of the call saw, with the bytes
behind them still in the ring, the result being `-1` if these start with an unregistered tag. -/
def Conforms (types : List PodType) (l : DrainLoc) (g : World) : Prop :=
  l.got <+: (refParse types g.published).msgs.map some ∧
  ∀ r, l.ret = some r → ∃ m, l.arrived ≤ m ∧ m ≤ g.published.length ∧
    l.got = (refParse types (g.published.take m)).msgs.map some ∧
    (g.published.take m).drop g.consumed = (refParse types (g.published.take m)).rest ∧
    (r = .value (-1) ↔ (refParse types (g.published.take m)).stopped = true) ∧
    ∃ n, r = .value n

theorem DrainInv.conforms (hd : Distinct types) {l : DrainLoc} (h : DrainInv types cap base l g) :
    Conforms types l g := by
  obtain ⟨vs, hgot, hty, hpre⟩ := h.got
  have hparse : ∀ {S : List UInt8}, S.take g.consumed = g.published.take g.consumed →
      refParse types S = { refParse types (S.drop g.consumed) with
        msgs := vs ++ (refParse types (S.drop g.consumed)).msgs } := by
    intro S hS
    rw [← refParse_wires hd _ hty, ← hpre, ← hS, List.take_append_drop]
  refine ⟨?_, fun r hr => ?_⟩
  · rw [hparse rfl, hgot, List.map_append]
    exact List.prefix_append _ _
  · obtain ⟨m, h1, h2, h3, hend⟩ := h.ret r hr
    refine ⟨m, h1, h2, ?_⟩
    rw [hparse (by rw [List.take_take, Nat.min_eq_left h3])]
    rcases hend with ⟨hstep, n, hn, rfl⟩ | ⟨hstep, rfl⟩
    · rw [refParse_more hstep]
      refine ⟨by simp [hgot], rfl, ⟨fun he => ?_, fun he => absurd he (by simp)⟩, n, rfl⟩
      have : n = -1 := Ret.value.inj he
      omega
    · rw [refParse_stop hstep]
      exact ⟨by simp [hgot], rfl, by simp, -1, rfl⟩

/-! ### The peer publishes chunks -/

/-- The calls of a peer that publishes bytes in chunks. -/
inductive ChunkCall (cap : Capacity) : Unit → World → RingM Unit → Prop
  | tryWrite {g : World} (data : Option Buf) :
      ChunkCall cap () g (do
        let _ ← tryWrite cap data
        return ())

theorem chunk_contract (cap : Capacity) (base : ℕ) :
    Contract (World.exec cap) RStep (WStep cap base) (ChunkCall cap)
      (fun _ g => Inv cap base g) (fun _ g => Inv cap base g) where
  call hi hc := by
    cases hc
    rw [Prog.wp_bind]
    exact tryWrite_spec hi (fun _ _ _ _ hw => hw.inv) fun _ hw _ => hw.inv
  stable h hr := hr.inv h
  weak h := h
  keepRely h hr := hr.inv h
  keepGuar h hw := hw.inv h

/-! ### The peer sends values -/

/-- The peer between two calls of `SendCmd`. -/
structure CmdLoc where
  outbox : Outbox Unit
  /-- the packages that `SendCmd` has written -/
  wrote : List (Option Value)
  fault : Bool

/-- The calls of a peer that sends packages. -/
inductive CmdCall (types : List PodType) (cap : Capacity) : CmdLoc → World → RingM CmdLoc → Prop
  | sendCmd {l : CmdLoc} {g : World} (pkg : Option Value) :
      CmdCall types cap l g (do
        let (sent, o) ← sendCmd (simplePodCodec (registry types)) cap l.outbox pkg
        return { outbox := o
                 wrote := if sent = .wrote then l.wrote ++ [pkg] else l.wrote
                 fault := l.fault || sent = .fault })

/-- What the peer keeps between its calls. -/
structure CmdInv (types : List PodType) (cap : Capacity) (base : ℕ) (l : CmdLoc) (g : World) :
    Prop where
  inv : Inv cap base g
  fault : l.fault = false
  wrote : ∃ vs : List Value, l.wrote = vs.map some ∧ (∀ v ∈ vs, v.ty ∈ types) ∧
    g.published = vs.flatMap wire

/-- What `SendCmd` gets from the codec: never a fault, and if bytes, those of the value. -/
def EncodesTo (types : List PodType) (pkg : Option Value) (r : Encoding × List UInt8 × Unit) :
    Prop :=
  r.1 ≠ .fault ∧ ∀ len, r.1 = .bytes len → 0 < len.toNat ∧ len.toNat ≤ r.2.1.length ∧
    ∃ v, pkg = some v ∧ v.ty ∈ types ∧ r.2.1.take len.toNat = wire v

theorem encodesTo_of_quiet {pkg : Option Value} {r : Encoding × List UInt8 × Unit}
    (h : r.1 = .skip ∨ r.1 = .disconnect ∨ r.1 = .failed) : EncodesTo types pkg r := by
  refine ⟨fun he => ?_, fun len he => ?_⟩
  · rw [he] at h
    simp at h
  · rw [he] at h
    simp at h

/-- What `Encode` leaves for a value of a registered type. -/
theorem encode_value (hd : Distinct types) {v : Value} (hv : v.ty ∈ types) (buflen : ℕ) :
    (simplePodCodec (registry types)).encode () (some v) buflen =
      if buflen < (kTagSize + v.ty.size).toNat then
        some (⟨kCodecNeedMoreBuffer, [], (kTagSize + v.ty.size).toNat⟩, ())
      else some (⟨(kTagSize + v.ty.size).toInt32, wire v, 0⟩, ()) := by
  simp only [simplePodCodec, tagOf_registry, if_pos hv, opsOf_registry hd, find?_tag hd hv,
    if_true]
  rfl

theorem encodeLoop_value (hd : Distinct types) (hfit : SizesFit types) {v : Value}
    (hv : v.ty ∈ types) {max : ℕ} {buf : List UInt8} (hbuf : (wire v).length ≤ buf.length) :
    EncodesTo types (some v)
      (encodeLoop (simplePodCodec (registry types)) (some v) max buf ()) := by
  have hneed : (kTagSize + v.ty.size).toNat = (wire v).length := by
    rw [toNat_need (hfit _ hv), length_wire]
  have hpos := length_wire v
  rw [encodeLoop, encode_value hd hv, hneed, if_neg (by omega)]
  simp only []
  rw [if_neg (by omega)]
  split_ifs with h1 h2 h3 h4
  · exact encodesTo_of_quiet (Or.inl rfl)
  · exact encodesTo_of_quiet (Or.inr (Or.inl rfl))
  · exact encodesTo_of_quiet (Or.inr (Or.inr rfl))
  · exact absurd (Or.inl trivial) h4
  · refine ⟨by simp, fun len hlen => ?_⟩
    have hlen' : kTagSize + v.ty.size = len := by
      rw [← Encoding.bytes.inj hlen, UInt32.toUInt32_toInt32]
    rw [← hlen', hneed]
    refine ⟨by omega, ?_, v, rfl, hv, ?_⟩
    · simp only [overwrite, List.length_append, List.length_drop]
      omega
    · exact List.take_left

theorem encodeLoop_pod (hd : Distinct types) (hfit : SizesFit types) (pkg : Option Value)
    (max : ℕ) (buf : List UInt8) :
    EncodesTo types pkg (encodeLoop (simplePodCodec (registry types)) pkg max buf ()) := by
  have hdisc : (simplePodCodec (registry types)).encode () pkg buf.length =
      some (⟨kCodecDisconnect, [], 0⟩, ()) →
      EncodesTo types pkg (encodeLoop (simplePodCodec (registry types)) pkg max buf ()) := by
    intro he
    rw [encodeLoop, he]
    simp only [List.length_nil, Nat.not_lt_zero, if_false]
    rw [if_neg (by decide), if_true]
    exact encodesTo_of_quiet (Or.inr (Or.inl rfl))
  cases pkg with
  | none => exact hdisc rfl
  | some v =>
    by_cases hv : v.ty ∈ types
    · by_cases hbuf : (wire v).length ≤ buf.length
      · exact encodeLoop_value hd hfit hv hbuf
      · have hneed : (kTagSize + v.ty.size).toNat = (wire v).length := by
          rw [toNat_need (hfit _ hv), length_wire]
        rw [encodeLoop, encode_value hd hv, hneed, if_pos (by omega)]
        simp only [List.length_nil, Nat.not_lt_zero, if_false]
        rw [if_neg (by decide), if_neg (by decide), if_true]
        split_ifs
        · exact encodesTo_of_quiet (Or.inr (Or.inr rfl))
        · refine encodeLoop_value hd hfit hv ?_
          simp only [resize, overwrite, List.length_append, List.length_replicate,
            List.length_drop, List.length_nil]
          omega
    · refine hdisc ?_
      simp only [simplePodCodec, tagOf_registry, if_neg hv]

theorem cmd_contract (hd : Distinct types) (hfit : SizesFit types) (cap : Capacity) (base : ℕ) :
    Contract (World.exec cap) RStep (WStep cap base) (CmdCall types cap)
      (CmdInv types cap base) (fun _ g => Inv cap base g) where
  call {l g p} h hc := by
    obtain ⟨pkg⟩ := hc
    obtain ⟨vs, hw, hty, hp⟩ := h.wrote
    obtain ⟨hnf, hbytes⟩ := encodeLoop_pod hd hfit pkg l.outbox.maxBufferSize l.outbox.encodeBuf
    rw [Prog.wp_bind]
    refine sendCmd_spec h.inv (fun len buf st g' _ he hle hpos hfl => ?_)
      fun sent o' g' hwr hfault hwrote => ?_
    · rw [he] at hbytes
      obtain ⟨-, -, v, rfl, hv, htake⟩ := hbytes len rfl
      refine ⟨hfl.inv, ?_, vs ++ [v], ?_, ?_, ?_⟩
      · simp [h.fault]
      · simp [hw]
      · intro v' hv'
        rcases List.mem_append.mp hv' with h1 | h1
        · exact hty v' h1
        · rw [List.mem_singleton.mp h1]
          exact hv
      · rw [hfl.published, hp, htake, List.flatMap_append]
        simp
    · have hs : sent ≠ .fault := by
        intro he
        obtain ⟨buf, st, h1 | ⟨len, h1, h2⟩⟩ := hfault he
        · exact hnf (by rw [h1])
        · rw [h1] at hbytes
          obtain ⟨-, h3, -⟩ := hbytes len rfl
          exact absurd h3 (not_le.mpr h2)
      have hs' : sent ≠ .wrote := by
        intro he
        obtain ⟨buf, st, h1⟩ := hwrote he
        rw [h1] at hbytes
        exact absurd (hbytes 0 rfl).1 (by simp)
      refine ⟨hwr.inv, ?_, vs, ?_, hty, ?_⟩
      · simp [h.fault, hs]
      · simp [hs', hw]
      · rw [hwr.published, List.append_nil, hp]
  stable h hr := by
    obtain ⟨vs, h1, h2, h3⟩ := h.wrote
    exact ⟨hr.inv h.inv, h.fault, vs, h1, h2, by rw [hr.published]; exact h3⟩
  weak h := h.inv
  keepRely h hr := hr.inv h
  keepGuar h hw := hw.inv h

/-! ### Both sides -/

/-- A reader that starts on an open connection. -/
def DrainLoc.start (state : TcpConnStates) (staging : List UInt8) : DrainLoc where
  inbox := ⟨(), staging⟩
  state := state
  got := []
  count := none
  arrived := 0
  ret := none

/-- Whatever publishes within the ring protocol, the reader keeps its invariant. -/
theorem reach_inv {L : Type} {calls : L → World → RingM L → Prop} {I J : L → World → Prop}
    (hd : Distinct types) (hfit : SizesFit types) (hcap : cap.val < 2147483648)
    (hpeer : Contract (World.exec cap) RStep (WStep cap base) calls I J) {l₀ : L}
    {d : ℕ → UInt8} (h₀ : I l₀ (.empty base d)) {state : TcpConnStates} {staging : List UInt8}
    (hopen : state.IsOpen) {s : Duo Cmd Cmd.Res L DrainLoc World}
    (h : ReflTransGen (Step (World.exec cap) calls (DrainCall types cap))
      ⟨.idle l₀, .idle (.start state staging), .empty base d⟩ s) :
    (∀ l, s.fst = .idle l → I l s.mem) ∧
      ∀ l, s.snd = .idle l → DrainInv types cap base l s.mem := by
  obtain ⟨h1, h2⟩ := duo_ok wStep_refl rStep_refl (fun _ _ _ => WStep.trans)
    (fun _ _ _ => RStep.trans) hpeer (drain_contract hd hfit hcap base)
    (s := ⟨.idle l₀, .idle (.start state staging), .empty base d⟩)
    ⟨h₀, inv_empty cap base d, hopen, ⟨[], rfl, fun _ hv => absurd hv List.not_mem_nil, rfl⟩,
      fun _ hn => absurd hn (by simp [DrainLoc.start]),
      fun _ hr => absurd hr (by simp [DrainLoc.start])⟩ h
  refine ⟨fun l hl => ?_, fun l hl => ?_⟩
  · rw [hl] at h1
    exact h1
  · rw [hl] at h2
    exact h2

/-- `DrainRing` from here, while the peer rests, ends. -/
def Returns (types : List PodType) (l : DrainLoc) (g : World) : Prop :=
  ∀ fuel n, g.published.length < g.consumed + fuel →
    ((drainRing (simplePodCodec (registry types)) defaultCapacity fuel n l.inbox).run
      (World.exec defaultCapacity) g).1.1 ≠ none

/-- Every interleaving of chunk publications with calls of `DrainRing`. -/
def StreamCorrect (types : List PodType) : Prop :=
  ∀ base d state staging s l, state.IsOpen →
    ReflTransGen (Step (World.exec defaultCapacity) (ChunkCall defaultCapacity)
      (DrainCall types defaultCapacity))
      ⟨.idle (), .idle (.start state staging), .empty base d⟩ s → s.snd = .idle l →
    Conforms types l s.mem ∧ (s.fst = .idle () → Returns types l s.mem)

/-- Every interleaving of calls of `SendCmd` with calls of `DrainRing`: the callback is given what
`SendCmd` has written, all of it by a call that starts afterwards and leaves the ring empty. -/
def CmdsCorrect (types : List PodType) : Prop :=
  ∀ base d state staging outbox s w l, state.IsOpen →
    ReflTransGen (Step (World.exec defaultCapacity) (CmdCall types defaultCapacity)
      (DrainCall types defaultCapacity))
      ⟨.idle ⟨outbox, [], false⟩, .idle (.start state staging), .empty base d⟩ s →
    s.fst = .idle w → s.snd = .idle l →
    w.fault = false ∧ l.got <+: w.wrote ∧ Returns types l s.mem ∧
      ∀ r, l.ret = some r → (∃ n, 0 ≤ n ∧ r = .value n) ∧
        (l.arrived = s.mem.published.length →
          l.got = w.wrote ∧ s.mem.consumed = s.mem.published.length)

theorem defaultCapacity_lt : defaultCapacity.val < 2147483648 := by decide

theorem streamCorrect_of_sizesFit (hd : Distinct types) (hfit : SizesFit types) :
    StreamCorrect types := by
  intro base d state staging s l hopen h hl
  have hinv := (reach_inv hd hfit defaultCapacity_lt (chunk_contract _ base) (inv_empty _ base d)
    hopen h).2 l hl
  exact ⟨hinv.conforms hd, fun _ fuel n hlt =>
    drainRing_returns hd hfit defaultCapacity_lt fuel n _ hinv.inv hlt⟩

theorem refStep_stop_mono {S S' : List UInt8} (h : refStep types S = .stop) (hS : S <+: S') :
    refStep types S' = .stop := by
  unfold refStep at h ⊢
  have hl := hS.length_le
  split_ifs at h with h4
  have htag : ofLe S' = ofLe S := by
    unfold ofLe
    rw [take_mono hS (by omega)]
  rw [if_neg (by omega), htag]
  split at h
  · rfl
  · split at h <;> cases h

theorem cmdsCorrect_of_sizesFit (hd : Distinct types) (hfit : SizesFit types) :
    CmdsCorrect types := by
  intro base d state staging outbox s w l hopen h hw hl
  have h₀ : CmdInv types defaultCapacity base ⟨outbox, [], false⟩ (.empty base d) :=
    ⟨inv_empty _ base d, rfl, [], rfl, fun _ hv => absurd hv List.not_mem_nil, rfl⟩
  obtain ⟨h1, h2⟩ := reach_inv hd hfit defaultCapacity_lt (cmd_contract hd hfit _ base) h₀ hopen h
  have hcmd := h1 w hw
  have hinv := h2 l hl
  obtain ⟨hpre, hret⟩ := hinv.conforms hd
  obtain ⟨vs, hwrote, hty, hpub⟩ := hcmd.wrote
  have hparse : refParse types s.mem.published = ⟨vs, [], false⟩ := by
    have e := refParse_wires hd [] hty
    rw [List.append_nil, refParse_more (S := []) rfl, List.append_nil, ← hpub] at e
    exact e
  refine ⟨hcmd.fault, ?_, fun fuel n hlt =>
    drainRing_returns hd hfit defaultCapacity_lt fuel n _ hinv.inv hlt, fun r hr => ⟨?_, ?_⟩⟩
  · rw [hwrote]
    rw [hparse] at hpre
    exact hpre
  · obtain ⟨m, -, -, -, hend⟩ := hinv.ret r hr
    rcases hend with ⟨-, hn⟩ | ⟨hstop, -⟩
    · exact hn
    · -- a prefix of values on the wire never stops the parser
      obtain ⟨us, -, hty', htake⟩ := hinv.got
      have hstop' : refStep types (s.mem.published.drop s.mem.consumed) = .stop :=
        refStep_stop_mono hstop (by
          rw [List.drop_take]
          exact List.take_prefix _ _)
      have e := refParse_wires hd (s.mem.published.drop s.mem.consumed) hty'
      rw [← htake, List.take_append_drop, hparse, refParse_stop hstop'] at e
      simp at e
  · intro harr
    obtain ⟨m, hm, hm', hgot, hrest, -⟩ := hret r hr
    rw [List.take_of_length_le (by omega), hparse] at hgot hrest
    refine ⟨by rw [hwrote, hgot], ?_⟩
    have hle := hinv.inv.le
    have := List.drop_eq_nil_iff.mp hrest
    omega

/-! ### A size that overflows -/

/-- The decoder leaves its buffer as soon as the tag of such a type has arrived. -/
theorem turnOn_overflow (hd : Distinct types) {T : PodType} (hT : T ∈ types)
    (hover : ¬ 4 + T.size.toNat < 4294967296) :
    turnOn (simplePodCodec (registry types)) () (le32 T.tag) = (.fault, ()) := by
  have h4 : kTagSize.toNat = 4 := rfl
  have hlt := T.size.toNat_lt
  have hneed : (kTagSize + T.size).toNat ≤ 3 := by
    rw [UInt32.toNat_add, h4]
    omega
  have htag : ofLe (le32 T.tag) = T.tag := by
    have := ofLe_le32 T.tag []
    rwa [List.append_nil] at this
  have hdec : opsDecode T ((le32 T.tag).drop 4) = none := by
    rw [opsDecode, dif_neg (by rw [List.length_drop, length_le32]; omega)]
  unfold turnOn decodeTurn
  rw [if_neg (by simp [le32])]
  simp only [simplePodCodec, h4, length_le32, htag, opsOf_registry hd, find?_tag hd hT, hdec]
  rw [if_neg (by omega), if_neg (by omega)]

/-- A peer publishes the tag, and `DrainRing` faults. -/
theorem not_streamCorrect (hd : Distinct types) {T : PodType} (hT : T ∈ types)
    (hover : ¬ 4 + T.size.toNat < 4294967296) : ¬ StreamCorrect types := by
  intro hall
  let g₀ : World := .empty 0 fun _ => 0
  let l₀ : DrainLoc := .start .established []
  have hi₀ : Inv defaultCapacity 0 g₀ := inv_empty _ 0 _
  let buf : Buf := ⟨le32 T.tag, by rw [length_le32]; decide⟩
  have hlen : buf.bytes.length = 4 := length_le32 _
  -- the peer's `TryWrite`
  have hw := Prog.exec_run (World.exec defaultCapacity) rStep_refl
    (tryWrite defaultCapacity (some buf)) g₀
  rcases hrun : (tryWrite defaultCapacity (some buf)).run (World.exec defaultCapacity) g₀ with
    ⟨rc, g₁⟩
  rw [hrun] at hw
  have hwp : wpW defaultCapacity 0 (tryWrite defaultCapacity (some buf))
      (fun _ g' => Inv defaultCapacity 0 g' ∧ g'.published = le32 T.tag) g₀ := by
    refine tryWrite_spec hi₀ (fun src g' hsrc _ h => ?_) fun g' _ hno => ?_
    · cases hsrc
      exact ⟨h.inv, h.published⟩
    · exfalso
      have hcap : defaultCapacity.maxWriteSize = 4194304 := rfl
      have hval : defaultCapacity.val = 8388608 := rfl
      have hc : g₀.consumed = 0 := rfl
      have hp : g₀.published.length = 0 := rfl
      rcases hno buf rfl with h | h | h <;> omega
  have hQ := Prog.wp_exec hw hwp
  obtain ⟨hi₁, hp₁⟩ := hQ
  have hstep := Prog.wp_run rStep_refl wStep_refl (fun _ _ _ => WStep.trans) hwp
  rw [hrun] at hstep
  have hc₁ : g₁.consumed = 0 := hstep.consumed
  -- the first turn of `DrainRing`
  rcases hrun₂ : (drainTurn (simplePodCodec (registry types)) defaultCapacity l₀.inbox).run
    (World.exec defaultCapacity) g₁ with ⟨⟨t, c⟩, g₂⟩
  obtain ⟨-, -, -, hon⟩ := drainTurn_run hi₁ hrun₂
  have hon' : turnOn (simplePodCodec (registry types)) () (le32 T.tag) = (t, c.codec) := by
    rw [← hon, hp₁, hc₁]
    rfl
  rw [turnOn_overflow hd hT hover] at hon'
  obtain ⟨ht, -⟩ := Prod.mk.inj hon'
  have hreach₁ : ReflTransGen (Step (World.exec defaultCapacity) (ChunkCall defaultCapacity)
      (DrainCall types defaultCapacity)) ⟨.idle (), .idle l₀, g₀⟩ ⟨.idle (), .idle l₀, g₁⟩ := by
    refine (call_run₁ (.tryWrite (some buf))).trans ?_
    rw [Prog.run_bind, hrun]
    exact .refl
  have hreach₂ : ReflTransGen (Step (World.exec defaultCapacity) (ChunkCall defaultCapacity)
      (DrainCall types defaultCapacity)) ⟨.idle (), .idle l₀, g₁⟩
      ⟨.idle (), .idle (l₀.turn g₁.published.length 0 t c), g₂⟩ := by
    refine (call_run₂ (.enter rfl)).trans ?_
    rw [Prog.run_bind, hrun₂]
    exact .refl
  obtain ⟨⟨-, hret⟩, -⟩ := hall 0 (fun _ => 0) .established [] _ _ (Or.inl rfl)
    (hreach₁.trans hreach₂) rfl
  obtain ⟨-, -, -, -, -, -, n, hn⟩ := hret .fault (by rw [← ht]; rfl)
  cases hn

/-- **Decoding does not depend on arrival, as long as no packet size overflows.** For every registry
of types with distinct tags: in every interleaving of publications with calls of `DrainRing` the
message callback is given the messages of the reference parse, and the values sent by a peer's
`SendCmd`, if and only if `4 + sizeof(T)` fits 32 bits for every registered type. -/
theorem drain_correct_iff (types : List PodType) (hd : Distinct types) :
    StreamCorrect types ∧ CmdsCorrect types ↔ SizesFit types := by
  constructor
  · rintro ⟨hall, -⟩ T hT
    by_contra hover
    exact not_streamCorrect hd hT hover hall
  · intro hfit
    exact ⟨streamCorrect_of_sizesFit hd hfit, cmdsCorrect_of_sizesFit hd hfit⟩

/-- Two types of four and of eight bytes. -/
theorem drain_correct_two :
    StreamCorrect [⟨0, 1, 4⟩, ⟨1, 2, 8⟩] ∧ CmdsCorrect [⟨0, 1, 4⟩, ⟨1, 2, 8⟩] :=
  (drain_correct_iff [⟨0, 1, 4⟩, ⟨1, 2, 8⟩] (by unfold Distinct; decide)).mpr
    (by unfold SizesFit; decide)

/-- One registered type of `2^32 - 3` bytes: its tag makes `DrainRing` read out of bounds. -/
theorem drain_fails_on_overflow :
    ¬ (StreamCorrect [⟨0, 7, 4294967293⟩] ∧ CmdsCorrect [⟨0, 7, 4294967293⟩]) := by
  rintro ⟨hall, -⟩
  exact not_streamCorrect (T := ⟨0, 7, 4294967293⟩) (by unfold Distinct; decide)
    List.mem_cons_self (by decide) hall

end ShmIpc.Conn.PodStream
