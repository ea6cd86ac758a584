import NagoWss.Conn.Reading

/-!
# Frames on the wire

A frame as it stands on the wire: its header and its payload under the mask. The
bytes of such frames are a prefix code, so a byte string is a sequence of frames
in one way at most, and a reader cuts off exactly the frame that was written.
-/

namespace NagoWss

open Framing

/-- A frame as it stands on the wire. -/
structure WireFrame where
  /-- Whether this frame completes its message. -/
  fin : Bool
  /-- What the frame carries. -/
  opcode : OpCode
  /-- The masking key, if there is one. -/
  mask : Option Mask
  /-- The payload under the mask. -/
  payload : Bytes
  /-- No byte string in memory is longer. -/
  bound : payload.length < 2 ^ 63

namespace WireFrame

/-- The header of the frame. -/
def header (w : WireFrame) : Header :=
  ⟨w.fin, w.opcode, w.mask, UInt64.ofNat w.payload.length⟩

/-- The bytes of the frame. -/
def bytes (w : WireFrame) : Bytes := w.header.bytes ++ w.payload

/-- The frame with the mask taken off. -/
def frame (w : WireFrame) : Frame := ⟨w.opcode, w.fin, unmaskReference w.mask w.payload⟩

@[simp] theorem toNat_payloadLen (w : WireFrame) :
    w.header.payloadLen.toNat = w.payload.length := by
  have h := w.bound
  rw [header, UInt64.toNat_ofNat', Nat.mod_eq_of_lt (by omega)]

theorem length_bytes (w : WireFrame) :
    w.bytes.length = w.header.encodedLen + w.payload.length := by
  rw [bytes, List.length_append, Header.length_bytes]

theorem bytes_ne_nil (w : WireFrame) : w.bytes ≠ [] := by
  intro h
  have hlen := w.length_bytes
  have hmin := w.header.encodedLen_bounds.1
  rw [h, List.length_nil] at hlen
  omega

@[simp] theorem length_unmaskReference (mask : Option Mask) (payload : Bytes) :
    (unmaskReference mask payload).length = payload.length := by
  cases mask with
  | none => rfl
  | some key => exact Mask.length_reference payload key 0

/-- The header admits the frame when control frames are final and short. -/
theorem valid_iff (w : WireFrame) :
    w.header.Valid ↔ (w.opcode.isControl = true → w.fin = true ∧ w.payload.length ≤ 125) := by
  constructor
  · intro h hc
    have hctl := h.control hc
    rwa [toNat_payloadLen] at hctl
  · intro h
    refine ⟨by rw [toNat_payloadLen]; exact w.bound, ?_⟩
    intro hc
    rw [toNat_payloadLen]
    exact h hc

/-! ## Reading a frame that was written -/

/-- The front of a stream that starts with an admissible frame is that frame. -/
theorem frameCut_bytes {w : WireFrame} {role : Role} {maxFrame : UInt64} (hvalid : w.header.Valid)
    (hmax : w.payload.length ≤ maxFrame.toNat) (hmask : w.mask.isSome = (role = .server))
    (q : Bytes) : frameCut role maxFrame (w.bytes ++ q) = .item w.frame w.bytes.length := by
  have hle : w.header.payloadLen ≤ maxFrame := by
    rw [UInt64.le_iff_toNat_le, toNat_payloadLen]
    exact hmax
  have hdec : Header.decode (w.bytes ++ q) maxFrame = .ok (.ok (w.header, w.header.encodedLen)) :=
    Header.decode_iff.mpr ⟨hvalid, hle, rfl, by
      rw [bytes, List.append_assoc]
      exact List.prefix_append _ _⟩
  have hdrop : ((w.bytes ++ q).drop w.header.encodedLen).take w.payload.length = w.payload := by
    rw [bytes, List.append_assoc, ← Header.length_bytes, List.drop_left, List.take_left]
  have hmask' : ¬(w.header.mask.isSome ≠ (role = .server)) := not_not.mpr hmask
  have hlen : ¬(w.bytes ++ q).length < w.header.encodedLen + w.payload.length := by
    rw [List.length_append, length_bytes]
    omega
  rw [frameCut_decoded hdec, toNat_payloadLen, if_neg hlen, if_neg hmask', hdrop, length_bytes]
  rfl

/-- A control frame that is too long is refused from its header. -/
theorem frameCut_long {w : WireFrame} {role : Role} {maxFrame : UInt64}
    (hcontrol : w.opcode.isControl = true) (hlong : 125 < w.payload.length) (q : Bytes) :
    frameCut role maxFrame (w.bytes ++ q) = .bad (.frame .invalidControlFrame) := by
  have hlen : w.header.payloadLen.toNat = w.payload.length := w.toNat_payloadLen
  obtain ⟨hrsv, hop, hfin⟩ := (Header.firstByte_iff _ w.fin w.opcode).mpr rfl
  obtain ⟨-, hshort⟩ := Header.secondByte_read w.mask.isSome
    (Header.shortLen_lt w.header.payloadLen)
  have hcheck : (w.opcode.isControl &&
      (decide (Header.shortLen w.header.payloadLen > 125) || !w.fin)) = true := by
    rw [← Bool.not_eq_false, Header.control_check_iff]
    intro h
    have := (h hcontrol).2
    omega
  have hbytes : w.bytes ++ q = Header.firstByte w.fin w.opcode ::
      Header.secondByte w.mask.isSome (Header.shortLen w.header.payloadLen) ::
        (Header.extendedLength w.header.payloadLen ++ Header.maskBytes w.mask ++ w.payload ++ q) := by
    rw [bytes, Header.bytes]
    simp only [header, List.cons_append, List.append_assoc]
  have hdec : Header.decode (w.bytes ++ q) maxFrame = .error .invalidControlFrame := by
    rw [hbytes, Header.decode_cons, if_neg (not_not.mpr hrsv)]
    simp only [hop, hshort, hfin, hcheck, if_true]
  rw [frameCut, hdec]

/-- Nothing is left to cut in an empty stream. -/
@[simp] theorem parse_nil (role : Role) (maxFrame : UInt64) :
    (frameCutter role maxFrame).parse [] = ⟨[], [], none⟩ :=
  (frameCutter role maxFrame).parse_more rfl

/-- A stream that starts with admissible frames has exactly these items first. -/
theorem parse_bytes {role : Role} {maxFrame : UInt64} {ws : List WireFrame}
    (hws : ∀ w ∈ ws, w.header.Valid ∧ w.payload.length ≤ maxFrame.toNat ∧
      w.mask.isSome = (role = .server)) (q : Bytes) :
    ((frameCutter role maxFrame).parse (ws.flatMap bytes ++ q)).items =
        ws.map frame ++ ((frameCutter role maxFrame).parse q).items ∧
      ((frameCutter role maxFrame).parse (ws.flatMap bytes ++ q)).fault =
        ((frameCutter role maxFrame).parse q).fault := by
  induction ws with
  | nil => exact ⟨rfl, rfl⟩
  | cons w ws ih =>
    obtain ⟨hvalid, hmax, hmask⟩ := hws w List.mem_cons_self
    obtain ⟨hitems, hfault⟩ := ih fun x hx => hws x (List.mem_cons_of_mem w hx)
    have hcut : (frameCutter role maxFrame).cut (w.bytes ++ (ws.flatMap bytes ++ q)) =
        .item w.frame w.bytes.length := frameCut_bytes hvalid hmax hmask _
    rw [List.flatMap_cons, List.append_assoc, (frameCutter role maxFrame).parse_item hcut,
      List.drop_left, hitems, hfault]
    exact ⟨rfl, rfl⟩

/-! ## A prefix code -/

/-- A header without the rule for control frames. -/
def dataHeader (h : Header) : Header := ⟨true, .binary, h.mask, h.payloadLen⟩

/-- The bytes of a header say where it ends, also where the header itself breaks
the rule for control frames. -/
theorem header_prefix {h h' : Header} {x y : Bytes} (hb : h.payloadLen.toNat < 2 ^ 63)
    (hb' : h'.payloadLen.toNat < 2 ^ 63) (heq : h.bytes ++ x = h'.bytes ++ y) :
    h = h' ∧ x = y := by
  simp only [Header.bytes, List.cons_append, List.cons.injEq] at heq
  obtain ⟨hfirst, hrest⟩ := heq
  obtain ⟨hop, hfin⟩ := ((Header.firstByte_iff _ h'.fin h'.opcode).mpr hfirst).2
  obtain ⟨-, hop', hfin'⟩ := (Header.firstByte_iff _ h.fin h.opcode).mpr rfl
  rw [hop', Option.some.injEq] at hop
  rw [hfin'] at hfin
  -- Behind the first byte the two are those of valid data headers, which decoding tells apart.
  have hbytes (g : Header) (z : Bytes) : (dataHeader g).bytes ++ z =
      Header.firstByte true .binary :: Header.secondByte g.mask.isSome
        (Header.shortLen g.payloadLen) :: (Header.extendedLength g.payloadLen ++
          Header.maskBytes g.mask ++ z) := rfl
  have hdata : (dataHeader h).bytes ++ x = (dataHeader h').bytes ++ y := by
    rw [hbytes, hbytes, hrest.1, hrest.2]
  have hvalid (g : Header) (hg : g.payloadLen.toNat < 2 ^ 63) : (dataHeader g).Valid :=
    ⟨hg, fun hc => by cases hc⟩
  have hmax (g : Header) : (dataHeader g).payloadLen ≤ UInt64.ofNat (2 ^ 64 - 1) := by
    rw [UInt64.le_iff_toNat_le]
    exact Nat.le_of_lt_succ (dataHeader g).payloadLen.toNat_lt
  have hdec := Header.decode_iff.mpr ⟨hvalid h hb, hmax h, rfl, List.prefix_append _ x⟩
  have hdec' := Header.decode_iff.mpr ⟨hvalid h' hb', hmax h', rfl, List.prefix_append _ y⟩
  rw [hdata, hdec'] at hdec
  simp only [Except.ok.injEq, Prod.mk.injEq, dataHeader, Header.mk.injEq, true_and] at hdec
  obtain ⟨⟨hmask, hlen⟩, -⟩ := hdec
  have hh : h = h' := by
    obtain ⟨fin, opcode, mask, len⟩ := h
    obtain ⟨fin', opcode', mask', len'⟩ := h'
    simp only at hop hfin hmask hlen
    rw [hop, hfin, hmask, hlen]
  subst hh
  exact ⟨rfl, List.append_cancel_left hdata⟩

/-- The bytes of a frame say where it ends. -/
theorem bytes_prefix {w w' : WireFrame} {x y : Bytes} (heq : w.bytes ++ x = w'.bytes ++ y) :
    w = w' ∧ x = y := by
  rw [bytes, bytes, List.append_assoc, List.append_assoc] at heq
  have hb (v : WireFrame) : v.header.payloadLen.toNat < 2 ^ 63 := by
    rw [toNat_payloadLen]
    exact v.bound
  obtain ⟨hheader, htail⟩ := header_prefix (hb w) (hb w') heq
  have hlen : w.payload.length = w'.payload.length := by
    rw [← toNat_payloadLen, ← toNat_payloadLen, hheader]
  obtain ⟨hpayload, hxy⟩ := List.append_inj htail hlen
  obtain ⟨fin, opcode, mask, payload, bound⟩ := w
  obtain ⟨fin', opcode', mask', payload', bound'⟩ := w'
  simp only [header, Header.mk.injEq] at hheader hpayload
  obtain ⟨rfl, rfl, rfl, -⟩ := hheader
  subst hpayload
  exact ⟨rfl, hxy⟩

/-- A byte string is a sequence of frames in one way at most. -/
theorem flatMap_bytes_injective : Function.Injective fun ws : List WireFrame => ws.flatMap bytes :=
  flatMap_injective bytes_ne_nil bytes_prefix

end WireFrame

end NagoWss
