import NagoWss.Conn.Connection

/-!
# The size of a frame on every target

The length of a payload is a number of 64 bits, the size of a frame one of the width of
an address. On a target of 32 bits the size of a frame of 4 GiB or more is too small, and
the frame is cut where it does not end. Where sizes are exact, parsing differs from that of
`Connection.parseBuffered` in one way: there may be no room for the frame announced, or for
a message in fragments.
-/

namespace NagoWss

/-! ## Parsing on a target -/

/-- What a target gives a program: addresses of some width, and room for its buffers. -/
structure Target where
  /-- The width of an address in bits, which is that of a size. -/
  bits : Nat
  /-- Whether a buffer may have room for so many bytes, as `reserve`, which may grow it by
  more than is asked for, and the allocator behind it decide. -/
  grants : Nat → Bool
  /-- No buffer has room for more than half of the addresses. -/
  grants_lt : ∀ {size}, grants size = true → size < 2 ^ (bits - 1)

/-- Make room in a buffer of `length` bytes for `additional` more, or end the program. -/
def Target.reserve (target : Target) (length additional : Nat) : Except Panic Unit :=
  if target.grants (length + additional) then .ok () else .error .capacityOverflow

/-- How much spare capacity to keep available for each read. -/
def READ_CHUNK : Nat := 16 * 1024

/-- A target that has room for whatever reading under these limits asks for. -/
structure Target.Affords (target : Target) (limits : Limits) : Prop where
  /-- Room for a frame, or for part of one and a read. -/
  frame : ∀ size < limits.maxFrame.toNat + Header.MAX_ENCODED_LEN + READ_CHUNK,
    target.grants size = true
  /-- Room for a message that arrives in fragments. -/
  message : ∀ size ≤ limits.maxMessage, target.grants size = true

/-- A target that affords the limits has room for every frame that they admit. -/
theorem Target.Affords.grants_frame {target : Target} {limits : Limits}
    (h : target.Affords limits) {header : Header} (hmax : header.payloadLen ≤ limits.maxFrame) :
    target.grants (header.encodedLen + header.payloadLen.toNat) = true := by
  have hheader := header.encodedLen_bounds.2
  have hpayload := UInt64.le_iff_toNat_le.mp hmax
  exact h.frame _ (by rw [READ_CHUNK]; omega)

/-- Make room in the message in progress for a frame that is copied into it. -/
def Assembler.makeRoom (target : Target) (a : Assembler) (f : Frame) : Except Panic Unit :=
  match a.closed, f.opcode, a.partialMessage with
  | false, .continuation, some (_, buffer) =>
    if buffer.length + f.payload.length > a.limits.maxMessage then .ok ()
    else target.reserve buffer.length f.payload.length
  | false, .text, none | false, .binary, none =>
    -- A message in one frame is handed over as it is.
    if f.payload.length > a.limits.maxMessage ∨ f.fin = true then .ok ()
    else target.reserve 0 f.payload.length
  | _, _, _ => .ok ()

/-- The limits keep a message in progress within what they are afforded. -/
theorem Assembler.makeRoom_cases (target : Target) (a : Assembler) (f : Frame) :
    a.makeRoom target f = .ok () ∨
      (a.makeRoom target f = .error .capacityOverflow ∧ ¬target.Affords a.limits) := by
  have hreserve {length additional : Nat} (hle : length + additional ≤ a.limits.maxMessage) :
      target.reserve length additional = .ok () ∨
        (target.reserve length additional = .error .capacityOverflow ∧
          ¬target.Affords a.limits) := by
    by_cases hgrants : target.grants (length + additional) = true
    · exact .inl (if_pos hgrants)
    · exact .inr ⟨if_neg hgrants, fun haffords => hgrants (haffords.message _ hle)⟩
  unfold makeRoom
  split
  · split
    · exact .inl rfl
    · next hlen => exact hreserve (Nat.not_lt.mp hlen)
  · split
    · exact .inl rfl
    · next hlen => exact hreserve (by omega)
  · split
    · exact .inl rfl
    · next hlen => exact hreserve (by omega)
  · exact .inl rfl

/-- Split a frame off the front of a buffer, and the payload off the frame. -/
def splitFrame (buffer : Bytes) (total headerLen : Nat) : Except Panic (Bytes × Bytes) :=
  if buffer.length < total then .error .outOfRange
  else
    let front := buffer.take total
    if front.length < headerLen then .error .outOfRange
    else .ok (front.drop headerLen, buffer.drop total)

/-- A frame that has arrived is split off. -/
theorem splitFrame_eq {buffer : Bytes} {total headerLen : Nat} (hlong : ¬buffer.length < total)
    (hheader : headerLen ≤ total) : splitFrame buffer total headerLen =
      .ok ((buffer.take total).drop headerLen, buffer.drop total) := by
  have hfront : ¬(buffer.take total).length < headerLen := by
    rw [List.length_take]
    omega
  rw [splitFrame, if_neg hlong]
  exact if_neg hfront

/-- A frame that is split off leaves the bytes behind it. -/
theorem splitFrame_ok {buffer payload rest : Bytes} {total headerLen : Nat}
    (h : splitFrame buffer total headerLen = .ok (payload, rest)) :
    headerLen ≤ total ∧ total ≤ buffer.length ∧ payload = (buffer.take total).drop headerLen ∧
      rest = buffer.drop total := by
  rw [splitFrame] at h
  split at h
  · cases h
  · next hlong =>
    simp only at h
    split at h
    · cases h
    · next hheader =>
      cases h
      rw [List.length_take] at hheader
      exact ⟨by omega, by omega, rfl, rfl⟩

namespace Connection

/-- Try to take one message out of the buffer, on a target. -/
def parseBufferedOn (target : Target) (c : Connection) :
    Except Panic (Except Error (Option Message) × Connection) :=
  match hdecode : Header.decode c.readBuffer c.assembler.limits.maxFrame with
  | .error e => .ok (.error (.frame e), c)
  | .ok (.error _) => .ok (.ok none, c)
  | .ok (.ok (header, headerLen)) =>
    let total := frameTotal target.bits headerLen header
    if c.readBuffer.length < total then
      -- Room for the rest up front, however much of it the peer has announced.
      match target.reserve c.readBuffer.length (total - c.readBuffer.length) with
      | .error panic => .error panic
      | .ok () => .ok (.ok none, c)
    else if maskingViolated c.role header.mask then .ok (.error .maskingViolation, c)
    else
      match hsplit : splitFrame c.readBuffer total headerLen with
      | .error panic => .error panic
      | .ok (masked, rest) =>
        let frame : Frame := ⟨header.opcode, header.fin, unmask c.endian header.mask masked⟩
        let c' := { c with readBuffer := rest }
        match c.assembler.makeRoom target frame with
        | .error panic => .error panic
        | .ok () =>
          match c.assembler.accept frame with
          | (.ok (some message), a) => .ok (.ok (some message), { c' with assembler := a })
          | (.ok none, a) => parseBufferedOn target { c' with assembler := a }
          | (.error e, a) => .ok (.error (.protocol e), { c' with assembler := a })
termination_by c.readBuffer.length
decreasing_by
  obtain ⟨hheader, hlong, -, rfl⟩ := splitFrame_ok hsplit
  obtain ⟨-, -, rfl, -⟩ := Header.decode_iff.mp hdecode
  have hmin := header.encodedLen_bounds.1
  change (c.readBuffer.drop _).length < c.readBuffer.length
  rw [List.length_drop]
  omega

end Connection

/-! ## Frames that are cut where they end -/

/-- The frame at the front of a buffer is cut where it ends. -/
structure CutsExactly (bits : Nat) (header : Header) (headerLen : Nat) (buffer : Bytes) :
    Prop where
  /-- The size is that of the header and the payload. -/
  total : frameTotal bits headerLen header = headerLen + header.payloadLen.toNat
  /-- The payload is all of the payload and nothing else. -/
  split : headerLen + header.payloadLen.toNat ≤ buffer.length →
    splitFrame buffer (frameTotal bits headerLen header) headerLen =
      .ok ((buffer.drop headerLen).take header.payloadLen.toNat,
        buffer.drop (headerLen + header.payloadLen.toNat))

/-- The size of a frame is exact if it is a number of the target. -/
theorem frameTotal_eq_iff {bits headerLen : Nat} {header : Header} (hpos : 0 < headerLen) :
    frameTotal bits headerLen header = headerLen + header.payloadLen.toNat ↔
      headerLen + header.payloadLen.toNat < 2 ^ bits := by
  have hbits : 0 < 2 ^ bits := Nat.two_pow_pos bits
  rw [frameTotal]
  constructor
  · intro h
    rw [← h]
    exact Nat.mod_lt _ hbits
  · intro h
    rw [Nat.mod_eq_of_lt (by omega : header.payloadLen.toNat < 2 ^ bits), Nat.mod_eq_of_lt h]

/-- A frame is cut where it ends exactly if its size is a number of the target. -/
theorem cutsExactly_iff {bits headerLen : Nat} {header : Header} {buffer : Bytes}
    (hpos : 0 < headerLen) : CutsExactly bits header headerLen buffer ↔
      headerLen + header.payloadLen.toNat < 2 ^ bits := by
  rw [← frameTotal_eq_iff hpos]
  refine ⟨fun h => h.total, fun h => ⟨h, fun hlong => ?_⟩⟩
  rw [h, splitFrame_eq (Nat.not_lt.mpr hlong) (Nat.le_add_right _ _), List.drop_take,
    Nat.add_sub_cancel_left]

namespace Connection

/-- Parsing a buffer with a header at the front. -/
theorem parseBufferedOn_decoded {target : Target} {c : Connection} {header : Header}
    {headerLen : Nat} (hdecode : Header.decode c.readBuffer c.assembler.limits.maxFrame =
      .ok (.ok (header, headerLen))) :
    c.parseBufferedOn target =
      let total := frameTotal target.bits headerLen header
      if c.readBuffer.length < total then
        match target.reserve c.readBuffer.length (total - c.readBuffer.length) with
        | .error panic => .error panic
        | .ok () => .ok (.ok none, c)
      else if maskingViolated c.role header.mask then .ok (.error .maskingViolation, c)
      else
        match splitFrame c.readBuffer total headerLen with
        | .error panic => .error panic
        | .ok (masked, rest) =>
          let frame : Frame := ⟨header.opcode, header.fin, unmask c.endian header.mask masked⟩
          match c.assembler.makeRoom target frame with
          | .error panic => .error panic
          | .ok () =>
            match c.assembler.accept frame with
            | (.ok (some message), a) =>
              .ok (.ok (some message), { c with readBuffer := rest, assembler := a })
            | (.ok none, a) =>
              parseBufferedOn target { c with readBuffer := rest, assembler := a }
            | (.error e, a) =>
              .ok (.error (.protocol e), { c with readBuffer := rest, assembler := a }) := by
  rw [parseBufferedOn]
  split
  · next h =>
    rw [hdecode] at h
    cases h
  · next h =>
    rw [hdecode] at h
    cases h
  · next h =>
    rw [hdecode] at h
    cases h
    simp only
    split
    · rfl
    · split
      · rfl
      · split
        · next hsplit => rw [hsplit]
        · next hsplit => rw [hsplit]

/-- Parsing a buffer with a frame at the front whose size is that of a target of 64 bits:
the frame is accepted, unless there is no room for what is kept of it. -/
theorem parseBufferedOn_arrived {target : Target} {c : Connection} {header : Header}
    {headerLen : Nat} (hdecode : Header.decode c.readBuffer c.assembler.limits.maxFrame =
      .ok (.ok (header, headerLen)))
    (heq : frameTotal target.bits headerLen header = frameTotal 64 headerLen header)
    (hheader : headerLen ≤ frameTotal 64 headerLen header)
    (harrived : ¬c.readBuffer.length < frameTotal 64 headerLen header)
    (hmask : ¬maskingViolated c.role header.mask = true) :
    (c.parseBufferedOn target =
      let total := frameTotal 64 headerLen header
      let payload := unmask c.endian header.mask ((c.readBuffer.take total).drop headerLen)
      let rest := c.readBuffer.drop total
      match c.assembler.accept ⟨header.opcode, header.fin, payload⟩ with
      | (.ok (some message), a) =>
        .ok (.ok (some message), { c with readBuffer := rest, assembler := a })
      | (.ok none, a) => parseBufferedOn target { c with readBuffer := rest, assembler := a }
      | (.error e, a) =>
        .ok (.error (.protocol e), { c with readBuffer := rest, assembler := a })) ∨
    (c.parseBufferedOn target = .error .capacityOverflow ∧
      ¬target.Affords c.assembler.limits) := by
  simp only [parseBufferedOn_decoded hdecode, heq]
  rw [if_neg harrived, if_neg hmask, splitFrame_eq harrived hheader]
  simp only
  rcases c.assembler.makeRoom_cases target ⟨header.opcode, header.fin, unmask c.endian
    header.mask ((c.readBuffer.take (frameTotal 64 headerLen header)).drop headerLen)⟩ with
    hroom | ⟨hroom, hnot⟩
  · rw [hroom]
    exact .inl rfl
  · rw [hroom]
    exact .inr ⟨rfl, hnot⟩

/-- Every frame that the limits admit is smaller than the addresses of the target. -/
def Small (bits : Nat) (c : Connection) : Prop :=
  ∀ header : Header, header.Valid → header.payloadLen ≤ c.assembler.limits.maxFrame →
    header.encodedLen + header.payloadLen.toNat < 2 ^ bits

/-- The frame at the front of a buffer has its size on the target, and on one of 64 bits. -/
theorem Small.frameTotal_eq {bits : Nat} {c : Connection} (h : c.Small bits) {header : Header}
    {headerLen : Nat} (hdecode : Header.decode c.readBuffer c.assembler.limits.maxFrame =
      .ok (.ok (header, headerLen))) :
    frameTotal bits headerLen header = headerLen + header.payloadLen.toNat ∧
      frameTotal 64 headerLen header = headerLen + header.payloadLen.toNat := by
  obtain ⟨hvalid, hmax, rfl, -⟩ := Header.decode_iff.mp hdecode
  have hpos : 0 < header.encodedLen := Nat.lt_of_lt_of_le (by decide) header.encodedLen_bounds.1
  exact ⟨(frameTotal_eq_iff hpos).mpr (h header hvalid hmax), NagoWss.frameTotal_eq hvalid⟩

/-- What parsing is on a target: what `parseBuffered` says, unless there is no room for a
frame that it waits for, or for a message in fragments. -/
theorem parseBufferedOn_cases {target : Target} (c : Connection) (hsmall : c.Small target.bits) :
    c.parseBufferedOn target = .ok c.parseBuffered ∨
      (c.parseBufferedOn target = .error .capacityOverflow ∧
        ¬target.Affords c.assembler.limits) := by
  fun_induction parseBuffered c with
  | case1 c e hdecode =>
    left
    rw [parseBufferedOn]
    split
    · next h =>
      rw [hdecode] at h
      cases h
      rfl
    · next h =>
      rw [hdecode] at h
      cases h
    · next h =>
      rw [hdecode] at h
      cases h
  | case2 c i hdecode =>
    left
    rw [parseBufferedOn]
    split
    · next h =>
      rw [hdecode] at h
      cases h
    · rfl
    · next h =>
      rw [hdecode] at h
      cases h
  | case3 c header headerLen hdecode total hshort =>
    obtain ⟨htarget, h64⟩ := hsmall.frameTotal_eq hdecode
    have hwait : c.readBuffer.length < headerLen + header.payloadLen.toNat := h64 ▸ hshort
    rw [parseBufferedOn_decoded hdecode, htarget]
    simp only [if_pos hwait, Target.reserve, Nat.add_sub_cancel' hwait.le]
    cases hgrants : target.grants (headerLen + header.payloadLen.toNat) with
    | true => exact .inl rfl
    | false =>
      refine .inr ⟨rfl, fun haffords => ?_⟩
      obtain ⟨-, hmax, rfl, -⟩ := Header.decode_iff.mp hdecode
      rw [haffords.grants_frame hmax] at hgrants
      cases hgrants
  | case4 c header headerLen hdecode total hshort hmask =>
    obtain ⟨htarget, h64⟩ := hsmall.frameTotal_eq hdecode
    rw [parseBufferedOn_decoded hdecode, htarget, ← h64]
    simp only [total] at hshort
    simp only [if_neg hshort, if_pos hmask]
    exact .inl trivial
  | case5 c header headerLen hdecode total hshort hmask payload c' message a haccept =>
    obtain ⟨htarget, h64⟩ := hsmall.frameTotal_eq hdecode
    refine (parseBufferedOn_arrived hdecode (htarget.trans h64.symm)
      (h64 ▸ Nat.le_add_right _ _) hshort hmask).imp (fun hparse => ?_) id
    simp only [payload, total] at haccept
    rw [hparse]
    simp only [haccept]
    rfl
  | case6 c header headerLen hdecode total hshort hmask payload c' a haccept ih =>
    obtain ⟨htarget, h64⟩ := hsmall.frameTotal_eq hdecode
    have hlimits := c.assembler.accept_limits ⟨header.opcode, header.fin, payload⟩
    rw [haccept] at hlimits
    -- The limits are those of the connection in front of the frame.
    have hnext : Small target.bits { c' with assembler := a } := fun next hvalid hmax =>
      hsmall next hvalid (hlimits ▸ hmax)
    rcases parseBufferedOn_arrived hdecode (htarget.trans h64.symm)
      (h64 ▸ Nat.le_add_right _ _) hshort hmask with hparse | hpanic
    · simp only [payload, total] at haccept
      rw [hparse]
      simp only [haccept]
      rw [← hlimits]
      exact ih hnext
    · exact .inr hpanic
  | case7 c header headerLen hdecode total hshort hmask payload c' e a haccept =>
    obtain ⟨htarget, h64⟩ := hsmall.frameTotal_eq hdecode
    refine (parseBufferedOn_arrived hdecode (htarget.trans h64.symm)
      (h64 ▸ Nat.le_add_right _ _) hshort hmask).imp (fun hparse => ?_) id
    simp only [payload, total] at haccept
    rw [hparse]
    simp only [haccept]
    rfl

end Connection

/-! ## Which limits are exact -/

/-- What a limit on the payload says about the size of a frame. -/
theorem Header.size_lt {header : Header} {bits : Nat} {maxFrame : UInt64} (hvalid : header.Valid)
    (hmax : header.payloadLen ≤ maxFrame)
    (hfits : bits = 64 ∨ bits = 32 ∧ maxFrame.toNat + MAX_ENCODED_LEN < 2 ^ 32) :
    header.encodedLen + header.payloadLen.toNat < 2 ^ bits := by
  have hheader := header.encodedLen_bounds.2
  have hle := UInt64.le_iff_toNat_le.mp hmax
  have hlen := hvalid.length
  rw [MAX_ENCODED_LEN] at hheader hfits
  rcases hfits with rfl | ⟨rfl, hsmall⟩ <;> omega

/-- The header of a frame of 4 GiB: 14 bytes, and a payload of 4 GiB less 14 bytes. -/
def Header.fourGiB : Header := ⟨true, .binary, some #v[0, 0, 0, 0], 4294967282⟩

/-- A limit that admits the payload admits the header of a frame of 4 GiB. -/
theorem Header.decode_fourGiB {maxFrame : UInt64}
    (hlarge : 2 ^ 32 ≤ maxFrame.toNat + MAX_ENCODED_LEN) :
    decode fourGiB.bytes maxFrame = .ok (.ok (fourGiB, MAX_ENCODED_LEN)) := by
  have hvalid : fourGiB.Valid := ⟨by decide, by decide⟩
  refine decode_iff.mpr ⟨hvalid, UInt64.le_iff_toNat_le.mpr ?_, rfl, List.prefix_rfl⟩
  change 4294967282 ≤ maxFrame.toNat
  rw [MAX_ENCODED_LEN] at hlarge
  omega

/-- On a target of 32 bits a server that admits a frame of 4 GiB reads out of range. -/
theorem Connection.parseBufferedOn_fourGiB {target : Target} {c : Connection}
    (hbits : target.bits = 32) (hserver : c.role = .server)
    (hlarge : 2 ^ 32 ≤ c.assembler.limits.maxFrame.toNat + Header.MAX_ENCODED_LEN)
    (hbuffer : c.readBuffer = Header.fourGiB.bytes) :
    c.parseBufferedOn target = .error .outOfRange := by
  have hdecode : Header.decode c.readBuffer c.assembler.limits.maxFrame =
      .ok (.ok (Header.fourGiB, Header.MAX_ENCODED_LEN)) := by
    rw [hbuffer]
    exact Header.decode_fourGiB hlarge
  -- The size wraps around to nothing, less than the header.
  have hwraps : frameTotal 32 Header.MAX_ENCODED_LEN Header.fourGiB = 0 := by decide
  rw [parseBufferedOn_decoded hdecode, hbits, hwraps, hserver, hbuffer]
  rfl

/-- A target of any width that has room for as much as its addresses allow. -/
def Target.roomy (bits : Nat) : Target where
  bits := bits
  grants size := decide (size < 2 ^ (bits - 1))
  grants_lt h := of_decide_eq_true h

/-- A buffer that fits the addresses of a roomy target gets its room. -/
theorem Target.reserve_roomy {bits length additional : Nat}
    (h : length + additional < 2 ^ (bits - 1)) :
    (roomy bits).reserve length additional = .ok () :=
  if_pos (decide_eq_true h)

/-- A frame is cut where it ends on a target of 64 bits, and on one of 32 bits exactly if it
is shorter than 4 GiB: every frame that a limit admits is, exactly if the limit and the
largest header are. Parsing is then the same on both targets, unless there is no room for a
frame that is waited for or for a message in fragments. -/
theorem frameSize_exact_iff {bits : Nat} (hbits : bits = 32 ∨ bits = 64) (maxFrame : UInt64) :
    (∀ buffer header headerLen, Header.decode buffer maxFrame = .ok (.ok (header, headerLen)) →
      (CutsExactly bits header headerLen buffer ↔
        bits = 64 ∨ headerLen + header.payloadLen.toNat < 2 ^ 32)) ∧
    ((∀ buffer header headerLen, Header.decode buffer maxFrame = .ok (.ok (header, headerLen)) →
      CutsExactly bits header headerLen buffer) ↔
        bits = 64 ∨ maxFrame.toNat + Header.MAX_ENCODED_LEN < 2 ^ 32) ∧
    ((∀ (target : Target) (c : Connection), target.bits = bits →
      c.assembler.limits.maxFrame = maxFrame →
        c.parseBufferedOn target = .ok c.parseBuffered ∨
          c.parseBufferedOn target = .error .capacityOverflow) ↔
        bits = 64 ∨ maxFrame.toNat + Header.MAX_ENCODED_LEN < 2 ^ 32) := by
  have hpos {buffer header headerLen}
      (hdecode : Header.decode buffer maxFrame = .ok (.ok (header, headerLen))) :
      0 < headerLen ∧ headerLen = header.encodedLen ∧ header.Valid ∧
        header.payloadLen ≤ maxFrame := by
    obtain ⟨hvalid, hmax, rfl, -⟩ := Header.decode_iff.mp hdecode
    exact ⟨Nat.lt_of_lt_of_le (by decide) header.encodedLen_bounds.1, rfl, hvalid, hmax⟩
  have hlarge (hnot : ¬(bits = 64 ∨ maxFrame.toNat + Header.MAX_ENCODED_LEN < 2 ^ 32)) :
      bits = 32 ∧ 2 ^ 32 ≤ maxFrame.toNat + Header.MAX_ENCODED_LEN := by
    rw [not_or, Nat.not_lt] at hnot
    exact ⟨hbits.resolve_right hnot.1, hnot.2⟩
  have hfits (h : bits = 64 ∨ maxFrame.toNat + Header.MAX_ENCODED_LEN < 2 ^ 32) :
      bits = 64 ∨ bits = 32 ∧ maxFrame.toNat + Header.MAX_ENCODED_LEN < 2 ^ 32 :=
    h.elim .inl fun hsmall => hbits.elim (fun h => .inr ⟨h, hsmall⟩) .inl
  refine ⟨fun buffer header headerLen hdecode => ?_, ⟨fun hall => ?_, fun h => ?_⟩,
    ⟨fun hall => ?_, fun h => ?_⟩⟩
  · obtain ⟨hheader, rfl, hvalid, hmax⟩ := hpos hdecode
    rw [cutsExactly_iff hheader]
    rcases hbits with rfl | rfl
    · exact ⟨.inr, fun h => h.resolve_left (by decide)⟩
    · exact iff_of_true (Header.size_lt hvalid hmax (.inl rfl)) (.inl rfl)
  · by_contra hnot
    obtain ⟨rfl, hlong⟩ := hlarge hnot
    have hcut := hall _ _ _ (Header.decode_fourGiB hlong)
    exact absurd ((cutsExactly_iff (by decide)).mp hcut) (by decide)
  · intro buffer header headerLen hdecode
    obtain ⟨hheader, rfl, hvalid, hmax⟩ := hpos hdecode
    exact (cutsExactly_iff hheader).mpr (Header.size_lt hvalid hmax (hfits h))
  · by_contra hnot
    obtain ⟨rfl, hlong⟩ := hlarge hnot
    have hparse := hall (.roomy 32) (.withBuffered .little 0 ⟨[], [], []⟩ .server ⟨maxFrame, 0⟩
      Header.fourGiB.bytes) rfl rfl
    rw [Connection.parseBufferedOn_fourGiB rfl rfl hlong rfl] at hparse
    rcases hparse with hparse | hparse <;> cases hparse
  · rintro target c rfl rfl
    have hsmall : c.Small target.bits := fun header hvalid hmax =>
      Header.size_lt hvalid hmax (hfits h)
    exact (c.parseBufferedOn_cases hsmall).imp id And.left

/-- A short text under the limits of an endpoint that names none, on a target of 32 bits. -/
theorem frameSize_exact_iff_text :
    CutsExactly 32 ⟨true, .text, none, 2⟩ 2 [0x81, 2, 0x68, 0x69, 0x8A, 0] :=
  (frameSize_exact_iff (.inl rfl) Limits.default.maxFrame).2.1.mpr (.inr (by decide)) _ _ _
    (Header.decode_iff.mpr ⟨⟨by decide, by decide⟩, by decide, rfl, by decide⟩)

/-- On a target of 32 bits a client takes two bytes for a payload of 4 GiB and two bytes, and
reads the bytes behind them as the next frame. One of 64 bits that has room for the frame
waits for it. -/
theorem payload_read_as_header :
    let buffer : Bytes := [0x82, 0x7F, 0, 0, 0, 1, 0, 0, 0, 2, 0x61, 0x62, 0x82, 1, 0x78]
    let header : Header := ⟨true, .binary, none, 4294967298⟩
    let c : Connection := .withBuffered .little 0 ⟨[], [], []⟩ .client
      ⟨0xFFFFFFFFFFFFFFFF, 0xFFFFFFFF⟩ buffer
    let next : Connection := { c with readBuffer := [0x82, 1, 0x78] }
    Header.decode buffer c.assembler.limits.maxFrame = .ok (.ok (header, 10)) ∧
      frameTotal 32 10 header = 12 ∧ ¬CutsExactly 32 header 10 buffer ∧
      c.parseBufferedOn (.roomy 64) = .ok (.ok none, c) ∧
      c.parseBufferedOn (.roomy 32) = .ok (.ok (some (.binary [0x61, 0x62])), next) ∧
      next.parseBufferedOn (.roomy 32) =
        .ok (.ok (some (.binary [0x78])), { next with readBuffer := [] }) := by
  intro buffer header c next
  have hdecode : Header.decode c.readBuffer c.assembler.limits.maxFrame =
      .ok (.ok (header, 10)) :=
    Header.decode_iff.mpr ⟨⟨by decide, by decide⟩, by decide, by decide, by decide⟩
  have hnext : Header.decode next.readBuffer next.assembler.limits.maxFrame =
      .ok (.ok (⟨true, .binary, none, 1⟩, 2)) :=
    Header.decode_iff.mpr ⟨⟨by decide, by decide⟩, by decide, by decide, by decide⟩
  have htotal : frameTotal 32 10 header = 12 := by decide
  have htotal' : frameTotal 32 2 ⟨true, .binary, none, 1⟩ = 3 := by decide
  have htotal64 : frameTotal 64 10 header = 4294967308 := by decide
  refine ⟨hdecode, htotal, fun h => absurd ((cutsExactly_iff (by decide)).mp h) (by decide),
    ?_, ?_, ?_⟩
  · have hroom : (Target.roomy 64).reserve c.readBuffer.length (4294967308 - c.readBuffer.length) =
        .ok () := Target.reserve_roomy (by decide)
    have hshort : c.readBuffer.length < 4294967308 := by decide
    rw [Connection.parseBufferedOn_decoded hdecode]
    simp only [show frameTotal (Target.roomy 64).bits 10 header = 4294967308 from htotal64,
      if_pos hshort, hroom]
  · rw [Connection.parseBufferedOn_decoded hdecode, Target.roomy, htotal]
    rfl
  · rw [Connection.parseBufferedOn_decoded hnext, Target.roomy, htotal']
    rfl

end NagoWss
