import NagoWss.Conn.Bounds
import NagoWss.Conn.FrameSize

/-!
# Room for what arrives

The buffer grows for the rest of a frame as soon as its header has announced it, and for
every read, and a message in fragments grows with each of them. A target that has no room
for that ends the program, so ten bytes can end one whose limit admits half of the
addresses. What is said of `Connection.read` takes the room for granted, and this is what it
leaves out: on a target that affords the limits reading is what it says, and on any other a
read either says the same or ends the program.
-/

namespace NagoWss

/-- A roomy target affords limits that leave room for a header and a read. -/
theorem Target.roomy_affords {bits : Nat} {limits : Limits}
    (hframe : limits.maxFrame.toNat + Header.MAX_ENCODED_LEN + READ_CHUNK ≤ 2 ^ (bits - 1))
    (hmessage : limits.maxMessage < 2 ^ (bits - 1)) : (roomy bits).Affords limits where
  frame _ hsize := decide_eq_true (Nat.lt_of_lt_of_le hsize hframe)
  message _ hsize := decide_eq_true (Nat.lt_of_le_of_lt hsize hmessage)

namespace Connection

/-! ## Reading on a target -/

/-- Parsing leaves the stream alone. -/
theorem parseBufferedOn_stream {target : Target} {c : Connection}
    {r : Except Error (Option Message) × Connection} (h : c.parseBufferedOn target = .ok r) :
    r.2.stream = c.stream := by
  fun_induction parseBufferedOn target c with
  | case1 | case2 | case4 | case5 | case8 | case10 =>
    cases h
    rfl
  | case3 | case6 | case7 => cases h
  | case9 c header headerLen hdecode total hlong hmask masked rest hsplit frame c' hroom a haccept
      ih => exact ih h

/-- Read the next message on a target, waiting for it to arrive. -/
def readOn (target : Target) (c : Connection) :
    Except Panic (Except Error (Option Message) × Connection) :=
  match _hparse : c.parseBufferedOn target with
  | .error panic => .error panic
  | .ok (.error e, parsed) => .ok (.error e, parsed)
  | .ok (.ok (some message), parsed) => .ok (.ok (some message), parsed)
  | .ok (.ok none, parsed) =>
    -- The capacity is not modelled: a buffer with as much to spare has the room already.
    match target.reserve parsed.readBuffer.length READ_CHUNK with
    | .error panic => .error panic
    | .ok () =>
      match _hread : parsed.stream.readBuf parsed.readBuffer with
      | (.error e, buffer, stream) =>
        .ok (.error (.io e), { parsed with stream := stream, readBuffer := buffer })
      | (.ok n, buffer, stream) =>
        let next := { parsed with stream := stream, readBuffer := buffer }
        if n = 0 then
          if next.assembler.closed then .ok (.ok none, next)
          else .ok (.error .unexpectedEof, next)
        else readOn target next
termination_by c.stream.incoming.length
decreasing_by
  have hstream := parseBufferedOn_stream _hparse
  simp only at hstream
  rw [hstream] at _hread
  exact ByteStream.readBuf_lt _hread ‹_›

/-- The result of the `n`-th read, unless that read or one before it ends the program. -/
def resultsOn (target : Target) (c : Connection) :
    Nat → Except Panic (Except Error (Option Message))
  | 0 => (c.readOn target).map Prod.fst
  | n + 1 =>
    match c.readOn target with
    | .error panic => .error panic
    | .ok (_, c') => resultsOn target c' n

/-! ## What the target leaves of a read -/

/-- A read that the buffer answers. -/
theorem readOn_buffered {target : Target} {c c' : Connection}
    {r : Except Error (Option Message)} (h : c.parseBufferedOn target = .ok (r, c'))
    (hr : r ≠ .ok none) : c.readOn target = .ok (r, c') := by
  rw [readOn]
  split
  · next h' => rw [h] at h'; cases h'
  · next h' => rw [h] at h'; cases h'; rfl
  · next h' => rw [h] at h'; cases h'; rfl
  · next h' =>
    rw [h] at h'
    cases h'
    exact absurd rfl hr

/-- A read that parsing ends. -/
theorem readOn_panic {target : Target} {c : Connection} {panic : Panic}
    (h : c.parseBufferedOn target = .error panic) : c.readOn target = .error panic := by
  rw [readOn]
  split
  · next h' => rw [h] at h'; cases h'; rfl
  · next h' => rw [h] at h'; cases h'
  · next h' => rw [h] at h'; cases h'
  · next h' => rw [h] at h'; cases h'

/-- A read that the buffer does not answer asks for room and goes to the socket. -/
theorem readOn_socket {target : Target} {c c' : Connection}
    (h : c.parseBufferedOn target = .ok (.ok none, c')) :
    c.readOn target =
      match target.reserve c'.readBuffer.length READ_CHUNK with
      | .error panic => .error panic
      | .ok () =>
        match c'.stream.readBuf c'.readBuffer with
        | (.error e, buffer, stream) =>
          .ok (.error (.io e), { c' with stream := stream, readBuffer := buffer })
        | (.ok n, buffer, stream) =>
          if n = 0 then
            if c'.assembler.closed then
              .ok (.ok none, { c' with stream := stream, readBuffer := buffer })
            else .ok (.error .unexpectedEof, { c' with stream := stream, readBuffer := buffer })
          else readOn target { c' with stream := stream, readBuffer := buffer } := by
  rw [readOn]
  split
  · next h' => rw [h] at h'; cases h'
  · next h' => rw [h] at h'; cases h'
  · next h' => rw [h] at h'; cases h'
  · next h' =>
    rw [h] at h'
    cases h'
    split
    · rfl
    · split
      · next hread => rw [hread]
      · next hread => rw [hread]

/-- Whether frames are small is a matter of the limits. -/
theorem Small.of_limits {bits : Nat} {c c' : Connection} (h : c.Small bits)
    (hlimits : c'.assembler.limits = c.assembler.limits) : c'.Small bits := by
  intro header hvalid hmax
  rw [hlimits] at hmax
  exact h header hvalid hmax

/-- What a read does first on a target whose sizes are exact: parsing says what
`parseBuffered` says, with room for a read if that is to wait, or the program ends. -/
theorem readOn_step {target : Target} (c : Connection) (hsmall : c.Small target.bits) :
    (c.parseBufferedOn target = .ok c.parseBuffered ∧ (c.parseBuffered.1 = .ok none →
      target.reserve c.parseBuffered.2.readBuffer.length READ_CHUNK = .ok ())) ∨
    (c.readOn target = .error .capacityOverflow ∧ ¬target.Affords c.assembler.limits) := by
  obtain ⟨hlimits, -⟩ := c.parseBuffered_shrinks
  rcases c.parseBufferedOn_cases hsmall with hparse | ⟨hparse, hnot⟩
  · cases hgrants : target.grants (c.parseBuffered.2.readBuffer.length + READ_CHUNK) with
    | true => exact .inl ⟨hparse, fun _ => if_pos hgrants⟩
    | false =>
      by_cases hwait : c.parseBuffered.1 = .ok none
      · have hreserve : target.reserve c.parseBuffered.2.readBuffer.length READ_CHUNK =
            .error .capacityOverflow := if_neg (by simp [hgrants])
        rw [← Prod.mk.eta (p := c.parseBuffered), hwait] at hparse
        refine .inr ⟨by rw [readOn_socket hparse, hreserve], fun haffords => ?_⟩
        have hheld := c.parseBuffered_waits hwait
        rw [haffords.frame _ (by rw [Header.MAX_ENCODED_LEN]; omega)] at hgrants
        cases hgrants
      · exact .inl ⟨hparse, fun h => absurd h hwait⟩
  · exact .inr ⟨readOn_panic hparse, hnot⟩

/-- Reading on a target whose sizes are exact gives what `read` gives, or ends the program,
and that only if the target does not afford the limits. -/
theorem readOn_cases {target : Target} (c : Connection) (hsmall : c.Small target.bits) :
    c.readOn target = .ok c.read ∨
      (c.readOn target = .error .capacityOverflow ∧ ¬target.Affords c.assembler.limits) := by
  fun_induction read c with
  | case1 c e parsed hparse | case2 c message parsed hparse =>
    rcases c.readOn_step hsmall with ⟨hon, -⟩ | hpanic
    · rw [hparse] at hon
      exact .inl (readOn_buffered hon (by simp))
    · exact .inr hpanic
  | case3 c parsed hparse e buffer stream hread =>
    rcases c.readOn_step hsmall with ⟨hon, hroom⟩ | hpanic
    · rw [hparse] at hon hroom
      rw [readOn_socket hon, hroom rfl, hread]
      exact .inl rfl
    · exact .inr hpanic
  | case4 c parsed hparse buffer stream next hclosed hread =>
    rcases c.readOn_step hsmall with ⟨hon, hroom⟩ | hpanic
    · rw [hparse] at hon hroom
      rw [readOn_socket hon, hroom rfl, hread]
      exact .inl (if_pos hclosed)
    · exact .inr hpanic
  | case5 c parsed hparse buffer stream next hopen hread =>
    rcases c.readOn_step hsmall with ⟨hon, hroom⟩ | hpanic
    · rw [hparse] at hon hroom
      rw [readOn_socket hon, hroom rfl, hread]
      exact .inl (if_neg hopen)
    · exact .inr hpanic
  | case6 c parsed hparse n buffer stream hread next hn ih =>
    obtain ⟨hlimits, -⟩ := c.parseBuffered_shrinks
    rw [hparse] at hlimits
    rcases c.readOn_step hsmall with ⟨hon, hroom⟩ | hpanic
    · rw [hparse] at hon hroom
      rw [readOn_socket hon, hroom rfl, hread]
      simp only [if_neg hn]
      have hnext := ih (hsmall.of_limits hlimits)
      rw [show next.assembler.limits = c.assembler.limits from hlimits] at hnext
      exact hnext
    · exact .inr hpanic

/-! ## The sequence of reads -/

/-- Reading leaves the limits alone. -/
theorem read_limits (c : Connection) : c.read.2.assembler.limits = c.assembler.limits := by
  have hparsed := c.parseBuffered_shrinks.1
  fun_induction read c with
  | case1 c e parsed hparse | case2 c message parsed hparse =>
    rw [hparse] at hparsed
    exact hparsed
  | case3 c parsed hparse | case4 c parsed hparse | case5 c parsed hparse =>
    rw [hparse] at hparsed
    exact hparsed
  | case6 c parsed hparse n buffer stream hread next hn ih =>
    rw [hparse] at hparsed
    exact (ih next.parseBuffered_shrinks.1).trans hparsed

/-- The results on a target whose sizes are exact are those of `read`, as long as the
program goes on, and it goes on if the target affords the limits. -/
theorem resultsOn_cases {target : Target} {c : Connection} (hsmall : c.Small target.bits)
    (n : Nat) : c.resultsOn target n = .ok (c.results n) ∨
      (c.resultsOn target n = .error .capacityOverflow ∧
        ¬target.Affords c.assembler.limits) := by
  induction n generalizing c with
  | zero =>
    rcases c.readOn_cases hsmall with hread | ⟨hread, hnot⟩
    · rw [resultsOn, hread]
      exact .inl rfl
    · rw [resultsOn, hread]
      exact .inr ⟨rfl, hnot⟩
  | succ n ih =>
    rcases c.readOn_cases hsmall with hread | ⟨hread, hnot⟩
    · have hlimits := c.read_limits
      have hnext := ih (hsmall.of_limits hlimits)
      rw [hlimits] at hnext
      rw [resultsOn, hread]
      exact hnext
    · rw [resultsOn, hread]
      exact .inr ⟨rfl, hnot⟩

end Connection

/-- A target that affords the limits has addresses for every frame that they admit. -/
theorem Target.Affords.small {target : Target} {c : Connection}
    (h : target.Affords c.assembler.limits) : c.Small target.bits := by
  intro header hvalid hmax
  exact Nat.lt_of_lt_of_le (target.grants_lt (h.grants_frame hmax))
    (Nat.pow_le_pow_right (by decide) (Nat.sub_le _ _))

/-- On a target that affords the limits, reading gives what it gives where room is taken
for granted. -/
theorem Target.Affords.resultsOn_eq {target : Target} {c : Connection}
    (h : target.Affords c.assembler.limits) (n : Nat) :
    c.resultsOn target n = .ok (c.results n) :=
  (Connection.resultsOn_cases h.small n).resolve_right fun hpanic => hpanic.2 h

/-! ## Ten bytes -/

/-- The header of the largest frame there is: a payload of as many bytes as a signed number
of 64 bits can count. -/
def Header.largest : Header := ⟨true, .binary, none, 0x7FFFFFFFFFFFFFFF⟩

/-- Its ten bytes end every program with addresses of 64 bits whose limit admits it. -/
theorem Connection.resultsOn_largest {target : Target} {c : Connection}
    (hbits : target.bits = 64) (hmax : Header.largest.payloadLen ≤ c.assembler.limits.maxFrame)
    (hbuffer : c.readBuffer = Header.largest.bytes) (n : Nat) :
    c.resultsOn target n = .error .capacityOverflow := by
  have hdecode : Header.decode c.readBuffer c.assembler.limits.maxFrame =
      .ok (.ok (Header.largest, 10)) :=
    Header.decode_iff.mpr ⟨⟨by decide, by decide⟩, hmax, rfl, hbuffer ▸ List.prefix_rfl⟩
  have hrefused : target.grants (10 + Header.largest.payloadLen.toNat) = false := by
    rw [← Bool.not_eq_true]
    intro hgrants
    have hlt := target.grants_lt hgrants
    rw [hbits] at hlt
    exact absurd hlt (by decide)
  have hsize : frameTotal 64 10 Header.largest = 10 + Header.largest.payloadLen.toNat := by decide
  have hwait : c.readBuffer.length < 10 + Header.largest.payloadLen.toNat := by
    rw [hbuffer]
    decide
  have hparse : c.parseBufferedOn target = .error .capacityOverflow := by
    rw [parseBufferedOn_decoded hdecode, hbits, hsize]
    simp only [if_pos hwait, Target.reserve, Nat.add_sub_cancel' hwait.le, hrefused]
    rfl
  cases n with
  | zero =>
    rw [resultsOn, readOn_panic hparse]
    rfl
  | succ n => rw [resultsOn, readOn_panic hparse]

example : Header.largest.bytes = [0x82, 0x7F, 0x7F, 0xFF, 0xFF, 0xFF, 0xFF, 0xFF, 0xFF, 0xFF] := by
  decide

end NagoWss
