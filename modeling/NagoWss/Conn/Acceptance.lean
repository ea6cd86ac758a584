import NagoWss.Conn.Sending

/-!
# What a peer makes of a frame

A peer that waits for a new message and whose limits admit the payload accepts
the frame of a message exactly when the message is legal. Nothing on the sending
side makes a message legal, except that a code which must never be sent is
replaced.
-/

namespace NagoWss

open Framing

/-! ## The rules of the receiving side -/

theorem CloseFrame.isSendable_normalised (f : CloseFrame) :
    f.normalised.code.isSendable = true := by
  rw [normalised]
  simp only
  split
  · next h => exact h
  · exact CloseCode.isSendable_INTERNAL_ERROR

/-- The body that is sent is that of the content with a code that may be sent. -/
theorem encodeCloseBody_eq (frame : Option CloseFrame) :
    Connection.encodeCloseBody frame = CloseFrame.body (frame.map CloseFrame.normalised) := by
  cases frame <;> rfl

namespace Message

/-- Where text is due, the message has text. -/
def hasText : Message → Bool
  | .text payload => Utf8.valid payload
  | .close (some f) => Utf8.valid f.reason
  | _ => true

/-- A message is legal when its frame is short enough and its text is text. -/
theorem legal_iff (m : Message) : m.Legal ↔
    ((Connection.frameOf m).1.isControl = true → (Connection.frameOf m).2.length ≤ 125) ∧
      m.hasText = true := by
  rcases m with payload | payload | payload | payload | _ | f
  · simp [Legal, Connection.frameOf, OpCode.isControl, hasText, Utf8.valid_iff]
  · simp [Legal, Connection.frameOf, OpCode.isControl, hasText]
  · simp [Legal, Connection.frameOf, OpCode.isControl, hasText]
  · simp [Legal, Connection.frameOf, OpCode.isControl, hasText]
  · simp [Legal, Connection.frameOf, OpCode.isControl, hasText, Connection.encodeCloseBody]
  · have hlen : (Connection.encodeCloseBody (some f)).length = 2 + f.reason.length := by
      rw [Connection.encodeCloseBody, List.length_append, BigEndian.length_encode]
    simp only [Legal, Connection.frameOf, OpCode.isControl, hasText, Utf8.valid_iff, hlen,
      forall_const]
    refine and_congr_left fun _ => ?_
    omega

/-- What the assembler makes of the frame of a message, when it waits for a new
message and its limits admit the payload. -/
theorem accept_frameOf {a : Assembler} (hopen : a.closed = false) (hnone : a.partialMessage = none)
    (m : Message) (hmax : (Connection.frameOf m).2.length ≤ a.limits.maxMessage) :
    a.accept ⟨(Connection.frameOf m).1, true, (Connection.frameOf m).2⟩ =
      (if m.hasText then .ok (some m.normalised) else .error .invalidUtf8,
        { a with closed := m.isClose }) := by
  have ha : { a with closed := false } = a := by rw [← hopen]
  have hfinal (kind : DataKind) (payload : Bytes) (hle : payload.length ≤ a.limits.maxMessage) :
      a.acceptData kind true payload =
        ((Assembler.finishUnfragmented kind payload).map some, a) := by
    rw [Assembler.acceptData, hnone, if_neg (by decide), if_neg (Nat.not_lt.mpr hle), if_pos rfl]
  rcases m with payload | payload | payload | payload | frame
  · have hdata := Assembler.accept_data .text true payload hopen
    rw [hfinal .text payload hmax, Assembler.finishUnfragmented] at hdata
    simp only [isClose, ha, hasText, normalised]
    refine hdata.trans (Prod.ext ?_ rfl)
    by_cases htext : Utf8.valid payload = true <;> simp [htext, Except.map]
  · have hdata := Assembler.accept_data .binary true payload hopen
    rw [hfinal .binary payload hmax] at hdata
    simp only [isClose, ha]
    exact hdata
  · simp only [isClose, ha]
    exact Assembler.accept_ping true payload hopen
  · simp only [isClose, ha]
    exact Assembler.accept_pong true payload hopen
  · simp only [Connection.frameOf, Assembler.accept_close true _ hopen, encodeCloseBody_eq, isClose]
    refine Prod.ext ?_ rfl
    cases frame with
    | none => rfl
    | some f =>
      have hreason : f.normalised.reason = f.reason := rfl
      simp only [Option.map_some, parseCloseBody_body, f.isSendable_normalised, hasText, hreason,
        normalised]
      by_cases htext : Utf8.valid f.reason = true <;> simp [htext, Except.map]

end Message

/-! ## Acceptance -/

/-- Every peer of a sender of this role, that waits for a new message and whose
limits admit the payload, takes the frame for a message, unless it has seen a close
frame before, and reports no broken rule. -/
def WireFrame.AcceptedByPeers (role : Role) (w : WireFrame) : Prop :=
  ∀ (peer : Connection) (a : Assembler), peer.role = role.opposite → peer.Facing a w.bytes →
    a.partialMessage = none → w.payload.length ≤ a.limits.maxFrame.toNat →
    w.payload.length ≤ a.limits.maxMessage →
      (a.closed = false → ∃ m, peer.results 0 = .ok (some m)) ∧
        ∀ n e, peer.results n = .error e → ¬e.FromPeer

/-- The end of a stream that breaks no rule is not the peer's fault. -/
theorem ending_not_fromPeer {closed : Bool} {e : Error} (h : ending none closed = .error e) :
    ¬e.FromPeer := by
  rw [ending] at h
  split at h
  · cases h
  · cases h
    exact not_false

namespace Carries

variable {role : Role} {m : Message} {w : WireFrame}

/-- The header of a message that is short enough is valid. -/
theorem valid_iff (h : Carries role m w) : w.header.Valid ↔
    ((Connection.frameOf m).1.isControl = true → (Connection.frameOf m).2.length ≤ 125) := by
  rw [w.valid_iff, h.opcode, h.length_eq, h.fin]
  simp only [true_and]

/-- Reading the frame of a short message cuts that frame off. -/
theorem parse_bytes (h : Carries role m w) {maxFrame : UInt64} (hvalid : w.header.Valid)
    (hmax : w.payload.length ≤ maxFrame.toNat) :
    ((frameCutter role.opposite maxFrame).parse w.bytes).items =
        [⟨(Connection.frameOf m).1, true, (Connection.frameOf m).2⟩] ∧
      ((frameCutter role.opposite maxFrame).parse w.bytes).fault = none := by
  have hws : ∀ x ∈ [w], x.header.Valid ∧ x.payload.length ≤ maxFrame.toNat ∧
      x.mask.isSome = (role.opposite = .server) := by
    intro x hx
    rw [List.mem_singleton.mp hx]
    exact ⟨hvalid, hmax, h.mask_opposite⟩
  have hparse := WireFrame.parse_bytes hws []
  rw [List.append_nil, List.flatMap_singleton, WireFrame.parse_nil] at hparse
  rw [hparse.1, hparse.2, List.map_singleton, h.frame_eq]
  exact ⟨rfl, rfl⟩

/-- The frame of a legal message is accepted. -/
theorem acceptedByPeers (h : Carries role m w) (hlegal : m.Legal) : w.AcceptedByPeers role := by
  obtain ⟨hshort, htext⟩ := m.legal_iff.mp hlegal
  intro peer a hrole hfacing hnone hframe hmessage
  have hcutter : peer.cutter = frameCutter role.opposite a.limits.maxFrame := by
    rw [Connection.cutter, hrole, hfacing.1]
  obtain ⟨hitems, hfault⟩ := h.parse_bytes (h.valid_iff.mpr hshort) hframe
  have hresult := Connection.result_eq hfacing
  rw [hcutter, hitems, hfault] at hresult
  cases hclosed : a.closed with
  | true =>
    simp only [outputs_closed hclosed, List.getElem?_nil] at hresult
    refine ⟨by simp, fun n e he => ?_⟩
    rw [Connection.results, hresult] at he
    exact ending_not_fromPeer he
  | false =>
    rw [h.length_eq] at hmessage
    have haccept := Message.accept_frameOf hclosed hnone m hmessage
    rw [htext, if_pos rfl] at haccept
    simp only [Cutter.outputs, feed, haccept, outcome, Option.toList_some, List.append_nil]
      at hresult
    refine ⟨fun _ => ⟨m.normalised, hresult 0⟩, fun n e he => ?_⟩
    rw [Connection.results, hresult] at he
    cases n with
    | zero => cases he
    | succ n => exact ending_not_fromPeer he

/-- The limits of a peer that admits just this payload. -/
def peerLimits (w : WireFrame) : Limits := ⟨UInt64.ofNat (2 ^ 64 - 1), w.payload.length⟩

theorem length_le_peerLimits (w : WireFrame) :
    w.payload.length ≤ (peerLimits w).maxFrame.toNat := by
  have hmax : 2 ^ 63 < (UInt64.ofNat (2 ^ 64 - 1)).toNat := by decide
  exact Nat.le_of_lt (Nat.lt_trans w.bound hmax)

/-- A peer that has read nothing yet is one of those that accept the frame. -/
theorem reference_accepted (hw : w.AcceptedByPeers role) {e : Error}
    (he : reference role.opposite (peerLimits w) w.bytes 0 = .error e) : ¬e.FromPeer := by
  have hne : ∀ chunk ∈ ([] : List Bytes), chunk ≠ [] := by simp
  have hfacing := Connection.withBuffered_facing .little 0 role.opposite (peerLimits w) w.bytes
    [] [] hne
  have hresults := Connection.results_eq .little 0 role.opposite (peerLimits w) w.bytes [] [] []
    hne
  rw [List.flatten_nil, List.append_nil] at hfacing hresults
  refine (hw _ _ rfl hfacing rfl (length_le_peerLimits w) (Nat.le_refl _)).2 0 e ?_
  rw [hresults, he]

/-- A frame that is accepted carries a legal message. -/
theorem legal (h : Carries role m w) (hw : w.AcceptedByPeers role) : m.Legal := by
  have hshort : (Connection.frameOf m).1.isControl = true →
      (Connection.frameOf m).2.length ≤ 125 := by
    intro hcontrol
    by_contra hlong
    have hcontrol' : w.opcode.isControl = true := by rwa [h.opcode]
    have hlong' : 125 < w.payload.length := by rwa [h.length_eq, ← Nat.not_le]
    have hcut : (frameCutter role.opposite (peerLimits w).maxFrame).cut (w.bytes ++ []) =
        .bad (.frame .invalidControlFrame) := WireFrame.frameCut_long hcontrol' hlong' []
    rw [List.append_nil] at hcut
    refine reference_accepted hw (e := .frame .invalidControlFrame) ?_ trivial
    rw [reference, Cutter.parse_bad _ hcut]
    rfl
  refine m.legal_iff.mpr ⟨hshort, ?_⟩
  by_contra htext
  obtain ⟨hitems, -⟩ := h.parse_bytes (h.valid_iff.mpr hshort) (length_le_peerLimits w)
  have haccept := Message.accept_frameOf (a := .new (peerLimits w)) rfl rfl m
    (Nat.le_of_eq h.length_eq.symm)
  rw [if_neg htext] at haccept
  refine reference_accepted hw (e := .protocol .invalidUtf8) ?_ trivial
  have houtput : (Cutter.outputs feed (.new (peerLimits w))
      (framesOf role.opposite (peerLimits w) w.bytes)).1[0]? =
        some (.error (.protocol .invalidUtf8)) := by
    rw [framesOf, hitems]
    simp only [Cutter.outputs, feed, haccept, outcome]
    rfl
  exact reference_output houtput

/-- The frame of a message is accepted exactly when the message is legal. -/
theorem acceptedByPeers_iff (h : Carries role m w) : w.AcceptedByPeers role ↔ m.Legal :=
  ⟨h.legal, h.acceptedByPeers⟩

/-- The same for a sequence of frames. -/
theorem forall_acceptedByPeers_iff {ms : List Message} {ws : List WireFrame}
    (h : List.Forall₂ (Carries role) ms ws) :
    (∀ w ∈ ws, w.AcceptedByPeers role) ↔ ∀ m ∈ ms, m.Legal := by
  induction h with
  | nil => simp
  | cons hcarries _ ih => rw [List.forall_mem_cons, List.forall_mem_cons,
      hcarries.acceptedByPeers_iff, ih]

end Carries

namespace Connection

/-- A call that succeeds puts frames on the wire, and its frames are accepted by
every peer exactly when the messages it was handed are legal. -/
theorem call_accepted_iff {c c' : Connection} {call : Call}
    (hfits : ∀ m ∈ call.messages c.closeSent, m.Fits) (h : c.call call = (.ok (), c')) :
    (∃ ws : List WireFrame, c'.stream.sent = c.stream.sent ++ ws.flatMap WireFrame.bytes) ∧
      ∀ ws : List WireFrame, c'.stream.sent = c.stream.sent ++ ws.flatMap WireFrame.bytes →
        ((∀ w ∈ ws, w.AcceptedByPeers c.role) ↔ ∀ m ∈ call.messages c.closeSent, m.Legal) := by
  obtain ⟨ws, hws, hsent⟩ := (call_sends hfits h).frames
  refine ⟨⟨ws, hsent⟩, fun vs hvs => ?_⟩
  obtain rfl : ws = vs :=
    WireFrame.flatMap_bytes_injective (List.append_cancel_left (hsent.symm.trans hvs))
  exact Carries.forall_acceptedByPeers_iff hws

/-- A close frame whose code was replaced is accepted. -/
theorem call_accepted_iff_close :
    (WireFrame.mk true .close none [3, 243] (by decide)).AcceptedByPeers .server :=
  ((@call_accepted_iff (new .little 7 ⟨[], [], []⟩ .server .default) _
    (.close (some ⟨⟨1006⟩, []⟩)) (by decide) rfl).2
      [⟨true, .close, none, [3, 243], by decide⟩] rfl).mpr
        (List.forall_mem_singleton.mpr ⟨by decide, [], rfl⟩) _ List.mem_cons_self

/-- A probe of 126 bytes is sent, and its frame is not accepted. -/
theorem long_ping_not_accepted :
    let c := new .little 7 ⟨[], [], []⟩ .server .default
    let r := c.call (.write (.ping (List.replicate 126 0)))
    let w : WireFrame := ⟨true, .ping, none, List.replicate 126 0, by simp⟩
    r.1 = .ok () ∧ r.2.stream.sent = c.stream.sent ++ w.bytes ∧ ¬w.AcceptedByPeers c.role := by
  intro c r w
  refine ⟨by decide +kernel, by decide +kernel, fun haccepted => ?_⟩
  have hcarries : Carries .server (.ping (List.replicate 126 0)) w :=
    ⟨rfl, rfl, by simp [w], rfl⟩
  have hlegal := hcarries.legal haccepted
  rw [Message.Legal, List.length_replicate] at hlegal
  omega

end Connection

end NagoWss
