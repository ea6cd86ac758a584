import NagoWss.Conn.Sending

/-!
# Closing from this side

A run of sending calls over a stream that never fails puts on the wire the frames
of everything it was asked to send, except for redundant closes. The flag that a
close frame was sent is consulted by `close` alone, so whether the close frame is
the last one is up to the caller.
-/

namespace NagoWss

namespace Call

/-- The messages of a call, redundant closes included. -/
def handed (call : Call) : List Message := call.messages false

/-- A call that has nothing to send once a close frame went out. -/
def IsQuiet : Call → Prop
  | .close _ => True
  | .writeAll messages => messages = []
  | .write _ | .pong _ => False

instance : DecidablePred IsQuiet
  | .close _ => isTrue trivial
  | .writeAll messages => inferInstanceAs (Decidable (messages = []))
  | .write _ | .pong _ => isFalse not_false

/-- The messages that a run of calls puts on the wire. -/
def sentBy (closeSent : Bool) : List Call → List Message
  | [] => []
  | call :: calls =>
    let messages := call.messages closeSent
    messages ++ sentBy (closeSent || messages.any Message.isClose) calls

/-- A call puts nothing on the wire but what it was handed. -/
theorem messages_subset (call : Call) (closeSent : Bool) :
    call.messages closeSent ⊆ call.handed := by
  cases call with
  | close frame => cases closeSent <;> simp [handed, messages]
  | write | writeAll | pong => exact List.Subset.refl _

end Call

namespace Connection

/-- Make a sequence of calls, whatever they return. -/
def callAll (c : Connection) (calls : List Call) : Connection :=
  calls.foldl (fun c call => (c.call call).2) c

/-- Two groups of frames sent one after the other. -/
theorem Sends.trans {c₁ c₂ c₃ : Connection} {ms ms' : List Message} (h : c₁.Sends c₂ ms)
    (h' : c₂.Sends c₃ ms') : c₁.Sends c₃ (ms ++ ms') := by
  obtain ⟨hkeeps, hclose, ws, hws, hsent⟩ := h
  obtain ⟨hkeeps', hclose', ws', hws', hsent'⟩ := h'
  rw [hkeeps.role] at hws'
  refine ⟨hkeeps.trans hkeeps', ?_, ws ++ ws', List.rel_append hws hws', ?_⟩
  · rw [hclose', hclose, List.any_append, Bool.or_assoc]
  · rw [hsent', hsent, List.flatMap_append, List.append_assoc]

/-- A frame written to a reliable stream goes out. -/
theorem writeFrame_ok {c : Connection} (h : c.stream.Reliable) {m : Message} (hfits : m.Fits) :
    (c.writeFrame (frameOf m).1 true (frameOf m).2).1 = .ok () ∧
      (c.writeFrame (frameOf m).1 true (frameOf m).2).2.stream.Reliable := by
  obtain ⟨hresult, hstream, -, -⟩ := c.writeFrame_eq m hfits
  obtain ⟨hok, hreliable⟩ := h.writeAll (c.wireFrame m hfits).bytes
  rw [hresult, hstream, hok]
  exact ⟨rfl, hreliable⟩

/-- A message written to a reliable stream goes out. -/
theorem write_ok {c : Connection} (h : c.stream.Reliable) {m : Message} (hfits : m.Fits) :
    (c.write m).1 = .ok () ∧ (c.write m).2.stream.Reliable := by
  have hnote : (c.noteClose m).stream.Reliable := by
    rw [noteClose_eq]
    exact h
  exact writeFrame_ok hnote hfits

/-- A batch written to a reliable stream goes out. -/
theorem writeAll_ok {c : Connection} (h : c.stream.Reliable) {messages : List Message}
    (hfits : ∀ m ∈ messages, m.Fits) :
    (c.writeAll messages).1 = .ok () ∧ (c.writeAll messages).2.stream.Reliable := by
  obtain ⟨ws, state, -, heq⟩ := c.encodeAll_eq [] messages hfits
  obtain ⟨hok, hreliable⟩ := h.writeAll (ws.flatMap WireFrame.bytes)
  rw [writeAll, heq]
  simp only [List.nil_append]
  split
  · exact ⟨rfl, h⟩
  · simp only [hok]
    exact ⟨rfl, hreliable⟩

/-- On a reliable stream every call succeeds. -/
theorem call_ok {c : Connection} (h : c.stream.Reliable) {call : Call}
    (hfits : ∀ m ∈ call.messages c.closeSent, m.Fits) :
    (c.call call).1 = .ok () ∧ (c.call call).2.stream.Reliable := by
  cases call with
  | write m => exact write_ok h (hfits m List.mem_cons_self)
  | writeAll messages => exact writeAll_ok h hfits
  | pong payload => exact @write_ok c h (.pong payload) (hfits _ List.mem_cons_self)
  | close frame =>
    simp only [call, close]
    split
    · exact ⟨rfl, h⟩
    · next hopen =>
      rw [Call.messages, if_neg hopen] at hfits
      exact write_ok h (hfits _ List.mem_cons_self)

/-- A run of calls over a reliable stream sends its messages, in order. -/
theorem callAll_sends {c : Connection} (h : c.stream.Reliable) {calls : List Call}
    (hfits : ∀ call ∈ calls, ∀ m ∈ call.handed, m.Fits) :
    c.Sends (c.callAll calls) (Call.sentBy c.closeSent calls) := by
  induction calls generalizing c with
  | nil => exact ⟨.refl c, (Bool.or_false _).symm, [], .nil, (List.append_nil _).symm⟩
  | cons call calls ih =>
    have hhanded : ∀ m ∈ call.messages c.closeSent, m.Fits := fun m hm =>
      hfits call List.mem_cons_self m (call.messages_subset c.closeSent hm)
    obtain ⟨hok, hreliable⟩ := call_ok h hhanded
    have hsends := call_sends hhanded (Prod.ext hok rfl)
    have hrest := ih hreliable fun x hx => hfits x (List.mem_cons_of_mem call hx)
    rw [hsends.closeSent] at hrest
    exact hsends.trans hrest

end Connection

/-! ## When the close frame is the last one -/

/-- Nothing follows a close frame. -/
def ClosesLast (ws : List WireFrame) : Prop := ws.Pairwise fun w _ => w.opcode ≠ .close

instance : DecidablePred ClosesLast := fun _ => inferInstanceAs (Decidable (List.Pairwise _ _))

/-- The caller stops at the close: no batch goes on behind a close message, and
behind a call that was handed one come only `close` and empty batches. -/
def StopsAtClose (calls : List Call) : Prop :=
  (∀ call ∈ calls, call.handed.Pairwise fun m _ => m.isClose = false) ∧
    calls.Pairwise fun call later => call.handed.any Message.isClose = true → later.IsQuiet

instance : DecidablePred StopsAtClose := fun _ => inferInstanceAs (Decidable (_ ∧ _))

/-- Frames close last exactly when the messages they carry do. -/
theorem closesLast_iff {role : Role} {ms : List Message} {ws : List WireFrame}
    (h : List.Forall₂ (Carries role) ms ws) :
    ClosesLast ws ↔ ms.Pairwise fun m _ => m.isClose = false := by
  induction h with
  | nil => simp [ClosesLast]
  | @cons m w ms ws hcarries hrest ih =>
    rw [ClosesLast, List.pairwise_cons, List.pairwise_cons, ← ih]
    refine and_congr_left fun _ => ?_
    rw [hcarries.opcode, ne_eq, Message.opcode_eq_close_iff, Bool.not_eq_true]
    cases hrest <;> simp +contextual

namespace Call

/-- Behind a close frame the quiet calls are those that send nothing. -/
theorem isQuiet_iff (call : Call) : call.IsQuiet ↔ call.messages true = [] := by
  cases call <;> simp [IsQuiet, messages]

/-- Behind a close frame nothing is sent exactly when every call is quiet. -/
theorem sentBy_true_eq_nil_iff (calls : List Call) :
    sentBy true calls = [] ↔ ∀ call ∈ calls, call.IsQuiet := by
  induction calls with
  | nil => simp [sentBy]
  | cons call calls ih =>
    rw [sentBy, Bool.true_or, List.append_eq_nil_iff, ih, List.forall_mem_cons, isQuiet_iff]

/-- Quiet calls do not send behind a close. -/
theorem stopsAtClose_of_quiet {calls : List Call} (h : ∀ call ∈ calls, call.IsQuiet) :
    StopsAtClose calls := by
  refine ⟨fun call hcall => ?_, List.Pairwise.imp_of_mem (fun _ hlater _ _ => h _ hlater)
    (List.pairwise_of_forall fun _ _ => trivial)⟩
  have hquiet := h call hcall
  cases call with
  | close frame => exact List.pairwise_singleton _ _
  | writeAll messages =>
    cases hquiet
    exact .nil
  | write | pong => exact hquiet.elim

/-- Stopping at the close, call by call. -/
theorem stopsAtClose_cons (call : Call) (calls : List Call) : StopsAtClose (call :: calls) ↔
    call.handed.Pairwise (fun m _ => m.isClose = false) ∧
      (call.handed.any Message.isClose = true → ∀ later ∈ calls, later.IsQuiet) ∧
      StopsAtClose calls := by
  rw [StopsAtClose, List.forall_mem_cons, List.pairwise_cons, StopsAtClose]
  constructor
  · rintro ⟨⟨hbatch, hbatches⟩, hlater, hpairs⟩
    exact ⟨hbatch, fun hclose later hmem => hlater later hmem hclose, hbatches, hpairs⟩
  · rintro ⟨hbatch, hlater, hbatches, hpairs⟩
    exact ⟨⟨hbatch, hbatches⟩, fun later hmem hclose => hlater hclose later hmem, hpairs⟩

/-- A run sends its close message last exactly when the caller stops there. -/
theorem sentBy_closesLast_iff (calls : List Call) :
    ((sentBy false calls).Pairwise fun m _ => m.isClose = false) ↔ StopsAtClose calls := by
  induction calls with
  | nil => simp [sentBy, StopsAtClose]
  | cons call calls ih =>
    have hsent : sentBy false (call :: calls) =
        call.handed ++ sentBy (call.handed.any Message.isClose) calls := rfl
    rw [hsent, List.pairwise_append, stopsAtClose_cons]
    refine and_congr_right fun hbatch => ?_
    cases hany : call.handed.any Message.isClose with
    | false =>
      have hopen : ∀ m ∈ call.handed, m.isClose = false := by simpa using hany
      rw [ih]
      simp only [Bool.false_eq_true, false_imp_iff, true_and, and_iff_left_iff_imp]
      exact fun _ m hm _ _ => hopen m hm
    | true =>
      obtain ⟨m, hm, hclose⟩ := List.any_eq_true.mp hany
      constructor
      · rintro ⟨-, hnothing⟩
        -- A message behind the close message would make it no close message.
        have hnil : sentBy true calls = [] := by
          refine List.eq_nil_iff_forall_not_mem.mpr fun x hx => ?_
          rw [hnothing m hm x hx] at hclose
          cases hclose
        have hquiet := (sentBy_true_eq_nil_iff calls).mp hnil
        exact ⟨fun _ => hquiet, stopsAtClose_of_quiet hquiet⟩
      · rintro ⟨hquiet, -⟩
        rw [(sentBy_true_eq_nil_iff calls).mpr (hquiet rfl)]
        exact ⟨.nil, fun _ _ x hx => by cases hx⟩

end Call

namespace Connection

/-- However a fresh connection is used over a stream that never fails, it puts
frames on the wire, and a close frame is the last of them exactly when the caller
stops at the close. -/
theorem callAll_closesLast_iff (endian : Endian) (seed : UInt64) (stream : ByteStream)
    (role : Role) (limits : Limits) (buffered : Bytes) (hstream : stream.Reliable)
    (calls : List Call) (hfits : ∀ call ∈ calls, ∀ m ∈ call.handed, m.Fits) :
    let c' := (withBuffered endian seed stream role limits buffered).callAll calls
    (∃ ws : List WireFrame, c'.stream.sent = stream.sent ++ ws.flatMap WireFrame.bytes) ∧
      ∀ ws : List WireFrame, c'.stream.sent = stream.sent ++ ws.flatMap WireFrame.bytes →
        (ClosesLast ws ↔ StopsAtClose calls) := by
  obtain ⟨-, -, ws, hws, hsent⟩ :=
    @callAll_sends (withBuffered endian seed stream role limits buffered) hstream calls hfits
  refine ⟨⟨ws, hsent⟩, fun vs hvs => ?_⟩
  obtain rfl : ws = vs :=
    WireFrame.flatMap_bytes_injective (List.append_cancel_left (hsent.symm.trans hvs))
  exact (closesLast_iff hws).trans (Call.sentBy_closesLast_iff calls)

/-- A batch that ends with its close message, and a redundant close behind it. -/
theorem callAll_closesLast_batch :
    ClosesLast [⟨true, .text, none, [0x68], by decide⟩, ⟨true, .close, none, [], by decide⟩] :=
  ((callAll_closesLast_iff .little 7 ⟨[], [], []⟩ .server .default [] (by simp [ByteStream.Reliable])
    [.writeAll [.text [0x68], .close none], .close (some ⟨⟨1000⟩, []⟩)] (by decide)).2 _ rfl).mpr
      (by decide)

/-- A message written behind the close frame follows it on the wire, as does a
second close frame. -/
theorem write_after_close :
    let c := new .little 7 ⟨[], [], []⟩ .server .default
    let c' := c.callAll [.close none, .write (.close none), .write (.text [0x68])]
    let ws : List WireFrame := [⟨true, .close, none, [], by decide⟩,
      ⟨true, .close, none, [], by decide⟩, ⟨true, .text, none, [0x68], by decide⟩]
    c'.stream.sent = c.stream.sent ++ ws.flatMap WireFrame.bytes ∧ ¬ClosesLast ws := by
  intro c c' ws
  exact ⟨rfl, by decide⟩

end Connection

end NagoWss
