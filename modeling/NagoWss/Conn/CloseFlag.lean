import NagoWss.Conn.Closing

/-!
# The flag of a close frame

The flag that a close frame was sent is set before the frame is written, and stays set if
the write fails. Over a stream whose writes may fail it is true to what went out as long as
the first write that carries a close frame succeeds.
-/

namespace NagoWss

/-! ## Writes that may fail -/

namespace ByteStream

/-- A write that fails has sent nothing. -/
def AllOrNothing (s : ByteStream) : Prop := ∀ e n, some (e, n) ∈ s.writes → n = 0

/-- The next write succeeds. -/
def NextGoesOut (s : ByteStream) : Prop := s.writes.head?.join = none

/-- A write that succeeds has sent its bytes. -/
theorem NextGoesOut.writeAll {s : ByteStream} (hnext : s.NextGoesOut) (bytes : Bytes) :
    (s.writeAll bytes).1 = .ok () ∧ (s.writeAll bytes).2.sent = s.sent ++ bytes := by
  rw [ByteStream.writeAll]
  split
  · exact ⟨rfl, rfl⟩
  · exact ⟨rfl, rfl⟩
  · next hcons =>
    rw [NextGoesOut, hcons] at hnext
    cases hnext

section AllOrNothing

variable {s : ByteStream} (h : s.AllOrNothing) (bytes : Bytes)

include h

/-- Writing uses up one outcome. -/
theorem AllOrNothing.writes_writeAll :
    (s.writeAll bytes).2.writes = s.writes.tail ∧ (s.writeAll bytes).2.AllOrNothing := by
  have htail : (s.writeAll bytes).2.writes = s.writes.tail := by
    rw [writeAll]
    split
    · next hnil => simp [hnil]
    · next hcons => simp [hcons]
    · next hcons => simp [hcons]
  refine ⟨htail, fun e n hmem => h e n ?_⟩
  rw [htail] at hmem
  exact List.mem_of_mem_tail hmem

/-- A write that fails has sent nothing. -/
theorem AllOrNothing.writeAll_fails (hnext : ¬s.NextGoesOut) :
    (∃ e, (s.writeAll bytes).1 = .error e) ∧ (s.writeAll bytes).2.sent = s.sent := by
  rw [writeAll]
  split
  · next hnil =>
    rw [NextGoesOut, hnil] at hnext
    exact absurd rfl hnext
  · next hcons =>
    rw [NextGoesOut, hcons] at hnext
    exact absurd rfl hnext
  · next e n rest hcons =>
    have hn := h e n (hcons ▸ List.mem_cons_self)
    refine ⟨⟨e, rfl⟩, ?_⟩
    rw [hn]
    exact List.append_nil s.sent

end AllOrNothing

end ByteStream

namespace Connection

/-- What a call does that hands messages to a stream whose writes may fail: all of their
frames go out, or none. -/
structure Attempts (c : Connection) (r : Except Error Unit × Connection) (ms : List Message) :
    Prop where
  /-- The role stays. -/
  role : r.2.role = c.role
  /-- A close message is noted, whether it goes out or not. -/
  closeSent : r.2.closeSent = (c.closeSent || ms.any Message.isClose)
  /-- A write that fails still sends nothing. -/
  allOrNothing : r.2.stream.AllOrNothing
  /-- Without messages nothing is written. -/
  nothing : ms = [] → r.1 = .ok () ∧ r.2.stream = c.stream
  /-- One outcome is used up. -/
  writes : ms ≠ [] → r.2.stream.writes = c.stream.writes.tail
  /-- The frames go out. -/
  goesOut : ms ≠ [] → c.stream.NextGoesOut → r.1 = .ok () ∧ ∃ ws : List WireFrame,
    List.Forall₂ (Carries c.role) ms ws ∧
      r.2.stream.sent = c.stream.sent ++ ws.flatMap WireFrame.bytes
  /-- Nothing goes out. -/
  fails : ms ≠ [] → ¬c.stream.NextGoesOut →
    (∃ e, r.1 = .error e) ∧ r.2.stream.sent = c.stream.sent

section Attempts

variable {c : Connection} (h : c.stream.AllOrNothing)

include h

/-- A call that hands frames to the stream as one write. -/
theorem Attempts.of_written {r : Except Error Unit × Connection} {ms : List Message}
    {ws : List WireFrame} (hne : ms ≠ []) (hws : List.Forall₂ (Carries c.role) ms ws)
    (hrole : r.2.role = c.role)
    (hclose : r.2.closeSent = (c.closeSent || ms.any Message.isClose))
    (hresult : r.1 = (c.stream.writeAll (ws.flatMap WireFrame.bytes)).1.mapError .io)
    (hstream : r.2.stream = (c.stream.writeAll (ws.flatMap WireFrame.bytes)).2) :
    c.Attempts r ms := by
  obtain ⟨hwrites, hnothing⟩ := h.writes_writeAll (ws.flatMap WireFrame.bytes)
  refine ⟨hrole, hclose, hstream ▸ hnothing, fun hnil => absurd hnil hne,
    fun _ => hstream ▸ hwrites, fun _ hnext => ?_, fun _ hnext => ?_⟩
  · obtain ⟨hok, hsent⟩ := hnext.writeAll (ws.flatMap WireFrame.bytes)
    rw [hresult, hstream, hok, hsent]
    exact ⟨rfl, ws, hws, rfl⟩
  · obtain ⟨⟨e, herror⟩, hsent⟩ := h.writeAll_fails (ws.flatMap WireFrame.bytes) hnext
    rw [hresult, hstream, herror, hsent]
    exact ⟨⟨.io e, rfl⟩, rfl⟩

/-- A call that has nothing to send. -/
theorem Attempts.of_nothing {r : Except Error Unit × Connection} (hresult : r.1 = .ok ())
    (hrole : r.2.role = c.role) (hclose : r.2.closeSent = c.closeSent)
    (hstream : r.2.stream = c.stream) : c.Attempts r [] where
  role := hrole
  closeSent := hclose.trans (Bool.or_false _).symm
  allOrNothing := hstream ▸ h
  nothing := fun _ => ⟨hresult, hstream⟩
  writes := fun hne => absurd rfl hne
  goesOut := fun hne => absurd rfl hne
  fails := fun hne => absurd rfl hne

/-- A message sent by itself. -/
theorem write_attempts {m : Message} (hfits : m.Fits) : c.Attempts (c.write m) [m] := by
  have hnote := c.noteClose_eq m
  obtain ⟨hresult, hstream, hclose, -⟩ := (c.noteClose m).writeFrame_eq m hfits
  have hcarries := (c.noteClose m).carries_wireFrame m hfits
  have hrole : (c.write m).2.role = c.role := (c.call_keepsReceiving (.write m)).role
  rw [hnote] at hcarries
  refine .of_written h (List.cons_ne_nil m []) (.cons hcarries .nil) hrole ?_ ?_ ?_
  · refine hclose.trans ?_
    rw [hnote, List.any_cons, List.any_nil, Bool.or_false]
  · rw [List.flatMap_singleton]
    refine hresult.trans ?_
    rw [hnote]
  · rw [List.flatMap_singleton]
    refine hstream.trans ?_
    rw [hnote]

/-- A batch sent as one write. -/
theorem writeAll_attempts {messages : List Message} (hfits : ∀ m ∈ messages, m.Fits) :
    c.Attempts (c.writeAll messages) messages := by
  obtain ⟨ws, state, hws, heq⟩ := c.encodeAll_eq [] messages hfits
  rw [List.nil_append] at heq
  rw [writeAll, heq]
  cases messages with
  | nil =>
    cases hws
    exact .of_nothing h rfl rfl (Bool.or_false _) rfl
  | cons m messages =>
    cases hws with
    | @cons _ w _ ws hw hws =>
      have hfull : ((w :: ws).flatMap WireFrame.bytes).isEmpty = false := by
        rw [List.isEmpty_eq_false_iff, List.flatMap_cons]
        exact List.append_ne_nil_of_left_ne_nil w.bytes_ne_nil _
      simp only [hfull]
      exact .of_written h (List.cons_ne_nil m messages) (.cons hw hws) rfl rfl rfl rfl

/-- Every call that sends. -/
theorem call_attempts {call : Call} (hfits : ∀ m ∈ call.handed, m.Fits) :
    c.Attempts (c.call call) (call.messages c.closeSent) := by
  cases call with
  | write m => exact write_attempts h (hfits m List.mem_cons_self)
  | writeAll messages => exact writeAll_attempts h hfits
  | pong payload => exact write_attempts h (hfits (.pong payload) List.mem_cons_self)
  | close frame =>
    simp only [call, close, Call.messages]
    split
    · exact .of_nothing h rfl rfl rfl rfl
    · exact write_attempts h (hfits _ List.mem_cons_self)

end Attempts

end Connection

/-! ## What the flag says -/

/-- A complete close frame stands among the frames that went out behind these bytes. -/
def CloseWentOut (sent : Bytes) (c : Connection) : Prop :=
  ∃ ws : List WireFrame, c.stream.sent = sent ++ ws.flatMap WireFrame.bytes ∧
    ∃ w ∈ ws, w.opcode = .close

/-- The first write that carries a close frame succeeds, if there is one. -/
def Call.firstCloseGoesOut : List Call → List (Option (Errno × Nat)) → Bool
  | [], _ => true
  | call :: calls, outcomes =>
    -- A call without messages writes nothing.
    if call.handed.isEmpty then firstCloseGoesOut calls outcomes
    else if call.handed.any Message.isClose then outcomes.head?.join.isNone
    else firstCloseGoesOut calls outcomes.tail

/-- A run of calls in which closing tells the truth. -/
structure TellsTruth (c : Connection) (calls : List Call) : Prop where
  /-- In every state reached the flag is set exactly if a close frame went out. -/
  flag : ∀ n, (c.callAll (calls.take n)).closeSent = true ↔
    CloseWentOut c.stream.sent (c.callAll (calls.take n))
  /-- Behind a close that succeeds a close frame went out. -/
  closes : ∀ n frame, calls[n]? = some (.close frame) →
    let r := (c.callAll (calls.take n)).close frame
    r.1 = .ok () → CloseWentOut c.stream.sent r.2
  /-- Behind a close that failed another close writes again. -/
  retries : ∀ n frame, calls[n]? = some (.close frame) →
    let r := (c.callAll (calls.take n)).close frame
    r.1 ≠ .ok () → ∀ again, r.2.close again = r.2.write (.close again)

/-- What holds of a connection in such a run, in front of these calls. -/
structure Truthful (sent : Bytes) (calls : List Call) (c : Connection) : Prop where
  /-- A write that fails sends nothing. -/
  allOrNothing : c.stream.AllOrNothing
  /-- The flag is set exactly if a close frame went out. -/
  flag : ∃ ws : List WireFrame, c.stream.sent = sent ++ ws.flatMap WireFrame.bytes ∧
    (c.closeSent = true ↔ ∃ w ∈ ws, w.opcode = .close)
  /-- The first close frame went out, or will go out. -/
  first : c.closeSent = true ∨ Call.firstCloseGoesOut calls c.stream.writes = true

/-- There is a close frame among those that carry messages if one of these is a close. -/
theorem close_mem_iff {role : Role} {ms : List Message} {ws : List WireFrame}
    (h : List.Forall₂ (Carries role) ms ws) :
    (∃ w ∈ ws, w.opcode = .close) ↔ ms.any Message.isClose = true := by
  induction h with
  | nil => simp
  | @cons m w ms ws hcarries hrest ih =>
    rw [List.exists_mem_cons_iff, List.any_cons, Bool.or_eq_true, ih, hcarries.opcode,
      Message.opcode_eq_close_iff]

/-- Which frames went out is settled by the bytes. -/
theorem closeWentOut_iff {sent : Bytes} {c : Connection} {ws : List WireFrame}
    (h : c.stream.sent = sent ++ ws.flatMap WireFrame.bytes) :
    CloseWentOut sent c ↔ ∃ w ∈ ws, w.opcode = .close := by
  constructor
  · rintro ⟨vs, hvs, hclose⟩
    obtain rfl : ws = vs :=
      WireFrame.flatMap_bytes_injective (List.append_cancel_left (h.symm.trans hvs))
    exact hclose
  · exact fun hclose => ⟨ws, h, hclose⟩

section Run

variable {sent : Bytes} {c : Connection} {call : Call} {calls : List Call}

/-- One call in such a run. -/
theorem Truthful.step (h : Truthful sent (call :: calls) c) (hfits : ∀ m ∈ call.handed, m.Fits) :
    Truthful sent calls (c.call call).2 := by
  obtain ⟨hnothing, ⟨ws, hsent, hflag⟩, hfirst⟩ := h
  have hattempts := Connection.call_attempts hnothing hfits
  have hhanded : c.closeSent = false → call.messages c.closeSent = call.handed := by
    intro hopen
    rw [hopen, Call.handed]
  rw [Call.firstCloseGoesOut] at hfirst
  by_cases hms : call.messages c.closeSent = []
  · obtain ⟨-, hstream⟩ := hattempts.nothing hms
    have hclose := hattempts.closeSent
    rw [hms, List.any_nil, Bool.or_false] at hclose
    refine ⟨hattempts.allOrNothing, ⟨ws, hstream ▸ hsent, hclose ▸ hflag⟩, ?_⟩
    rw [hclose, hstream]
    by_cases hopen : c.closeSent = true
    · exact .inl hopen
    · rw [Bool.not_eq_true] at hopen
      rw [← hhanded hopen, hms] at hfirst
      exact hfirst
  · have hwrites := hattempts.writes hms
    -- As long as no close frame went out, the messages are those that were handed over.
    have hrest : c.closeSent = false → (call.messages c.closeSent).any Message.isClose = false →
        Call.firstCloseGoesOut calls (c.call call).2.stream.writes = true := by
      intro hopen hany
      have hfirst' := hfirst.resolve_left (hopen ▸ Bool.false_ne_true)
      rw [← hhanded hopen, if_neg (by rwa [List.isEmpty_iff]), hany] at hfirst'
      rw [hwrites]
      exact hfirst'
    by_cases hnext : c.stream.NextGoesOut
    · obtain ⟨-, vs, hvs, hsent'⟩ := hattempts.goesOut hms hnext
      refine ⟨hattempts.allOrNothing, ⟨ws ++ vs, ?_, ?_⟩, ?_⟩
      · rw [hsent', hsent, List.flatMap_append, List.append_assoc]
      · rw [hattempts.closeSent, Bool.or_eq_true, hflag, ← close_mem_iff hvs]
        simp only [List.mem_append, or_and_right, exists_or]
      · by_cases hclosed : (c.call call).2.closeSent = true
        · exact .inl hclosed
        · rw [Bool.not_eq_true, hattempts.closeSent, Bool.or_eq_false_iff] at hclosed
          exact .inr (hrest hclosed.1 hclosed.2)
    · obtain ⟨-, hsent'⟩ := hattempts.fails hms hnext
      have hnone : c.closeSent = false →
          (call.messages c.closeSent).any Message.isClose = false := by
        intro hopen
        by_contra hany
        rw [Bool.not_eq_false] at hany
        have hfirst' := hfirst.resolve_left (hopen ▸ Bool.false_ne_true)
        rw [← hhanded hopen, if_neg (by rwa [List.isEmpty_iff]), if_pos hany] at hfirst'
        exact hnext (Option.isNone_iff_eq_none.mp hfirst')
      have hclose : (c.call call).2.closeSent = c.closeSent := by
        rw [hattempts.closeSent]
        by_cases hopen : c.closeSent = true
        · rw [hopen, Bool.true_or]
        · rw [Bool.not_eq_true] at hopen
          rw [hnone hopen, Bool.or_false]
      refine ⟨hattempts.allOrNothing, ⟨ws, hsent'.trans hsent, hclose ▸ hflag⟩, ?_⟩
      rw [hclose]
      by_cases hopen : c.closeSent = true
      · exact .inl hopen
      · rw [Bool.not_eq_true] at hopen
        exact .inr (hrest hopen (hnone hopen))

/-- Every state reached in such a run. -/
theorem Truthful.run (h : Truthful sent calls c)
    (hfits : ∀ call ∈ calls, ∀ m ∈ call.handed, m.Fits) (n : Nat) :
    Truthful sent (calls.drop n) (c.callAll (calls.take n)) := by
  induction calls generalizing c n with
  | nil =>
    rw [List.drop_nil, List.take_nil]
    exact h
  | cons call calls ih =>
    cases n with
    | zero => exact h
    | succ n =>
      exact ih (h.step (hfits call List.mem_cons_self))
        (fun x hx => hfits x (List.mem_cons_of_mem call hx)) n

/-- If the first write that carries a close frame fails, there is a state with the flag set
behind which no close frame went out. -/
theorem exists_flag_without_close (hnothing : c.stream.AllOrNothing) {ws : List WireFrame}
    (hsent : c.stream.sent = sent ++ ws.flatMap WireFrame.bytes)
    (hnone : ¬∃ w ∈ ws, w.opcode = .close) (hopen : c.closeSent = false)
    (hfits : ∀ call ∈ calls, ∀ m ∈ call.handed, m.Fits)
    (hfails : Call.firstCloseGoesOut calls c.stream.writes = false) :
    ∃ n, (c.callAll (calls.take n)).closeSent = true ∧
      ¬CloseWentOut sent (c.callAll (calls.take n)) := by
  induction calls generalizing c ws with
  | nil => cases hfails
  | cons call calls ih =>
    have hattempts := Connection.call_attempts hnothing (hfits call List.mem_cons_self)
    have hrest : ∀ x ∈ calls, ∀ m ∈ x.handed, m.Fits := fun x hx =>
      hfits x (List.mem_cons_of_mem call hx)
    have hlater (h : ∃ n, ((c.call call).2.callAll (calls.take n)).closeSent = true ∧
        ¬CloseWentOut sent ((c.call call).2.callAll (calls.take n))) :
        ∃ n, (c.callAll ((call :: calls).take n)).closeSent = true ∧
          ¬CloseWentOut sent (c.callAll ((call :: calls).take n)) := by
      obtain ⟨n, hn⟩ := h
      exact ⟨n + 1, hn⟩
    have hhanded : call.messages c.closeSent = call.handed := by rw [hopen, Call.handed]
    have hclose := hattempts.closeSent
    rw [hhanded] at hattempts hclose
    rw [hopen, Bool.false_or] at hclose
    rw [Call.firstCloseGoesOut] at hfails
    by_cases hms : call.handed = []
    · obtain ⟨-, hstream⟩ := hattempts.nothing hms
      rw [hms] at hclose hfails
      exact hlater (ih hattempts.allOrNothing (hstream ▸ hsent) hnone hclose hrest
        (hstream ▸ hfails))
    · rw [if_neg (by rwa [List.isEmpty_iff])] at hfails
      by_cases hany : call.handed.any Message.isClose = true
      · rw [if_pos hany] at hfails
        have hnext : ¬c.stream.NextGoesOut := by
          intro hnext
          rw [Option.isNone_iff_eq_none.mpr hnext] at hfails
          cases hfails
        obtain ⟨-, hsent'⟩ := hattempts.fails hms hnext
        refine ⟨1, hclose.trans hany, fun hwent => hnone ?_⟩
        exact (closeWentOut_iff (hsent'.trans hsent)).mp hwent
      · rw [if_neg hany, ← hattempts.writes hms] at hfails
        rw [Bool.not_eq_true] at hany
        rw [hany] at hclose
        by_cases hnext : c.stream.NextGoesOut
        · obtain ⟨-, vs, hvs, hsent'⟩ := hattempts.goesOut hms hnext
          have hall : c.stream.sent ++ vs.flatMap WireFrame.bytes =
              sent ++ (ws ++ vs).flatMap WireFrame.bytes := by
            rw [hsent, List.flatMap_append, List.append_assoc]
          have hnone' : ¬∃ w ∈ ws ++ vs, w.opcode = .close := by
            rintro ⟨w, hw, hopcode⟩
            rcases List.mem_append.mp hw with hw | hw
            · exact hnone ⟨w, hw, hopcode⟩
            · rw [(close_mem_iff hvs).mp ⟨w, hw, hopcode⟩] at hany
              cases hany
          exact hlater (ih hattempts.allOrNothing (hsent'.trans hall) hnone' hclose hrest hfails)
        · obtain ⟨-, hsent'⟩ := hattempts.fails hms hnext
          exact hlater (ih hattempts.allOrNothing (hsent'.trans hsent) hnone hclose hrest hfails)

/-- Behind a close the flag is set, whether a close frame went out or not. -/
theorem closeSent_close {frame : Option CloseFrame} (hnothing : c.stream.AllOrNothing)
    (hfits : ∀ m ∈ (Call.close frame).handed, m.Fits) :
    (c.close frame).2.closeSent = true := by
  have hclose := (Connection.call_attempts hnothing hfits).closeSent
  refine hclose.trans ?_
  rw [Call.messages]
  cases c.closeSent <;> rfl

/-- A close that finds the flag set, or whose write succeeds, succeeds. -/
theorem Truthful.close_ok {frame : Option CloseFrame} (h : Truthful sent (.close frame :: calls) c)
    (hfits : ∀ m ∈ (Call.close frame).handed, m.Fits) : (c.close frame).1 = .ok () := by
  have hattempts := Connection.call_attempts h.allOrNothing hfits
  by_cases hms : (Call.close frame).messages c.closeSent = []
  · exact (hattempts.nothing hms).1
  · have hopen : c.closeSent = false := by
      rw [Call.messages] at hms
      split at hms
      · exact absurd rfl hms
      · next hopen => exact Bool.not_eq_true _ ▸ hopen
    have hfirst := h.first.resolve_left (hopen ▸ Bool.false_ne_true)
    exact (hattempts.goesOut hms (Option.isNone_iff_eq_none.mp hfirst)).1

end Run

/-- Closing tells the truth in a run of calls on a fresh connection exactly if the first
write that carries a close frame succeeds, if there is one. -/
theorem tellsTruth_iff (endian : Endian) (seed : UInt64) (stream : ByteStream) (role : Role)
    (limits : Limits) (buffered : Bytes) (hnothing : stream.AllOrNothing) (calls : List Call)
    (hfits : ∀ call ∈ calls, ∀ m ∈ call.handed, m.Fits) :
    TellsTruth (.withBuffered endian seed stream role limits buffered) calls ↔
      Call.firstCloseGoesOut calls stream.writes = true := by
  have hsent : stream.sent = stream.sent ++ ([] : List WireFrame).flatMap WireFrame.bytes :=
    (List.append_nil _).symm
  have hnone : ¬∃ w ∈ ([] : List WireFrame), w.opcode = .close := by
    rintro ⟨w, hw, -⟩
    cases hw
  constructor
  · intro htruth
    by_contra hfails
    rw [Bool.not_eq_true] at hfails
    obtain ⟨n, hflag, hwent⟩ := exists_flag_without_close
      (c := .withBuffered endian seed stream role limits buffered) hnothing hsent hnone rfl hfits
      hfails
    exact hwent ((htruth.flag n).mp hflag)
  · intro hfirst
    have hstart : Truthful stream.sent calls
        (.withBuffered endian seed stream role limits buffered) :=
      ⟨hnothing, ⟨[], hsent, iff_of_false Bool.false_ne_true hnone⟩, .inr hfirst⟩
    have hreached (n : Nat) := hstart.run hfits n
    have hclose {n : Nat} {frame : Option CloseFrame} (hn : calls[n]? = some (.close frame)) :
        calls.drop n = .close frame :: calls.drop (n + 1) ∧
          ∀ m ∈ (Call.close frame).handed, m.Fits := by
      obtain ⟨hlt, heq⟩ := List.getElem?_eq_some_iff.mp hn
      refine ⟨?_, heq ▸ hfits _ (List.getElem_mem hlt)⟩
      rw [List.drop_eq_getElem_cons hlt, heq]
    refine ⟨fun n => ?_, fun n frame hn _ => ?_, fun n frame hn hfailed => ?_⟩
    · obtain ⟨ws, hws, hflag⟩ := (hreached n).flag
      exact hflag.trans (closeWentOut_iff hws).symm
    · obtain ⟨hdrop, hfit⟩ := hclose hn
      have hnext := hreached n
      rw [hdrop] at hnext
      obtain ⟨ws, hws, hflag⟩ := (hnext.step hfit).flag
      refine (closeWentOut_iff hws).mpr (hflag.mp ?_)
      exact closeSent_close hnext.allOrNothing hfit
    · obtain ⟨hdrop, hfit⟩ := hclose hn
      have hnext := hreached n
      rw [hdrop] at hnext
      exact absurd (hnext.close_ok hfit) hfailed

/-- A close in front of which a text is lost, but which goes out itself. -/
theorem tellsTruth_iff_lostText :
    TellsTruth (.new .little 7 ⟨[], [], [some (⟨32⟩, 0), none]⟩ .client .default)
      [.write (.text [0x68]), .close none, .close none] :=
  (tellsTruth_iff .little 7 ⟨[], [], [some (⟨32⟩, 0), none]⟩ .client .default []
    (by simp [ByteStream.AllOrNothing]) _ (by decide)).mpr (by decide)

/-- A close whose write fails is not tried again: the second close succeeds without a close
frame on the wire. -/
theorem close_not_retried :
    let c := Connection.new .little 7 ⟨[], [], [some (⟨32⟩, 0)]⟩ .server .default
    c.stream.AllOrNothing ∧ (c.close none).1 = .error (.io ⟨32⟩) ∧
      ((c.close none).2.close none).1 = .ok () ∧
      ((c.close none).2.close none).2.stream.sent = c.stream.sent ∧
      ¬TellsTruth c [.close none, .close none] := by
  intro c
  have hnothing : c.stream.AllOrNothing := by simp [c, Connection.new, Connection.withBuffered,
    ByteStream.AllOrNothing]
  refine ⟨hnothing, rfl, rfl, rfl, fun htruth => ?_⟩
  have hsent : ((c.close none).2.close none).2.stream.sent =
      c.stream.sent ++ ([] : List WireFrame).flatMap WireFrame.bytes := rfl
  obtain ⟨w, hw, -⟩ := (closeWentOut_iff hsent).mp (htruth.closes 1 none rfl rfl)
  cases hw

end NagoWss
