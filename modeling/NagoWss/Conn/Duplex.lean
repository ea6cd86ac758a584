import Mathlib.Logic.Relation
import Mathlib.Logic.Function.Basic
import NagoWss.Conn.Acceptance
import NagoWss.Conn.Closing

/-!
# Two connections

A client and a server joined by two pipes that lose nothing and keep the order,
and that hand over what was sent in chunks of any size at any time. Whatever the
two ends are asked to do, in any order, each end delivers what the other was
asked to send, once and in order, up to the first close message.
-/

namespace NagoWss

open Framing Relation

/-! ## Reading from an open pipe -/

namespace Connection

/-- A chunk arrives, to be read later. -/
def deliver (c : Connection) (chunk : Bytes) : Connection :=
  { c with stream := { c.stream with incoming := c.stream.incoming ++ [.ok chunk] } }

/-- Read while the peer has not hung up. Where `read` would meet the end of the
file there is no result: the call waits in the state it has reached. -/
def readOpen (c : Connection) : Option (Except Error (Option Message)) × Connection :=
  (if c.read.1 = .ok none ∨ c.read.1 = .error .unexpectedEof then none else some c.read.1, c.read.2)

/-- What arrives is what the connection faces next. -/
theorem deliver_facing {c : Connection} {a : Assembler} {s : Bytes} (h : c.Facing a s)
    {chunk : Bytes} (hne : chunk ≠ []) : (c.deliver chunk).Facing a (s ++ chunk) := by
  obtain ⟨ha, chunks, hchunks, hin, hs⟩ := h
  refine ⟨ha, chunks ++ [chunk], ?_, ?_, ?_⟩
  · intro x hx
    rcases List.mem_append.mp hx with hx | hx
    · exact hchunks x hx
    · rw [List.mem_singleton.mp hx]
      exact hne
  · rw [deliver, hin, List.map_append, List.map_singleton]
  · rw [List.flatten_append, List.flatten_singleton, ← hs, List.append_assoc]
    rfl

/-- Reading touches the receiving side only. -/
theorem read_fixed {c : Connection} {a : Assembler} {s : Bytes} (h : c.Facing a s) :
    c.read.2.endian = c.endian ∧ c.read.2.role = c.role ∧ c.read.2.closeSent = c.closeSent ∧
      c.read.2.stream.sent = c.stream.sent ∧ c.read.2.stream.writes = c.stream.writes := by
  obtain ⟨-, chunks, hne, hin, -⟩ := h
  rw [read_eq_pull hne hin]
  exact ⟨rfl, rfl, rfl, rfl, rfl⟩

/-- Where draining gives nothing, the read waits. -/
theorem readOpen_none {c : Connection} {a a' : Assembler} {s s' : Bytes} (h : c.Facing a s)
    (hd : c.cutter.drain feed a s = (none, a', s')) :
    c.readOpen = (none, c.read.2) ∧ c.read.2.Facing a' s' := by
  obtain ⟨hread, hfacing, -⟩ := read_facing h
  simp only [hd, concluded] at hread hfacing
  refine ⟨?_, hfacing⟩
  rw [readOpen, hread]
  cases a'.closed <;> rfl

/-- A message that is drained is the result of the read. -/
theorem readOpen_message {c : Connection} {a a' : Assembler} {s s' : Bytes} {m : Message}
    (h : c.Facing a s) (hd : c.cutter.drain feed a s = (some (.ok (.ok m)), a', s')) :
    c.readOpen = (some (.ok (some m)), c.read.2) ∧ c.read.2.Facing a' s' := by
  obtain ⟨hread, hfacing, -⟩ := read_facing h
  simp only [hd, concluded, received] at hread hfacing
  refine ⟨?_, hfacing⟩
  rw [readOpen, hread]
  rfl

/-- Only where draining gives nothing does a read wait. -/
theorem drain_of_readOpen_none {c : Connection} {a : Assembler} {s : Bytes} (h : c.Facing a s)
    (hwait : c.readOpen.1 = none) : (c.cutter.drain feed a s).1 = none := by
  have hread := (read_facing h).1
  have hout := c.cutter.drain_outputs feed a s
  rcases hd : c.cutter.drain feed a s with ⟨_ | e | e | m, a', s'⟩
  · rfl
  · simp only [hd, concluded, received] at hread hout
    have hpeer := fault_fromPeer hout.2.1
    rw [readOpen, hread] at hwait
    cases e <;> first | exact hpeer.elim | cases hwait
  · simp only [hd, concluded, received] at hread hout
    have hmem : .error e ∈ (Cutter.outputs feed a (c.cutter.parse s).items).1 := by
      rw [hout.1]
      exact List.mem_cons_self
    obtain ⟨rule, rfl⟩ := outputs_error hmem
    rw [readOpen, hread] at hwait
    cases hwait
  · rw [(readOpen_message h hd).1] at hwait
    cases hwait

/-- A read that waits goes on where it was, and so does a read that is made after
the one that waited was dropped. -/
theorem readOpen_resume {c c' : Connection} {a : Assembler} {s : Bytes} (h : c.Facing a s)
    (hwait : c.readOpen = (none, c')) {chunk : Bytes} (hne : chunk ≠ []) :
    (c.deliver chunk).readOpen = (c'.deliver chunk).readOpen := by
  have hdrain := drain_of_readOpen_none h (congrArg Prod.fst hwait)
  obtain ⟨rfl, chunks, hchunks, hin, rfl⟩ := h
  have hpull := c.cutter.pull_eq_drain feed c.assembler c.readBuffer chunks
  rcases hp : c.cutter.pull feed c.assembler c.readBuffer chunks with ⟨r, a', buffer, rest⟩
  rw [hpull, hp] at hdrain
  obtain rfl : r = none := hdrain
  obtain ⟨rfl, hmore⟩ := c.cutter.pull_none_append feed hp [chunk]
  have hlimits := drain_limits c.cutter c.assembler (c.readBuffer ++ chunks.flatten)
  rw [hpull, hp] at hlimits
  have hcutter : frameCutter c.role a'.limits.maxFrame = c.cutter := by
    rw [cutter, ← hlimits]
  have hwaited : c' = { c with
      assembler := a', readBuffer := buffer, stream := { c.stream with incoming := [] } } := by
    have hread := congrArg Prod.snd (read_eq_pull hchunks hin)
    rw [hp] at hread
    exact (congrArg Prod.snd hwait).symm.trans hread
  have hone : ∀ x ∈ [chunk], x ≠ [] := fun x hx => by rwa [List.mem_singleton.mp hx]
  have hall : ∀ x ∈ chunks ++ [chunk], x ≠ [] := fun x hx =>
    (List.mem_append.mp hx).elim (hchunks x) (hone x)
  have hleft := @read_eq_pull (c.deliver chunk) (chunks ++ [chunk]) hall
    (by rw [deliver, hin, List.map_append, List.map_singleton])
  have hright := @read_eq_pull (c'.deliver chunk) [chunk] hone (by rw [hwaited]; rfl)
  have hread : (c.deliver chunk).read = (c'.deliver chunk).read := by
    rw [hleft, hright, hwaited]
    simp only [deliver, cutter, hcutter] at hmore ⊢
    rw [hmore]
  rw [readOpen, readOpen, hread]

end Connection

/-! ## The two ends -/

/-- One end: its connection, and what has happened to it. -/
structure Endpoint where
  /-- The connection. -/
  conn : Connection
  /-- The bytes that the pipe has handed over. -/
  arrived : Bytes
  /-- The messages it was asked to send. -/
  asked : List Message
  /-- The results of the reads that returned. -/
  results : List (Except Error (Option Message))

namespace Endpoint

/-- An end of its role that has sent and received nothing. -/
def fresh (endian : Endian) (seed : UInt64) (writes : List (Option (Errno × Nat))) (role : Role)
    (limits : Limits) : Endpoint where
  conn := .new endian seed ⟨[], [], writes⟩ role limits
  arrived := []
  asked := []
  results := []

/-- Make a sending call. A `close` behind a close message asks for nothing. -/
def call (e : Endpoint) (call : Call) : Endpoint where
  conn := (e.conn.call call).2
  arrived := e.arrived
  asked := e.asked ++ call.messages (e.asked.any Message.isClose)
  results := e.results

/-- The pipe hands over a chunk. -/
def deliver (e : Endpoint) (chunk : Bytes) : Endpoint where
  conn := e.conn.deliver chunk
  arrived := e.arrived ++ chunk
  asked := e.asked
  results := e.results

/-- Read, as far as what has arrived allows. -/
def read (e : Endpoint) : Endpoint where
  conn := e.conn.readOpen.2
  arrived := e.arrived
  asked := e.asked
  results := e.results ++ e.conn.readOpen.1.toList

/-- The messages that the reads delivered. -/
def delivered (e : Endpoint) : List Message :=
  e.results.filterMap fun
    | .ok message => message
    | .error _ => none

end Endpoint

/-- The messages up to and including the first close message. -/
def upToClose : List Message → List Message
  | [] => []
  | m :: ms => if m.isClose then [m] else m :: upToClose ms

/-- What the other end is to deliver: what this end was asked to send, with the
codes that may not be sent replaced, up to the first close message. -/
def Endpoint.expected (e : Endpoint) : List Message := upToClose (e.asked.map Message.normalised)

/-- The client and the server. -/
abbrev Duplex := Role → Endpoint

/-- A message that may be given to a sender whose peer has these limits. -/
structure Message.Suits (m : Message) (limits : Limits) : Prop where
  /-- The message is legal. -/
  legal : m.Legal
  /-- The payload of its frame fits in memory. -/
  fits : m.Fits
  /-- The payload is within the frame limit of the receiver. -/
  frame : (Connection.frameOf m).2.length ≤ limits.maxFrame.toNat
  /-- The payload is within the message limit of the receiver. -/
  message : (Connection.frameOf m).2.length ≤ limits.maxMessage

/-- One step of the two ends. -/
inductive Duplex.Step : Duplex → Duplex → Prop
  /-- An end makes a sending call with messages that suit its peer. -/
  | call (d : Duplex) (r : Role) (call : Call)
      (hsuits : ∀ m ∈ call.handed, m.Suits (d r.opposite).conn.assembler.limits) :
      Step d (Function.update d r ((d r).call call))
  /-- The pipe hands over a non-empty chunk of what the other end has sent. -/
  | deliver (d : Duplex) (r : Role) (chunk : Bytes) (hne : chunk ≠ [])
      (hsent : (d r).arrived ++ chunk <+: (d r.opposite).conn.stream.sent) :
      Step d (Function.update d r ((d r).deliver chunk))
  /-- An end reads. -/
  | read (d : Duplex) (r : Role) : Step d (Function.update d r (d r).read)

/-- Both ends are fresh, and their writes succeed. -/
def Duplex.Initial (d : Duplex) : Prop :=
  ∀ r, ∃ endian seed writes limits, (∀ outcome ∈ writes, outcome = none) ∧
    d r = .fresh endian seed writes r limits

/-! ## What an end has sent -/

@[simp] theorem Message.isClose_normalised (m : Message) : m.normalised.isClose = m.isClose := by
  cases m <;> rfl

/-- The frame that carries a message, with the mask taken off. -/
def Message.frame (m : Message) : Frame := ⟨(Connection.frameOf m).1, true, (Connection.frameOf m).2⟩

/-- Fed the frames of legal messages, an assembler delivers the messages up to and
including the first close message. -/
theorem outputs_messages {a : Assembler} (hopen : a.closed = false) (hnone : a.partialMessage = none)
    {ms : List Message} (hms : ∀ m ∈ ms, m.Suits a.limits) :
    (Cutter.outputs feed a (ms.map Message.frame)).1 =
      (upToClose (ms.map Message.normalised)).map .ok := by
  induction ms generalizing a with
  | nil => rfl
  | cons m ms ih =>
    have hm := hms m List.mem_cons_self
    have haccept := m.accept_frameOf hopen hnone hm.message
    rw [(m.legal_iff.mp hm.legal).2, if_pos rfl] at haccept
    have hfeed : feed a m.frame = ({ a with closed := m.isClose }, some (.ok m.normalised)) := by
      rw [feed, Message.frame, haccept]
      rfl
    simp only [List.map_cons, Cutter.outputs, hfeed, Option.toList_some, List.singleton_append,
      upToClose, Message.isClose_normalised]
    cases hclose : m.isClose with
    | true =>
      rw [outputs_closed rfl]
      rfl
    | false =>
      have ha : { a with closed := false } = a := by rw [← hopen]
      rw [ha, ih hopen hnone fun x hx => hms x (List.mem_cons_of_mem m hx)]
      rfl

/-- The frames of messages that suit the peer are admissible to it. -/
theorem Carries.forall_admissible {role : Role} {limits : Limits} {ms : List Message}
    {ws : List WireFrame} (h : List.Forall₂ (Carries role) ms ws)
    (hsuits : ∀ m ∈ ms, m.Suits limits) :
    (∀ w ∈ ws, w.header.Valid ∧ w.payload.length ≤ limits.maxFrame.toNat ∧
      w.mask.isSome = (role.opposite = .server)) ∧
      ws.map WireFrame.frame = ms.map Message.frame := by
  induction h with
  | nil => exact ⟨List.forall_mem_nil _, rfl⟩
  | @cons m w ms ws hcarries _ ih =>
    obtain ⟨hm, hrest⟩ := List.forall_mem_cons.mp hsuits
    obtain ⟨hadmissible, hframes⟩ := ih hrest
    refine ⟨List.forall_mem_cons.mpr ⟨⟨?_, ?_, hcarries.mask_opposite⟩, hadmissible⟩, ?_⟩
    · exact hcarries.valid_iff.mpr (m.legal_iff.mp hm.legal).1
    · rw [hcarries.length_eq]
      exact hm.frame
    · rw [List.map_cons, List.map_cons, hframes, hcarries.frame_eq]
      rfl

/-- An end whose wire holds the frames of what it was asked to send. -/
structure Endpoint.Sending (e : Endpoint) (role : Role) (limits : Limits) : Prop where
  /-- The role of the end. -/
  role_eq : e.conn.role = role
  /-- Its writes will succeed. -/
  reliable : e.conn.stream.Reliable
  /-- It knows whether it was asked to close. -/
  closeSent : e.conn.closeSent = e.asked.any Message.isClose
  /-- The messages suit the peer. -/
  suits : ∀ m ∈ e.asked, m.Suits limits
  /-- There is a frame for each message. -/
  frames : ∃ ws : List WireFrame, List.Forall₂ (Carries role) e.asked ws ∧
    e.conn.stream.sent = ws.flatMap WireFrame.bytes

namespace Endpoint.Sending

variable {e : Endpoint} {role : Role} {limits : Limits}

/-- A sending call adds the frames of its messages. -/
theorem call (h : e.Sending role limits) {call : Call}
    (hsuits : ∀ m ∈ call.handed, m.Suits limits) :
    (e.call call).Sending role limits ∧ e.conn.KeepsReceiving (e.call call).conn ∧
      e.conn.stream.sent <+: (e.call call).conn.stream.sent := by
  have hasked : ∀ m ∈ call.messages e.conn.closeSent, m.Suits limits := fun m hm =>
    hsuits m (call.messages_subset _ hm)
  obtain ⟨hok, hreliable⟩ := Connection.call_ok h.reliable fun m hm => (hasked m hm).fits
  obtain ⟨hkeeps, hclose, vs, hvs, hsent⟩ :=
    Connection.call_sends (fun m hm => (hasked m hm).fits) (Prod.ext hok rfl)
  obtain ⟨ws, hws, hwire⟩ := h.frames
  rw [h.role_eq] at hvs
  rw [h.closeSent] at hasked hvs hclose
  refine ⟨⟨hkeeps.role.trans h.role_eq, hreliable, ?_, ?_, ws ++ vs, ?_, ?_⟩, hkeeps, ?_⟩
  · change _ = (e.asked ++ _).any _
    rw [List.any_append]
    exact hclose
  · intro m hm
    exact (List.mem_append.mp hm).elim (h.suits m) (hasked m)
  · exact List.rel_append hws hvs
  · rw [List.flatMap_append, ← hwire]
    exact hsent
  · exact ⟨_, hsent.symm⟩

/-- The peer cuts the frames of the messages from what was sent. -/
theorem parse (h : e.Sending role limits) :
    ((frameCutter role.opposite limits.maxFrame).parse e.conn.stream.sent).items =
        e.asked.map Message.frame ∧
      ((frameCutter role.opposite limits.maxFrame).parse e.conn.stream.sent).fault = none := by
  obtain ⟨ws, hws, hwire⟩ := h.frames
  have hadmissible := Carries.forall_admissible hws h.suits
  have hparse := WireFrame.parse_bytes hadmissible.1 []
  rw [List.append_nil, ← hwire, WireFrame.parse_nil, List.append_nil, hadmissible.2] at hparse
  exact hparse

/-- The outputs of what was sent are the messages the peer is to deliver. -/
theorem outputs_eq (h : e.Sending role limits) :
    (Cutter.outputs feed (.new limits)
      ((frameCutter role.opposite limits.maxFrame).parse e.conn.stream.sent).items).1 =
        e.expected.map .ok := by
  rw [h.parse.1, outputs_messages rfl rfl h.suits]
  rfl

end Endpoint.Sending

/-! ## What an end has received -/

/-- An end that accounts for everything that arrived. -/
structure Endpoint.Receiving (e : Endpoint) (role : Role) (limits : Limits) : Prop where
  /-- The role of the end. -/
  role_eq : e.conn.role = role
  /-- The limits of the end. -/
  limits_eq : e.conn.assembler.limits = limits
  /-- Every read that returned gave a message. -/
  results_eq : e.results = e.delivered.map fun m => .ok (some m)
  /-- What was delivered and what is ahead are what arrived. -/
  tracks : ∃ s, e.conn.Facing e.conn.assembler s ∧
    (frameCutter role limits.maxFrame).Tracks feed (.new limits) e.arrived (e.delivered.map .ok)
      e.conn.assembler s

namespace Endpoint

/-- A read that gave a message has delivered it. -/
theorem delivered_read {e : Endpoint} {m : Message}
    (h : e.conn.readOpen.1 = some (.ok (some m))) : e.read.delivered = e.delivered ++ [m] := by
  rw [delivered, read, h, Option.toList_some, List.filterMap_append]
  rfl

namespace Receiving

variable {e : Endpoint} {role : Role} {limits : Limits}

theorem cutter_eq (h : e.Receiving role limits) :
    e.conn.cutter = frameCutter role limits.maxFrame := by
  rw [Connection.cutter, h.role_eq, h.limits_eq]

/-- Sending leaves alone what is received. -/
theorem call (h : e.Receiving role limits) (call : Call)
    (hkeeps : e.conn.KeepsReceiving (e.call call).conn) : (e.call call).Receiving role limits := by
  obtain ⟨s, ⟨-, chunks, hne, hin, hs⟩, htracks⟩ := h.tracks
  refine ⟨hkeeps.role.trans h.role_eq, ?_, h.results_eq, s, ⟨rfl, chunks, hne, ?_, ?_⟩, ?_⟩
  · rw [hkeeps.assembler, h.limits_eq]
  · rw [hkeeps.incoming, hin]
  · rw [hkeeps.readBuffer, hs]
  · rw [hkeeps.assembler]
    exact htracks

/-- A chunk that arrives is ahead of the end. -/
theorem deliver (h : e.Receiving role limits) {chunk : Bytes} (hne : chunk ≠ []) :
    (e.deliver chunk).Receiving role limits := by
  obtain ⟨s, hfacing, htracks⟩ := h.tracks
  exact ⟨h.role_eq, h.limits_eq, h.results_eq, s ++ chunk, Connection.deliver_facing hfacing hne,
    htracks.arrive chunk⟩

/-- A read delivers the next message, or it waits. -/
theorem read (h : e.Receiving role limits) {sent : Bytes} {expected : List Message}
    (hsent : e.arrived <+: sent) (hfault : ((frameCutter role limits.maxFrame).parse sent).fault = none)
    (houtputs : (Cutter.outputs feed (.new limits)
      ((frameCutter role limits.maxFrame).parse sent).items).1 = expected.map .ok) :
    e.read.Receiving role limits := by
  obtain ⟨s, hfacing, htracks⟩ := h.tracks
  obtain ⟨q, rfl⟩ := hsent
  have hrole : e.read.conn.role = role := (Connection.read_fixed hfacing).2.1.trans h.role_eq
  have hlimits : e.read.conn.assembler.limits = limits := by
    have hdrained := Connection.drain_limits e.conn.cutter e.conn.assembler s
    rw [← (Connection.read_facing hfacing).2.1.1] at hdrained
    exact hdrained.trans h.limits_eq
  rcases hd : e.conn.cutter.drain feed e.conn.assembler s with ⟨_ | error | error | m, a', s'⟩
  · obtain ⟨hopen, hfacing'⟩ := Connection.readOpen_none hfacing hd
    have hread : e.read = { e with conn := e.conn.read.2 } := by
      rw [Endpoint.read, hopen, Option.toList_none, List.append_nil]
    rw [h.cutter_eq] at hd
    rw [hread] at hrole hlimits ⊢
    refine ⟨hrole, hlimits, h.results_eq, s', ⟨rfl, hfacing'.2⟩, ?_⟩
    rw [hfacing'.1]
    exact htracks.wait hd
  · rw [h.cutter_eq] at hd
    rw [htracks.refused hd q] at hfault
    cases hfault
  · rw [h.cutter_eq] at hd
    have hfront := (htracks.result hd).outs_isPrefix q
    rw [houtputs] at hfront
    have hmem := hfront.subset (List.mem_append_right _ (List.mem_singleton_self _))
    obtain ⟨m, -, hm⟩ := List.mem_map.mp hmem
    cases hm
  · obtain ⟨hopen, hfacing'⟩ := Connection.readOpen_message hfacing hd
    have hresult := congrArg Prod.fst hopen
    have hdelivered := Endpoint.delivered_read hresult
    rw [h.cutter_eq] at hd
    refine ⟨hrole, hlimits, ?_, s', ⟨rfl, hfacing'.2⟩, ?_⟩
    · rw [hdelivered, List.map_append, ← h.results_eq, Endpoint.read, hresult]
      rfl
    · rw [hdelivered, List.map_append]
      have htracks' := htracks.result hd
      rw [← hfacing'.1] at htracks'
      exact htracks'

end Receiving

/-- A read leaves alone what was sent. -/
theorem Sending.read {e : Endpoint} {role : Role} {limits limits' : Limits}
    (h : e.Sending role limits) (hreceiving : e.Receiving role limits') :
    e.read.Sending role limits ∧ e.read.conn.stream.sent = e.conn.stream.sent := by
  obtain ⟨s, hfacing, -⟩ := hreceiving.tracks
  obtain ⟨-, hrole, hclose, hsent, hwrites⟩ := Connection.read_fixed hfacing
  refine ⟨⟨hrole.trans h.role_eq, ?_, hclose.trans h.closeSent, h.suits, ?_⟩, hsent⟩
  · have hreliable := h.reliable
    rw [ByteStream.Reliable, ← hwrites] at hreliable
    exact hreliable
  · obtain ⟨ws, hws, hwire⟩ := h.frames
    exact ⟨ws, hws, hsent.trans hwire⟩

end Endpoint

/-! ## Every run -/

theorem Role.opposite_ne (r : Role) : r.opposite ≠ r := by
  cases r <;> decide

@[simp] theorem Role.opposite_opposite (r : Role) : r.opposite.opposite = r := by
  cases r <;> rfl

namespace Duplex

/-- What holds between the two ends at any moment. -/
structure Invariant (limits : Role → Limits) (d : Duplex) : Prop where
  /-- Each end has sent what it was asked to. -/
  sending : ∀ r, (d r).Sending r (limits r.opposite)
  /-- Each end accounts for what has arrived. -/
  receiving : ∀ r, (d r).Receiving r (limits r)
  /-- What has arrived is the front of what was sent. -/
  arrived : ∀ r, (d r).arrived <+: (d r.opposite).conn.stream.sent

variable {limits : Role → Limits} {d d' : Duplex}

/-- Fresh ends satisfy the invariant. -/
theorem Initial.invariant (h : d.Initial) : ∃ limits, Invariant limits d := by
  choose endian seed writes limits hwrites hd using h
  refine ⟨limits, fun r => ?_, fun r => ?_, fun r => ?_⟩
  · rw [hd r]
    exact ⟨rfl, hwrites r, rfl, List.forall_mem_nil _, [], .nil, rfl⟩
  · rw [hd r]
    exact ⟨rfl, rfl, rfl, [], ⟨rfl, [], by simp, rfl, rfl⟩, Cutter.tracks_nil _ _ _⟩
  · rw [hd r]
    exact List.nil_prefix

/-- Changing one end keeps the invariant when that end is in order and has taken
nothing back. -/
theorem Invariant.update (h : Invariant limits d) {r : Role} {e : Endpoint}
    (hsending : e.Sending r (limits r.opposite)) (hreceiving : e.Receiving r (limits r))
    (harrived : e.arrived <+: (d r.opposite).conn.stream.sent)
    (hsent : (d r).conn.stream.sent <+: e.conn.stream.sent) :
    Invariant limits (Function.update d r e) := by
  have hother {r' : Role} (hr : r' ≠ r) : r' = r.opposite := by
    revert hr
    cases r <;> cases r' <;> decide
  refine ⟨fun r' => ?_, fun r' => ?_, fun r' => ?_⟩
  · by_cases hr : r' = r
    · rw [hr, Function.update_self]
      exact hsending
    · rw [Function.update_of_ne hr]
      exact h.sending r'
  · by_cases hr : r' = r
    · rw [hr, Function.update_self]
      exact hreceiving
    · rw [Function.update_of_ne hr]
      exact h.receiving r'
  · by_cases hr : r' = r
    · rw [hr, Function.update_self, Function.update_of_ne r.opposite_ne]
      exact harrived
    · have hold := h.arrived r'
      rw [hother hr, Role.opposite_opposite] at hold ⊢
      rw [Function.update_self, Function.update_of_ne r.opposite_ne]
      exact hold.trans hsent

/-- Every step keeps the invariant. -/
theorem Invariant.step (h : Invariant limits d) (hstep : Step d d') : Invariant limits d' := by
  cases hstep with
  | call r call hsuits =>
    rw [(h.receiving r.opposite).limits_eq] at hsuits
    obtain ⟨hsending, hkeeps, hsent⟩ := (h.sending r).call hsuits
    exact h.update hsending ((h.receiving r).call call hkeeps) (h.arrived r) hsent
  | deliver r chunk hne hsent =>
    have hs := h.sending r
    exact h.update ⟨hs.role_eq, hs.reliable, hs.closeSent, hs.suits, hs.frames⟩
      ((h.receiving r).deliver hne) hsent (List.prefix_refl _)
  | read r =>
    have hpeer := h.sending r.opposite
    have hparse := hpeer.parse
    have houtputs := hpeer.outputs_eq
    rw [Role.opposite_opposite] at hparse houtputs
    obtain ⟨hsending, hsent⟩ := (h.sending r).read (h.receiving r)
    refine h.update hsending ((h.receiving r).read (h.arrived r) hparse.2 houtputs) (h.arrived r) ?_
    rw [hsent]

/-- Every run keeps the invariant. -/
theorem Invariant.run (h : Invariant limits d) (hrun : ReflTransGen Step d d') :
    Invariant limits d' := by
  induction hrun with
  | refl => exact h
  | tail _ hstep ih => exact ih.step hstep

/-- Everything the other end has sent has arrived and been read: a read would wait. -/
def CaughtUp (d : Duplex) (r : Role) : Prop :=
  (d r).arrived = (d r.opposite).conn.stream.sent ∧ (d r).conn.readOpen.1 = none

/-- The outputs of two message sequences are told apart. -/
theorem map_ok_injective : Function.Injective
    (List.map (.ok : Message → Except Error Message)) :=
  List.map_injective_iff.mpr fun _ _ => Except.ok.inj

/-- An end that has caught up has delivered everything. -/
theorem Invariant.delivered_eq (h : Invariant limits d) {r : Role} (hcaught : d.CaughtUp r) :
    (d r).delivered = (d r.opposite).expected := by
  obtain ⟨s, hfacing, htracks⟩ := (h.receiving r).tracks
  have hnone := Connection.drain_of_readOpen_none hfacing hcaught.2
  have houtputs := (h.sending r.opposite).outputs_eq
  rw [(h.receiving r).cutter_eq] at hnone
  rw [Role.opposite_opposite, ← hcaught.1,
    ← htracks.outs_complete (Prod.ext hnone rfl)] at houtputs
  exact map_ok_injective houtputs

/-- An end delivers nothing but a first part of what the other was asked to send. -/
theorem Invariant.delivered_isPrefix (h : Invariant limits d) (r : Role) :
    (d r).delivered <+: (d r.opposite).expected := by
  obtain ⟨s, -, htracks⟩ := (h.receiving r).tracks
  obtain ⟨q, hq⟩ := h.arrived r
  have hfront := htracks.outs_isPrefix q
  have houtputs := (h.sending r.opposite).outputs_eq
  rw [Role.opposite_opposite] at houtputs
  rw [hq, houtputs] at hfront
  obtain ⟨ms, hms, heq⟩ := List.prefix_map_iff.mp hfront
  rwa [map_ok_injective heq]

/-- A read that does not wait delivers one more message. -/
theorem Invariant.length_delivered_read (h : Invariant limits d) {r : Role}
    (hreads : (d r).conn.readOpen.1 ≠ none) :
    (d r).read.delivered.length = (d r).delivered.length + 1 := by
  obtain ⟨result, hresult⟩ := Option.ne_none_iff_exists'.mp hreads
  have hread := h.step (.read d r)
  have hresults := (hread.receiving r).results_eq
  rw [Function.update_self] at hresults
  have hmem : result ∈ (d r).read.results := by
    rw [Endpoint.read, hresult, Option.toList_some]
    exact List.mem_append_right _ (List.mem_singleton_self _)
  rw [hresults] at hmem
  obtain ⟨m, -, rfl⟩ := List.mem_map.mp hmem
  rw [Endpoint.delivered_read hresult, List.length_append, List.length_singleton]

/-- With everything arrived, an end catches up by reading. -/
theorem Invariant.catches_up_arrived (h : Invariant limits d) {r : Role}
    (harrived : (d r).arrived = (d r.opposite).conn.stream.sent) :
    ∃ d', ReflTransGen Step d d' ∧ d'.CaughtUp r ∧ d' r.opposite = d r.opposite := by
  -- Every read that returns uses up one of the expected messages.
  induction hleft : (d r.opposite).expected.length - (d r).delivered.length generalizing d with
  | zero =>
    by_cases hwaits : (d r).conn.readOpen.1 = none
    · exact ⟨d, .refl, ⟨harrived, hwaits⟩, rfl⟩
    · have hlonger := h.length_delivered_read hwaits
      have hfront := ((h.step (.read d r)).delivered_isPrefix r).length_le
      rw [Function.update_self, Function.update_of_ne r.opposite_ne, hlonger] at hfront
      omega
  | succ n ih =>
    by_cases hwaits : (d r).conn.readOpen.1 = none
    · exact ⟨d, .refl, ⟨harrived, hwaits⟩, rfl⟩
    · have hlonger := h.length_delivered_read hwaits
      have hself : Function.update d r (d r).read r = (d r).read := Function.update_self ..
      have hother : Function.update d r (d r).read r.opposite = d r.opposite :=
        Function.update_of_ne r.opposite_ne ..
      obtain ⟨d', hrun, hcaught, hpeer⟩ := ih (h.step (.read d r))
        (by rw [hself, hother]; exact harrived) (by rw [hself, hother, hlonger]; omega)
      exact ⟨d', hrun.head (.read d r), hcaught, hpeer.trans hother⟩

/-- From every reachable state an end can catch up, whatever the other end does not
do: the pipe hands over the rest, and the end reads. -/
theorem catches_up {d₀ d : Duplex} (h₀ : d₀.Initial) (hrun : ReflTransGen Step d₀ d) (r : Role) :
    ∃ d', ReflTransGen Step d d' ∧ d'.CaughtUp r ∧ d' r.opposite = d r.opposite := by
  obtain ⟨limits, hinitial⟩ := h₀.invariant
  have h := hinitial.run hrun
  obtain ⟨chunk, hchunk⟩ := h.arrived r
  by_cases hne : chunk = []
  · rw [hne, List.append_nil] at hchunk
    exact h.catches_up_arrived hchunk
  · have hstep : Step d (Function.update d r ((d r).deliver chunk)) :=
      .deliver d r chunk hne (by rw [hchunk])
    have hself : Function.update d r ((d r).deliver chunk) r = (d r).deliver chunk :=
      Function.update_self ..
    have hother : Function.update d r ((d r).deliver chunk) r.opposite = d r.opposite :=
      Function.update_of_ne r.opposite_ne ..
    obtain ⟨d', hrest, hcaught, hpeer⟩ := (h.step hstep).catches_up_arrived
      (show _ = _ by rw [hself, hother]; exact hchunk)
    exact ⟨d', hrest.head hstep, hcaught, hpeer.trans hother⟩

/-- In every reachable state an end has delivered a first part of what the other
was asked to send, and all of it once everything has arrived and been read; and no
read has returned anything but a message. -/
theorem delivers {d₀ d : Duplex} (h₀ : d₀.Initial) (hrun : ReflTransGen Step d₀ d) (r : Role) :
    (d r).delivered <+: (d r.opposite).expected ∧
      (d.CaughtUp r → (d r).delivered = (d r.opposite).expected) ∧
      ∀ result ∈ (d r).results, ∃ m, result = .ok (some m) := by
  obtain ⟨limits, hinitial⟩ := h₀.invariant
  have h := hinitial.run hrun
  refine ⟨h.delivered_isPrefix r, h.delivered_eq, ?_⟩
  intro result hresult
  rw [(h.receiving r).results_eq] at hresult
  obtain ⟨m, -, hm⟩ := List.mem_map.mp hresult
  exact ⟨m, hm.symm⟩

/-- A batch of a text and a close message with a code that may not be sent, handed
over in two chunks and read in two calls. -/
theorem delivers_batch :
    let d₀ : Duplex := fun r => .fresh .little 7 [] r .default
    let d₁ := Function.update d₀ .server
      ((d₀ .server).call (.writeAll [.text [0x68], .close (some ⟨⟨1006⟩, []⟩)]))
    let d₂ := Function.update d₁ .client ((d₁ .client).deliver [0x81])
    let d₃ := Function.update d₂ .client ((d₂ .client).deliver [1, 0x68, 0x88, 2, 3, 243])
    let d₄ := Function.update d₃ .client (d₃ .client).read
    let d₅ := Function.update d₄ .client (d₄ .client).read
    (d₅ .client).delivered = (d₅ .server).expected := by
  intro d₀ d₁ d₂ d₃ d₄ d₅
  have h₀ : d₀.Initial := fun r => ⟨.little, 7, [], .default, List.forall_mem_nil _, rfl⟩
  have hsuits : ∀ m ∈ [Message.text [0x68], .close (some ⟨⟨1006⟩, []⟩)], m.Suits .default :=
    List.forall_mem_cons.mpr ⟨⟨⟨['h'], rfl⟩, by decide, by decide, by decide⟩,
      List.forall_mem_singleton.mpr ⟨⟨by decide, [], rfl⟩, by decide, by decide, by decide⟩⟩
  have h₁ : Step d₀ d₁ := .call d₀ .server _ hsuits
  have h₂ : Step d₁ d₂ := .deliver d₁ .client [0x81] (by decide) (by decide +kernel)
  have h₃ : Step d₂ d₃ := .deliver d₂ .client _ (by decide) (by decide +kernel)
  have h₄ : Step d₃ d₄ := .read d₃ .client
  have h₅ : Step d₄ d₅ := .read d₄ .client
  refine (delivers h₀ (((((ReflTransGen.single h₁).tail h₂).tail h₃).tail h₄).tail h₅) .client).2.1
    ⟨by decide +kernel, by decide +kernel⟩

end Duplex

end NagoWss
