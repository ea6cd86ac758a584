import NagoWss.Conn.Relaying

/-!
# A write that fails

A write may fail with some of its bytes on the wire. Up to the first call that fails, the
wire is a first part of the frames of what was asked, so a peer reads some of the messages,
each of them whole, all of those of the calls that succeeded, and then the end of the file.
-/

namespace NagoWss

open Framing

/-! ## What a call has put on the wire -/

/-- Of the bytes of a write a first part goes out, and all of them if it succeeds. -/
theorem ByteStream.writeAll_isPrefix (s : ByteStream) (bytes : Bytes) :
    ∃ cut, cut <+: bytes ∧ (s.writeAll bytes).2.sent = s.sent ++ cut ∧
      ((s.writeAll bytes).1 = .ok () → cut = bytes) := by
  rw [writeAll]
  split
  · exact ⟨bytes, List.prefix_refl _, rfl, fun _ => rfl⟩
  · exact ⟨bytes, List.prefix_refl _, rfl, fun _ => rfl⟩
  · next e n rest _ => exact ⟨bytes.take n, List.take_prefix _ _, rfl, fun h => by cases h⟩

namespace Connection

/-- A first part of the frames of these messages has gone out, all of it if the call
succeeded. -/
def PutsPart (c : Connection) (r : Except Error Unit × Connection) (ms : List Message) : Prop :=
  ∃ (ws : List WireFrame) (cut : Bytes), List.Forall₂ (Carries c.role) ms ws ∧
    cut <+: ws.flatMap WireFrame.bytes ∧ r.2.stream.sent = c.stream.sent ++ cut ∧
    (r.1 = .ok () → cut = ws.flatMap WireFrame.bytes)

/-- Frames that are written at once. -/
theorem PutsPart.of_written {c : Connection} {r : Except Error Unit × Connection}
    {ms : List Message} {ws : List WireFrame} (hws : List.Forall₂ (Carries c.role) ms ws)
    (hresult : r.1 = (c.stream.writeAll (ws.flatMap WireFrame.bytes)).1.mapError .io)
    (hstream : r.2.stream = (c.stream.writeAll (ws.flatMap WireFrame.bytes)).2) :
    c.PutsPart r ms := by
  obtain ⟨cut, hcut, hsent, hall⟩ := c.stream.writeAll_isPrefix (ws.flatMap WireFrame.bytes)
  refine ⟨ws, cut, hws, hcut, by rw [hstream, hsent], fun hok => hall ?_⟩
  rw [hok] at hresult
  rcases hwrite : (c.stream.writeAll (ws.flatMap WireFrame.bytes)).1 with e | u
  · rw [hwrite] at hresult
    cases hresult
  · rfl

/-- One message. -/
theorem write_putsPart (c : Connection) {m : Message} (hfits : m.Fits) :
    c.PutsPart (c.write m) [m] := by
  obtain ⟨hresult, hstream, -⟩ := (c.noteClose m).writeFrame_eq m hfits
  have hcarries := (c.noteClose m).carries_wireFrame m hfits
  have hsame : (c.noteClose m).role = c.role ∧ (c.noteClose m).stream = c.stream := by
    rw [c.noteClose_eq m]
    exact ⟨rfl, rfl⟩
  rw [hsame.1] at hcarries
  rw [hsame.2] at hresult hstream
  refine .of_written (.cons hcarries .nil) ?_ ?_
  · rw [List.flatMap_singleton]
    exact hresult
  · rw [List.flatMap_singleton]
    exact hstream

/-- A batch. -/
theorem writeAll_putsPart (c : Connection) {messages : List Message}
    (hfits : ∀ m ∈ messages, m.Fits) : c.PutsPart (c.writeAll messages) messages := by
  obtain ⟨ws, state, hws, heq⟩ := c.encodeAll_eq [] messages hfits
  rw [List.nil_append] at heq
  rw [writeAll, heq]
  by_cases hempty : (ws.flatMap WireFrame.bytes).isEmpty = true
  · simp only [hempty]
    refine ⟨ws, [], hws, List.nil_prefix, (List.append_nil _).symm, fun _ => ?_⟩
    exact (List.isEmpty_iff.mp hempty).symm
  · simp only [hempty]
    exact .of_written hws rfl rfl

/-- Every call that sends. -/
theorem call_putsPart (c : Connection) {call : Call}
    (hfits : ∀ m ∈ call.messages c.closeSent, m.Fits) :
    c.PutsPart (c.call call) (call.messages c.closeSent) := by
  cases call with
  | write m => exact c.write_putsPart (hfits m List.mem_cons_self)
  | writeAll messages => exact c.writeAll_putsPart hfits
  | pong payload => exact c.write_putsPart (hfits (.pong payload) List.mem_cons_self)
  | close frame =>
    simp only [call, close, Call.messages] at hfits ⊢
    split
    · exact ⟨[], [], .nil, List.prefix_refl _, (List.append_nil _).symm, fun _ => rfl⟩
    · next hopen =>
      rw [if_neg hopen] at hfits
      exact c.write_putsPart (hfits _ List.mem_cons_self)

/-- Every one of these calls succeeds. -/
def AllSucceed (c : Connection) : List Call → Prop
  | [] => True
  | call :: calls => (c.call call).1 = .ok () ∧ AllSucceed (c.call call).2 calls

/-- Calls that succeed have put the frames of their messages on the wire. -/
theorem AllSucceed.sends {c : Connection} {calls : List Call} (h : c.AllSucceed calls)
    (hfits : ∀ call ∈ calls, ∀ m ∈ call.handed, m.Fits) :
    c.Sends (c.callAll calls) (Call.sentBy c.closeSent calls) := by
  induction calls generalizing c with
  | nil => exact ⟨.refl c, (Bool.or_false _).symm, [], .nil, by simp [callAll]⟩
  | cons call calls ih =>
    obtain ⟨hcall, hrest⟩ := List.forall_mem_cons.mp hfits
    have hsends := call_sends (fun m hm => hcall m (call.messages_subset _ hm)) (Prod.ext h.1 rfl)
    have hrun := ih h.2 hrest
    rw [hsends.closeSent] at hrun
    exact hsends.trans hrun

end Connection

/-! ## What the peer reads -/

/-- A peer that reads the frames of some messages and a first part of the frames of others
reads the messages and a first part of the others, and then the end of the file. -/
theorem exists_reads_of_isPrefix {role : Role} {limits : Limits} {ms ms' : List Message}
    {ws ws' : List WireFrame} (h : List.Forall₂ (Carries role) ms ws)
    (h' : List.Forall₂ (Carries role) ms' ws') (hsuits : ∀ m ∈ ms ++ ms', m.Suits limits)
    {cut : Bytes} (hcut : cut <+: ws'.flatMap WireFrame.bytes) :
    ∃ n, (cut = ws'.flatMap WireFrame.bytes → ms'.take n = ms') ∧
      ∀ i, reference role.opposite limits (ws.flatMap WireFrame.bytes ++ cut) i =
        readAs (ms ++ ms'.take n) i := by
  have hsuits' : ∀ m ∈ ms', m.Suits limits := fun m hm => hsuits m (List.mem_append_right _ hm)
  have hadmissible := (Carries.forall_admissible h' hsuits').1
  obtain ⟨vs, rest, q, rfl, rfl, hq⟩ := Cutter.exists_pieces_of_isPrefix hcut
  have hitem {w : WireFrame} (hw : w ∈ vs ++ rest) (behind : Bytes) :
      (frameCutter role.opposite limits.maxFrame).cut (w.bytes ++ behind) =
        .item w.frame w.bytes.length := by
    obtain ⟨hvalid, hmax, hmask⟩ := hadmissible w hw
    exact WireFrame.frameCut_bytes hvalid hmax hmask behind
  have hmore : (frameCutter role.opposite limits.maxFrame).cut q = .more := by
    rcases hq with rfl | ⟨w, hw, hprefix, hlt⟩
    · rfl
    · have hfull := hitem hw []
      rw [List.append_nil] at hfull
      exact Cutter.cut_more_of_isPrefix _ hfull hprefix hlt
  have hpart := List.forall₂_take_append ms' vs rest h'
  refine ⟨vs.length, fun hall => ?_, fun i => ?_⟩
  · -- With all bytes there, no frame is missing.
    rw [List.flatMap_append, List.append_right_inj] at hall
    cases rest with
    | nil =>
      rw [List.take_of_length_le]
      rw [h'.length_eq, List.append_nil]
    | cons w rest =>
      rw [hall, List.flatMap_cons, hitem (List.mem_append_right _ List.mem_cons_self)] at hmore
      cases hmore
  · rw [← List.append_assoc, ← List.flatMap_append]
    refine reference_carried (List.rel_append h hpart) (fun m hm => hsuits m ?_) hmore i
    rcases List.mem_append.mp hm with hm | hm
    · exact List.mem_append_left _ hm
    · exact List.mem_append_right _ (List.mem_of_mem_take hm)

/-- A connection loses nothing but the end of what it was sending. Whatever writes fail, and
however much of them goes out: behind calls with legal messages that succeeded, when one
more such call has been made and the peer then reads what is on the wire, in whatever pieces
it arrives, it reads, up to and including the first close message, all messages of the calls
that succeeded and a first part of those of the last call, every one of them whole, and then
the end of the file; and all of them if that call succeeded. -/
theorem failed_call_loses_end (endian : Endian) (seed : UInt64) (stream : ByteStream) (role : Role)
    (limits : Limits) (buffered : Bytes) (calls : List Call) (call : Call) (limits' : Limits)
    (hsuits : ∀ x ∈ calls ++ [call], ∀ m ∈ x.handed, m.Suits limits')
    (hsucceed : (Connection.withBuffered endian seed stream role limits buffered).AllSucceed calls) :
    let c := (Connection.withBuffered endian seed stream role limits buffered).callAll calls
    let asked := Call.sentBy false calls
    let last := call.messages (asked.any Message.isClose)
    ∃ n, ((c.call call).1 = .ok () → last.take n = last) ∧
      ∃ wire, (c.call call).2.stream.sent = stream.sent ++ wire ∧
        ∀ (endian' : Endian) (seed' : UInt64) (buffered' sent' : Bytes)
          (writes' : List (Option (Errno × Nat))) (chunks' : List Bytes),
          (∀ chunk ∈ chunks', chunk ≠ []) → buffered' ++ chunks'.flatten = wire →
          ∀ i, (Connection.withBuffered endian' seed' ⟨chunks'.map .ok, sent', writes'⟩
            role.opposite limits' buffered').results i = readAs (asked ++ last.take n) i := by
  intro c asked last
  have hcalls : ∀ x ∈ calls, ∀ m ∈ x.handed, m.Fits := fun x hx m hm =>
    (hsuits x (List.mem_append_left _ hx) m hm).fits
  obtain ⟨hkeeps, hclose, ws, hws, hsent⟩ := hsucceed.sends hcalls
  have hclosed : c.closeSent = asked.any Message.isClose := hclose.trans (Bool.false_or _)
  have hlast : ∀ m ∈ call.messages c.closeSent, m.Suits limits' := fun m hm =>
    hsuits call (List.mem_append_right _ (List.mem_singleton_self call)) m
      (call.messages_subset _ hm)
  obtain ⟨ws', cut, hws', hcut, hsent', hall⟩ :=
    c.call_putsPart fun m hm => (hlast m hm).fits
  rw [hclosed] at hlast hws'
  rw [hkeeps.role] at hws'
  have hboth : ∀ m ∈ asked ++ last, m.Suits limits' := by
    intro m hm
    rcases List.mem_append.mp hm with hm | hm
    · obtain ⟨x, hx, hmem⟩ := Call.exists_of_mem_sentBy hm
      exact hsuits x (List.mem_append_left _ hx) m hmem
    · exact hlast m hm
  obtain ⟨n, hfull, hreads⟩ := exists_reads_of_isPrefix hws hws' hboth hcut
  refine ⟨n, fun hok => hfull (hall hok), ws.flatMap WireFrame.bytes ++ cut, ?_, ?_⟩
  · rw [hsent', hsent, List.append_assoc]
    rfl
  · intro endian' seed' buffered' sent' writes' chunks' hne hwire i
    rw [Connection.results_eq endian' seed' _ limits' buffered' sent' writes' chunks' hne, hwire]
    exact hreads i

/-- A batch of two messages of which four bytes go out, behind a text: the first one of the
batch is read, the second one is not. -/
theorem failed_call_loses_end_batch :
    let c := (Connection.withBuffered .little 7 ⟨[], [], [none, some (⟨32⟩, 4)]⟩ .server .default
      []).callAll [.write (.text [0x68])]
    ∃ n, ((c.call (.writeAll [.text [0x69], .close none])).1 = .ok () →
        [Message.text [0x69], .close none].take n = [.text [0x69], .close none]) ∧
      ∃ wire, (c.call (.writeAll [.text [0x69], .close none])).2.stream.sent = [] ++ wire ∧
        ∀ i, (Connection.withBuffered .little 7 ⟨[], [], []⟩ .client .default wire).results i =
          readAs ([.text [0x68]] ++ [Message.text [0x69], .close none].take n) i := by
  intro c
  have htext (b : UInt8) (h : ∃ text, [b] = Utf8.encode text) : (Message.text [b]).Suits .default :=
    ⟨h, show 1 < 2 ^ 63 by decide, show 1 ≤ _ by decide, show 1 ≤ _ by decide⟩
  have hclose : (Message.close none).Suits .default := ⟨trivial, by decide, by decide, by decide⟩
  have hsuits : ∀ x ∈ [Call.write (.text [0x68])] ++ [.writeAll [.text [0x69], .close none]],
      ∀ m ∈ x.handed, m.Suits .default :=
    List.forall_mem_cons.mpr ⟨List.forall_mem_singleton.mpr (htext 0x68 ⟨['h'], rfl⟩),
      List.forall_mem_singleton.mpr (List.forall_mem_cons.mpr
        ⟨htext 0x69 ⟨['i'], rfl⟩, List.forall_mem_singleton.mpr hclose⟩)⟩
  obtain ⟨n, hall, wire, hwire, hreads⟩ := failed_call_loses_end .little 7
    ⟨[], [], [none, some (⟨32⟩, 4)]⟩ .server .default [] [.write (.text [0x68])]
    (.writeAll [.text [0x69], .close none]) .default hsuits ⟨by decide +kernel, trivial⟩
  exact ⟨n, hall, wire, hwire,
    hreads .little 7 wire [] [] [] (List.forall_mem_nil _) (List.append_nil _)⟩

end NagoWss
