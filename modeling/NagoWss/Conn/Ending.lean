import NagoWss.Conn.Wire
import NagoWss.Proto.Reassembly

/-!
# How a connection ends

What the sequence of reads does behind an error and behind a close frame. The
assembler is closed by the first close frame whatever its body, and it goes on
behind a data frame it has rejected; both show in the results of reading.
-/

namespace NagoWss

open Framing

/-- An error that the peer caused. -/
def Error.FromPeer : Error → Prop
  | .frame _ | .protocol _ | .maskingViolation => True
  | .io _ | .unexpectedEof | .upgrade _ | .url _ => False

/-- The results of reading a connection again and again, with room for what arrives. They
are those on every target that affords its limits (`Target.Affords.resultsOn_eq`). -/
def Connection.results (c : Connection) (n : Nat) : Except Error (Option Message) :=
  (c.after n).read.1

/-- The results of reading a fresh connection are those of the reference. -/
theorem Connection.results_eq (endian : Endian) (seed : UInt64) (role : Role) (limits : Limits)
    (buffered sent : Bytes) (writes : List (Option (Errno × Nat))) (chunks : List Bytes)
    (hne : ∀ chunk ∈ chunks, chunk ≠ []) :
    (withBuffered endian seed ⟨chunks.map .ok, sent, writes⟩ role limits buffered).results =
      reference role limits (buffered ++ chunks.flatten) :=
  funext fun n => result_eq (withBuffered_facing endian seed role limits buffered sent writes hne) n

/-! ## Frames up to the first close -/

/-- A sequence has no close frame, or it is cut at the first one. -/
theorem frames_split (frames : List Frame) :
    (firstClose frames = none ∧ beforeClose frames = frames) ∨
      ∃ fin body rest, firstClose frames = some body ∧
        frames = beforeClose frames ++ ⟨.close, fin, body⟩ :: rest := by
  induction frames with
  | nil => exact .inl ⟨rfl, rfl⟩
  | cons f frames ih =>
    by_cases hclose : f.opcode = .close
    · obtain ⟨opcode, fin, body⟩ := f
      cases hclose
      exact .inr ⟨fin, body, frames, rfl, rfl⟩
    · rw [Assembler.beforeClose_cons hclose, Assembler.firstClose_cons hclose]
      rcases ih with ⟨hnone, hall⟩ | ⟨fin, body, rest, hsome, hsplit⟩
      · exact .inl ⟨hnone, congrArg (f :: ·) hall⟩
      · exact .inr ⟨fin, body, rest, hsome, congrArg (f :: ·) hsplit⟩

/-- No frame before the first close is a close frame. -/
theorem opcode_of_mem_beforeClose {frames : List Frame} {f : Frame} (h : f ∈ beforeClose frames) :
    f.opcode ≠ .close := by
  have := List.mem_takeWhile_imp h
  simpa using this

/-- Behind a close frame nothing is a result. -/
theorem outputs_closed {a : Assembler} (h : a.closed = true) (frames : List Frame) :
    Cutter.outputs feed a frames = ([], a) := by
  induction frames with
  | nil => rfl
  | cons f frames ih =>
    have hfeed : feed a f = (a, none) := by
      rw [feed, Assembler.accept_closed f h]
      rfl
    simp only [Cutter.outputs, hfeed, ih]
    rfl

/-- Feeding a frame that is no close frame leaves the assembler open. -/
theorem feed_open {a : Assembler} {f : Frame} (hf : f.opcode ≠ .close) (ha : a.closed = false) :
    (feed a f).1.closed = false := by
  have hop : (f.opcode == OpCode.close) = false := by simpa using hf
  rw [feed, (a.accept_fixed f).2, ha, hop]
  rfl

/-- A frame that is no close frame gives no close message. -/
theorem feed_ne_close (a : Assembler) {f : Frame} (hf : f.opcode ≠ .close)
    (content : Option CloseFrame) : (feed a f).2 ≠ some (.ok (.close content)) := by
  have hmessage := a.accept_ne_close hf content
  rw [feed]
  intro h
  rcases hr : (a.accept f).1 with e | _ | m
  · rw [hr] at h
    cases h
  · rw [hr] at h
    cases h
  · rw [hr] at h
    cases h
    exact hmessage hr

/-- An error of feeding is a broken rule across frames. -/
theorem feed_error {a : Assembler} {f : Frame} {e : Error}
    (h : (feed a f).2 = some (.error e)) : ∃ rule, e = .protocol rule ∧
      (a.accept f).1 = .error rule := by
  rw [feed] at h
  rcases hr : (a.accept f).1 with rule | _ | m
  · rw [hr] at h
    cases h
    exact ⟨rule, rfl, rfl⟩
  · rw [hr] at h
    cases h
  · rw [hr] at h
    cases h

/-- Every error among the outputs is a broken rule across frames. -/
theorem outputs_error {a : Assembler} {frames : List Frame} {e : Error}
    (h : .error e ∈ (Cutter.outputs feed a frames).1) : ∃ rule, e = .protocol rule := by
  induction frames generalizing a with
  | nil => cases h
  | cons f frames ih =>
    rcases List.mem_append.mp h with h | h
    · obtain ⟨rule, he, -⟩ := feed_error (Option.mem_toList.mp h)
      exact ⟨rule, he⟩
    · exact ih h

/-- Without a close frame the assembler stays open and delivers no close message. -/
theorem outputs_open {a : Assembler} (ha : a.closed = false) {frames : List Frame}
    (hframes : ∀ f ∈ frames, f.opcode ≠ .close) :
    (Cutter.outputs feed a frames).2.closed = false ∧
      ∀ content, .ok (.close content) ∉ (Cutter.outputs feed a frames).1 := by
  induction frames generalizing a with
  | nil => exact ⟨ha, fun content h => by cases h⟩
  | cons f frames ih =>
    have hf := hframes f List.mem_cons_self
    obtain ⟨hclosed, hnone⟩ := ih (feed_open hf ha) fun g hg =>
      hframes g (List.mem_cons_of_mem f hg)
    refine ⟨hclosed, ?_⟩
    intro content h
    rcases List.mem_append.mp h with h | h
    · exact feed_ne_close a hf content (Option.mem_toList.mp h)
    · exact hnone content h

/-- What the first close frame gives a reader. -/
def closeOutcome (body : Bytes) : Except Error Message :=
  match parseCloseBody body with
  | .error e => .error (.protocol e)
  | .ok content => .ok (.close content)

/-- The outputs of a sequence: those of the frames before the first close frame,
then what that frame gives, and nothing behind it. -/
theorem outputs_split {a : Assembler} (ha : a.closed = false) (frames : List Frame) :
    (Cutter.outputs feed a frames).1 = (Cutter.outputs feed a (beforeClose frames)).1 ++
        ((firstClose frames).map closeOutcome).toList ∧
      (Cutter.outputs feed a frames).2.closed = (firstClose frames).isSome := by
  have hopen := outputs_open ha fun f (hf : f ∈ beforeClose frames) =>
    opcode_of_mem_beforeClose hf
  rcases frames_split frames with ⟨hnone, hall⟩ | ⟨fin, body, rest, hsome, hsplit⟩
  · rw [hall] at hopen
    rw [hnone, hall, hopen.1]
    exact ⟨(List.append_nil _).symm, rfl⟩
  · have hfeed := Assembler.accept_close fin body hopen.1
    have hout : outcome ((parseCloseBody body).map (some ∘ Message.close)) =
        some (closeOutcome body) := by
      rw [closeOutcome]
      cases parseCloseBody body <;> rfl
    rw [hsome, Option.map_some, Option.toList_some]
    generalize beforeClose frames = before at hsplit hfeed ⊢
    have hrest :=
      @outputs_closed { (Cutter.outputs feed a before).2 with closed := true } rfl rest
    rw [hsplit, Cutter.outputs_append, Cutter.outputs, feed, hfeed, hout, hrest]
    exact ⟨rfl, rfl⟩

/-- The cutting of frames ends with an error that the peer caused. -/
theorem fault_fromPeer {role : Role} {maxFrame : UInt64} {s : Bytes} {e : Error}
    (h : ((frameCutter role maxFrame).parse s).fault = some e) : e.FromPeer := by
  obtain ⟨t, ht⟩ := (frameCutter role maxFrame).exists_bad_of_fault h
  change frameCut role maxFrame t = .bad e at ht
  rw [frameCut] at ht
  split at ht
  · cases ht
    trivial
  · cases ht
  · split at ht
    · cases ht
    · split at ht
      · cases ht
        trivial
      · cases ht

/-- No ending is a message. -/
theorem ending_ne_message (fault : Option Error) (closed : Bool) (m : Message) :
    ending fault closed ≠ .ok (some m) := by
  cases fault with
  | some e => simp [ending]
  | none => cases closed <;> simp [ending]

/-! ## Behind an error -/

/-- Behind an error that the peer caused no message is delivered. -/
def PeerErrorsFatal (results : Nat → Except Error (Option Message)) : Prop :=
  ∀ n m, n < m → (∃ e, results n = .error e ∧ e.FromPeer) → ∀ msg, results m ≠ .ok (some msg)

/-- Up to its first close frame a stream keeps the rules of fragmentation, of size
and of UTF-8: its frames spell an admissible transcript. -/
def KeepsDataRules (role : Role) (limits : Limits) (s : Bytes) : Prop :=
  ∃ t : Transcript, t.Spells (beforeClose (framesOf role limits s)) ∧ t.Admissible limits

/-- A run without errors has messages for outputs. -/
theorem outputs_of_run {a : Assembler} {frames : List Frame} {outs : List (Option Message)}
    (h : a.run frames = .ok outs) :
    ∃ messages : List Message, (Cutter.outputs feed a frames).1 = messages.map .ok := by
  induction frames generalizing a outs with
  | nil => exact ⟨[], rfl⟩
  | cons f frames ih =>
    rcases hr : a.accept f with ⟨e | m, a'⟩
    · rw [Assembler.run_cons_error hr] at h
      cases h
    · obtain ⟨rest, hrest, -⟩ := (Assembler.run_cons_ok hr).mp h
      obtain ⟨messages, hmessages⟩ := ih hrest
      refine ⟨m.toList ++ messages, ?_⟩
      rw [Cutter.outputs, feed, hr, hmessages, List.map_append]
      cases m <;> rfl

/-- A run with an error rejects some frame behind a run without. -/
theorem exists_rejected {a : Assembler} {frames : List Frame} {e : ProtocolError}
    (h : a.run frames = .error e) : ∃ before f rest, frames = before ++ f :: rest ∧
      (∃ messages : List Message, (Cutter.outputs feed a before).1 = messages.map .ok) ∧
        ((Cutter.outputs feed a before).2.accept f).1 = .error e := by
  induction frames generalizing a with
  | nil => cases h
  | cons f frames ih =>
    rcases hr : a.accept f with ⟨e' | m, a'⟩
    · rw [Assembler.run_cons_error hr] at h
      cases h
      refine ⟨[], f, frames, rfl, ⟨[], rfl⟩, ?_⟩
      rw [Cutter.outputs, hr]
    · have hrest : a'.run frames = .error e := by
        simp only [Assembler.run, hr] at h
        cases hrun : a'.run frames with
        | error e' =>
          rw [hrun] at h
          cases h
          rfl
        | ok rest =>
          rw [hrun] at h
          cases h
      obtain ⟨before, g, rest, rfl, ⟨messages, hmessages⟩, hg⟩ := ih hrest
      have hfeed : (Cutter.outputs feed a (f :: before)).2 = (Cutter.outputs feed a' before).2 := by
        rw [Cutter.outputs, feed, hr]
      refine ⟨f :: before, g, rest, rfl, ⟨m.toList ++ messages, ?_⟩, ?_⟩
      · rw [Cutter.outputs, feed, hr, hmessages, List.map_append]
        cases m <;> rfl
      · rw [hfeed, hg]

/-- When at most the last output is an error, errors are fatal. -/
theorem fatal_of_messages {results : Nat → Except Error (Option Message)}
    {outs : List (Except Error Message)} {fault : Option Error} {closed : Bool}
    (hresults : ∀ n, results n = match outs[n]? with
      | some result => result.map some
      | none => ending fault closed)
    {messages : List Message} {last : Option (Except Error Message)}
    (houts : outs = messages.map .ok ++ last.toList) : PeerErrorsFatal results := by
  rintro n m hnm ⟨e, hn, -⟩ msg hm
  have hm' : m < outs.length := by
    by_contra hge
    rw [hresults, List.getElem?_eq_none_iff.mpr (Nat.not_lt.mp hge)] at hm
    exact ending_ne_message fault closed msg hm
  have hlast : last.toList.length ≤ 1 := by cases last <;> simp
  rw [houts, List.length_append, List.length_map] at hm'
  have hlt : n < messages.length := by omega
  have hget : outs[n]? = some (.ok messages[n]) := by
    rw [houts, List.getElem?_append_left (by rw [List.length_map]; exact hlt), List.getElem?_map,
      List.getElem?_eq_getElem hlt]
    rfl
  rw [hresults, hget] at hn
  cases hn

/-- The ping with nothing in it that a reader of this role expects. -/
def emptyPing (role : Role) : WireFrame where
  fin := true
  opcode := .ping
  mask := match role with
    | .server => some (Vector.replicate 4 0)
    | .client => none
  payload := []
  bound := by decide

theorem emptyPing_admissible (role : Role) (maxFrame : UInt64) :
    ∀ w ∈ [emptyPing role], w.header.Valid ∧ w.payload.length ≤ maxFrame.toNat ∧
      w.mask.isSome = (role = .server) := by
  intro w hw
  obtain rfl := List.mem_singleton.mp hw
  refine ⟨(WireFrame.valid_iff _).mpr fun _ => ⟨rfl, Nat.zero_le _⟩, Nat.zero_le _, ?_⟩
  cases role <;> simp [emptyPing]

/-- A stream that breaks a rule with a data frame can be cut behind that frame and
followed by a ping, which is then delivered behind the error. -/
theorem exists_message_behind_error {role : Role} {limits : Limits} {s : Bytes}
    (h : ¬KeepsDataRules role limits s) : ∃ u, u <+: s ∧ ∃ (messages : List Message)
      (rule : ProtocolError) (m : Message),
        (Cutter.outputs feed (.new limits)
          (framesOf role limits (u ++ (emptyPing role).bytes))).1 =
            messages.map .ok ++ [.error (.protocol rule), .ok m] := by
  have hfits : ∀ m ∈ (none : Option Fragmented), m.payload.length ≤ limits.maxMessage := by
    rintro m ⟨⟩
  set k := frameCutter role limits.maxFrame with hk
  have hrun : ∃ rule, (Assembler.new limits).run (beforeClose (k.parse s).items) = .error rule := by
    cases hr : (Assembler.new limits).run (beforeClose (k.parse s).items) with
    | error rule => exact ⟨rule, rfl⟩
    | ok outs =>
      obtain ⟨t, ⟨hdata, hclose⟩, hadm, -⟩ := (Assembler.run_iff hfits _ _).mp hr
      exact absurd ⟨t, ⟨hdata, hclose⟩, hadm⟩ h
  obtain ⟨rule, hrule⟩ := hrun
  obtain ⟨before, f, rest, hsplit, ⟨messages, hmessages⟩, hf⟩ := exists_rejected hrule
  have hmem : ∀ g ∈ before ++ [f], g.opcode ≠ .close := by
    intro g hg
    have hg' : g ∈ beforeClose (k.parse s).items := by
      rw [hsplit, List.append_cons]
      exact List.mem_append_left rest hg
    exact opcode_of_mem_beforeClose hg'
  have hfront : before ++ [f] <+: (k.parse s).items := by
    have hbefore : beforeClose (k.parse s).items <+: (k.parse s).items := List.takeWhile_prefix _
    rw [hsplit, List.append_cons] at hbefore
    exact (List.prefix_append _ rest).trans hbefore
  obtain ⟨u, hu, hparse⟩ := k.exists_front (before ++ [f]).length s hfront.length_le
  refine ⟨u, ⟨_, hu⟩, messages, rule, .ping [], ?_⟩
  have hping := (WireFrame.parse_bytes (emptyPing_admissible role limits.maxFrame) []).1
  have hframe : (emptyPing role).frame = ⟨.ping, true, []⟩ := by cases role <;> rfl
  rw [List.flatMap_cons, List.flatMap_nil, List.append_nil, List.append_nil, List.map_cons,
    List.map_nil, hframe, WireFrame.parse_nil, List.append_nil] at hping
  have hopen := (@outputs_open (.new limits) rfl _ hmem).1
  have hlast : (Cutter.outputs feed (.new limits) (before ++ [f])).1 =
      messages.map .ok ++ [.error (.protocol rule)] := by
    rw [Cutter.outputs_append, hmessages, Cutter.outputs, feed, hf]
    rfl
  have hdelivered := Assembler.accept_ping true [] hopen
  rw [framesOf, (hparse _).1, ← List.prefix_iff_eq_take.mp hfront, hping, Cutter.outputs_append, hlast,
    Cutter.outputs, feed, hdelivered, List.append_assoc]
  rfl

/-- On a stream that keeps the rules for data frames errors are fatal. -/
theorem fatal_of_keepsDataRules {role : Role} {limits : Limits} {s : Bytes}
    (h : KeepsDataRules role limits s) : PeerErrorsFatal (reference role limits s) := by
  have hfits : ∀ m ∈ (none : Option Fragmented), m.payload.length ≤ limits.maxMessage := by
    rintro m ⟨⟩
  obtain ⟨t, ht, hadm⟩ := h
  have hrun := (Assembler.run_iff hfits _ _).mpr ⟨t, ⟨ht.data_eq, ht.close_eq⟩, hadm, rfl⟩
  obtain ⟨messages, hmessages⟩ := outputs_of_run hrun
  have hsplit := (@outputs_split (Assembler.holding limits none) rfl (framesOf role limits s)).1
  rw [hmessages] at hsplit
  exact fatal_of_messages (fun n => rfl) hsplit

/-- On a stream cut behind the data frame that broke a rule and followed by a ping
errors are not fatal. -/
theorem exists_not_fatal {role : Role} {limits : Limits} {s : Bytes}
    (h : ¬KeepsDataRules role limits s) :
    ∃ u, u <+: s ∧ ¬PeerErrorsFatal (reference role limits (u ++ (emptyPing role).bytes)) := by
  obtain ⟨u, hu, messages, rule, m, houts⟩ := exists_message_behind_error h
  have hlen : (messages.map (fun m => (.ok m : Except Error Message))).length =
      messages.length := List.length_map _
  have herror : reference role limits (u ++ (emptyPing role).bytes) messages.length =
      .error (.protocol rule) := by
    refine @reference_output _ _ _ _ (.error (.protocol rule)) ?_
    rw [houts, List.getElem?_append_right (Nat.le_of_eq hlen), hlen, Nat.sub_self]
    rfl
  have hmessage : reference role limits (u ++ (emptyPing role).bytes) (messages.length + 1) =
      .ok (some m) := by
    refine @reference_output _ _ _ _ (.ok m) ?_
    rw [houts, List.getElem?_append_right (by rw [hlen]; exact Nat.le_succ _), hlen,
      Nat.add_sub_cancel_left]
    rfl
  refine ⟨u, hu, fun hfatal => ?_⟩
  exact hfatal _ _ (Nat.lt_succ_self _) ⟨_, herror, trivial⟩ m hmessage

/-- Errors that the peer caused are fatal on every stream that keeps the rules for
data frames, and a stream that breaks them shows by its front alone that an error
need not be the last thing delivered. -/
theorem peer_errors_fatal (endian : Endian) (seed : UInt64) (role : Role) (limits : Limits)
    (buffered sent : Bytes) (writes : List (Option (Errno × Nat))) (chunks : List Bytes)
    (hne : ∀ chunk ∈ chunks, chunk ≠ []) :
    let s := buffered ++ chunks.flatten
    (KeepsDataRules role limits s → PeerErrorsFatal
      (Connection.withBuffered endian seed ⟨chunks.map .ok, sent, writes⟩ role limits
        buffered).results) ∧
    (¬KeepsDataRules role limits s → ∃ u, u <+: s ∧ ∀ (buffered' : Bytes) (chunks' : List Bytes),
      (∀ chunk ∈ chunks', chunk ≠ []) →
      buffered' ++ chunks'.flatten = u ++ (emptyPing role).bytes → ¬PeerErrorsFatal
        (Connection.withBuffered endian seed ⟨chunks'.map .ok, sent, writes⟩ role limits
          buffered').results) := by
  refine ⟨?_, ?_⟩
  · intro h
    rw [Connection.results_eq endian seed role limits buffered sent writes chunks hne]
    exact fatal_of_keepsDataRules h
  · intro h
    obtain ⟨u, hu, hfatal⟩ := exists_not_fatal h
    refine ⟨u, hu, ?_⟩
    intro buffered' chunks' hne' heq
    rw [Connection.results_eq endian seed role limits buffered' sent writes chunks' hne', heq]
    exact hfatal

/-- A text in one frame and a frame with reserved bits behind it. -/
theorem peer_errors_fatal_garbage :
    PeerErrorsFatal (Connection.withBuffered .little 7 ⟨[[0x69, 0xFF], [0xFF]].map .ok, [], []⟩
      .client .default [0x81, 0x02, 0x48]).results :=
  (peer_errors_fatal .little 7 .client .default [0x81, 0x02, 0x48] [] [] [[0x69, 0xFF], [0xFF]]
    (by decide)).1 ⟨⟨[⟨.text, [0x48, 0x69], []⟩], none, none⟩,
      ⟨by decide +kernel, by decide +kernel⟩,
      ⟨by decide, fun m hm _ => ⟨['H', 'i'], by obtain rfl := List.mem_singleton.mp hm; rfl⟩,
        fun content hc => by cases hc⟩⟩

/-- A rejected text between two fragments: the fragments are delivered behind the error. -/
theorem fragments_around_error :
    let c := Connection.withBuffered .little 7 (.ofChunks []) .client .default
      [0x01, 0x01, 0x61, 0x81, 0x01, 0x78, 0x80, 0x01, 0x62]
    c.results 0 = .error (.protocol .interleavedDataFrame) ∧
      c.results 1 = .ok (some (.text [0x61, 0x62])) ∧ ¬PeerErrorsFatal c.results := by
  have hresults := Connection.results_eq .little 7 .client .default
    [0x01, 0x01, 0x61, 0x81, 0x01, 0x78, 0x80, 0x01, 0x62] [] [] [] (by decide)
  have herror : reference .client .default
      [0x01, 0x01, 0x61, 0x81, 0x01, 0x78, 0x80, 0x01, 0x62] 0 =
        .error (.protocol .interleavedDataFrame) := by decide +kernel
  have hmessage : reference .client .default
      [0x01, 0x01, 0x61, 0x81, 0x01, 0x78, 0x80, 0x01, 0x62] 1 =
        .ok (some (.text [0x61, 0x62])) := by decide +kernel
  simp only [ByteStream.ofChunks]
  rw [hresults]
  exact ⟨herror, hmessage, fun hfatal =>
    hfatal 0 1 (by decide) ⟨_, herror, trivial⟩ _ hmessage⟩

/-! ## Behind a close frame -/

/-- A close message is delivered once at most and last, and the end of the file is
clean if and only if one was delivered. -/
structure ClosesCleanly (results : Nat → Except Error (Option Message)) : Prop where
  /-- Behind a close message no message is delivered. -/
  last : ∀ n m content, n < m → results n = .ok (some (.close content)) →
    ∀ msg, results m ≠ .ok (some msg)
  /-- At the end of the file the result says whether a close message was delivered. -/
  clean : ∀ n, results n = .ok none ∨ results n = .error .unexpectedEof →
    (results n = .ok none ↔ ∃ m < n, ∃ content, results m = .ok (some (.close content)))

/-- What a stream does at its end: it stops at a frame that no reader accepts, or
its first close frame, if it has one, carries a legal body. -/
def EndsLegally (role : Role) (limits : Limits) (s : Bytes) : Prop :=
  ((frameCutter role limits.maxFrame).parse s).fault.isSome = true ∨
    ∀ body, firstClose (framesOf role limits s) = some body →
      ∃ content, body = CloseFrame.body content ∧ CloseFrame.Legal content

section Reference

variable {role : Role} {limits : Limits} {s : Bytes}

/-- The outputs of the frames before the first close frame. -/
def dataOutputs (role : Role) (limits : Limits) (s : Bytes) : List (Except Error Message) :=
  (Cutter.outputs feed (.new limits) (beforeClose (framesOf role limits s))).1

/-- A result is an output, or it is the ending behind the last output. -/
theorem reference_cases (n : Nat) :
    (∃ r, (dataOutputs role limits s ++
        ((firstClose (framesOf role limits s)).map closeOutcome).toList)[n]? = some r ∧
      reference role limits s n = r.map some) ∨
    ((dataOutputs role limits s ++
        ((firstClose (framesOf role limits s)).map closeOutcome).toList).length ≤ n ∧
      reference role limits s n = ending ((frameCutter role limits.maxFrame).parse s).fault
        (firstClose (framesOf role limits s)).isSome) := by
  obtain ⟨houts, hclosed⟩ := @outputs_split (.new limits) rfl (framesOf role limits s)
  rw [dataOutputs, ← houts, ← hclosed]
  cases h : (Cutter.outputs feed (.new limits) (framesOf role limits s)).1[n]? with
  | some r => exact .inl ⟨r, rfl, reference_output h⟩
  | none =>
    refine .inr ⟨List.getElem?_eq_none_iff.mp h, ?_⟩
    rw [framesOf] at h
    simp only [reference, h]
    rfl

/-- A close message is what the first close frame gives, behind all data outputs. -/
theorem close_position {n : Nat} {content : Option CloseFrame}
    (h : reference role limits s n = .ok (some (.close content))) :
    n = (dataOutputs role limits s).length ∧ ∃ body,
      firstClose (framesOf role limits s) = some body ∧ parseCloseBody body = .ok content := by
  have hnone := (@outputs_open (.new limits) rfl _ fun f
    (hf : f ∈ beforeClose (framesOf role limits s)) => opcode_of_mem_beforeClose hf).2 content
  rcases reference_cases n with ⟨r, hr, hn⟩ | ⟨-, hn⟩
  · have hclose : r = .ok (.close content) := by
      rw [h] at hn
      cases r with
      | error e => cases hn
      | ok m =>
        cases hn
        rfl
    subst hclose
    rcases Nat.lt_or_ge n (dataOutputs role limits s).length with hlt | hge
    · rw [List.getElem?_append_left hlt] at hr
      exact absurd (List.mem_of_getElem? hr) hnone
    · rw [List.getElem?_append_right hge] at hr
      cases hfirst : firstClose (framesOf role limits s) with
      | none =>
        rw [hfirst] at hr
        cases hr
      | some body =>
        rw [hfirst, Option.map_some, Option.toList_some] at hr
        have hzero : n - (dataOutputs role limits s).length = 0 := by
          by_contra hpos
          obtain ⟨j, hj⟩ := Nat.exists_eq_succ_of_ne_zero hpos
          rw [hj] at hr
          cases hr
        rw [hzero, List.getElem?_cons_zero, Option.some.injEq, closeOutcome] at hr
        refine ⟨by omega, body, rfl, ?_⟩
        cases hparse : parseCloseBody body with
        | error e =>
          rw [hparse] at hr
          cases hr
        | ok c =>
          rw [hparse] at hr
          cases hr
          rfl
  · rw [hn] at h
    exact absurd h (ending_ne_message _ _ _)

/-- The end of the file is seen behind the last output of a stream whose frames are
cut to the end. -/
theorem at_end {n : Nat} (h : reference role limits s n = .ok none ∨
    reference role limits s n = .error .unexpectedEof) :
    ((frameCutter role limits.maxFrame).parse s).fault = none ∧
      (dataOutputs role limits s).length +
        (firstClose (framesOf role limits s)).toList.length ≤ n ∧
      reference role limits s n = if (firstClose (framesOf role limits s)).isSome then .ok none
        else .error .unexpectedEof := by
  rcases reference_cases n with ⟨r, hr, hn⟩ | ⟨hlen, hn⟩
  · exfalso
    rw [hn] at h
    cases r with
    | ok m => rcases h with h | h <;> cases h
    | error e =>
      rcases h with h | h
      · cases h
      · cases h
        have hmem : (.error .unexpectedEof : Except Error Message) ∈
            (Cutter.outputs feed (.new limits) (framesOf role limits s)).1 := by
          rw [(@outputs_split (.new limits) rfl (framesOf role limits s)).1]
          exact List.mem_of_getElem? hr
        obtain ⟨rule, hrule⟩ := outputs_error hmem
        cases hrule
  · have hfault : ((frameCutter role limits.maxFrame).parse s).fault = none := by
      cases hf : ((frameCutter role limits.maxFrame).parse s).fault with
      | none => rfl
      | some e =>
        have hpeer := fault_fromPeer hf
        rw [hn, hf] at h
        rcases h with h | h
        · cases h
        · cases h
          exact absurd hpeer id
    refine ⟨hfault, ?_, ?_⟩
    · rw [List.length_append] at hlen
      cases hfirst : firstClose (framesOf role limits s) <;> rw [hfirst] at hlen <;> exact hlen
    · rw [hn, hfault]
      rfl

/-- Whatever the stream, a close message is the last one delivered. -/
theorem close_last (n m : Nat) (content : Option CloseFrame) (hnm : n < m)
    (h : reference role limits s n = .ok (some (.close content))) (msg : Message) :
    reference role limits s m ≠ .ok (some msg) := by
  obtain ⟨hn, body, hfirst, -⟩ := close_position h
  intro hm
  rcases @reference_cases role limits s m with ⟨r, hr, -⟩ | ⟨-, hend⟩
  · have hlt := (List.getElem?_eq_some_iff.mp hr).1
    rw [List.length_append, hfirst, Option.map_some, Option.toList_some,
      List.length_singleton] at hlt
    omega
  · rw [hend] at hm
    exact ending_ne_message _ _ _ hm

/-- Reading ends cleanly exactly when the stream does. -/
theorem closesCleanly_reference_iff :
    ClosesCleanly (reference role limits s) ↔ EndsLegally role limits s := by
  constructor
  · intro h
    by_contra hlegal
    simp only [EndsLegally, not_or, not_forall] at hlegal
    obtain ⟨hfault, body, hfirst, hbody⟩ := hlegal
    rw [Bool.not_eq_true, Option.isSome_eq_false_iff, Option.isNone_iff_eq_none] at hfault
    -- Behind the outputs the assembler is closed, so the end of the file counts as clean.
    obtain ⟨r, hr, -⟩ | ⟨-, hend⟩ := @reference_cases role limits s ((dataOutputs role limits s ++
      ((firstClose (framesOf role limits s)).map closeOutcome).toList).length)
    · exact absurd (List.getElem?_eq_some_iff.mp hr).1 (Nat.lt_irrefl _)
    · rw [hfault, hfirst] at hend
      obtain ⟨m, -, content, hm⟩ := (h.clean _ (.inl hend)).mp hend
      obtain ⟨-, body', hfirst', hparse⟩ := close_position hm
      rw [hfirst, Option.some.injEq] at hfirst'
      subst hfirst'
      exact hbody ⟨content, parseCloseBody_iff.mp hparse⟩
  · intro h
    refine ⟨close_last, fun n hn => ?_⟩
    obtain ⟨hfault, hlen, hend⟩ := at_end hn
    cases hfirst : firstClose (framesOf role limits s) with
    | none =>
      rw [hfirst] at hend
      constructor
      · intro hclean
        rw [hclean] at hend
        cases hend
      · rintro ⟨m, -, content, hm⟩
        obtain ⟨-, body, hsome, -⟩ := close_position hm
        rw [hfirst] at hsome
        cases hsome
    | some body =>
      rw [hfirst] at hend hlen
      refine ⟨fun _ => ?_, fun _ => hend⟩
      have hlegal : ∃ content, body = CloseFrame.body content ∧ CloseFrame.Legal content := by
        rcases h with h | h
        · rw [hfault] at h
          cases h
        · exact h body hfirst
      obtain ⟨content, hcontent⟩ := hlegal
      have houtcome : closeOutcome body = .ok (.close content) := by
        rw [closeOutcome, parseCloseBody_iff.mpr hcontent]
      refine ⟨(dataOutputs role limits s).length, hlen, content, ?_⟩
      refine @reference_output _ _ _ _ (.ok (.close content)) ?_
      rw [(@outputs_split (.new limits) rfl (framesOf role limits s)).1, hfirst, Option.map_some,
        houtcome, Option.toList_some]
      exact List.getElem?_concat_length ..

end Reference

/-- However the bytes arrive, a connection reports a clean end truthfully exactly
when the stream stops at a frame that is refused, or its first close frame carries
a legal body. -/
theorem closes_cleanly_iff (endian : Endian) (seed : UInt64) (role : Role) (limits : Limits)
    (buffered sent : Bytes) (writes : List (Option (Errno × Nat))) (chunks : List Bytes)
    (hne : ∀ chunk ∈ chunks, chunk ≠ []) :
    ClosesCleanly (Connection.withBuffered endian seed ⟨chunks.map .ok, sent, writes⟩ role limits
        buffered).results ↔ EndsLegally role limits (buffered ++ chunks.flatten) := by
  rw [Connection.results_eq endian seed role limits buffered sent writes chunks hne]
  exact closesCleanly_reference_iff

/-- A ping and an empty close frame, cut inside both. -/
theorem closes_cleanly_after_ping :
    ClosesCleanly (Connection.withBuffered .little 7 ⟨[[0x00, 0x88], [0x00]].map .ok, [], []⟩
      .client .default [0x89]).results :=
  (closes_cleanly_iff .little 7 .client .default [0x89] [] [] [[0x00, 0x88], [0x00]]
    (by decide)).mpr (.inr fun body hbody => ⟨none, by
      have hfirst : firstClose (framesOf .client .default ([0x89] ++
        [[0x00, 0x88], [0x00]].flatten)) = some [] := by decide +kernel
      rw [hfirst] at hbody
      exact (Option.some.inj hbody).symm, trivial⟩)

/-- A close frame with a body of one byte is refused, and the end of the file behind
it is reported as clean. -/
theorem malformed_close_ends_cleanly :
    let c := Connection.withBuffered .little 7 (.ofChunks []) .client .default [0x88, 0x01, 0x03]
    c.results 0 = .error (.protocol .malformedCloseFrame) ∧ c.results 1 = .ok none ∧
      ¬ClosesCleanly c.results := by
  have hresults := Connection.results_eq .little 7 .client .default [0x88, 0x01, 0x03] [] [] []
    (by decide)
  have herror : reference .client .default [0x88, 0x01, 0x03] 0 =
      .error (.protocol .malformedCloseFrame) := by decide +kernel
  have hclean : reference .client .default [0x88, 0x01, 0x03] 1 = .ok none := by decide +kernel
  simp only [ByteStream.ofChunks]
  rw [hresults]
  refine ⟨herror, hclean, fun h => ?_⟩
  obtain ⟨m, hm, content, hclose⟩ := (h.clean 1 (.inl hclean)).mp hclean
  have hzero : m = 0 := Nat.lt_one_iff.mp hm
  subst hzero
  rw [List.flatten_nil, List.append_nil, herror] at hclose
  cases hclose

end NagoWss
