import NagoWss.Conn.Allocation

/-!
# Conforming streams

A stream conforms when it is a sequence of frames, masked as their direction asks, that
spells a legal transcript, and the beginning of one more frame. However a sender chose
its masks and cut its messages into fragments, and wherever it put its pings, a reader
delivers the messages of a conforming stream, and it blames the peer for nothing if and
only if the stream conforms.
-/

namespace NagoWss

open Framing

/-- A stream of frames that spell a legal transcript, and what is left behind them. -/
structure Conforms (role : Role) (limits : Limits) (s : Bytes) (ws : List WireFrame)
    (rest : Bytes) (t : Transcript) : Prop where
  /-- The stream is the frames and what is left. -/
  bytes_eq : s = ws.flatMap WireFrame.bytes ++ rest
  /-- Every frame is valid, within the limit, and masked if and only if a server reads it. -/
  frames : ∀ w ∈ ws, w.header.Valid ∧ w.payload.length ≤ limits.maxFrame.toNat ∧
    w.mask.isSome = (role = .server)
  /-- What is left is too short for a verdict. -/
  waits : frameCut role limits.maxFrame rest = .more
  /-- With the masks taken off, the frames spell the transcript. -/
  spells : t.Spells (ws.map WireFrame.frame)
  /-- The transcript is admissible under the limits. -/
  admissible : t.Admissible limits

/-! ## Frames as they stood on the wire -/

/-- Every frame that is cut off a stream stood there in its bytes. -/
theorem exists_wireFrame {role : Role} {maxFrame : UInt64} {s : Bytes} {f : Frame} {n : Nat}
    (h : frameCut role maxFrame s = .item f n) : ∃ w : WireFrame, s = w.bytes ++ s.drop n ∧
      w.frame = f ∧ w.header.Valid ∧ w.payload.length ≤ maxFrame.toNat ∧
        w.mask.isSome = (role = .server) := by
  obtain ⟨hd, hdecode, rfl, hle, hmask, rfl⟩ := frameCut_item h
  obtain ⟨hvalid, hmax, -, hpre⟩ := Header.decode_iff.mp hdecode
  have hlen : ((s.drop hd.encodedLen).take hd.payloadLen.toNat).length = hd.payloadLen.toNat := by
    rw [List.length_take, List.length_drop]
    omega
  let w : WireFrame := ⟨hd.fin, hd.opcode, hd.mask,
    (s.drop hd.encodedLen).take hd.payloadLen.toNat, by rw [hlen]; exact hvalid.length⟩
  have hheader : w.header = hd := by
    simp only [WireFrame.header, w, hlen, UInt64.ofNat_toNat]
  have hfront : hd.bytes = s.take hd.encodedLen := by
    rw [← hd.length_bytes]
    exact List.prefix_iff_eq_take.mp hpre
  refine ⟨w, ?_, rfl, hheader ▸ hvalid, ?_, hmask⟩
  · rw [WireFrame.bytes, hheader, hfront, ← List.drop_drop, List.append_assoc,
      List.take_append_drop, List.take_append_drop]
  · exact hlen.le.trans hmax

/-- A stream that is cut to its end is the frames that were cut and what is left. -/
theorem exists_wireFrames {role : Role} {limits : Limits} {s : Bytes}
    (h : ((frameCutter role limits.maxFrame).parse s).fault = none) :
    ∃ (ws : List WireFrame) (rest : Bytes), s = ws.flatMap WireFrame.bytes ++ rest ∧
      (∀ w ∈ ws, w.header.Valid ∧ w.payload.length ≤ limits.maxFrame.toNat ∧
        w.mask.isSome = (role = .server)) ∧
      frameCut role limits.maxFrame rest = .more ∧
        framesOf role limits s = ws.map WireFrame.frame := by
  rw [framesOf]
  fun_induction Cutter.parse (frameCutter role limits.maxFrame) s with
  | case1 s hmore => exact ⟨[], s, rfl, List.forall_mem_nil _, hmore, rfl⟩
  | case2 s e hbad => cases h
  | case3 s f n hitem p ih =>
    obtain ⟨w, hs, rfl, hw⟩ := exists_wireFrame hitem
    obtain ⟨ws, rest, hrest, hws, hmore, hframes⟩ := ih h
    refine ⟨w :: ws, rest, ?_, List.forall_mem_cons.mpr ⟨hw, hws⟩, hmore, ?_⟩
    · rw [List.flatMap_cons, List.append_assoc, ← hrest]
      exact hs
    · exact congrArg _ hframes

/-- A conforming stream is cut into its frames. -/
theorem Conforms.parse {role : Role} {limits : Limits} {s : Bytes} {ws : List WireFrame}
    {rest : Bytes} {t : Transcript} (h : Conforms role limits s ws rest t) :
    framesOf role limits s = ws.map WireFrame.frame ∧
      ((frameCutter role limits.maxFrame).parse s).fault = none := by
  have hparse := WireFrame.parse_bytes h.frames rest
  have hrest := (frameCutter role limits.maxFrame).parse_more h.waits
  rw [← h.bytes_eq, hrest, List.append_nil] at hparse
  exact hparse

/-! ## What the frames give -/

/-- A run without errors delivers what it emits. -/
theorem outputs_eq_of_run {a : Assembler} {frames : List Frame} {outs : List (Option Message)}
    (h : a.run frames = .ok outs) :
    (Cutter.outputs feed a frames).1 = outs.reduceOption.map .ok := by
  induction frames generalizing a outs with
  | nil =>
    cases h
    rfl
  | cons f frames ih =>
    rcases hr : a.accept f with ⟨e | m, a'⟩
    · rw [Assembler.run_cons_error hr] at h
      cases h
    · obtain ⟨rest, hrest, rfl⟩ := (Assembler.run_cons_ok hr).mp h
      rw [Cutter.outputs, feed, hr, ih hrest]
      cases m <;> rfl

/-- The frames of an admissible transcript run without errors, and emit what it says. -/
theorem run_of_spells {limits : Limits} {frames : List Frame} {t : Transcript}
    (hspells : t.Spells frames) (hadm : t.Admissible limits) :
    (Assembler.new limits).run frames = .ok (t.emit frames) :=
  (@Assembler.run_iff limits none (fun _ h => by cases h) frames _).mpr
    ⟨t, ⟨hspells.data_eq, hspells.close_eq⟩, hadm, rfl⟩

/-- Frames that run without errors spell an admissible transcript. -/
theorem exists_spells_of_run {limits : Limits} {frames : List Frame} {outs : List (Option Message)}
    (h : (Assembler.new limits).run frames = .ok outs) :
    ∃ t : Transcript, t.Spells frames ∧ t.Admissible limits := by
  obtain ⟨t, ⟨hdata, hclose⟩, hadm, -⟩ :=
    (@Assembler.run_iff limits none (fun _ h => by cases h) frames outs).mp h
  exact ⟨t, ⟨hdata, hclose⟩, hadm⟩

section Reference

variable {role : Role} {limits : Limits} {s : Bytes}

/-- A conforming stream gives the messages of its transcript, where the frames complete
them, and behind them an end that is clean if and only if the transcript closes. -/
theorem Conforms.reference_eq {ws : List WireFrame} {rest : Bytes} {t : Transcript}
    (h : Conforms role limits s ws rest t) (n : Nat) :
    reference role limits s n =
      match (t.emit (ws.map WireFrame.frame)).reduceOption[n]? with
      | some m => .ok (some m)
      | none => ending none t.closing.isSome := by
  obtain ⟨hframes, hfault⟩ := h.parse
  have houts := outputs_eq_of_run (run_of_spells h.spells h.admissible)
  have hclosed := (outputs_split (a := .new limits) rfl (ws.map WireFrame.frame)).2
  rw [h.spells.close_eq, Option.isSome_map] at hclosed
  rw [framesOf] at hframes
  simp only [reference, hframes, hfault, houts, hclosed, List.getElem?_map]
  cases (t.emit (ws.map WireFrame.frame)).reduceOption[n]? with
  | none => rfl
  | some m => rfl

/-- A frame that breaks a rule is a result that blames the peer. -/
theorem exists_blame_of_run {e : ProtocolError}
    (h : (Assembler.new limits).run (framesOf role limits s) = .error e) :
    ∃ n, reference role limits s n = .error (.protocol e) := by
  obtain ⟨before, f, rest, hframes, ⟨messages, hmessages⟩, hf⟩ := exists_rejected h
  have hlen : (messages.map (.ok : Message → Except Error Message)).length = messages.length :=
    List.length_map _
  refine ⟨messages.length, @reference_output _ _ _ _ (.error (.protocol e)) ?_⟩
  rw [hframes, Cutter.outputs_append, hmessages, List.getElem?_append_right (Nat.le_of_eq hlen),
    hlen, Nat.sub_self, Cutter.outputs, feed, hf]
  rfl

/-- The refusal of the cutter is a result that blames the peer. -/
theorem exists_blame_of_fault {e : Error}
    (h : ((frameCutter role limits.maxFrame).parse s).fault = some e) :
    ∃ n, reference role limits s n = .error e := by
  refine ⟨(Cutter.outputs feed (.new limits) (framesOf role limits s)).1.length, ?_⟩
  have hnone : (Cutter.outputs feed (.new limits) (framesOf role limits s)).1[
      (Cutter.outputs feed (.new limits) (framesOf role limits s)).1.length]? = none :=
    List.getElem?_eq_none_iff.mpr (Nat.le_refl _)
  rw [framesOf] at hnone ⊢
  simp only [reference, hnone, h]
  rfl

/-- A reader blames its peer for nothing if and only if the stream conforms. -/
theorem blameless_iff :
    (∀ n e, reference role limits s n = .error e → ¬e.FromPeer) ↔
      ∃ ws rest t, Conforms role limits s ws rest t := by
  constructor
  · intro h
    have hfault : ((frameCutter role limits.maxFrame).parse s).fault = none := by
      cases hfault : ((frameCutter role limits.maxFrame).parse s).fault with
      | none => rfl
      | some e =>
        obtain ⟨n, hn⟩ := exists_blame_of_fault hfault
        exact absurd (fault_fromPeer hfault) (h n e hn)
    obtain ⟨ws, rest, hs, hws, hmore, hframes⟩ := exists_wireFrames hfault
    cases hrun : (Assembler.new limits).run (framesOf role limits s) with
    | error e =>
      obtain ⟨n, hn⟩ := exists_blame_of_run hrun
      exact absurd trivial (h n _ hn)
    | ok outs =>
      obtain ⟨t, hspells, hadm⟩ := exists_spells_of_run hrun
      exact ⟨ws, rest, t, hs, hws, hmore, hframes ▸ hspells, hadm⟩
  · rintro ⟨ws, rest, t, h⟩ n e hn
    rw [h.reference_eq] at hn
    split at hn
    · cases hn
    · rw [ending] at hn
      split at hn
      · cases hn
      · cases hn
        exact id

end Reference

/-- However it arrives, a conforming stream is read as the messages of its transcript and
the end it comes to, if there is room for what the limits admit; and a connection blames its
peer for nothing if and only if the stream conforms. -/
theorem reads_conforming (target : Target) (endian : Endian) (seed : UInt64) (role : Role)
    (limits : Limits) (haffords : target.Affords limits) (buffered sent : Bytes)
    (writes : List (Option (Errno × Nat))) (chunks : List Bytes)
    (hne : ∀ chunk ∈ chunks, chunk ≠ []) :
    let c := Connection.withBuffered endian seed ⟨chunks.map .ok, sent, writes⟩ role limits buffered
    let s := buffered ++ chunks.flatten
    (∀ ws rest t, Conforms role limits s ws rest t → ∀ n, c.resultsOn target n =
      match (t.emit (ws.map WireFrame.frame)).reduceOption[n]? with
      | some m => .ok (.ok (some m))
      | none => .ok (if t.closing.isSome then .ok none else .error .unexpectedEof)) ∧
    ((∀ n e, c.resultsOn target n = .ok (.error e) → ¬e.FromPeer) ↔
      ∃ ws rest t, Conforms role limits s ws rest t) := by
  intro c s
  have hroom : target.Affords c.assembler.limits := haffords
  have hresults := Connection.results_eq endian seed role limits buffered sent writes chunks hne
  have hc (n : Nat) : c.resultsOn target n = .ok (reference role limits s n) := by
    rw [hroom.resultsOn_eq, show c.results = _ from hresults]
  refine ⟨fun ws rest t h n => ?_, ?_⟩
  · rw [hc, h.reference_eq]
    split <;> rfl
  · rw [← blameless_iff]
    refine forall_congr' fun n => forall_congr' fun e => ?_
    rw [hc, Except.ok.injEq]

/-- A text in two fragments, each with its own mask, and a ping between them, cut inside
the ping; behind them the beginning of one more frame. -/
theorem reads_conforming_fragments :
    let c := Connection.withBuffered .little 7
      ⟨[[0x89, 0x80, 0, 0, 0], [0, 0x80, 0x81, 1, 0, 0, 0, 0x68, 0x81]].map .ok, [], []⟩ .server
      .default [0x01, 0x81, 0, 0, 0, 0, 0x48]
    c.resultsOn (.roomy 64) 0 = .ok (.ok (some (.ping []))) ∧
      c.resultsOn (.roomy 64) 1 = .ok (.ok (some (.text [0x48, 0x69]))) ∧
      c.resultsOn (.roomy 64) 2 = .ok (.error .unexpectedEof) := by
  let ws : List WireFrame := [⟨false, .text, some #v[0, 0, 0, 0], [0x48], by decide⟩,
    ⟨true, .ping, some #v[0, 0, 0, 0], [], by decide⟩,
    ⟨true, .continuation, some #v[1, 0, 0, 0], [0x68], by decide⟩]
  have hframe {w : WireFrame} (hcontrol : w.opcode.isControl = true →
      w.fin = true ∧ w.payload.length ≤ 125) (hlen : w.payload.length ≤ 1)
      (hmask : w.mask.isSome = true) : w.header.Valid ∧
        w.payload.length ≤ Limits.default.maxFrame.toNat ∧
          w.mask.isSome = (Role.server = .server) :=
    ⟨w.valid_iff.mpr hcontrol, hlen.trans (by decide), by simp [hmask]⟩
  have h := (reads_conforming (.roomy 64) .little 7 .server .default
    (Target.roomy_affords (by decide) (by decide)) [0x01, 0x81, 0, 0, 0, 0, 0x48] [] []
    [[0x89, 0x80, 0, 0, 0], [0, 0x80, 0x81, 1, 0, 0, 0, 0x68, 0x81]] (by decide)).1 ws [0x81]
    ⟨[⟨.text, [0x48], [[0x69]]⟩], none, none⟩
    ⟨by decide +kernel, List.forall_mem_cons.mpr ⟨hframe (by decide) (by decide) rfl,
      List.forall_mem_cons.mpr ⟨hframe (by decide) (by decide) rfl,
        List.forall_mem_singleton.mpr (hframe (by decide) (by decide) rfl)⟩⟩, rfl,
      ⟨by decide +kernel, by decide +kernel⟩,
      ⟨by decide, fun m hm _ => ⟨['H', 'i'], by obtain rfl := List.mem_singleton.mp hm; rfl⟩,
        fun content hc => by cases hc⟩⟩
  exact ⟨(h 0).trans (by decide +kernel), (h 1).trans (by decide +kernel),
    (h 2).trans (by decide +kernel)⟩

end NagoWss
