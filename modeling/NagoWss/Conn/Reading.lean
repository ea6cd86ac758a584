import NagoWss.Conn.Connection
import NagoWss.Core.Framing

/-!
# Receiving

A reference reader takes the whole stream at once: it cuts it frame by frame and
feeds the frames to the assembler. The connection, which sees the stream in
arbitrary reads and keeps what it has not parsed, gives the results of the
reference one after the other, and has at any moment taken whole frames off the
front of the stream, each of them once.
-/

namespace NagoWss

open Framing

/-! ## The reference -/

/-- The payload under a mask, from the start of the key. -/
def unmaskReference (mask : Option Mask) (payload : Bytes) : Bytes :=
  mask.elim payload fun key => Mask.reference payload key 0

/-- What the front of a stream is to a reader: a header that `Header.decode`
accepts, exactly `payloadLen` bytes behind it, and a mask if and only if the
reader is a server. -/
def frameCut (role : Role) (maxFrame : UInt64) (s : Bytes) : Cut Frame Error :=
  match Header.decode s maxFrame with
  | .error e => .bad (.frame e)
  | .ok (.error _) => .more
  | .ok (.ok (h, n)) =>
    if s.length < n + h.payloadLen.toNat then .more
    else if h.mask.isSome ≠ (role = .server) then .bad .maskingViolation
    else .item ⟨h.opcode, h.fin, unmaskReference h.mask ((s.drop n).take h.payloadLen.toNat)⟩
      (n + h.payloadLen.toNat)

/-- What accepting a frame gives a reader: a completed message or an error. -/
def outcome : Except ProtocolError (Option Message) → Option (Except Error Message)
  | .ok none => none
  | .ok (some message) => some (.ok message)
  | .error e => some (.error (.protocol e))

/-- Feed a frame to the assembler. -/
def feed (a : Assembler) (f : Frame) : Assembler × Option (Except Error Message) :=
  ((a.accept f).2, outcome (a.accept f).1)

/-- The verdict on a header and its length, as a case distinction. -/
theorem frameCut_decoded {role : Role} {maxFrame : UInt64} {s : Bytes} {h : Header} {n : Nat}
    (hd : Header.decode s maxFrame = .ok (.ok (h, n))) :
    frameCut role maxFrame s =
      if s.length < n + h.payloadLen.toNat then .more
      else if h.mask.isSome ≠ (role = .server) then .bad .maskingViolation
      else .item ⟨h.opcode, h.fin, unmaskReference h.mask ((s.drop n).take h.payloadLen.toNat)⟩
        (n + h.payloadLen.toNat) := by
  rw [frameCut, hd]

/-- A frame stands at the front of a stream: what its header and its bytes are. -/
theorem frameCut_item {role : Role} {maxFrame : UInt64} {s : Bytes} {f : Frame} {n : Nat}
    (hc : frameCut role maxFrame s = .item f n) :
    ∃ h : Header, Header.decode s maxFrame = .ok (.ok (h, h.encodedLen)) ∧
      n = h.encodedLen + h.payloadLen.toNat ∧ n ≤ s.length ∧ h.mask.isSome = (role = .server) ∧
      f = ⟨h.opcode, h.fin,
        unmaskReference h.mask ((s.drop h.encodedLen).take h.payloadLen.toNat)⟩ := by
  rw [frameCut] at hc
  split at hc
  · cases hc
  · cases hc
  · next h m hd =>
    obtain ⟨-, -, rfl, -⟩ := Header.decode_iff.mp hd
    split at hc
    · cases hc
    · next hlen =>
      split at hc
      · cases hc
      · next hmask =>
        cases hc
        exact ⟨h, hd, rfl, Nat.not_lt.mp hlen, of_not_not hmask, rfl⟩

/-- Cutting frames is a cutter: its verdicts are final. -/
def frameCutter (role : Role) (maxFrame : UInt64) : Cutter UInt8 Frame Error where
  cut := frameCut role maxFrame
  bad_append := by
    intro p e q h
    rw [frameCut] at h ⊢
    have happ : Header.decode p maxFrame ≠ .ok (.error .incomplete) := by
      intro he
      rw [he] at h
      cases h
    rw [Header.decode_append q happ]
    split at h
    · exact h
    · cases h
    · split at h
      · cases h
      · next hlen =>
        rw [if_neg (by rw [List.length_append]; omega)]
        split at h
        · next hmask => rw [if_pos hmask]; exact h
        · cases h
  item_append := by
    intro p f n q h
    obtain ⟨hd, hdec, rfl, hle, hmask, rfl⟩ := frameCut_item h
    have happ := Header.decode_append q (by rw [hdec]; simp)
    rw [frameCut_decoded (happ.trans hdec), if_neg (by rw [List.length_append]; omega),
      if_neg (not_not.mpr hmask), List.drop_append_of_le_length (by omega),
      List.take_append_of_le_length (by rw [List.length_drop]; omega)]
  item_take := by
    intro p f n h
    obtain ⟨hd, hdec, rfl, hle, hmask, rfl⟩ := frameCut_item h
    obtain ⟨hvalid, hmax, -, hpre⟩ := Header.decode_iff.mp hdec
    have hlen : (p.take (hd.encodedLen + hd.payloadLen.toNat)).length =
        hd.encodedLen + hd.payloadLen.toNat := by
      rw [List.length_take]
      exact Nat.min_eq_left hle
    have hpre' : hd.bytes <+: p.take (hd.encodedLen + hd.payloadLen.toNat) :=
      List.prefix_take_iff.mpr ⟨hpre, by rw [Header.length_bytes]; omega⟩
    rw [frameCut_decoded (Header.decode_iff.mpr ⟨hvalid, hmax, rfl, hpre'⟩), hlen,
      if_neg (Nat.lt_irrefl _), if_neg (not_not.mpr hmask), List.drop_take,
      Nat.add_sub_cancel_left, List.take_take, Nat.min_self]
  item_pos := by
    intro p f n h
    obtain ⟨hd, -, rfl, -⟩ := frameCut_item h
    have := hd.encodedLen_bounds.1
    omega
  item_le := by
    intro p f n h
    obtain ⟨hd, -, -, hle, -⟩ := frameCut_item h
    exact hle

/-- What reading gives for ever behind the last output: the refusal that ended the
cutting, or the end of the file, which is clean behind a close frame only. -/
def ending (fault : Option Error) (closed : Bool) : Except Error (Option Message) :=
  match fault with
  | some e => .error e
  | none => if closed then .ok none else .error .unexpectedEof

/-- The `n`-th result of reading a whole stream: its frames are cut one after the
other and fed to a fresh assembler, and behind the outputs stands the ending. -/
def reference (role : Role) (limits : Limits) (s : Bytes) (n : Nat) :
    Except Error (Option Message) :=
  let parsed := (frameCutter role limits.maxFrame).parse s
  let fed := Cutter.outputs feed (Assembler.new limits) parsed.items
  match fed.1[n]? with
  | some result => result.map some
  | none => ending parsed.fault fed.2.closed

/-- The frames that a reader of this role cuts from a stream. -/
def framesOf (role : Role) (limits : Limits) (s : Bytes) : List Frame :=
  ((frameCutter role limits.maxFrame).parse s).items

/-- A result of the reference that is an output. -/
theorem reference_output {role : Role} {limits : Limits} {s : Bytes} {n : Nat}
    {result : Except Error Message}
    (h : (Cutter.outputs feed (.new limits) (framesOf role limits s)).1[n]? = some result) :
    reference role limits s n = result.map some := by
  rw [framesOf] at h
  simp only [reference, h]

namespace Connection

/-! ## Parsing what is buffered -/

/-- The masking rule is the same either way round. -/
theorem maskingViolated_iff (role : Role) (mask : Option Mask) :
    maskingViolated role mask = true ↔ mask.isSome ≠ (role = .server) := by
  cases role <;> cases mask <;> simp [maskingViolated]

/-- The masked payload of a frame is taken off as the reference does. -/
theorem unmask_eq (endian : Endian) (mask : Option Mask) (payload : Bytes) :
    unmask endian mask payload = unmaskReference mask payload := by
  cases mask with
  | none => rfl
  | some key => exact Mask.apply_eq endian payload key 0

/-- What a result of draining is to the caller of `read`, when there is one. -/
def received : Except Error (Except Error Message) → Except Error (Option Message)
  | .error e => .error e
  | .ok (.error e) => .error e
  | .ok (.ok message) => .ok (some message)

/-- The cutter a connection reads with. -/
def cutter (c : Connection) : Cutter UInt8 Frame Error :=
  frameCutter c.role c.assembler.limits.maxFrame

/-- Draining leaves the limits alone. -/
theorem drain_limits (k : Cutter UInt8 Frame Error) (a : Assembler) (s : Bytes) :
    (k.drain feed a s).2.1.limits = a.limits := by
  have hfeed (a : Assembler) (f : Frame) : (feed a f).1.limits = a.limits := a.accept_limits f
  fun_induction Cutter.drain k feed a s with
  | case1 => rfl
  | case2 => rfl
  | case3 a s f n h a' r hs => rw [← hfeed a f, hs]
  | case4 a s f n h a' hs ih => rw [ih, ← hfeed a f, hs]

/-- The reference's verdict on the buffer, in the terms of `parseBuffered`. -/
theorem cut_decoded {c : Connection} {header : Header} {headerLen : Nat}
    (hdecode : Header.decode c.readBuffer c.assembler.limits.maxFrame =
      .ok (.ok (header, headerLen))) :
    c.cutter.cut c.readBuffer =
      if c.readBuffer.length < frameTotal 64 headerLen header then .more
      else if maskingViolated c.role header.mask then .bad .maskingViolation
      else .item ⟨header.opcode, header.fin, unmask c.endian header.mask
        ((c.readBuffer.take (frameTotal 64 headerLen header)).drop headerLen)⟩
        (frameTotal 64 headerLen header) := by
  obtain ⟨hvalid, -, rfl, -⟩ := Header.decode_iff.mp hdecode
  change frameCut _ _ _ = _
  rw [frameCut_decoded hdecode, frameTotal_eq hvalid, List.drop_take, Nat.add_sub_cancel_left,
    unmask_eq]
  simp only [maskingViolated_iff]

/-- Parsing the buffer is draining it with the reference's cutter. -/
theorem parseBuffered_eq (c : Connection) :
    c.parseBuffered =
      let d := c.cutter.drain feed c.assembler c.readBuffer
      (d.1.elim (.ok none) received, { c with assembler := d.2.1, readBuffer := d.2.2 }) := by
  fun_induction parseBuffered c with
  | case1 c e hdecode =>
    have hcut : c.cutter.cut c.readBuffer = .bad (.frame e) := by
      change frameCut _ _ _ = _
      rw [frameCut, hdecode]
    rw [c.cutter.drain_bad feed hcut]
    rfl
  | case2 c i hdecode =>
    have hcut : c.cutter.cut c.readBuffer = .more := by
      change frameCut _ _ _ = _
      rw [frameCut, hdecode]
    rw [c.cutter.drain_more feed hcut]
    rfl
  | case3 c header headerLen hdecode total hshort =>
    have hcut := cut_decoded hdecode
    rw [if_pos hshort] at hcut
    rw [c.cutter.drain_more feed hcut]
    rfl
  | case4 c header headerLen hdecode total hshort hmask =>
    have hcut := cut_decoded hdecode
    rw [if_neg hshort, if_pos hmask] at hcut
    rw [c.cutter.drain_bad feed hcut]
    rfl
  | case5 c header headerLen hdecode total hshort hmask payload c' message a haccept =>
    have hcut := cut_decoded hdecode
    rw [if_neg hshort, if_neg hmask] at hcut
    have hfeed : feed c.assembler ⟨header.opcode, header.fin, payload⟩ =
        (a, some (.ok message)) := by
      rw [feed, haccept]
      rfl
    rw [c.cutter.drain_item_some feed hcut hfeed]
    rfl
  | case6 c header headerLen hdecode total hshort hmask payload c' a haccept ih =>
    have hcut := cut_decoded hdecode
    rw [if_neg hshort, if_neg hmask] at hcut
    have hfeed : feed c.assembler ⟨header.opcode, header.fin, payload⟩ = (a, none) := by
      rw [feed, haccept]
      rfl
    have hlimits : a.limits = c.assembler.limits := by
      rw [← c.assembler.accept_limits ⟨header.opcode, header.fin, payload⟩, haccept]
    have hcutter : ({ c' with assembler := a } : Connection).cutter = c.cutter := by
      rw [cutter, cutter, hlimits]
    rw [c.cutter.drain_item_none feed hcut hfeed]
    rw [hcutter] at ih
    exact ih
  | case7 c header headerLen hdecode total hshort hmask payload c' e a haccept =>
    have hcut := cut_decoded hdecode
    rw [if_neg hshort, if_neg hmask] at hcut
    have hfeed : feed c.assembler ⟨header.opcode, header.fin, payload⟩ =
        (a, some (.error (.protocol e))) := by
      rw [feed, haccept]
      rfl
    rw [c.cutter.drain_item_some feed hcut hfeed]
    rfl

/-! ## Reading from a stream of chunks -/

/-- The result of a read, from what draining gives: no result means the end of
the file. -/
def concluded (drained : Option (Except Error (Except Error Message))) (closed : Bool) :
    Except Error (Option Message) :=
  match drained with
  | some r => received r
  | none => if closed then .ok none else .error .unexpectedEof

/-- A read that the buffer answers. -/
theorem read_buffered {c c' : Connection} {r : Except Error (Option Message)}
    (h : c.parseBuffered = (r, c')) (hr : r ≠ .ok none) : c.read = (r, c') := by
  rw [read]
  split
  · next h' => rw [← h', h]
  · next h' => rw [← h', h]
  · next h' =>
    rw [h] at h'
    exact absurd (congrArg Prod.fst h') hr

/-- A read that the buffer does not answer goes to the socket. -/
theorem read_socket {c c' : Connection} (h : c.parseBuffered = (.ok none, c')) :
    c.read = match c'.stream.readBuf c'.readBuffer with
      | (.error e, buffer, stream) =>
        (.error (.io e), { c' with stream := stream, readBuffer := buffer })
      | (.ok n, buffer, stream) =>
        if n = 0 then
          (if c'.assembler.closed then .ok none else .error .unexpectedEof,
            { c' with stream := stream, readBuffer := buffer })
        else ({ c' with stream := stream, readBuffer := buffer } : Connection).read := by
  rw [read]
  split
  · next h' => rw [h] at h'; cases h'
  · next h' => rw [h] at h'; cases h'
  · next h' =>
    rw [h] at h'
    cases h'
    split
    · next hread => rw [hread]
    · next hread =>
      rw [hread]
      simp only
      split
      · split <;> rfl
      · rfl

/-- Reading from a stream of non-empty chunks pulls them through the cutter. -/
theorem read_eq_pull {c : Connection} {chunks : List Bytes} (hne : ∀ chunk ∈ chunks, chunk ≠ [])
    (hin : c.stream.incoming = chunks.map .ok) :
    c.read =
      let p := c.cutter.pull feed c.assembler c.readBuffer chunks
      (concluded p.1 p.2.1.closed, { c with
        assembler := p.2.1
        readBuffer := p.2.2.1
        stream := { c.stream with incoming := p.2.2.2.map .ok } }) := by
  induction chunks generalizing c with
  | nil =>
    have hparse := c.parseBuffered_eq
    rw [List.map_nil] at hin
    rw [Cutter.pull]
    rcases hd : c.cutter.drain feed c.assembler c.readBuffer with ⟨_ | r, a, rest⟩
    · rw [hd] at hparse
      simp only [read_socket hparse, ByteStream.readBuf, hin, List.map_nil, if_true, concluded,
        ByteStream.with_incoming hin]
    · rw [hd] at hparse
      rw [read_buffered hparse (by rcases r with e | e | m <;> simp [received])]
      simp only [List.map_nil, concluded, ByteStream.with_incoming hin]
      rfl
  | cons chunk chunks ih =>
    have hparse := c.parseBuffered_eq
    have hlimits := drain_limits c.cutter c.assembler c.readBuffer
    rw [Cutter.pull]
    rcases hd : c.cutter.drain feed c.assembler c.readBuffer with ⟨_ | r, a, rest⟩
    · rw [hd] at hparse hlimits
      have hchunk : chunk ≠ [] := hne chunk List.mem_cons_self
      have hlen : ¬chunk.length = 0 := by rwa [List.length_eq_zero_iff]
      rw [read_socket hparse, ByteStream.readBuf]
      simp only [hin, List.map_cons, if_neg hlen]
      have ih' := @ih { c with
        assembler := a
        readBuffer := rest ++ chunk
        stream := { c.stream with incoming := chunks.map .ok } }
        (fun x hx => hne x (List.mem_cons_of_mem _ hx)) rfl
      have hcutter : (frameCutter c.role a.limits.maxFrame) = c.cutter := by
        rw [cutter, ← hlimits]
      simp only [cutter] at ih'
      rw [hcutter] at ih'
      exact ih'
    · rw [hd] at hparse
      rw [read_buffered hparse (by rcases r with e | e | m <;> simp [received])]
      simp only [concluded, ByteStream.with_incoming hin]
      rfl

/-! ## The sequence of reads -/

/-- The connection after `n` reads. -/
def after (c : Connection) : Nat → Connection
  | 0 => c
  | n + 1 => after c.read.2 n

/-- A connection whose assembler is `a` and which has the bytes `s` ahead of it,
buffered or still to arrive in non-empty chunks. -/
def Facing (c : Connection) (a : Assembler) (s : Bytes) : Prop :=
  c.assembler = a ∧ ∃ chunks : List Bytes, (∀ chunk ∈ chunks, chunk ≠ []) ∧
    c.stream.incoming = chunks.map .ok ∧ c.readBuffer ++ chunks.flatten = s

/-- One read drains what the connection faces, whatever its chunks. -/
theorem read_facing {c : Connection} {a : Assembler} {s : Bytes} (h : c.Facing a s) :
    let d := c.cutter.drain feed a s
    c.read.1 = concluded d.1 d.2.1.closed ∧ c.read.2.Facing d.2.1 d.2.2 ∧
      c.read.2.cutter = c.cutter := by
  obtain ⟨rfl, chunks, hne, hin, rfl⟩ := h
  have hread := read_eq_pull hne hin
  have hdrain := c.cutter.pull_eq_drain feed c.assembler c.readBuffer chunks
  have hsuffix := c.cutter.pull_suffix feed c.assembler c.readBuffer chunks
  have hlimits := drain_limits c.cutter c.assembler (c.readBuffer ++ chunks.flatten)
  simp only [hdrain] at hlimits ⊢
  rw [hread]
  refine ⟨rfl, ⟨rfl, _, ?_, rfl, rfl⟩, ?_⟩
  · intro chunk hchunk
    exact hne chunk (hsuffix.subset hchunk)
  · have hmax := congrArg Limits.maxFrame hlimits
    exact congrArg (frameCutter c.role) hmax

/-- After `n` reads the connection faces what draining `n` times leaves. -/
theorem after_facing {c : Connection} {a : Assembler} {s : Bytes} (h : c.Facing a s) (n : Nat) :
    (c.after n).Facing (c.cutter.drained feed a s n).1 (c.cutter.drained feed a s n).2 ∧
      (c.after n).cutter = c.cutter := by
  induction n generalizing c a s with
  | zero => exact ⟨h, rfl⟩
  | succ n ih =>
    obtain ⟨-, hnext, hcutter⟩ := read_facing h
    have hn := ih hnext
    rw [hcutter] at hn
    exact hn

/-- The results of reading are the outputs of the frames, and behind them for
ever the end of the stream. -/
theorem result_eq {c : Connection} {a : Assembler} {s : Bytes} (h : c.Facing a s) (n : Nat) :
    (c.after n).read.1 =
      match (Cutter.outputs feed a (c.cutter.parse s).items).1[n]? with
      | some result => result.map some
      | none => ending (c.cutter.parse s).fault
          (Cutter.outputs feed a (c.cutter.parse s).items).2.closed := by
  obtain ⟨hn, hcutter⟩ := after_facing h n
  have hread := (read_facing hn).1
  have hat := c.cutter.drainAt_drained feed a s n
  have heq := c.cutter.drainAt_eq feed a s n
  rw [hcutter] at hread
  simp only [hat] at heq
  rw [hread, heq]
  cases hout : (Cutter.outputs feed a (c.cutter.parse s).items).1[n]? with
  | some result => cases result <;> rfl
  | none =>
    have hstate := c.cutter.drainAt_state feed a s (List.getElem?_eq_none_iff.mp hout)
    simp only [hat] at hstate
    cases hfault : (c.cutter.parse s).fault with
    | some e => rfl
    | none =>
      simp only [Option.map_none, concluded, ending]
      rw [hstate]

/-- A fresh connection faces the bytes it was given and those to come. -/
theorem withBuffered_facing (endian : Endian) (seed : UInt64) (role : Role) (limits : Limits)
    (buffered sent : Bytes) (writes : List (Option (Errno × Nat))) {chunks : List Bytes}
    (hne : ∀ chunk ∈ chunks, chunk ≠ []) :
    (withBuffered endian seed ⟨chunks.map .ok, sent, writes⟩ role limits buffered).Facing
      (.new limits) (buffered ++ chunks.flatten) :=
  ⟨rfl, chunks, hne, rfl, rfl⟩

/-- However the bytes arrive, the results of reading are those of the reference on
the whole stream, and at any moment the connection has taken some number of whole
frames off the front of the stream, fed exactly those to its assembler, and holds
or awaits exactly the rest. -/
theorem reads_reference (endian : Endian) (seed : UInt64) (role : Role) (limits : Limits)
    (buffered sent : Bytes) (writes : List (Option (Errno × Nat))) (chunks : List Bytes)
    (hne : ∀ chunk ∈ chunks, chunk ≠ []) (n : Nat) :
    let c := withBuffered endian seed ⟨chunks.map .ok, sent, writes⟩ role limits buffered
    let s := buffered ++ chunks.flatten
    let frames := framesOf role limits s
    (c.after n).read.1 = reference role limits s n ∧
      ∃ k, k ≤ frames.length ∧
        (c.after n).assembler = (Cutter.outputs feed (.new limits) (frames.take k)).2 ∧
        ∃ unread : List Bytes, (c.after n).stream.incoming = unread.map .ok ∧
          (c.after n).readBuffer ++ unread.flatten =
            (frameCutter role limits.maxFrame).skip k s := by
  have hfacing := withBuffered_facing endian seed role limits buffered sent writes hne
  refine ⟨result_eq hfacing n, ?_⟩
  obtain ⟨k, hk, hrest, hstate⟩ := (frameCutter role limits.maxFrame).drained_skip feed
    (.new limits) (buffered ++ chunks.flatten) n
  obtain ⟨⟨hassembler, unread, -, hin, hbytes⟩, -⟩ := after_facing hfacing n
  exact ⟨k, hk, hassembler.trans hstate, unread, hin, hbytes.trans hrest⟩

/-- A masked text cut inside its header and inside its key. -/
theorem reads_reference_split :
    ((withBuffered .little 7 ⟨[[0x82, 1], [2, 3, 4, 0x49], [0x6b, 0x8a]].map .ok, [], []⟩ .server
      .default [0x81]).after 0).read.1 = .ok (some (.text [0x48, 0x69])) :=
  (reads_reference .little 7 .server .default [0x81] [] []
    [[0x82, 1], [2, 3, 4, 0x49], [0x6b, 0x8a]] (by decide) 0).1.trans (by decide +kernel)

end Connection

end NagoWss
