import NagoWss.Conn.Reading

/-!
# Reading without the fast path

A stream that is not a socket fills the read buffer by the default of `read_buf`: it
reads into an array and copies, as many bytes as the array and the spare capacity let
through. Neither that nor a failure between two reads changes what the connection reads.
Its results are settled by what arrives, byte by byte, and by the reads that fail or
report the end of the file in between.
-/

namespace NagoWss

open Framing

/-! ## What arrives -/

/-- One thing that reading a stream brings. -/
inductive Arrival
  /-- A byte. -/
  | byte (b : UInt8)
  /-- A read without a byte: a failure, or the end of the file. -/
  | mark (failure : Option Errno)
  deriving DecidableEq, Repr

namespace ByteStream

/-- What the outcome of one read brings. -/
def arrivalsOf : Except Errno Bytes → List Arrival
  | .error e => [.mark (some e)]
  | .ok [] => [.mark none]
  | .ok (b :: chunk) => (b :: chunk).map .byte

/-- What a stream brings, however it is divided into reads. -/
def arrivals (s : ByteStream) : List Arrival := s.incoming.flatMap arrivalsOf

theorem arrivalsOf_chunk {chunk : Bytes} (hne : chunk ≠ []) :
    arrivalsOf (.ok chunk) = chunk.map .byte := by
  obtain ⟨b, chunk, rfl⟩ := List.exists_cons_of_ne_nil hne
  rfl

/-- Read into an array of `size` bytes. What does not fit stays to be read. -/
def read (s : ByteStream) (size : Nat) : Except Errno Bytes × ByteStream :=
  match s.incoming with
  | [] => (.ok [], s)
  | .error e :: rest => (.error e, { s with incoming := rest })
  | .ok chunk :: rest =>
    if chunk.length ≤ size then (.ok chunk, { s with incoming := rest })
    else (.ok (chunk.take size), { s with incoming := .ok (chunk.drop size) :: rest })

/-- The default of `readBuf`: read into an array and copy. -/
def readBufDefault (s : ByteStream) (buffer : Bytes) (spare : Nat) :
    Except Errno Nat × Bytes × ByteStream :=
  let take := max (min (16 * 1024) spare) 1
  match s.read take with
  | (.error e, s) => (.error e, buffer, s)
  | (.ok chunk, s) => (.ok chunk.length, buffer ++ chunk, s)

/-- What filling a buffer may come to: the front of what arrives is taken, some bytes of
it or one mark. -/
inductive Fills (s : ByteStream) (buffer : Bytes) : Except Errno Nat × Bytes × ByteStream → Prop
  | bytes {chunk : Bytes} {s' : ByteStream} (hne : chunk ≠ [])
      (harrivals : s.arrivals = chunk.map .byte ++ s'.arrivals) :
      Fills s buffer (.ok chunk.length, buffer ++ chunk, s')
  | failure {e : Errno} {s' : ByteStream} (harrivals : s.arrivals = .mark (some e) :: s'.arrivals) :
      Fills s buffer (.error e, buffer, s')
  | eof {s' : ByteStream} (harrivals : s.arrivals = .mark none :: s'.arrivals) :
      Fills s buffer (.ok 0, buffer, s')
  | exhausted (harrivals : s.arrivals = []) : Fills s buffer (.ok 0, buffer, s)

/-- Reading straight into the buffer takes the front of what arrives. -/
theorem readBuf_fills (s : ByteStream) (buffer : Bytes) : s.Fills buffer (s.readBuf buffer) := by
  rw [readBuf]
  split
  · next hin => exact .exhausted (by rw [arrivals, hin, List.flatMap_nil])
  · next e rest hin => exact .failure (by rw [arrivals, hin]; rfl)
  · next chunk rest hin =>
    cases chunk with
    | nil =>
      rw [List.append_nil]
      exact .eof (by rw [arrivals, hin]; rfl)
    | cons b chunk => exact .bytes (List.cons_ne_nil _ _) (by rw [arrivals, hin]; rfl)

/-- Reading into an array and copying takes the front of what arrives as well. -/
theorem readBufDefault_fills (s : ByteStream) (buffer : Bytes) (spare : Nat) :
    s.Fills buffer (s.readBufDefault buffer spare) := by
  have hsize : 0 < max (min (16 * 1024) spare) 1 :=
    Nat.lt_of_lt_of_le one_pos (Nat.le_max_right _ _)
  rw [readBufDefault]
  generalize max (min (16 * 1024) spare) 1 = size at hsize
  rcases hin : s.incoming with _ | ⟨e | chunk, rest⟩
  · simp only [read, hin, List.append_nil, List.length_nil]
    exact .exhausted (by rw [arrivals, hin, List.flatMap_nil])
  · simp only [read, hin]
    exact .failure (by rw [arrivals, hin]; rfl)
  · have hall : s.arrivals = arrivalsOf (.ok chunk) ++ rest.flatMap arrivalsOf := by
      rw [arrivals, hin, List.flatMap_cons]
    by_cases hfit : chunk.length ≤ size
    · simp only [read, hin, if_pos hfit]
      cases chunk with
      | nil =>
        rw [List.append_nil]
        exact .eof hall
      | cons b chunk => exact .bytes (List.cons_ne_nil _ _) hall
    · -- The array is too small: its bytes are taken off the chunk.
      have hlen : size < chunk.length := Nat.lt_of_not_le hfit
      have htake : chunk.take size ≠ [] := by
        rw [← List.length_pos_iff, List.length_take]
        omega
      have hdrop : chunk.drop size ≠ [] := by
        rw [← List.length_pos_iff, List.length_drop]
        omega
      simp only [read, hin, if_neg hfit]
      refine .bytes htake ?_
      rw [hall, arrivals, List.flatMap_cons, arrivalsOf_chunk hdrop, ← List.append_assoc,
        ← List.map_append, List.take_append_drop, arrivalsOf_chunk]
      rintro rfl
      exact absurd hlen (Nat.not_lt_zero _)

/-- Filling that got something leaves less to arrive. -/
theorem Fills.lt {s s' : ByteStream} {buffer buffer' : Bytes} {n : Nat}
    (h : s.Fills buffer (.ok n, buffer', s')) (hn : n ≠ 0) :
    s'.arrivals.length < s.arrivals.length := by
  cases h with
  | bytes hne harrivals =>
    have hpos := List.length_pos_iff.mpr hne
    rw [harrivals, List.length_append, List.length_map]
    omega
  | eof | exhausted => exact absurd rfl hn

end ByteStream

namespace Connection

/-- Read the next message over a stream that fills the buffer by the default. `spare` is
the capacity that the buffer has left when the stream is read: no two of these reads find
the connection in the same state, unless nothing more is to arrive. -/
def readDefault (spare : Connection → Nat) (c : Connection) :
    Except Error (Option Message) × Connection :=
  match _hparse : c.parseBuffered with
  | (.error e, parsed) => (.error e, parsed)
  | (.ok (some message), parsed) => (.ok (some message), parsed)
  | (.ok none, parsed) =>
    match _hread : parsed.stream.readBufDefault parsed.readBuffer (spare parsed) with
    | (.error e, buffer, stream) =>
      (.error (.io e), { parsed with stream := stream, readBuffer := buffer })
    | (.ok n, buffer, stream) =>
      let next := { parsed with stream := stream, readBuffer := buffer }
      if n = 0 then
        -- A clean close already told us this was coming.
        if next.assembler.closed then (.ok none, next) else (.error .unexpectedEof, next)
      else readDefault spare next
termination_by c.stream.arrivals.length
decreasing_by
  have hstream : parsed.stream = c.stream := by
    have hfixed := congrArg Connection.stream c.parseBuffered_fixed
    rw [_hparse] at hfixed
    exact hfixed
  have hfills := parsed.stream.readBufDefault_fills parsed.readBuffer (spare parsed)
  rw [_hread] at hfills
  exact hstream ▸ hfills.lt ‹_›

/-- The connection after `n` reads by the default. -/
def afterDefault (spare : Connection → Nat) (c : Connection) : Nat → Connection
  | 0 => c
  | n + 1 => afterDefault spare (c.readDefault spare).2 n

/-- What a connection has ahead of it: the bytes it holds, then what its stream brings. -/
def ahead (c : Connection) : List Arrival := c.readBuffer.map .byte ++ c.stream.arrivals

end Connection

/-! ## Reading what arrives -/

/-- The bytes in front of the first mark, and the rest. -/
def untilMark : List Arrival → Bytes × List Arrival
  | .byte b :: rest => (b :: (untilMark rest).1, (untilMark rest).2)
  | rest => ([], rest)

theorem untilMark_append (bytes : Bytes) (rest : List Arrival) :
    untilMark (bytes.map .byte ++ rest) = (bytes ++ (untilMark rest).1, (untilMark rest).2) := by
  induction bytes with
  | nil => rfl
  | cons b bytes ih =>
    rw [List.map_cons, List.cons_append, untilMark, ih]
    rfl

theorem append_untilMark (arriving : List Arrival) :
    (untilMark arriving).1.map .byte ++ (untilMark arriving).2 = arriving := by
  fun_induction untilMark arriving with
  | case1 b rest ih => rw [List.map_cons, List.cons_append, ih]
  | case2 => rfl

/-- The next result and what it leaves, from what arrives alone: the frames in front of
the first mark are drained, and behind them the mark is reported. -/
def readArrivals (cutter : Cutter UInt8 Frame Error) (a : Assembler) (arriving : List Arrival) :
    Except Error (Option Message) × Assembler × List Arrival :=
  let (bytes, rest) := untilMark arriving
  let (result, a, left) := cutter.drain feed a bytes
  match result, rest with
  | some r, rest => (Connection.received r, a, left.map .byte ++ rest)
  | none, .mark (some e) :: rest => (.error (.io e), a, left.map .byte ++ rest)
  | none, rest => (Connection.concluded none a.closed, a, left.map .byte ++ rest.tail)

/-- Draining what is held already does not change what is read. -/
theorem readArrivals_drained {cutter : Cutter UInt8 Frame Error} {a a' : Assembler}
    {held held' : Bytes} (h : cutter.drain feed a held = (none, a', held'))
    (arriving : List Arrival) :
    readArrivals cutter a (held.map .byte ++ arriving) =
      readArrivals cutter a' (held'.map .byte ++ arriving) := by
  simp only [readArrivals, untilMark_append]
  rw [cutter.drain_append feed _ a held, h]

/-- A result of what is held already is what is read. -/
theorem readArrivals_result {cutter : Cutter UInt8 Frame Error} {a a' : Assembler}
    {r : Except Error (Except Error Message)} {held held' : Bytes}
    (h : cutter.drain feed a held = (some r, a', held')) (arriving : List Arrival) :
    readArrivals cutter a (held.map .byte ++ arriving) =
      (Connection.received r, a', held'.map .byte ++ arriving) := by
  have hall := append_untilMark arriving
  simp only [readArrivals, untilMark_append]
  rw [cutter.drain_append feed _ a held, h]
  simp only [List.map_append, List.append_assoc, hall]

/-- Where nothing that is held gives a result, the mark behind it is reported. -/
theorem readArrivals_mark {cutter : Cutter UInt8 Frame Error} {a : Assembler} {held : Bytes}
    (h : cutter.drain feed a held = (none, a, held)) (failure : Option Errno)
    (rest : List Arrival) :
    readArrivals cutter a (held.map .byte ++ .mark failure :: rest) =
      (failure.elim (Connection.concluded none a.closed) fun e => .error (.io e), a,
        held.map .byte ++ rest) := by
  have hmark : untilMark (.mark failure :: rest) = ([], .mark failure :: rest) := rfl
  simp only [readArrivals, untilMark_append, hmark, List.append_nil, h]
  cases failure <;> rfl

/-- Where nothing more arrives, the end of the file is reported. -/
theorem readArrivals_exhausted {cutter : Cutter UInt8 Frame Error} {a : Assembler} {held : Bytes}
    (h : cutter.drain feed a held = (none, a, held)) :
    readArrivals cutter a (held.map .byte ++ []) =
      (Connection.concluded none a.closed, a, held.map .byte ++ []) := by
  have hall : untilMark (held.map .byte ++ []) = (held, []) := by
    rw [untilMark_append, untilMark, List.append_nil]
    exact fun _ _ h => nomatch h
  simp only [readArrivals, hall, h, List.tail_nil]

namespace Connection

/-- One turn of the loop that reads: what the buffer answers, or what filling it comes
to. -/
def readTurn (fill : Connection → Except Errno Nat × Bytes × ByteStream)
    (again : Connection → Except Error (Option Message) × Connection) (c : Connection) :
    Except Error (Option Message) × Connection :=
  match c.parseBuffered with
  | (.error e, parsed) => (.error e, parsed)
  | (.ok (some message), parsed) => (.ok (some message), parsed)
  | (.ok none, parsed) =>
    match fill parsed with
    | (.error e, buffer, stream) =>
      (.error (.io e), { parsed with stream := stream, readBuffer := buffer })
    | (.ok n, buffer, stream) =>
      let next := { parsed with stream := stream, readBuffer := buffer }
      if n = 0 then
        if next.assembler.closed then (.ok none, next) else (.error .unexpectedEof, next)
      else again next

/-- Reading is turn after turn. -/
theorem read_turn (c : Connection) :
    c.read = readTurn (fun c => c.stream.readBuf c.readBuffer) read c := by
  rw [read, readTurn]
  split
  · next h => rw [h]
  · next h => rw [h]
  · next h =>
    rw [h]
    simp only
    split
    · next h => rw [h]
    · next h => rw [h]

/-- Reading by the default is turn after turn. -/
theorem readDefault_turn (spare : Connection → Nat) (c : Connection) :
    c.readDefault spare =
      readTurn (fun c => c.stream.readBufDefault c.readBuffer (spare c)) (readDefault spare) c := by
  rw [readDefault, readTurn]
  split
  · next h => rw [h]
  · next h => rw [h]
  · next h =>
    rw [h]
    simp only
    split
    · next h => rw [h]
    · next h => rw [h]

/-- What a read gave, and what it left to be read, for a connection with this cutter. -/
structure Reads (cutter : Cutter UInt8 Frame Error)
    (expected : Except Error (Option Message) × Assembler × List Arrival)
    (r : Except Error (Option Message) × Connection) : Prop where
  /-- The result. -/
  result : r.1 = expected.1
  /-- The assembler behind it. -/
  assembler : r.2.assembler = expected.2.1
  /-- What is still ahead. -/
  ahead : r.2.ahead = expected.2.2
  /-- The rules by which the next frames are cut. -/
  cutter : r.2.cutter = cutter

section Loop

variable {fill : Connection → Except Errno Nat × Bytes × ByteStream}
  {reader : Connection → Except Error (Option Message) × Connection}

/-- A turn that the buffer answers. -/
theorem readTurn_buffered {c : Connection} {r : Except Error (Except Error Message)} {a : Assembler}
    {held : Bytes} (h : c.cutter.drain feed c.assembler c.readBuffer = (some r, a, held)) :
    readTurn fill reader c = (received r, { c with assembler := a, readBuffer := held }) := by
  have hparse := c.parseBuffered_eq
  rw [h] at hparse
  rw [readTurn, hparse]
  rcases r with e | e | message <;> rfl

/-- A turn that the buffer does not answer fills it. -/
theorem readTurn_fill {c : Connection} {a : Assembler} {held : Bytes}
    (h : c.cutter.drain feed c.assembler c.readBuffer = (none, a, held)) :
    readTurn fill reader c =
      match fill { c with assembler := a, readBuffer := held } with
      | (.error e, buffer, stream) =>
        (.error (.io e), { c with assembler := a, readBuffer := buffer, stream := stream })
      | (.ok n, buffer, stream) =>
        if n = 0 then
          (concluded none a.closed,
            { c with assembler := a, readBuffer := buffer, stream := stream })
        else reader { c with assembler := a, readBuffer := buffer, stream := stream } := by
  have hparse := c.parseBuffered_eq
  rw [h] at hparse
  rw [readTurn, hparse]
  simp only [Option.elim_none]
  split
  · rfl
  · rw [concluded]
    split
    · split <;> rfl
    · rfl

/-- Draining leaves the rules alone by which frames are cut. -/
theorem cutter_drained {c : Connection} {result : Option (Except Error (Except Error Message))}
    {a : Assembler} {held : Bytes}
    (h : c.cutter.drain feed c.assembler c.readBuffer = (result, a, held)) :
    frameCutter c.role a.limits.maxFrame = c.cutter := by
  have hlimits := drain_limits c.cutter c.assembler c.readBuffer
  rw [h] at hlimits
  rw [cutter, ← hlimits]

/-- A loop that fills the buffer with what arrives reads what arrives. -/
theorem reads_of_turns (hfill : ∀ c : Connection, c.stream.Fills c.readBuffer (fill c))
    (hturn : ∀ c, reader c = readTurn fill reader c) (c : Connection) :
    Reads c.cutter (readArrivals c.cutter c.assembler c.ahead) (reader c) := by
  induction hlen : c.stream.arrivals.length using Nat.strong_induction_on generalizing c with
  | _ len ih =>
    rcases hd : c.cutter.drain feed c.assembler c.readBuffer with ⟨_ | r, a, held⟩
    · have hcutter := cutter_drained hd
      have hagain := c.cutter.drain_none feed hd
      have hfilled := hfill { c with assembler := a, readBuffer := held }
      rw [ahead, readArrivals_drained hd, hturn, readTurn_fill hd]
      generalize fill { c with assembler := a, readBuffer := held } = filled at hfilled
      cases hfilled with
      | @bytes chunk stream hne harrivals =>
        have hpos : chunk.length ≠ 0 := by rwa [ne_eq, List.length_eq_zero_iff]
        have hless : stream.arrivals.length < len := by
          have hall := congrArg List.length harrivals
          rw [List.length_append, List.length_map] at hall
          change c.stream.arrivals.length = _ at hall
          omega
        have hnext := ih _ hless
          { c with assembler := a, readBuffer := held ++ chunk, stream := stream } rfl
        have hahead : held.map .byte ++ c.stream.arrivals =
            (held ++ chunk).map .byte ++ stream.arrivals := by
          rw [List.map_append, List.append_assoc]
          exact congrArg _ harrivals
        simp only [if_neg hpos]
        rw [hahead]
        simp only [cutter, ahead] at hnext
        rw [hcutter] at hnext
        exact hnext
      | @failure e stream harrivals =>
        change c.stream.arrivals = _ at harrivals
        rw [harrivals, readArrivals_mark hagain]
        exact ⟨rfl, rfl, rfl, hcutter⟩
      | @eof stream harrivals =>
        change c.stream.arrivals = _ at harrivals
        rw [harrivals, readArrivals_mark hagain]
        exact ⟨rfl, rfl, rfl, hcutter⟩
      | exhausted harrivals =>
        change c.stream.arrivals = _ at harrivals
        rw [harrivals, readArrivals_exhausted hagain]
        exact ⟨rfl, rfl, congrArg _ harrivals, hcutter⟩
    · rw [hturn, readTurn_buffered hd, ahead, readArrivals_result hd]
      exact ⟨rfl, rfl, rfl, cutter_drained hd⟩

end Loop

/-- Reading straight into the buffer reads what arrives. -/
theorem read_arrivals (c : Connection) :
    Reads c.cutter (readArrivals c.cutter c.assembler c.ahead) c.read :=
  reads_of_turns (fun c => c.stream.readBuf_fills c.readBuffer) read_turn c

/-- Reading by the default reads what arrives, whatever room the buffer has. -/
theorem readDefault_arrivals (spare : Connection → Nat) (c : Connection) :
    Reads c.cutter (readArrivals c.cutter c.assembler c.ahead) (c.readDefault spare) :=
  reads_of_turns (fun c => c.stream.readBufDefault_fills c.readBuffer (spare c))
    (readDefault_turn spare) c

/-- Two connections that have the same ahead of them. -/
structure Level (c c' : Connection) : Prop where
  /-- The rules by which frames are cut. -/
  cutter : c'.cutter = c.cutter
  /-- The assembler. -/
  assembler : c'.assembler = c.assembler
  /-- What is ahead. -/
  ahead : c'.ahead = c.ahead

/-- Two reads of what arrives, from level connections, give the same and leave the
connections level. -/
theorem Level.reads {c c' : Connection} (h : c.Level c')
    {r r' : Except Error (Option Message) × Connection}
    (hr : Reads c.cutter (readArrivals c.cutter c.assembler c.ahead) r)
    (hr' : Reads c'.cutter (readArrivals c'.cutter c'.assembler c'.ahead) r') :
    r'.1 = r.1 ∧ r.2.Level r'.2 := by
  rw [h.cutter, h.assembler, h.ahead] at hr'
  exact ⟨hr'.result.trans hr.result.symm, hr'.cutter.trans hr.cutter.symm,
    hr'.assembler.trans hr.assembler.symm, hr'.ahead.trans hr.ahead.symm⟩

/-- Level connections stay level over any number of reads. -/
theorem Level.after {c c' : Connection} (h : c.Level c') (n : Nat) :
    (c.after n).Level (c'.after n) := by
  induction n generalizing c c' with
  | zero => exact h
  | succ n ih => exact ih (h.reads c.read_arrivals c'.read_arrivals).2

/-- Level connections stay level also if one of them is read by the default. -/
theorem Level.afterDefault {c c' : Connection} (h : c.Level c') (spare : Connection → Nat)
    (n : Nat) : (c.after n).Level (c'.afterDefault spare n) := by
  induction n generalizing c c' with
  | zero => exact h
  | succ n ih => exact ih (h.reads c.read_arrivals (c'.readDefault_arrivals spare)).2

/-- Connections that have the same ahead of them read the same, however it is divided
into reads, wherever reads fail in between, and whether the buffer is filled straight or
by the default with whatever room there is. -/
theorem reads_level {c c' : Connection} (h : c.Level c') (spare : Connection → Nat) (n : Nat) :
    (c'.after n).read.1 = (c.after n).read.1 ∧
      ((c'.afterDefault spare n).readDefault spare).1 = (c.after n).read.1 :=
  ⟨((h.after n).reads (read_arrivals _) (read_arrivals _)).1,
    ((h.afterDefault spare n).reads (read_arrivals _) (readDefault_arrivals spare _)).1⟩

/-- A ping with a failure in the middle of its payload, read with room for two bytes at a
time. -/
theorem reads_level_failure :
    (((new .little 7 ⟨[.ok [0x89, 2, 0x68], .error ⟨104⟩, .ok [0x69]], [], []⟩ .client
      .default).afterDefault (fun _ => 2) 1).readDefault fun _ => 2).1 =
      .ok (some (.ping [0x68, 0x69])) :=
  (@reads_level
    (new .little 7 ⟨[.ok [0x89], .ok [2, 0x68], .error ⟨104⟩, .ok [0x69]], [], []⟩ .client .default)
    (new .little 7 ⟨[.ok [0x89, 2, 0x68], .error ⟨104⟩, .ok [0x69]], [], []⟩ .client .default)
    ⟨rfl, rfl, rfl⟩ (fun _ => 2) 1).2.trans (by decide +kernel)

end Connection

end NagoWss
