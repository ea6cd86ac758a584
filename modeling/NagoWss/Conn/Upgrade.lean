import NagoWss.Conn.Connection

/-!
# Performing the handshake

The opening handshake over a stream: reading a head, accepting a request and
connecting. The bytes that arrive behind a head are kept for whoever reads the
stream next.
-/

namespace NagoWss

/-- The loop of `readHead`, with what was read so far. -/
def readHeadLoop (stream : ByteStream) (maxHead : Nat) (buffer : Bytes) :
    Except Error (Bytes × Bytes) × ByteStream :=
  match headEnd buffer with
  | some stop => (.ok (buffer.take stop, buffer.drop stop), stream)
  | none =>
    if buffer.length > maxHead then (.error (.upgrade .headTooLarge), stream)
    else
      match _hread : stream.readBuf buffer with
      | (.error e, _, stream) => (.error (.io e), stream)
      | (.ok n, buffer, stream) =>
        -- The peer hung up in the middle of the handshake.
        if n = 0 then (.error (.upgrade .malformed), stream)
        else readHeadLoop stream maxHead buffer
termination_by stream.incoming.length
decreasing_by exact ByteStream.readBuf_lt _hread ‹_›

section Loop

variable {stream : ByteStream} {maxHead : Nat} {buffer : Bytes}

theorem readHeadLoop_found {stop : Nat} (h : headEnd buffer = some stop) :
    readHeadLoop stream maxHead buffer = (.ok (buffer.take stop, buffer.drop stop), stream) := by
  rw [readHeadLoop, h]

theorem readHeadLoop_large (h : headEnd buffer = none) (hlarge : buffer.length > maxHead) :
    readHeadLoop stream maxHead buffer = (.error (.upgrade .headTooLarge), stream) := by
  rw [readHeadLoop, h]
  simp only [if_pos hlarge]

theorem readHeadLoop_end (h : headEnd buffer = none) (hsmall : ¬buffer.length > maxHead)
    (hin : stream.incoming = []) :
    readHeadLoop stream maxHead buffer = (.error (.upgrade .malformed), stream) := by
  have hread : stream.readBuf buffer = (.ok 0, buffer, stream) := by
    rw [ByteStream.readBuf, hin]
  rw [readHeadLoop, h]
  simp only [if_neg hsmall]
  split
  · next hr => rw [hread] at hr; cases hr
  · next hr => rw [hread] at hr; cases hr; rfl

theorem readHeadLoop_chunk {chunk : Bytes} {rest : List (Except Errno Bytes)}
    (h : headEnd buffer = none) (hsmall : ¬buffer.length > maxHead)
    (hin : stream.incoming = .ok chunk :: rest) (hne : chunk ≠ []) :
    readHeadLoop stream maxHead buffer =
      readHeadLoop { stream with incoming := rest } maxHead (buffer ++ chunk) := by
  have hread : stream.readBuf buffer =
      (.ok chunk.length, buffer ++ chunk, { stream with incoming := rest }) := by
    rw [ByteStream.readBuf, hin]
  have hlen : ¬chunk.length = 0 := by rwa [List.length_eq_zero_iff]
  rw [readHeadLoop, h]
  simp only [if_neg hsmall]
  split
  · next hr => rw [hread] at hr; cases hr
  · next hr =>
    rw [hread] at hr
    cases hr
    rw [if_neg hlen]

/-- A read of no bytes is the end of the file too. -/
theorem readHeadLoop_empty {rest : List (Except Errno Bytes)} (h : headEnd buffer = none)
    (hsmall : ¬buffer.length > maxHead) (hin : stream.incoming = .ok [] :: rest) :
    readHeadLoop stream maxHead buffer =
      (.error (.upgrade .malformed), { stream with incoming := rest }) := by
  have hread : stream.readBuf buffer = (.ok 0, buffer, { stream with incoming := rest }) := by
    rw [ByteStream.readBuf, hin]
    simp only [List.length_nil, List.append_nil]
  rw [readHeadLoop, h]
  simp only [if_neg hsmall]
  split
  · next hr => rw [hread] at hr; cases hr
  · next hr => rw [hread] at hr; cases hr; rfl

theorem readHeadLoop_error {e : Errno} {rest : List (Except Errno Bytes)}
    (h : headEnd buffer = none) (hsmall : ¬buffer.length > maxHead)
    (hin : stream.incoming = .error e :: rest) : readHeadLoop stream maxHead buffer =
      (.error (.io e), { stream with incoming := rest }) := by
  have hread : stream.readBuf buffer = (.error e, buffer, { stream with incoming := rest }) := by
    rw [ByteStream.readBuf, hin]
  rw [readHeadLoop, h]
  simp only [if_neg hsmall]
  split
  · next hr => rw [hread] at hr; cases hr; rfl
  · next hr => rw [hread] at hr; cases hr

end Loop

/-- Read an HTTP head, returning it and anything read past it. -/
def readHead (stream : ByteStream) (maxHead : Nat) : Except Error (Bytes × Bytes) × ByteStream :=
  readHeadLoop stream maxHead []

/-- What `accept` found on the socket. -/
inductive UpgradeOutcome
  /-- The handshake completed and the connection is live. -/
  | upgraded (conn : Connection) (request : Request)
  /-- A well formed request that did not ask for an upgrade, the stream behind its
  head, and what was read past it. -/
  | plain (stream : ByteStream) (request : Request) (buffered : Bytes)

/-- Accept a connection. The second result is the stream as it was left. -/
def accept (endian : Endian) (seed : UInt64) (stream : ByteStream) (limits : Limits)
    (errorHeaders : List HeaderLine) (select : Request → Option (List Char) × List HeaderLine) :
    Except Error UpgradeOutcome × ByteStream :=
  match readHead stream DEFAULT_MAX_HEAD with
  | (.error e, stream) => (.error e, stream)
  | (.ok (head, rest), stream) =>
    match parseRequest head DEFAULT_MAX_HEAD with
    | .ok (.plain request) => (.ok (.plain stream request rest), stream)
    | .error error =>
      -- A failure to deliver the reason does not change the outcome.
      let (_, stream) := stream.writeAll (buildRejection error errorHeaders)
      (.error (.upgrade error), stream)
    | .ok (.upgrade request) =>
      let (protocol, headers) := select request
      match stream.writeAll (buildResponse request.key protocol headers) with
      | (.error e, stream) => (.error (.io e), stream)
      | (.ok (), stream) =>
        (.ok (.upgraded (.withBuffered endian seed stream .server limits rest) request), stream)

/-- Open a connection to a server. The second result is the stream as it was left. -/
def connect (endian : Endian) (seed : UInt64) (stream : ByteStream) (path host : List Char)
    (protocols : List (List Char)) (headers : List HeaderLine) (entropy : Vector UInt8 16)
    (limits : Limits) : Except Error (Connection × Option (List Char)) × ByteStream :=
  let key := newKey entropy
  match stream.writeAll (buildRequest path host key protocols headers) with
  | (.error e, stream) => (.error (.io e), stream)
  | (.ok (), stream) =>
    match readHead stream DEFAULT_MAX_HEAD with
    | (.error e, stream) => (.error e, stream)
    | (.ok (head, rest), stream) =>
      match checkResponse head key with
      | .error e => (.error (.upgrade e), stream)
      | .ok protocol =>
        (.ok (.withBuffered endian seed stream .client limits rest, protocol), stream)

end NagoWss
