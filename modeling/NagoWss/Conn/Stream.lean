import NagoWss.Proto.OpCode

/-!
# The transport

A byte stream as a connection sees it: what its next reads and writes will
report, and the bytes that went out so far. How the incoming bytes are divided
into reads is part of the stream, and nothing above may depend on it.
-/

namespace NagoWss

/-- What a failed read or write reports. -/
structure Errno where
  /-- The system's error number. -/
  code : Int
  deriving DecidableEq, Repr

/-- Somewhere to read bytes from and write them to. -/
structure ByteStream where
  /-- The outcomes of the reads to come; behind the last one is the end of file. -/
  incoming : List (Except Errno Bytes)
  /-- The bytes written. -/
  sent : Bytes
  /-- The outcomes of the writes to come, a failure with the number of bytes that
  still went out; behind the last one every write succeeds. -/
  writes : List (Option (Errno × Nat))

namespace ByteStream

/-- A stream whose writes succeed and which reads these chunks. -/
def ofChunks (chunks : List Bytes) : ByteStream := ⟨chunks.map .ok, [], []⟩

/-- Read what has arrived behind the bytes of a buffer, returning how many bytes
were read. No bytes means the end of the file. -/
def readBuf (s : ByteStream) (buffer : Bytes) : Except Errno Nat × Bytes × ByteStream :=
  match s.incoming with
  | [] => (.ok 0, buffer, s)
  | .error e :: rest => (.error e, buffer, { s with incoming := rest })
  | .ok chunk :: rest => (.ok chunk.length, buffer ++ chunk, { s with incoming := rest })

/-- A read that got something has used up one of the outcomes to come. -/
theorem readBuf_lt {s s' : ByteStream} {buffer buffer' : Bytes} {n : Nat}
    (h : s.readBuf buffer = (.ok n, buffer', s')) (hn : n ≠ 0) :
    s'.incoming.length < s.incoming.length := by
  rcases hin : s.incoming with _ | ⟨e | chunk, rest⟩
  · rw [readBuf, hin] at h
    cases h
    exact absurd rfl hn
  · rw [readBuf, hin] at h
    cases h
  · rw [readBuf, hin] at h
    cases h
    exact Nat.lt_succ_self _

theorem with_incoming {s : ByteStream} {incoming : List (Except Errno Bytes)}
    (h : s.incoming = incoming) : ({ s with incoming := incoming } : ByteStream) = s := by
  rw [← h]

/-- Write all of a byte string. -/
def writeAll (s : ByteStream) (bytes : Bytes) : Except Errno Unit × ByteStream :=
  match s.writes with
  | [] => (.ok (), { s with sent := s.sent ++ bytes })
  | none :: rest => (.ok (), { s with sent := s.sent ++ bytes, writes := rest })
  | some (e, n) :: rest => (.error e, { s with sent := s.sent ++ bytes.take n, writes := rest })

/-- Write a header and a payload as one unit. -/
def writeAllVectored (s : ByteStream) (header payload : Bytes) : Except Errno Unit × ByteStream :=
  s.writeAll (header ++ payload)

/-- A write that succeeds has put its bytes on the wire, and touches nothing else. -/
theorem writeAll_ok {s s' : ByteStream} {bytes : Bytes} (h : s.writeAll bytes = (.ok (), s')) :
    s'.sent = s.sent ++ bytes ∧ s'.incoming = s.incoming := by
  rw [writeAll] at h
  split at h
  · cases h
    exact ⟨rfl, rfl⟩
  · cases h
    exact ⟨rfl, rfl⟩
  · cases h

/-- Writing leaves alone what is to be read, also if it fails. -/
theorem writeAll_incoming (s : ByteStream) (bytes : Bytes) :
    (s.writeAll bytes).2.incoming = s.incoming := by
  rw [writeAll]
  split <;> rfl

/-- No write to come will fail. -/
def Reliable (s : ByteStream) : Prop := ∀ outcome ∈ s.writes, outcome = none

/-- A write to a reliable stream succeeds. -/
theorem Reliable.writeAll {s : ByteStream} (h : s.Reliable) (bytes : Bytes) :
    (s.writeAll bytes).1 = .ok () ∧ (s.writeAll bytes).2.Reliable := by
  rw [ByteStream.writeAll]
  split
  · exact ⟨rfl, h⟩
  · next rest hrest =>
    exact ⟨rfl, fun outcome houtcome => h outcome (hrest ▸ List.mem_cons_of_mem none houtcome)⟩
  · next e n rest hrest =>
    cases h (some (e, n)) (hrest ▸ List.mem_cons_self)

end ByteStream

end NagoWss
