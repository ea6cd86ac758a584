import NagoWss.Conn.Upgrade

/-!
# What reading a head comes to

Reading a head goes on as long as the buffer has no blank line in it and is within the
limit. It comes to an end in one of four ways: a head has arrived, the buffer is over
the limit, the peer has hung up, or a read has failed.
-/

namespace NagoWss

/-- Reading goes on with this buffer: no head ends in it, and it is within the limit. -/
structure KeepsReading (maxHead : Nat) (buffer : Bytes) : Prop where
  /-- No head ends in the buffer. -/
  noEnd : headEnd buffer = none
  /-- The buffer is within the limit. -/
  within : buffer.length ≤ maxHead

instance (maxHead : Nat) (buffer : Bytes) : Decidable (KeepsReading maxHead buffer) :=
  decidable_of_iff (headEnd buffer = none ∧ buffer.length ≤ maxHead)
    ⟨fun h => ⟨h.1, h.2⟩, fun h => ⟨h.noEnd, h.within⟩⟩

/-- Reading comes from one buffer, with these reads to come, to another one: as long as
it goes on it takes in the next chunk. -/
inductive Gathers (maxHead : Nat) :
    Bytes → List (Except Errno Bytes) → Bytes → List (Except Errno Bytes) → Prop
  /-- It is there. -/
  | here (buffer : Bytes) (later : List (Except Errno Bytes)) :
      Gathers maxHead buffer later buffer later
  /-- It takes in a chunk, and goes on from there. -/
  | chunk {buffer gathered chunk : Bytes} {incoming later : List (Except Errno Bytes)}
      (hkeeps : KeepsReading maxHead buffer) (hne : chunk ≠ [])
      (h : Gathers maxHead (buffer ++ chunk) incoming gathered later) :
      Gathers maxHead buffer (.ok chunk :: incoming) gathered later

/-- A head arrives: it ends in the buffer that reading comes to. -/
def HeadArrives (maxHead : Nat) (incoming : List (Except Errno Bytes)) (head : Bytes) : Prop :=
  ∃ buffer later stop, Gathers maxHead [] incoming buffer later ∧ headEnd buffer = some stop ∧
    head = buffer.take stop

/-- The reads bring more than the limit before a head ends in them. -/
def Overfull (maxHead : Nat) (incoming : List (Except Errno Bytes)) : Prop :=
  ∃ buffer later, Gathers maxHead [] incoming buffer later ∧ headEnd buffer = none ∧
    maxHead < buffer.length

/-- The peer hangs up in the middle of a head. -/
def HangsUp (maxHead : Nat) (incoming : List (Except Errno Bytes)) : Prop :=
  ∃ buffer later, Gathers maxHead [] incoming buffer later ∧ KeepsReading maxHead buffer ∧
    (later = [] ∨ ∃ rest, later = .ok [] :: rest)

/-- A read fails in the middle of a head. -/
def ReadFails (maxHead : Nat) (incoming : List (Except Errno Bytes)) (e : Errno) : Prop :=
  ∃ buffer later, Gathers maxHead [] incoming buffer (.error e :: later) ∧
    KeepsReading maxHead buffer

/-! ## How reading ends -/

section Gathers

variable {maxHead : Nat} {buffer gathered : Bytes} {incoming later : List (Except Errno Bytes)}

/-- The loop comes to the buffers that reading comes to. -/
theorem Gathers.readHeadLoop_eq (h : Gathers maxHead buffer incoming gathered later)
    {stream : ByteStream} (hin : stream.incoming = incoming) :
    readHeadLoop stream maxHead buffer =
      readHeadLoop { stream with incoming := later } maxHead gathered := by
  induction h generalizing stream with
  | here buffer later => rw [ByteStream.with_incoming hin]
  | chunk hkeeps hne _ ih =>
    rw [readHeadLoop_chunk hkeeps.noEnd (Nat.not_lt.mpr hkeeps.within) hin hne, ih rfl]

/-- Reading comes to a buffer with which it does not go on, or to reads that bring no
more bytes. -/
theorem exists_gathers (maxHead : Nat) (buffer : Bytes) (incoming : List (Except Errno Bytes)) :
    ∃ gathered later, Gathers maxHead buffer incoming gathered later ∧
      (¬KeepsReading maxHead gathered ∨ later = [] ∨ (∃ rest, later = .ok [] :: rest) ∨
        ∃ e rest, later = .error e :: rest) := by
  induction incoming generalizing buffer with
  | nil => exact ⟨buffer, [], .here buffer [], .inr (.inl rfl)⟩
  | cons outcome incoming ih =>
    by_cases hkeeps : KeepsReading maxHead buffer
    · match outcome with
      | .error e => exact ⟨buffer, _, .here buffer _, .inr (.inr (.inr ⟨e, incoming, rfl⟩))⟩
      | .ok [] => exact ⟨buffer, _, .here buffer _, .inr (.inr (.inl ⟨incoming, rfl⟩))⟩
      | .ok (b :: chunk) =>
        obtain ⟨gathered, later, h, hend⟩ := ih (buffer ++ b :: chunk)
        exact ⟨gathered, later, .chunk hkeeps (List.cons_ne_nil b chunk) h, hend⟩
    · exact ⟨buffer, _, .here buffer _, .inl hkeeps⟩

end Gathers

section ReadHead

variable {stream : ByteStream} {maxHead : Nat}

/-- A head that arrives is read. -/
theorem HeadArrives.readHead_eq {head : Bytes} (h : HeadArrives maxHead stream.incoming head) :
    ∃ rest later, readHead stream maxHead =
      (.ok (head, rest), { stream with incoming := later }) := by
  obtain ⟨buffer, later, stop, hgathers, hstop, rfl⟩ := h
  refine ⟨buffer.drop stop, later, ?_⟩
  rw [readHead, hgathers.readHeadLoop_eq rfl, readHeadLoop_found hstop]

/-- Too many bytes are noticed. -/
theorem Overfull.readHead_eq (h : Overfull maxHead stream.incoming) :
    ∃ later, readHead stream maxHead =
      (.error (.upgrade .headTooLarge), { stream with incoming := later }) := by
  obtain ⟨buffer, later, hgathers, hnone, hlarge⟩ := h
  refine ⟨later, ?_⟩
  rw [readHead, hgathers.readHeadLoop_eq rfl, readHeadLoop_large hnone hlarge]

/-- A peer that hangs up has sent a malformed head. -/
theorem HangsUp.readHead_eq (h : HangsUp maxHead stream.incoming) :
    ∃ later, readHead stream maxHead =
      (.error (.upgrade .malformed), { stream with incoming := later }) := by
  obtain ⟨buffer, later, hgathers, hkeeps, rfl | ⟨rest, rfl⟩⟩ := h
  · refine ⟨[], ?_⟩
    rw [readHead, hgathers.readHeadLoop_eq rfl,
      readHeadLoop_end hkeeps.noEnd (Nat.not_lt.mpr hkeeps.within) rfl]
  · refine ⟨rest, ?_⟩
    rw [readHead, hgathers.readHeadLoop_eq rfl,
      readHeadLoop_empty hkeeps.noEnd (Nat.not_lt.mpr hkeeps.within) rfl]

/-- A read that fails is reported. -/
theorem ReadFails.readHead_eq {e : Errno} (h : ReadFails maxHead stream.incoming e) :
    ∃ later, readHead stream maxHead = (.error (.io e), { stream with incoming := later }) := by
  obtain ⟨buffer, later, hgathers, hkeeps⟩ := h
  refine ⟨later, ?_⟩
  rw [readHead, hgathers.readHeadLoop_eq rfl,
    readHeadLoop_error hkeeps.noEnd (Nat.not_lt.mpr hkeeps.within) rfl]

/-- Reading a head ends in one of four ways. -/
theorem headArrives_or (maxHead : Nat) (incoming : List (Except Errno Bytes)) :
    (∃ head, HeadArrives maxHead incoming head) ∨ Overfull maxHead incoming ∨
      HangsUp maxHead incoming ∨ ∃ e, ReadFails maxHead incoming e := by
  obtain ⟨buffer, later, hgathers, hend⟩ := exists_gathers maxHead [] incoming
  cases hstop : headEnd buffer with
  | some stop => exact .inl ⟨_, buffer, later, stop, hgathers, hstop, rfl⟩
  | none =>
    by_cases hlarge : maxHead < buffer.length
    · exact .inr (.inl ⟨buffer, later, hgathers, hstop, hlarge⟩)
    · have hkeeps : KeepsReading maxHead buffer := ⟨hstop, Nat.not_lt.mp hlarge⟩
      rcases hend.resolve_left (not_not.mpr hkeeps) with rfl | ⟨rest, rfl⟩ | ⟨e, rest, rfl⟩
      · exact .inr (.inr (.inl ⟨buffer, [], hgathers, hkeeps, .inl rfl⟩))
      · exact .inr (.inr (.inl ⟨buffer, _, hgathers, hkeeps, .inr ⟨rest, rfl⟩⟩))
      · exact .inr (.inr (.inr ⟨e, buffer, rest, hgathers, hkeeps⟩))

/-- A head that is read has arrived. -/
theorem headArrives_of_readHead {head rest : Bytes} {left : ByteStream}
    (h : readHead stream maxHead = (.ok (head, rest), left)) :
    HeadArrives maxHead stream.incoming head := by
  rcases headArrives_or maxHead stream.incoming with
    ⟨head', harrives⟩ | hover | hhang | ⟨e, hfails⟩
  · obtain ⟨rest', later, hread⟩ := harrives.readHead_eq
    rw [h] at hread
    cases hread
    exact harrives
  · obtain ⟨later, hread⟩ := hover.readHead_eq
    rw [h] at hread
    cases hread
  · obtain ⟨later, hread⟩ := hhang.readHead_eq
    rw [h] at hread
    cases hread
  · obtain ⟨later, hread⟩ := hfails.readHead_eq
    rw [h] at hread
    cases hread

/-- One head arrives at most. -/
theorem HeadArrives.unique {incoming : List (Except Errno Bytes)} {head head' : Bytes}
    (h : HeadArrives maxHead incoming head) (h' : HeadArrives maxHead incoming head') :
    head = head' := by
  obtain ⟨rest, later, hread⟩ := @HeadArrives.readHead_eq ⟨incoming, [], []⟩ maxHead head h
  obtain ⟨rest', later', hread'⟩ := @HeadArrives.readHead_eq ⟨incoming, [], []⟩ maxHead head' h'
  rw [hread] at hread'
  cases hread'
  rfl

/-- A peer that sends too much has not hung up. -/
theorem Overfull.not_hangsUp {incoming : List (Except Errno Bytes)}
    (h : Overfull maxHead incoming) : ¬HangsUp maxHead incoming := by
  intro hhang
  obtain ⟨later, hread⟩ := @Overfull.readHead_eq ⟨incoming, [], []⟩ maxHead h
  obtain ⟨later', hread'⟩ := @HangsUp.readHead_eq ⟨incoming, [], []⟩ maxHead hhang
  rw [hread] at hread'
  cases hread'

end ReadHead

end NagoWss
