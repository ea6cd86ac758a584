import NagoWss.Conn.Gathering
import NagoWss.Conn.Opening

/-!
# What a handshake takes off the stream

A handshake reads a first part of the stream: not more reads than the limit of a head
allows, and not more bytes than the limit and one read. What was read is the head and what
is left over for the connection, so nothing is lost between the two.
-/

namespace NagoWss

/-- The bytes that these reads bring. -/
def broughtBy (outcomes : List (Except Errno Bytes)) : Bytes :=
  (outcomes.filterMap Except.toOption).flatten

@[simp] theorem broughtBy_append (xs ys : List (Except Errno Bytes)) :
    broughtBy (xs ++ ys) = broughtBy xs ++ broughtBy ys := by
  rw [broughtBy, List.filterMap_append, List.flatten_append]
  rfl

@[simp] theorem broughtBy_ok (chunks : List Bytes) :
    broughtBy (chunks.map .ok) = chunks.flatten := by
  rw [broughtBy, List.filterMap_map]
  exact congrArg List.flatten List.filterMap_some

/-- What a handshake has taken off its reads to come: a first part of them, bounded by the
limit of a head and the size of one read. -/
structure TakesHead (maxHead bound : Nat) (incoming taken later : List (Except Errno Bytes)) :
    Prop where
  /-- The reads that were made are the first ones. -/
  first : incoming = taken ++ later
  /-- Each of them but the last one brought a byte of a head within the limit. -/
  reads : taken.length ≤ maxHead + 1
  /-- Only the last one can have gone over the limit. -/
  bytes : (broughtBy taken).length ≤ maxHead + bound

section Gathers

variable {maxHead : Nat} {buffer gathered : Bytes} {incoming later : List (Except Errno Bytes)}

/-- What was gathered is what was there and a number of chunks. -/
theorem Gathers.exists_chunks (h : Gathers maxHead buffer incoming gathered later) (bound : Nat) :
    ∃ chunks : List Bytes, incoming = chunks.map .ok ++ later ∧
      gathered = buffer ++ chunks.flatten ∧ chunks.length ≤ maxHead + 1 - buffer.length ∧
      buffer.length + chunks.length ≤ gathered.length ∧
      ((∀ chunk, .ok chunk ∈ incoming → chunk.length ≤ bound) →
        gathered.length ≤ max buffer.length (maxHead + bound)) := by
  induction h with
  | here buffer later =>
    exact ⟨[], rfl, (List.append_nil _).symm, Nat.zero_le _, Nat.le_refl _,
      fun _ => Nat.le_max_left _ _⟩
  | @chunk buffer gathered chunk incoming later hkeeps hne _ ih =>
    obtain ⟨chunks, hin, hgathered, hcount, hlength, hbytes⟩ := ih
    have hpos := List.length_pos_iff.mpr hne
    have hwithin := hkeeps.within
    rw [List.length_append] at hcount hlength hbytes
    refine ⟨chunk :: chunks, congrArg _ hin, ?_, ?_, ?_, fun hbound => ?_⟩
    · rw [List.flatten_cons, ← List.append_assoc]
      exact hgathered
    · rw [List.length_cons]
      omega
    · rw [List.length_cons]
      omega
    · have hchunk := hbound chunk List.mem_cons_self
      have hrest := hbytes fun x hx => hbound x (List.mem_cons_of_mem _ hx)
      omega

/-- A buffer that was gathered from nothing. -/
theorem Gathers.takesHead (h : Gathers maxHead [] incoming gathered later) {bound : Nat}
    (hbound : ∀ chunk, .ok chunk ∈ incoming → chunk.length ≤ bound) :
    ∃ taken, TakesHead maxHead bound incoming taken later ∧ broughtBy taken = gathered := by
  obtain ⟨chunks, hin, hgathered, hcount, -, hbytes⟩ := h.exists_chunks bound
  rw [List.nil_append] at hgathered
  have hbrought : broughtBy (chunks.map .ok) = gathered := by
    rw [broughtBy_ok, hgathered]
  refine ⟨chunks.map .ok, ⟨hin, ?_, ?_⟩, hbrought⟩
  · rw [List.length_map]
    exact hcount
  · rw [hbrought]
    exact (hbytes hbound).trans (by simp)

/-- A buffer within the limit, and one more read that brings nothing. -/
theorem Gathers.takesHead_last {last : Except Errno Bytes}
    (h : Gathers maxHead [] incoming gathered (last :: later))
    (hkeeps : KeepsReading maxHead gathered) (hlast : broughtBy [last] = []) (bound : Nat) :
    ∃ taken, TakesHead maxHead bound incoming taken later := by
  obtain ⟨chunks, hin, hgathered, -, hlength, -⟩ := h.exists_chunks 0
  have hwithin := hkeeps.within
  rw [List.nil_append] at hgathered
  rw [List.length_nil, Nat.zero_add] at hlength
  refine ⟨chunks.map .ok ++ [last], ?_, ?_, ?_⟩
  · rw [List.append_assoc]
    exact hin
  · rw [List.length_append, List.length_map, List.length_singleton]
    omega
  · rw [broughtBy_append, hlast, List.append_nil, broughtBy_ok, ← hgathered]
    omega

end Gathers

/-- Reading a head takes a bounded first part of the stream, and what it returns is what
was read. -/
theorem readHead_takes (stream : ByteStream) (maxHead bound : Nat)
    (hbound : ∀ chunk, .ok chunk ∈ stream.incoming → chunk.length ≤ bound) :
    ∃ taken later, TakesHead maxHead bound stream.incoming taken later ∧
      (readHead stream maxHead).2 = { stream with incoming := later } ∧
      ∀ head rest, (readHead stream maxHead).1 = .ok (head, rest) →
        head ++ rest = broughtBy taken := by
  obtain ⟨gathered, later, hgathers, hend⟩ := exists_gathers maxHead [] stream.incoming
  obtain ⟨taken, htakes, hbrought⟩ := hgathers.takesHead hbound
  have hloop : readHeadLoop stream maxHead [] = _ := hgathers.readHeadLoop_eq rfl
  cases hstop : headEnd gathered with
  | some stop =>
    rw [readHeadLoop_found hstop] at hloop
    refine ⟨taken, later, htakes, by rw [readHead, hloop], ?_⟩
    rintro head rest hok
    rw [readHead, hloop] at hok
    cases hok
    rw [List.take_append_drop, hbrought]
  | none =>
    by_cases hlarge : gathered.length > maxHead
    · rw [readHeadLoop_large hstop hlarge] at hloop
      refine ⟨taken, later, htakes, by rw [readHead, hloop], ?_⟩
      intro head rest hok
      rw [readHead, hloop] at hok
      cases hok
    · have hkeeps : KeepsReading maxHead gathered := ⟨hstop, Nat.not_lt.mp hlarge⟩
      rcases hend.resolve_left (not_not.mpr hkeeps) with rfl | ⟨rest, rfl⟩ | ⟨e, rest, rfl⟩
      · rw [readHeadLoop_end hstop hlarge rfl] at hloop
        refine ⟨taken, [], htakes, by rw [readHead, hloop], ?_⟩
        intro head rest hok
        rw [readHead, hloop] at hok
        cases hok
      · rw [readHeadLoop_empty hstop hlarge rfl] at hloop
        obtain ⟨taken', htakes'⟩ := hgathers.takesHead_last hkeeps rfl bound
        refine ⟨taken', rest, htakes', by rw [readHead, hloop], ?_⟩
        intro head rest hok
        rw [readHead, hloop] at hok
        cases hok
      · rw [readHeadLoop_error hstop hlarge rfl] at hloop
        obtain ⟨taken', htakes'⟩ := hgathers.takesHead_last hkeeps rfl bound
        refine ⟨taken', rest, htakes', by rw [readHead, hloop], ?_⟩
        intro head rest hok
        rw [readHead, hloop] at hok
        cases hok

/-- What reading a head leaves comes in pieces as before. -/
theorem readHead_brings {stream left : ByteStream} {bytes : Bytes} (hin : stream.Brings bytes)
    {maxHead : Nat} {result : Except Error (Bytes × Bytes)}
    (hread : readHead stream maxHead = (result, left)) : left.Brings left.unread := by
  obtain ⟨chunks, hne, hchunks, -⟩ := hin
  obtain ⟨taken, later, htakes, hleft, -⟩ := readHead_takes stream maxHead chunks.flatten.length
    fun chunk hchunk => by
      rw [hchunks] at hchunk
      obtain ⟨_, hmem, heq⟩ := List.mem_map.mp hchunk
      cases heq
      exact (List.sublist_flatten_of_mem hmem).length_le
  have hfirst := htakes.first
  rw [hread] at hleft
  rw [hchunks] at hfirst
  obtain ⟨chunks₁, chunks₂, rfl, -, hlater⟩ := List.map_eq_append_iff.mp hfirst
  have hincoming : left.incoming = chunks₂.map .ok := by
    rw [hlater, show left = _ from hleft]
  have hne' : ∀ chunk ∈ chunks₂, chunk ≠ [] := fun chunk hchunk =>
    hne chunk (List.mem_append_right _ hchunk)
  have hunread := ByteStream.Brings.unread_eq ⟨chunks₂, hne', hincoming, rfl⟩
  exact ⟨chunks₂, hne', hincoming, hunread.symm⟩

/-- Reading a head writes nothing. -/
theorem readHeadLoop_sameSending (stream : ByteStream) (maxHead : Nat) (buffer : Bytes) :
    stream.SameSending (readHeadLoop stream maxHead buffer).2 := by
  have hread {s s' : ByteStream} {b b' : Bytes} {r : Except Errno Nat}
      (h : s.readBuf b = (r, b', s')) : s.SameSending s' := by
    rw [ByteStream.readBuf] at h
    split at h <;> cases h <;> exact ⟨rfl, rfl⟩
  fun_induction readHeadLoop stream maxHead buffer with
  | case1 | case2 => exact ⟨rfl, rfl⟩
  | case3 stream buffer hnone hsmall e buffer' stream' hr => exact hread hr
  | case4 stream buffer hnone hsmall buffer' stream' hr => exact hread hr
  | case5 stream buffer hnone hsmall n buffer' stream' hr hn ih => exact (hread hr).trans ih

/-! ## Accepting and connecting -/

section Accept

variable (endian : Endian) (seed : UInt64) (stream : ByteStream) (limits : Limits)
  (errorHeaders : List HeaderLine) (select : Request → Option (List Char) × List HeaderLine)

/-- What `accept` can come to. -/
theorem accept_cases : let r := accept endian seed stream limits errorHeaders select
    (∃ e left, readHead stream DEFAULT_MAX_HEAD = (.error e, left) ∧ r = (.error e, left)) ∨
    ∃ head rest left, readHead stream DEFAULT_MAX_HEAD = (.ok (head, rest), left) ∧
      ((∃ error, parseRequest head DEFAULT_MAX_HEAD = .error error ∧
          r = (.error (.upgrade error), (left.writeAll (buildRejection error errorHeaders)).2)) ∨
        (∃ request, parseRequest head DEFAULT_MAX_HEAD = .ok (.plain request) ∧
          r = (.ok (.plain left request rest), left)) ∨
        ∃ request result out, parseRequest head DEFAULT_MAX_HEAD = .ok (.upgrade request) ∧
          left.writeAll (buildResponse request.key (select request).1 (select request).2) =
            (result, out) ∧
          r = match result with
            | .error e => (.error (.io e), out)
            | .ok () => (.ok (.upgraded
                (.withBuffered endian seed out .server limits rest) request), out)) := by
  intro r
  rcases hread : readHead stream DEFAULT_MAX_HEAD with ⟨e | ⟨head, rest⟩, left⟩
  · refine .inl ⟨e, left, rfl, ?_⟩
    simp only [r, accept, hread]
  · refine .inr ⟨head, rest, left, rfl, ?_⟩
    rcases hparse : parseRequest head DEFAULT_MAX_HEAD with error | request | request
    · refine .inl ⟨error, rfl, ?_⟩
      simp only [r, accept, hread, hparse]
    · rcases hwrite : left.writeAll
        (buildResponse request.key (select request).1 (select request).2) with ⟨result, out⟩
      refine .inr (.inr ⟨request, result, out, rfl, hwrite, ?_⟩)
      simp only [r, accept, hread, hparse, hwrite]
      rcases result with e | u
      · rfl
      · rfl
    · refine .inr (.inl ⟨request, rfl, ?_⟩)
      simp only [r, accept, hread, hparse]

/-- A connection that was accepted has what was read past the head, and goes on where
reading the head stopped. -/
theorem accept_upgraded {conn : Connection} {request : Request} {left : ByteStream}
    (h : accept endian seed stream limits errorHeaders select =
      (.ok (.upgraded conn request), left)) :
    ∃ head rest read, readHead stream DEFAULT_MAX_HEAD = (.ok (head, rest), read) ∧
      parseRequest head DEFAULT_MAX_HEAD = .ok (.upgrade request) ∧
      read.writeAll (buildResponse request.key (select request).1 (select request).2) =
        (.ok (), left) ∧
      conn = .withBuffered endian seed left .server limits rest := by
  rcases accept_cases endian seed stream limits errorHeaders select with
    ⟨e, read, hread, hr⟩ | ⟨head, rest, read, hread, ⟨error, hparse, hr⟩ | ⟨request', hparse, hr⟩ |
      ⟨request', result, out, hparse, hwrite, hr⟩⟩
  · rw [h] at hr
    cases hr
  · rw [h] at hr
    cases hr
  · rw [h] at hr
    cases hr
  · rw [h] at hr
    rcases result with e | u
    · cases hr
    · cases hr
      exact ⟨head, rest, read, hread, hparse, hwrite, rfl⟩

/-- A request for no upgrade is handed back with what was read past the head, where reading
the head stopped. -/
theorem accept_plain {rest : ByteStream} {request : Request} {buffered : Bytes}
    {left : ByteStream} (h : accept endian seed stream limits errorHeaders select =
      (.ok (.plain rest request buffered), left)) :
    rest = left ∧ ∃ head, readHead stream DEFAULT_MAX_HEAD = (.ok (head, buffered), left) ∧
      parseRequest head DEFAULT_MAX_HEAD = .ok (.plain request) := by
  rcases accept_cases endian seed stream limits errorHeaders select with
    ⟨e, read, hread, hr⟩ | ⟨head, rest, read, hread, ⟨error, hparse, hr⟩ | ⟨request', hparse, hr⟩ |
      ⟨request', result, out, hparse, hwrite, hr⟩⟩
  · rw [h] at hr
    cases hr
  · rw [h] at hr
    cases hr
  · rw [h] at hr
    cases hr
    exact ⟨rfl, head, hread, hparse⟩
  · rw [h] at hr
    rcases result with e | u
    · cases hr
    · cases hr

/-- What `accept` leaves to be read is what reading the head left. -/
theorem accept_incoming : (accept endian seed stream limits errorHeaders select).2.incoming =
    (readHead stream DEFAULT_MAX_HEAD).2.incoming := by
  rcases accept_cases endian seed stream limits errorHeaders select with
    ⟨e, read, hread, hr⟩ | ⟨head, rest, read, hread, ⟨error, hparse, hr⟩ | ⟨request, hparse, hr⟩ |
      ⟨request, result, out, hparse, hwrite, hr⟩⟩
  · rw [hr, hread]
  · rw [hr, hread]
    exact read.writeAll_incoming _
  · rw [hr, hread]
  · have hincoming := read.writeAll_incoming
      (buildResponse request.key (select request).1 (select request).2)
    rw [hwrite] at hincoming
    rw [hr, hread]
    rcases result with e | u
    · exact hincoming
    · exact hincoming

/-- A server takes a bounded first part of the stream, and hands on what it read behind the
head of the request. -/
theorem accept_takes {bound : Nat}
    (hbound : ∀ chunk, .ok chunk ∈ stream.incoming → chunk.length ≤ bound) :
    ∃ taken, TakesHead DEFAULT_MAX_HEAD bound stream.incoming taken
        (accept endian seed stream limits errorHeaders select).2.incoming ∧
      (∀ conn request left,
        accept endian seed stream limits errorHeaders select =
            (.ok (.upgraded conn request), left) →
          conn.stream = left ∧ ∃ head, parseRequest head DEFAULT_MAX_HEAD = .ok (.upgrade request) ∧
            head ++ conn.readBuffer = broughtBy taken) ∧
      ∀ rest request buffered left,
        accept endian seed stream limits errorHeaders select =
            (.ok (.plain rest request buffered), left) →
          rest = left ∧ ∃ head, parseRequest head DEFAULT_MAX_HEAD = .ok (.plain request) ∧
            head ++ buffered = broughtBy taken := by
  obtain ⟨taken, later, htakes, hread, hbrought⟩ :=
    readHead_takes stream DEFAULT_MAX_HEAD bound hbound
  refine ⟨taken, ?_, ?_, ?_⟩
  · rw [accept_incoming, hread]
    exact htakes
  · intro conn request left h
    obtain ⟨head, rest, read, hhead, hparse, -, rfl⟩ := accept_upgraded _ _ _ _ _ _ h
    rw [hhead] at hbrought
    exact ⟨rfl, head, hparse, hbrought head rest rfl⟩
  · intro rest request buffered left h
    obtain ⟨hsame, head, hhead, hparse⟩ := accept_plain _ _ _ _ _ _ h
    rw [hhead] at hbrought
    exact ⟨hsame, head, hparse, hbrought head buffered rfl⟩

end Accept

section Connect

variable (endian : Endian) (seed : UInt64) (stream : ByteStream) (path host : List Char)
  (protocols : List (List Char)) (headers : List HeaderLine) (entropy : Vector UInt8 16)
  (limits : Limits)

/-- What `connect` can come to. -/
theorem connect_cases :
    let r := connect endian seed stream path host protocols headers entropy limits
    let w := stream.writeAll (buildRequest path host (newKey entropy) protocols headers)
    w.2.incoming = stream.incoming ∧
    ((∃ e, w.1 = .error e ∧ r = (.error (.io e), w.2)) ∨
    (w.1 = .ok () ∧ ∃ e left, readHead w.2 DEFAULT_MAX_HEAD = (.error e, left) ∧
      r = (.error e, left)) ∨
    (w.1 = .ok () ∧ ∃ head rest left, readHead w.2 DEFAULT_MAX_HEAD = (.ok (head, rest), left) ∧
      r = match checkResponse head (newKey entropy) with
        | .error e => (.error (.upgrade e), left)
        | .ok protocol =>
          (.ok (.withBuffered endian seed left .client limits rest, protocol), left))) := by
  intro r w
  refine ⟨stream.writeAll_incoming _, ?_⟩
  rcases hw : stream.writeAll (buildRequest path host (newKey entropy) protocols headers) with
    ⟨e | u, out⟩
  · refine .inl ⟨e, by simp only [w, hw], ?_⟩
    simp only [r, w, connect, hw]
  · rcases hread : readHead out DEFAULT_MAX_HEAD with ⟨e | ⟨head, rest⟩, left⟩
    · refine .inr (.inl ⟨by simp only [w, hw], e, left, by simp only [w, hw, hread], ?_⟩)
      simp only [r, connect, hw, hread]
    · refine .inr (.inr ⟨by simp only [w, hw], head, rest, left, by simp only [w, hw, hread], ?_⟩)
      rcases hcheck : checkResponse head (newKey entropy) with error | protocol
      · simp only [r, connect, hw, hread, hcheck]
      · simp only [r, connect, hw, hread, hcheck]

/-- A connection that was opened has what was read past the head, and goes on where reading
the head stopped. -/
theorem connect_opened {conn : Connection} {protocol : Option (List Char)} {left : ByteStream}
    (h : connect endian seed stream path host protocols headers entropy limits =
      (.ok (conn, protocol), left)) :
    ∃ head rest, readHead (stream.writeAll
          (buildRequest path host (newKey entropy) protocols headers)).2 DEFAULT_MAX_HEAD =
        (.ok (head, rest), left) ∧
      checkResponse head (newKey entropy) = .ok protocol ∧
      conn = .withBuffered endian seed left .client limits rest := by
  obtain ⟨-, ⟨e, -, hr⟩ | ⟨-, e, read, -, hr⟩ | ⟨-, head, rest, read, hread, hr⟩⟩ :=
    connect_cases endian seed stream path host protocols headers entropy limits
  · rw [h] at hr
    cases hr
  · rw [h] at hr
    cases hr
  · rcases hcheck : checkResponse head (newKey entropy) with error | protocol'
    · rw [h, hcheck] at hr
      cases hr
    · rw [h, hcheck] at hr
      cases hr
      exact ⟨head, rest, hread, hcheck, rfl⟩

/-- What `connect` leaves to be read is what was there, if it could not ask, and else what
reading the head left. -/
theorem connect_incoming :
    let r := connect endian seed stream path host protocols headers entropy limits
    let w := stream.writeAll (buildRequest path host (newKey entropy) protocols headers)
    (∃ e, r.1 = .error e ∧ r.2.incoming = stream.incoming) ∨
      r.2.incoming = (readHead w.2 DEFAULT_MAX_HEAD).2.incoming := by
  intro r w
  obtain ⟨hin, ⟨e, -, hr⟩ | ⟨-, e, read, hread, hr⟩ | ⟨-, head, rest, read, hread, hr⟩⟩ :=
    connect_cases endian seed stream path host protocols headers entropy limits
  · exact .inl ⟨.io e, congrArg Prod.fst hr, (congrArg (·.2.incoming) hr).trans hin⟩
  · refine .inr ((congrArg (·.2.incoming) hr).trans ?_)
    rw [hread]
  · refine .inr ((congrArg (·.2.incoming) hr).trans ?_)
    rw [hread]
    rcases checkResponse head (newKey entropy) with error | protocol
    · rfl
    · rfl

/-- A client takes a bounded first part of the stream, and has buffered what it read behind
the head of the response. -/
theorem connect_takes {bound : Nat}
    (hbound : ∀ chunk, .ok chunk ∈ stream.incoming → chunk.length ≤ bound) :
    ∃ taken, TakesHead DEFAULT_MAX_HEAD bound stream.incoming taken
        (connect endian seed stream path host protocols headers entropy limits).2.incoming ∧
      ∀ conn protocol left,
        connect endian seed stream path host protocols headers entropy limits =
            (.ok (conn, protocol), left) →
          conn.stream = left ∧ ∃ head, checkResponse head (newKey entropy) = .ok protocol ∧
            head ++ conn.readBuffer = broughtBy taken := by
  have hin := stream.writeAll_incoming (buildRequest path host (newKey entropy) protocols headers)
  rcases connect_incoming endian seed stream path host protocols headers entropy limits with
    ⟨e, hfails, hsame⟩ | hsame
  · refine ⟨[], ⟨hsame.symm, Nat.zero_le _, Nat.zero_le _⟩, ?_⟩
    intro conn protocol left h
    rw [h] at hfails
    cases hfails
  · rw [← hin] at hbound ⊢
    obtain ⟨taken, later, htakes, hread, hbrought⟩ :=
      readHead_takes _ DEFAULT_MAX_HEAD bound hbound
    refine ⟨taken, ?_, ?_⟩
    · rw [hsame, hread]
      exact htakes
    · intro conn protocol left h
      obtain ⟨head, rest, hhead, hcheck, rfl⟩ := connect_opened _ _ _ _ _ _ _ _ _ h
      rw [hhead] at hbrought
      exact ⟨rfl, head, hcheck, hbrought head rest rfl⟩

end Connect

/-- Whatever the peer sends and however it arrives, a handshake takes a bounded first part of
the stream: at most one read for each byte of the limit and one more, and not more bytes than
the limit and one read. What an open connection has buffered is what was read behind its
head, and it goes on reading where the handshake stopped; a request for no upgrade is handed
back in the same way. -/
theorem handshake_takes (endian : Endian) (seed : UInt64) (stream : ByteStream) (limits : Limits)
    (errorHeaders : List HeaderLine) (select : Request → Option (List Char) × List HeaderLine)
    (path host : List Char) (protocols : List (List Char)) (headers : List HeaderLine)
    (entropy : Vector UInt8 16) (bound : Nat)
    (hbound : ∀ chunk, .ok chunk ∈ stream.incoming → chunk.length ≤ bound) :
    (∃ taken, TakesHead DEFAULT_MAX_HEAD bound stream.incoming taken
        (accept endian seed stream limits errorHeaders select).2.incoming ∧
      (∀ conn request left,
        accept endian seed stream limits errorHeaders select =
            (.ok (.upgraded conn request), left) →
          conn.stream = left ∧ ∃ head, parseRequest head DEFAULT_MAX_HEAD = .ok (.upgrade request) ∧
            head ++ conn.readBuffer = broughtBy taken) ∧
      ∀ rest request buffered left,
        accept endian seed stream limits errorHeaders select =
            (.ok (.plain rest request buffered), left) →
          rest = left ∧ ∃ head, parseRequest head DEFAULT_MAX_HEAD = .ok (.plain request) ∧
            head ++ buffered = broughtBy taken) ∧
    ∃ taken, TakesHead DEFAULT_MAX_HEAD bound stream.incoming taken
        (connect endian seed stream path host protocols headers entropy limits).2.incoming ∧
      ∀ conn protocol left,
        connect endian seed stream path host protocols headers entropy limits =
            (.ok (conn, protocol), left) →
          conn.stream = left ∧ ∃ head, checkResponse head (newKey entropy) = .ok protocol ∧
            head ++ conn.readBuffer = broughtBy taken :=
  ⟨accept_takes endian seed stream limits errorHeaders select hbound,
    connect_takes endian seed stream path host protocols headers entropy limits hbound⟩

/-- One read brings what is behind a single chunk. -/
theorem ofChunks_bound {bytes : Bytes} {bound : Nat} (h : bytes.length ≤ bound) :
    ∀ chunk, .ok chunk ∈ (ByteStream.ofChunks [bytes]).incoming → chunk.length ≤ bound := by
  intro chunk hchunk
  cases List.mem_singleton.mp hchunk
  exact h

/-- A frame of the client is glued to its request, one of the server to its response, and a
byte to a request that asks for no upgrade: each is buffered behind its head. -/
theorem handshake_takes_chat :
    let request := chatOffer.request (newKey (.replicate 16 9)) ++ [0x81, 0x80, 0, 0, 0, 0]
    let response := chatOffer.response (newKey (.replicate 16 9)) takeFirst ++ [0x81, 0x01, 104]
    let health := Utf8.encode "GET /health HTTP/1.1\r\nHost: a\r\n\r\n".toList ++ [0x78]
    let bound := DEFAULT_MAX_HEAD + 6
    (∃ conn asked left taken, accept .little 1 (.ofChunks [request]) .default [] takeFirst =
        (.ok (.upgraded conn asked), left) ∧
      TakesHead DEFAULT_MAX_HEAD bound [.ok request] taken left.incoming ∧ conn.stream = left ∧
      ∃ head, parseRequest head DEFAULT_MAX_HEAD = .ok (.upgrade asked) ∧
        head ++ conn.readBuffer = broughtBy taken) ∧
    (∃ asked left taken, accept .little 1 (.ofChunks [health]) .default [] takeFirst =
        (.ok (.plain left asked [0x78]), left) ∧
      TakesHead DEFAULT_MAX_HEAD bound [.ok health] taken left.incoming ∧
      ∃ head, parseRequest head DEFAULT_MAX_HEAD = .ok (.plain asked) ∧
        head ++ [0x78] = broughtBy taken) ∧
    ∃ conn protocol left taken, connect .little 1 (.ofChunks [response]) chatOffer.path
        chatOffer.host chatOffer.protocols chatOffer.headers (.replicate 16 9) .default =
        (.ok (conn, protocol), left) ∧
      TakesHead DEFAULT_MAX_HEAD bound [.ok response] taken left.incoming ∧ conn.stream = left ∧
      ∃ head, checkResponse head (newKey (.replicate 16 9)) = .ok protocol ∧
        head ++ conn.readBuffer = broughtBy taken := by
  intro request response health bound
  have hrequest : (chatOffer.request (newKey (.replicate 16 9))).length ≤ DEFAULT_MAX_HEAD := by
    decide +kernel
  have hbrings (head : Bytes) (b : UInt8) (behind : Bytes) :
      (ByteStream.ofChunks [head ++ b :: behind]).Brings (head ++ b :: behind) :=
    ⟨[head ++ b :: behind], by simp, rfl, by simp⟩
  have hlong {head : Bytes} (hhead : head.length ≤ DEFAULT_MAX_HEAD) (behind : Bytes)
      (hbehind : behind.length ≤ 6) : (head ++ behind).length ≤ bound := by
    rw [List.length_append]
    exact Nat.add_le_add hhead hbehind
  have htakes {bytes : Bytes} (hbytes : bytes.length ≤ bound) :=
    handshake_takes .little 1 (.ofChunks [bytes]) .default [] takeFirst chatOffer.path
      chatOffer.host chatOffer.protocols chatOffer.headers (.replicate 16 9) bound
      (ofChunks_bound hbytes)
  refine ⟨?_, ?_, ?_⟩
  · obtain ⟨rest, out, haccept, -, -⟩ := accept_request chatOffer (.replicate 16 9) hrequest
      (fun _ h => by cases h) (hbrings _ 0x81 [0x80, 0, 0, 0, 0]) .little 1 .default [] takeFirst
    obtain ⟨⟨taken, hfirst, hupgraded, -⟩, -⟩ := htakes
      (hlong hrequest [0x81, 0x80, 0, 0, 0, 0] (by decide))
    rw [haccept] at hfirst
    exact ⟨_, _, _, taken, haccept, hfirst, hupgraded _ _ _ haccept⟩
  · have hread : readHead (.ofChunks [health]) DEFAULT_MAX_HEAD =
        (.ok (health.take 33, health.drop 33), .ofChunks []) := by
      have hne : health ≠ [] := by decide
      have hstop : headEnd health = some 33 := by decide +kernel
      rw [readHead_chunk _ rfl hne, readHeadLoop_found hstop]
      rfl
    obtain ⟨asked, hparse⟩ : ∃ asked, parseRequest (health.take 33) DEFAULT_MAX_HEAD =
        .ok (.plain asked) :=
      ⟨⟨.get, "/health".toList, [], [], [("Host".toList, "a".toList)]⟩, by decide +kernel⟩
    have haccept : accept .little 1 (.ofChunks [health]) .default [] takeFirst =
        (.ok (.plain (.ofChunks []) asked [0x78]), .ofChunks []) := by
      simp only [accept, hread, hparse]
      rfl
    have hlength : health.length ≤ bound := by decide
    obtain ⟨⟨taken, hfirst, -, hplain⟩, -⟩ := htakes hlength
    rw [haccept] at hfirst
    exact ⟨_, _, taken, haccept, hfirst, (hplain _ _ _ _ haccept).2⟩
  · have hselect : chatOffer.Selected (takeFirst (chatOffer.seen (newKey (.replicate 16 9)))) :=
      ⟨by decide, by decide, by decide⟩
    have hreliable : (ByteStream.ofChunks [response]).Reliable := fun _ h => by cases h
    obtain ⟨rest, out, hconnect, -, -⟩ := connect_response chatOffer (.replicate 16 9)
      hselect.reply length_response_chat hreliable (hbrings _ 0x81 [0x01, 104]) .little 1 .default
    obtain ⟨-, taken, hfirst, hopened⟩ := htakes
      (hlong length_response_chat [0x81, 0x01, 104] (by decide))
    rw [hconnect] at hfirst
    exact ⟨_, _, _, taken, hconnect, hfirst, hopened _ _ _ hconnect⟩
end NagoWss
