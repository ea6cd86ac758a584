import NagoWss.Conn.Upgrade
import NagoWss.Proto.Head

/-!
# Heads that arrive in pieces

Reading a head looks at the buffer after every read. What it finds there is
settled by the whole stream alone only if no bare blank line stands before the
blank line that is preferred to it, and if the head is found before the limit can
be noticed. Then the same handshake takes place however the bytes arrive;
otherwise some ways of arriving give different heads.
-/

namespace NagoWss

/-! ## Reading a head in pieces -/

namespace ByteStream

/-- The bytes that have not been read. -/
def unread (s : ByteStream) : Bytes := (s.incoming.filterMap Except.toOption).flatten

/-- The reads to come bring these bytes in non-empty pieces, then the end of file. -/
def Brings (s : ByteStream) (bytes : Bytes) : Prop :=
  ∃ chunks : List Bytes, (∀ chunk ∈ chunks, chunk ≠ []) ∧ s.incoming = chunks.map .ok ∧
    chunks.flatten = bytes

/-- What a stream brings is what has not been read. -/
theorem Brings.unread_eq {s : ByteStream} {bytes : Bytes} (h : s.Brings bytes) :
    s.unread = bytes := by
  obtain ⟨chunks, -, hin, rfl⟩ := h
  rw [unread, hin, List.filterMap_map]
  congr 1
  exact List.filterMap_some

end ByteStream

/-- What reading a head gives when one does not ask how much was read past it: the
error, or the head and the bytes behind it. -/
def headAndRest (r : Except Error (Bytes × Bytes) × ByteStream) : Except Error (Bytes × Bytes) :=
  r.1.map fun (head, rest) => (head, rest ++ r.2.unread)

/-- What the whole stream says about its head. -/
def headVerdict (maxHead : Nat) (s : Bytes) : Except Error (Bytes × Bytes) :=
  match headEnd s with
  | some e => .ok (s.take e, s.drop e)
  | none => .error (.upgrade (if s.length > maxHead then .headTooLarge else .malformed))

/-- Two streams that differ in what is to be read only. -/
structure ByteStream.SameSending (s s' : ByteStream) : Prop where
  /-- The bytes written. -/
  sent : s.sent = s'.sent
  /-- The outcomes of the writes to come. -/
  writes : s.writes = s'.writes

theorem ByteStream.SameSending.symm {s s' : ByteStream} (h : s.SameSending s') :
    s'.SameSending s := ⟨h.sent.symm, h.writes.symm⟩

theorem ByteStream.SameSending.trans {s₁ s₂ s₃ : ByteStream} (h : s₁.SameSending s₂)
    (h' : s₂.SameSending s₃) : s₁.SameSending s₃ :=
  ⟨h.sent.trans h'.sent, h.writes.trans h'.writes⟩

/-- Where the head stands out and the loop stops at this buffer, it has found what the
whole stream says. -/
theorem readHeadLoop_stop {maxHead : Nat} {s : Bytes} (h : HeadStandsOut maxHead s)
    {stream : ByteStream} {buffer : Bytes} (hs : buffer ++ stream.unread = s)
    (hstop : headEnd buffer ≠ none ∨ buffer.length > maxHead) :
    headAndRest (readHeadLoop stream maxHead buffer) = headVerdict maxHead s ∧
      (readHeadLoop stream maxHead buffer).2 = stream := by
  have hbuffer : s.take buffer.length = buffer := by
    rw [← hs, List.take_left]
  have hfind := headEnd_take h.preferred buffer.length
  rw [hbuffer] at hfind
  cases hbuf : headEnd buffer with
  | some e =>
    rw [hbuf] at hfind
    obtain ⟨he, hle⟩ := Option.filter_eq_some_iff.mp hfind.symm
    have hle' : e ≤ buffer.length := of_decide_eq_true hle
    rw [readHeadLoop_found hbuf, headVerdict, he, headAndRest]
    refine ⟨?_, rfl⟩
    simp only
    rw [← hs, List.take_append_of_le_length hle', List.drop_append_of_le_length hle']
    rfl
  | none =>
    have hlarge := hstop.resolve_left (not_not.mpr hbuf)
    rw [hbuf] at hfind
    have hnone : headEnd s = none := by
      cases he : headEnd s with
      | none => rfl
      | some e =>
        have hwithin := h.within e he
        rw [he, Option.filter_some, if_pos (decide_eq_true (by omega))] at hfind
        cases hfind
    have hlong : s.length > maxHead := by
      rw [← hs, List.length_append]
      omega
    rw [readHeadLoop_large hbuf hlarge, headVerdict, hnone]
    simp only [if_pos hlong]
    exact ⟨rfl, trivial⟩

/-- Where the head stands out, the loop finds what the whole stream says. -/
theorem readHeadLoop_eq {maxHead : Nat} {s : Bytes} (h : HeadStandsOut maxHead s)
    {stream : ByteStream} {buffer t : Bytes} (hin : stream.Brings t) (hs : buffer ++ t = s) :
    headAndRest (readHeadLoop stream maxHead buffer) = headVerdict maxHead s ∧
      stream.SameSending (readHeadLoop stream maxHead buffer).2 := by
  have hunread := hin.unread_eq
  obtain ⟨chunks, hne, hin, rfl⟩ := hin
  induction chunks generalizing stream buffer with
  | nil =>
    by_cases hstop : headEnd buffer ≠ none ∨ buffer.length > maxHead
    · rw [← hunread] at hs
      obtain ⟨hverdict, hstream⟩ := readHeadLoop_stop h hs hstop
      rw [hstream]
      exact ⟨hverdict, rfl, rfl⟩
    · obtain ⟨hnone, hsmall⟩ := not_or.mp hstop
      rw [List.flatten_nil, List.append_nil] at hs
      subst hs
      rw [readHeadLoop_end (not_not.mp hnone) hsmall hin, headVerdict, not_not.mp hnone]
      simp only [if_neg hsmall]
      exact ⟨rfl, rfl, rfl⟩
  | cons chunk chunks ih =>
    by_cases hstop : headEnd buffer ≠ none ∨ buffer.length > maxHead
    · rw [← hunread] at hs
      obtain ⟨hverdict, hstream⟩ := readHeadLoop_stop h hs hstop
      rw [hstream]
      exact ⟨hverdict, rfl, rfl⟩
    · obtain ⟨hnone, hsmall⟩ := not_or.mp hstop
      rw [readHeadLoop_chunk (not_not.mp hnone) hsmall hin (hne chunk List.mem_cons_self)]
      have hne' : ∀ x ∈ chunks, x ≠ [] := fun x hx => hne x (List.mem_cons_of_mem chunk hx)
      rw [List.flatten_cons, ← List.append_assoc] at hs
      have hrest : ({ stream with incoming := chunks.map .ok } : ByteStream).unread =
          chunks.flatten := ByteStream.Brings.unread_eq ⟨chunks, hne', rfl, rfl⟩
      obtain ⟨hverdict, hsame⟩ := ih hne' rfl hs hrest
      exact ⟨hverdict, hsame.sent, hsame.writes⟩

/-! ## Independence -/

/-- In whatever pieces the bytes arrive, reading a head gives the same error, or the
same head, and behind it stand the bytes that follow it. -/
def HeadIndependent (maxHead : Nat) (s : Bytes) : Prop :=
  ∀ stream stream' : ByteStream, stream.Brings s → stream'.Brings s →
    headAndRest (readHead stream maxHead) = headAndRest (readHead stream' maxHead) ∧
      ∀ head rest, headAndRest (readHead stream maxHead) = .ok (head, rest) → head ++ rest = s

/-- The first read of a head gives its buffer. -/
theorem readHead_chunk {stream : ByteStream} (maxHead : Nat) {chunk : Bytes}
    {rest : List (Except Errno Bytes)} (hin : stream.incoming = .ok chunk :: rest)
    (hne : chunk ≠ []) : readHead stream maxHead =
      readHeadLoop { stream with incoming := rest } maxHead chunk :=
  readHeadLoop_chunk rfl (Nat.not_lt_zero maxHead) hin hne

/-- A stream that arrives at once. -/
theorem readHead_whole (maxHead : Nat) {s : Bytes} (hne : s ≠ []) {e : Nat}
    (he : headEnd s = some e) :
    headAndRest (readHead ⟨[.ok s], [], []⟩ maxHead) = .ok (s.take e, s.drop e) := by
  rw [readHead_chunk maxHead rfl hne, readHeadLoop_found he, headAndRest]
  exact congrArg (fun rest => Except.ok (s.take e, rest)) (List.append_nil _)

/-- A stream cut in two. -/
theorem brings_cut {s : Bytes} {n : Nat} (hpos : 0 < n) (hlt : n < s.length) :
    s.take n ≠ [] ∧
      (⟨[.ok (s.take n), .ok (s.drop n)], [], []⟩ : ByteStream).Brings s := by
  have htake : s.take n ≠ [] := by
    rw [ne_eq, List.take_eq_nil_iff]
    rintro (h | h)
    · omega
    · rw [h] at hlt
      cases hlt
  have hdrop : s.drop n ≠ [] := by
    rw [ne_eq, List.drop_eq_nil_iff]
    omega
  refine ⟨htake, [s.take n, s.drop n], ?_, rfl, by simp⟩
  intro chunk hchunk
  rcases List.mem_pair.mp hchunk with rfl | rfl
  · exact htake
  · exact hdrop

/-- A bare blank line in front of the other one shows when the stream is cut behind it. -/
theorem HeadIndependent.preferred {maxHead : Nat} {s : Bytes} (h : HeadIndependent maxHead s) :
    ∀ c ∈ crlfEnd s, ∀ l ∈ lfEnd s, c ≤ l := by
  intro c hc l hl
  by_contra hlt
  have hcs : c ≤ s.length := Search.firstEnd_le hc
  have hpos : 2 ≤ l := Search.le_firstEnd hl
  have hne : s ≠ [] := by
    rintro rfl
    cases hc
  have he : headEnd s = some c := by
    rw [headEnd_eq, Option.mem_def.mp hc]
    rfl
  have hcut : headEnd (s.take l) = some l := by
    rw [headEnd_eq, crlfEnd, lfEnd, Search.firstEnd_take, Search.firstEnd_take, ← crlfEnd, ← lfEnd,
      Option.mem_def.mp hc, Option.mem_def.mp hl, Option.filter_some, Option.filter_some,
      if_neg (by simpa using hlt), if_pos (by simp)]
    rfl
  obtain ⟨htake, hbrings⟩ := brings_cut (show 0 < l by omega) (show l < s.length by omega)
  have hsame := (h ⟨[.ok s], [], []⟩ _ ⟨[s], by simpa using hne, rfl, by simp⟩ hbrings).1
  rw [readHead_whole maxHead hne he, readHead_chunk maxHead rfl htake, readHeadLoop_found hcut,
    headAndRest, List.take_take] at hsame
  have hlen := congrArg List.length (Prod.mk.inj (Except.ok.inj hsame)).1
  rw [List.length_take, List.length_take] at hlen
  omega

/-- A head that ends behind the limit shows when the limit is noticed before it. -/
theorem HeadIndependent.within {maxHead : Nat} {s : Bytes} (h : HeadIndependent maxHead s) :
    ∀ e ∈ headEnd s, e ≤ maxHead + 1 := by
  intro e he
  by_contra hlt
  have hes : e ≤ s.length := headEnd_le he
  have hne : s ≠ [] := by
    rintro rfl
    cases he
  have hcut : headEnd (s.take (maxHead + 1)) = none := by
    rw [headEnd_take h.preferred, Option.mem_def.mp he, Option.filter_some,
      if_neg (by simpa using hlt)]
  have hlarge : (s.take (maxHead + 1)).length > maxHead := by
    rw [List.length_take]
    omega
  obtain ⟨htake, hbrings⟩ := brings_cut (Nat.succ_pos maxHead)
    (show maxHead + 1 < s.length by omega)
  have hsame := (h ⟨[.ok s], [], []⟩ _ ⟨[s], by simpa using hne, rfl, by simp⟩ hbrings).1
  rw [readHead_whole maxHead hne he, readHead_chunk maxHead rfl htake,
    readHeadLoop_large hcut hlarge] at hsame
  cases hsame

/-- Where the head stands out, reading it gives what the whole stream says. -/
theorem readHead_eq {maxHead : Nat} {s : Bytes} (h : HeadStandsOut maxHead s) {stream : ByteStream}
    (hin : stream.Brings s) : headAndRest (readHead stream maxHead) = headVerdict maxHead s ∧
      stream.SameSending (readHead stream maxHead).2 :=
  readHeadLoop_eq h hin rfl

/-- Reading a head does not depend on the arrival exactly where the head stands out. -/
theorem headIndependent_iff_standsOut (maxHead : Nat) (s : Bytes) :
    HeadIndependent maxHead s ↔ HeadStandsOut maxHead s := by
  constructor
  · exact fun h => ⟨h.preferred, h.within⟩
  · intro h stream stream' hin hin'
    rw [(readHead_eq h hin).1, (readHead_eq h hin').1]
    refine ⟨rfl, fun head rest hok => ?_⟩
    rw [headVerdict] at hok
    split at hok
    · cases hok
      exact List.take_append_drop _ _
    · cases hok

/-! ## Accepting and connecting -/

/-- What `accept` found when one does not ask how much was read past the head: what
was parsed and the bytes behind it. -/
def UpgradeOutcome.found : UpgradeOutcome → Parsed × Bytes
  | .upgraded conn request => (.upgrade request, conn.readBuffer ++ conn.stream.unread)
  | .plain stream request buffered => (.plain request, buffered ++ stream.unread)

/-- The verdict of `accept` and the bytes it has written. -/
def acceptVerdict (r : Except Error UpgradeOutcome × ByteStream) :
    Except Error (Parsed × Bytes) × Bytes :=
  (r.1.map UpgradeOutcome.found, r.2.sent)

/-- The verdict of `connect`, with the bytes behind the head, and the bytes it has
written. -/
def connectVerdict (r : Except Error (Connection × Option (List Char)) × ByteStream) :
    Except Error (Option (List Char) × Bytes) × Bytes :=
  (r.1.map fun (conn, protocol) => (protocol, conn.readBuffer ++ conn.stream.unread), r.2.sent)

/-- Writing depends on the sending side only, and leaves alone what is to be read. -/
theorem ByteStream.SameSending.writeAll_cases {s s' : ByteStream} (h : s.SameSending s')
    (bytes : Bytes) :
    (∃ e out out', s.writeAll bytes = (.error e, out) ∧ s'.writeAll bytes = (.error e, out') ∧
        out.SameSending out') ∨
      ∃ out out', s.writeAll bytes = (.ok (), out) ∧ s'.writeAll bytes = (.ok (), out') ∧
        out.SameSending out' ∧ out.incoming = s.incoming ∧ out'.incoming = s'.incoming := by
  obtain ⟨hsent, hwrites⟩ := h
  rw [ByteStream.writeAll, ByteStream.writeAll, ← hwrites, ← hsent]
  split
  · exact .inr ⟨_, _, rfl, rfl, ⟨rfl, rfl⟩, rfl, rfl⟩
  · exact .inr ⟨_, _, rfl, rfl, ⟨rfl, rfl⟩, rfl, rfl⟩
  · exact .inl ⟨_, _, _, rfl, rfl, rfl, rfl⟩

/-- Two heads that were read alike: the same error, or the same head with the same bytes
behind it. -/
theorem headAndRest_cases {r r' : Except Error (Bytes × Bytes) × ByteStream}
    (h : headAndRest r = headAndRest r') :
    (∃ e, r.1 = .error e ∧ r'.1 = .error e) ∨
      ∃ head rest rest', r.1 = .ok (head, rest) ∧ r'.1 = .ok (head, rest') ∧
        rest ++ r.2.unread = rest' ++ r'.2.unread := by
  obtain ⟨e | ⟨head, rest⟩, stream⟩ := r
  · obtain ⟨e' | ⟨head', rest'⟩, stream'⟩ := r'
    · cases h
      exact .inl ⟨e, rfl, rfl⟩
    · cases h
  · obtain ⟨e' | ⟨head', rest'⟩, stream'⟩ := r'
    · cases h
    · obtain ⟨hhead, hrest⟩ := Prod.mk.inj (Except.ok.inj h)
      exact .inr ⟨head, rest, rest', rfl, by rw [hhead], hrest⟩

/-- Where the head stands out, `accept` says and writes the same however the request
arrives. -/
theorem accept_eq {s : Bytes} (h : HeadStandsOut DEFAULT_MAX_HEAD s) (endian : Endian)
    (seed : UInt64) (limits : Limits) (errorHeaders : List HeaderLine)
    (select : Request → Option (List Char) × List HeaderLine) {stream stream' : ByteStream}
    (hin : stream.Brings s) (hin' : stream'.Brings s) (hsame : stream.SameSending stream') :
    acceptVerdict (accept endian seed stream limits errorHeaders select) =
      acceptVerdict (accept endian seed stream' limits errorHeaders select) := by
  obtain ⟨hhead, hleft⟩ := readHead_eq h hin
  obtain ⟨hhead', hleft'⟩ := readHead_eq h hin'
  have hcases := headAndRest_cases (hhead.trans hhead'.symm)
  have hsending := hleft.symm.trans (hsame.trans hleft')
  clear hhead hhead'
  rcases hr : readHead stream DEFAULT_MAX_HEAD with ⟨r, left⟩
  rcases hr' : readHead stream' DEFAULT_MAX_HEAD with ⟨r', left'⟩
  rw [hr, hr'] at hcases hsending
  rcases hcases with ⟨e, he, he'⟩ | ⟨head, rest, rest', hok, hok', hrest⟩
  · simp only at he he'
    subst he he'
    simp only [accept, hr, hr', acceptVerdict]
    rw [hsending.sent]
  · simp only at hok hok' hrest hsending
    subst hok hok'
    simp only [accept, hr, hr']
    rcases parseRequest head DEFAULT_MAX_HEAD with error | request | request
    · rcases hsending.writeAll_cases (buildRejection error errorHeaders) with
        ⟨e, out, out', hw, hw', hout⟩ | ⟨out, out', hw, hw', hout, -, -⟩
      · simp only [hw, hw', acceptVerdict]
        rw [hout.sent]
      · simp only [hw, hw', acceptVerdict]
        rw [hout.sent]
    · rcases hsending.writeAll_cases
        (buildResponse request.key (select request).1 (select request).2) with
        ⟨e, out, out', hw, hw', hout⟩ | ⟨out, out', hw, hw', hout, hincoming, hincoming'⟩
      · simp only [hw, hw', acceptVerdict]
        rw [hout.sent]
      · simp only [hw, hw', acceptVerdict, Except.map, UpgradeOutcome.found,
          Connection.withBuffered, ByteStream.unread, hincoming, hincoming']
        rw [← ByteStream.unread, ← ByteStream.unread, hrest, hout.sent]
    · simp only [acceptVerdict, Except.map, UpgradeOutcome.found]
      rw [hrest, hsending.sent]

/-- Where the head stands out, `connect` says and writes the same however the answer
arrives. -/
theorem connect_eq {s : Bytes} (h : HeadStandsOut DEFAULT_MAX_HEAD s) (endian : Endian)
    (seed : UInt64) (path host : List Char) (protocols : List (List Char))
    (headers : List HeaderLine) (entropy : Vector UInt8 16) (limits : Limits)
    {stream stream' : ByteStream} (hin : stream.Brings s) (hin' : stream'.Brings s)
    (hsame : stream.SameSending stream') :
    connectVerdict (connect endian seed stream path host protocols headers entropy limits) =
      connectVerdict (connect endian seed stream' path host protocols headers entropy limits) := by
  rcases hsame.writeAll_cases (buildRequest path host (newKey entropy) protocols headers) with
    ⟨e, out, out', hw, hw', hout⟩ | ⟨out, out', hw, hw', hout, hincoming, hincoming'⟩
  · simp only [connect, hw, hw', connectVerdict]
    rw [hout.sent]
  · rw [ByteStream.Brings, ← hincoming] at hin
    rw [ByteStream.Brings, ← hincoming'] at hin'
    obtain ⟨hhead, hleft⟩ := readHead_eq h hin
    obtain ⟨hhead', hleft'⟩ := readHead_eq h hin'
    have hcases := headAndRest_cases (hhead.trans hhead'.symm)
    have hsending := hleft.symm.trans (hout.trans hleft')
    clear hhead hhead'
    rcases hr : readHead out DEFAULT_MAX_HEAD with ⟨r, left⟩
    rcases hr' : readHead out' DEFAULT_MAX_HEAD with ⟨r', left'⟩
    rw [hr, hr'] at hcases hsending
    rcases hcases with ⟨e, he, he'⟩ | ⟨head, rest, rest', hok, hok', hrest⟩
    · simp only at he he'
      subst he he'
      simp only [connect, hw, hw', hr, hr', connectVerdict]
      rw [hsending.sent]
    · simp only at hok hok' hrest hsending
      subst hok hok'
      simp only [connect, hw, hw', hr, hr']
      rcases checkResponse head (newKey entropy) with error | protocol
      · simp only [connectVerdict]
        rw [hsending.sent]
      · simp only [connectVerdict, Except.map, Connection.withBuffered]
        rw [hrest, hsending.sent]

/-- Reading a head does not depend on how the bytes arrive exactly where the head
stands out, and there neither do `accept` and `connect`. -/
theorem headIndependent_iff (maxHead : Nat) (s : Bytes) :
    (HeadIndependent maxHead s ↔ HeadStandsOut maxHead s) ∧
      (HeadStandsOut DEFAULT_MAX_HEAD s → ∀ stream stream' : ByteStream, stream.Brings s →
        stream'.Brings s → stream.SameSending stream' →
          (∀ endian seed limits errorHeaders select,
            acceptVerdict (accept endian seed stream limits errorHeaders select) =
              acceptVerdict (accept endian seed stream' limits errorHeaders select)) ∧
          ∀ endian seed path host protocols headers entropy limits,
            connectVerdict (connect endian seed stream path host protocols headers entropy limits) =
              connectVerdict
                (connect endian seed stream' path host protocols headers entropy limits)) :=
  ⟨headIndependent_iff_standsOut maxHead s, fun h _ _ hin hin' hsame =>
    ⟨fun endian seed limits errorHeaders select =>
      accept_eq h endian seed limits errorHeaders select hin hin' hsame,
    fun endian seed path host protocols headers entropy limits =>
      connect_eq h endian seed path host protocols headers entropy limits hin hin' hsame⟩⟩

/-- A request with bare line ends, and bytes behind it. -/
theorem headIndependent_iff_bare :
    HeadIndependent 100 (Utf8.encode "GET / HTTP/1.1\nHost: a\n\nHost: b\n\n".toList) :=
  (headIndependent_iff 100 _).1.mpr (by decide +kernel)

/-- Two requests, the first with bare line ends: read at once they are one head, cut
behind the first they are two. -/
theorem pipelined_heads_differ :
    let first := Utf8.encode "GET /a HTTP/1.1\nHost: a\n\n".toList
    let second := Utf8.encode "GET /b HTTP/1.1\r\nHost: b\r\n\r\n".toList
    headAndRest (readHead (.ofChunks [first ++ second]) 100) = .ok (first ++ second, []) ∧
      headAndRest (readHead (.ofChunks [first, second]) 100) = .ok (first, second) ∧
      ¬HeadIndependent 100 (first ++ second) := by
  intro first second
  have hwhole : headEnd (first ++ second) = some 53 := by decide +kernel
  have hfirst : headEnd first = some 25 := by decide +kernel
  refine ⟨?_, ?_, ?_⟩
  · exact (readHead_whole 100 (by decide +kernel) hwhole).trans (by decide +kernel)
  · rw [readHead_chunk 100 rfl (by decide +kernel), readHeadLoop_found hfirst]
    decide +kernel
  · rw [headIndependent_iff_standsOut]
    decide +kernel

end NagoWss
