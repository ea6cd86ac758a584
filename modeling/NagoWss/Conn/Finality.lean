import Mathlib.Algebra.Group.Action.Defs
import Mathlib.Algebra.Order.BigOperators.Group.List
import NagoWss.Conn.Allocation
import NagoWss.Conn.Relaying

/-!
# What reading comes to

Reading a finite stream settles: behind a number of results that its length bounds every
read reports the same verdict, and what was delivered was paid for by bytes of the stream.
Results are final. A stream that is cut short gives the same results up to the end of the
file, and a reader with larger limits gives the same results up to the first refusal for
size.
-/

namespace NagoWss

open Framing

/-! ## The reference as draining -/

/-- The results of a whole stream are what draining it again and again comes to. -/
theorem reference_eq_concluded (role : Role) (limits : Limits) (s : Bytes) (n : Nat) :
    reference role limits s n =
      let d := (frameCutter role limits.maxFrame).drainAt feed (.new limits) s n
      Connection.concluded d.1 d.2.closed := by
  have heq := (frameCutter role limits.maxFrame).drainAt_eq feed (.new limits) s n
  simp only [reference]
  rw [heq]
  cases hout : (Cutter.outputs feed (.new limits)
      ((frameCutter role limits.maxFrame).parse s).items).1[n]? with
  | some result => cases result <;> rfl
  | none =>
    have hstate := (frameCutter role limits.maxFrame).drainAt_state feed (.new limits) s
      (List.getElem?_eq_none_iff.mp hout)
    rw [hstate]
    cases ((frameCutter role limits.maxFrame).parse s).fault <;> rfl

/-- The results by which a read reports the end of the file. -/
def IsEof (result : Except Error (Option Message)) : Prop :=
  result = .ok none ∨ result = .error .unexpectedEof

/-- At the end of the file nothing can be drained. -/
theorem isEof_of_drainAt_none {role : Role} {limits : Limits} {s : Bytes} {n : Nat}
    (h : ((frameCutter role limits.maxFrame).drainAt feed (.new limits) s n).1 = none) :
    IsEof (reference role limits s n) := by
  rw [reference_eq_concluded]
  simp only [h, Connection.concluded]
  split
  · exact .inl rfl
  · exact .inr rfl

/-! ## Delivery is paid for -/

/-- The least room that a frame takes on its way to a reader of this role. -/
def minFrame : Role → Nat
  | .client => 2
  | .server => 6

theorem minFrame_le {role : Role} {h : Header} (hmask : h.mask.isSome = (role = .server)) :
    minFrame role ≤ h.encodedLen := by
  cases role with
  | client => exact h.encodedLen_bounds.1
  | server =>
    have hsome : h.mask.isSome = true := by rw [hmask]
    rw [Header.encodedLen, hsome, minFrame]
    simp only [if_true]
    omega

namespace Assembler

/-- The bytes of the message in progress. -/
def partialLength (a : Assembler) : Nat := a.partialMessage.elim 0 fun p => p.2.length

/-- What a step holds and what it delivers is no more than this many bytes. -/
def PaidBy (n : Nat) (r : Except ProtocolError (Option Message) × Assembler) : Prop :=
  r.2.partialLength ≤ n ∧
    ∀ m, r.1 = .ok (some m) → r.2.partialLength + (Connection.frameOf m).2.length ≤ n

variable {a : Assembler}

/-- A completed message is as long as its payload. -/
theorem finishUnfragmented_length {kind : DataKind} {payload : Bytes} {m : Message}
    (h : (finishUnfragmented kind payload).map some = .ok (some m)) :
    (Connection.frameOf m).2 = payload := by
  cases kind with
  | binary =>
    cases h
    rfl
  | text =>
    rw [finishUnfragmented] at h
    split at h
    · cases h
    · cases h
      rfl

/-- A step that delivers nothing and leaves the message in progress alone. -/
theorem paidBy_silent {r : Except ProtocolError (Option Message)} (hr : ∀ m, r ≠ .ok (some m))
    (n : Nat) : PaidBy (a.partialLength + n) (r, a) :=
  ⟨Nat.le_add_right _ _, fun m hm => absurd hm (hr m)⟩

theorem acceptContinuation_paidBy (a : Assembler) (fin : Bool) (payload : Bytes) :
    PaidBy (a.partialLength + payload.length) (a.acceptContinuation fin payload) := by
  rw [acceptContinuation]
  split
  · exact paidBy_silent (by simp) _
  · next kind buffer hpartial =>
    have hheld : a.partialLength = buffer.length := by
      rw [partialLength, hpartial]
      rfl
    split
    · exact paidBy_silent (by simp) _
    · rw [hheld, ← List.length_append]
      simp only
      split
      · exact ⟨Nat.le_refl _, fun m hm => by cases hm⟩
      · refine ⟨Nat.zero_le _, fun m hm => ?_⟩
        rw [finishUnfragmented_length hm]
        exact Nat.le_of_eq (Nat.zero_add _)

theorem acceptData_paidBy (a : Assembler) (kind : DataKind) (fin : Bool) (payload : Bytes) :
    PaidBy (a.partialLength + payload.length) (a.acceptData kind fin payload) := by
  rw [acceptData]
  split
  · exact paidBy_silent (by simp) _
  · split
    · exact paidBy_silent (by simp) _
    · split
      · refine ⟨Nat.le_add_right _ _, fun m hm => ?_⟩
        rw [finishUnfragmented_length hm]
      · exact ⟨Nat.le_add_left _ _, fun m hm => by cases hm⟩

/-- Whatever a frame does, it pays for it with its payload. -/
theorem accept_paidBy (a : Assembler) (f : Frame) :
    PaidBy (a.partialLength + f.payload.length) (a.accept f) := by
  obtain ⟨opcode, fin, payload⟩ := f
  cases hc : a.closed with
  | true =>
    rw [accept_closed _ hc]
    exact paidBy_silent (by simp) _
  | false =>
    cases opcode with
    | continuation =>
      rw [accept_continuation fin payload hc]
      exact a.acceptContinuation_paidBy fin payload
    | text =>
      have ha := accept_data .text fin payload hc
      exact ha ▸ a.acceptData_paidBy .text fin payload
    | binary =>
      have ha := accept_data .binary fin payload hc
      exact ha ▸ a.acceptData_paidBy .binary fin payload
    | ping =>
      rw [accept_ping fin payload hc]
      refine ⟨Nat.le_add_right _ _, fun m hm => ?_⟩
      cases hm
      exact Nat.le_refl _
    | pong =>
      rw [accept_pong fin payload hc]
      refine ⟨Nat.le_add_right _ _, fun m hm => ?_⟩
      cases hm
      exact Nat.le_refl _
    | close =>
      rw [accept_close fin payload hc]
      refine ⟨Nat.le_add_right _ _, fun m hm => ?_⟩
      cases hparse : parseCloseBody payload with
      | error e =>
        rw [hparse] at hm
        cases hm
      | ok content =>
        rw [hparse] at hm
        cases hm
        rw [(frameOf_close hparse).2]
        exact Nat.le_refl _

end Assembler

/-- What a result takes off the stream: a whole frame. -/
def taken (role : Role) : Except Error Message → Nat
  | .ok m => minFrame role + (Connection.frameOf m).2.length
  | .error _ => minFrame role

/-- A frame pays for what feeding it to the assembler holds and delivers. -/
theorem feed_paid {role : Role} {maxFrame : UInt64} {s : Bytes} {f : Frame} {n : Nat}
    (a : Assembler) (h : (frameCutter role maxFrame).cut s = .item f n) :
    (feed a f).1.partialLength + ((feed a f).2.toList.map (taken role)).sum ≤
      a.partialLength + n := by
  obtain ⟨hd, -, rfl, hle, hmask, rfl⟩ := frameCut_item h
  have hmin := minFrame_le hmask
  obtain ⟨hholds, hdelivers⟩ := a.accept_paidBy ⟨hd.opcode, hd.fin,
    unmaskReference hd.mask ((s.drop hd.encodedLen).take hd.payloadLen.toNat)⟩
  rw [WireFrame.length_unmaskReference, List.length_take, List.length_drop,
    Nat.min_eq_left (by omega)] at hholds hdelivers
  rw [feed]
  rcases haccept : (a.accept _).1 with e | _ | m
  · simp only [outcome, Option.toList_some, List.map_singleton, List.sum_singleton, taken]
    omega
  · simp only [outcome, Option.toList_none, List.map_nil, List.sum_nil]
    omega
  · have hm := hdelivers m haccept
    simp only [outcome, Option.toList_some, List.map_singleton, List.sum_singleton, taken]
    omega

section Reference

variable {role : Role} {limits : Limits} {s : Bytes}

/-- The outputs of a stream are paid for by its bytes. -/
theorem sum_taken_le :
    ((Cutter.outputs feed (.new limits) (framesOf role limits s)).1.map (taken role)).sum ≤
      s.length := by
  have hsum := (frameCutter role limits.maxFrame).sum_outputs_le feed Assembler.partialLength
    (taken role) feed_paid (.new limits) s
  simp only [Assembler.partialLength, Assembler.new, Option.elim_none, Nat.zero_add] at hsum
  rw [framesOf]
  exact ((Nat.le_add_right _ _).trans (Nat.le_add_right _ _)).trans hsum

/-- There are not more outputs than frames that the stream has room for. -/
theorem length_outputs_le :
    (Cutter.outputs feed (.new limits) (framesOf role limits s)).1.length ≤
      s.length / minFrame role := by
  have hpos : 0 < minFrame role := by cases role <;> decide
  have hcosts := List.card_nsmul_le_sum ((Cutter.outputs feed (.new limits)
    (framesOf role limits s)).1.map (taken role)) (minFrame role) (by
      intro cost hcost
      obtain ⟨result, -, rfl⟩ := List.mem_map.mp hcost
      cases result with
      | ok m => exact Nat.le_add_right _ _
      | error e => exact Nat.le_refl _)
  rw [List.length_map, smul_eq_mul] at hcosts
  exact (Nat.le_div_iff_mul_le hpos).mpr (hcosts.trans sum_taken_le)

/-- Behind the outputs stands the ending for ever. -/
theorem reference_settles : ∃ verdict : Except Error (Option Message),
    (∀ m, verdict ≠ .ok (some m)) ∧
      ∀ n, s.length / minFrame role ≤ n → reference role limits s n = verdict := by
  refine ⟨ending ((frameCutter role limits.maxFrame).parse s).fault
    (Cutter.outputs feed (.new limits) (framesOf role limits s)).2.closed,
    ending_ne_message _ _, ?_⟩
  intro n hn
  have hnone := List.getElem?_eq_none_iff.mpr ((@length_outputs_le role limits s).trans hn)
  rw [framesOf] at hnone
  simp only [reference, hnone]
  rfl

end Reference

/-- The messages that were read are among the outputs. -/
theorem messagesRead_eq {c : Connection} {role : Role} {limits : Limits} {s : Bytes}
    (h : c.results = reference role limits s) (n : Nat) :
    c.messagesRead n = ((Cutter.outputs feed (.new limits) (framesOf role limits s)).1.take
      n).filterMap Except.toOption := by
  induction n with
  | zero => rfl
  | succ n ih =>
    rw [Connection.messagesRead, List.range_succ, List.filterMap_append, List.take_add_one,
      List.filterMap_append, ← ih, Connection.messagesRead, h]
    refine congrArg _ ?_
    cases hout : (Cutter.outputs feed (.new limits) (framesOf role limits s)).1[n]? with
    | some result =>
      simp only [List.filterMap_cons, List.filterMap_nil, reference_output hout]
      cases result <;> rfl
    | none =>
      rw [framesOf] at hout
      have hnone : (reference role limits s n).toOption.join = none := by
        simp only [reference, hout]
        cases hend : (ending _ _).toOption.join with
        | none => rfl
        | some m => exact absurd (join_toOption_eq_some_iff.mp hend) (ending_ne_message _ _ m)
      simp only [List.filterMap_cons, hnone, List.filterMap_nil, Option.toList_none]

/-- Messages take no more than all results. -/
theorem sum_messages_le (role : Role) (results : List (Except Error Message)) :
    ((results.filterMap Except.toOption).map (taken role ∘ .ok)).sum ≤
      (results.map (taken role)).sum := by
  induction results with
  | nil => exact Nat.le_refl 0
  | cons result results ih =>
    cases result with
    | ok m =>
      have hhead : (Except.ok m : Except Error Message).toOption = some m := rfl
      rw [List.filterMap_cons_some hhead, List.map_cons, List.map_cons, List.sum_cons,
        List.sum_cons]
      exact Nat.add_le_add_left ih _
    | error e =>
      rw [List.filterMap_cons_none rfl, List.map_cons, List.sum_cons]
      exact ih.trans (Nat.le_add_left _ _)

/-- The messages that the first `n` reads deliver on a target. -/
def Connection.messagesOn (target : Target) (c : Connection) (n : Nat) : List Message :=
  (List.range n).filterMap fun i => (c.resultsOn target i).toOption.bind (·.toOption.join)

/-- On a target that affords the limits they are those of `read`. -/
theorem Target.Affords.messagesOn_eq {target : Target} {c : Connection}
    (h : target.Affords c.assembler.limits) (n : Nat) :
    c.messagesOn target n = c.messagesRead n := by
  refine List.filterMap_congr fun i _ => ?_
  rw [h.resultsOn_eq]
  rfl

/-- Reading a finite stream settles, however it arrives, if there is room for what the limits
admit: behind as many reads as frames fit into the stream every read gives the same verdict,
which is no message, and all messages together, with the least header each needs, are no
longer than the stream. -/
theorem reads_settle (target : Target) (endian : Endian) (seed : UInt64) (role : Role)
    (limits : Limits) (haffords : target.Affords limits) (buffered sent : Bytes)
    (writes : List (Option (Errno × Nat))) (chunks : List Bytes)
    (hne : ∀ chunk ∈ chunks, chunk ≠ []) :
    let c := Connection.withBuffered endian seed ⟨chunks.map .ok, sent, writes⟩ role limits buffered
    let s := buffered ++ chunks.flatten
    (∃ verdict, (∀ m, verdict ≠ .ok (some m)) ∧
      ∀ n, s.length / minFrame role ≤ n → c.resultsOn target n = .ok verdict) ∧
    ∀ n, ((c.messagesOn target n).map fun m =>
      minFrame role + (Connection.frameOf m).2.length).sum ≤ s.length := by
  intro c s
  have hroom : target.Affords c.assembler.limits := haffords
  have hresults := Connection.results_eq endian seed role limits buffered sent writes chunks hne
  refine ⟨?_, fun n => ?_⟩
  · obtain ⟨verdict, hverdict, hsettles⟩ := @reference_settles role limits s
    refine ⟨verdict, hverdict, fun n hn => ?_⟩
    rw [hroom.resultsOn_eq, show c.results = _ from hresults, hsettles n hn]
  · rw [hroom.messagesOn_eq, messagesRead_eq hresults]
    refine (sum_messages_le role _).trans (Nat.le_trans ?_ (@sum_taken_le role limits s))
    exact (((List.take_sublist n _).map (taken role)).sum_le_sum fun _ _ => Nat.zero_le _)

/-- A text of two bytes, cut in its key, and the first byte of another frame: the one message
costs eight of the nine bytes, and from the second read on there is one verdict. -/
theorem reads_settle_text :
    let c := Connection.withBuffered .little 7
      ⟨[[0x82, 1, 2], [3, 4, 0x49, 0x6B, 0x89]].map .ok, [], []⟩ .server .default [0x81]
    c.messagesOn (.roomy 64) 1 = [.text [0x48, 0x69]] ∧
      ((c.messagesOn (.roomy 64) 1).map fun m => 6 + (Connection.frameOf m).2.length).sum ≤ 9 ∧
      ∃ verdict, (∀ m, verdict ≠ .ok (some m)) ∧
        ∀ n, 1 ≤ n → c.resultsOn (.roomy 64) n = .ok verdict := by
  intro c
  have haffords : (Target.roomy 64).Affords .default := Target.roomy_affords (by decide) (by decide)
  have hmessages := Target.Affords.messagesOn_eq (c := c) haffords 1
  obtain ⟨hsettles, hpaid⟩ := reads_settle (.roomy 64) .little 7 .server .default haffords [0x81]
    [] [] [[0x82, 1, 2], [3, 4, 0x49, 0x6B, 0x89]] (by decide)
  refine ⟨?_, hpaid 1, hsettles⟩
  rw [hmessages, messagesRead_eq (Connection.results_eq .little 7 .server .default [0x81] [] []
    [[0x82, 1, 2], [3, 4, 0x49, 0x6B, 0x89]] (by decide))]
  decide +kernel

/-! ## A stream that is cut short -/

/-- A result that does not report the end of the file stays when the stream goes on. -/
theorem reference_append {role : Role} {limits : Limits} {s : Bytes} {n : Nat}
    (h : ¬IsEof (reference role limits s n)) (q : Bytes) :
    reference role limits (s ++ q) n = reference role limits s n := by
  cases hd : ((frameCutter role limits.maxFrame).drainAt feed (.new limits) s n).1 with
  | none => exact absurd (isEof_of_drainAt_none hd) h
  | some r =>
    have happ := (frameCutter role limits.maxFrame).drainAt_append feed hd q
    rw [reference_eq_concluded, reference_eq_concluded]
    simp only [hd, happ, Connection.concluded]

/-- Behind the end of the file there is nothing else. -/
theorem reference_eof {role : Role} {limits : Limits} {s : Bytes} {n m : Nat} (hnm : n ≤ m)
    (h : IsEof (reference role limits s n)) :
    reference role limits s m = reference role limits s n := by
  obtain ⟨hfault, hlen, hn⟩ := at_end h
  rcases @reference_cases role limits s m with ⟨r, hr, -⟩ | ⟨-, hm⟩
  · have hlt := (List.getElem?_eq_some_iff.mp hr).1
    rw [List.length_append] at hlt
    cases hfirst : firstClose (framesOf role limits s) <;> rw [hfirst] at hlt hlen <;>
      exact absurd hlt (Nat.not_lt.mpr (hlen.trans hnm))
  · rw [hm, hn, hfault]
    rfl

/-- A peer that hangs up early, wherever it does, changes nothing but the end, if there is
room for what the limits admit: either all results are those of the whole stream, or they
are up to some read, and from there on every read reports the same end of the file. -/
theorem hangup_keeps_results (target : Target) (endian endian' : Endian) (seed seed' : UInt64)
    (role : Role) (limits : Limits) (haffords : target.Affords limits)
    (buffered buffered' sent sent' : Bytes) (writes writes' : List (Option (Errno × Nat)))
    (chunks chunks' : List Bytes) (hne : ∀ chunk ∈ chunks, chunk ≠ [])
    (hne' : ∀ chunk ∈ chunks', chunk ≠ [])
    (hcut : buffered' ++ chunks'.flatten <+: buffered ++ chunks.flatten) :
    let c := Connection.withBuffered endian seed ⟨chunks.map .ok, sent, writes⟩ role limits buffered
    let c' := Connection.withBuffered endian' seed' ⟨chunks'.map .ok, sent', writes'⟩ role limits
      buffered'
    (∀ n, c'.resultsOn target n = c.resultsOn target n) ∨
      ∃ k, (∀ n < k, c'.resultsOn target n = c.resultsOn target n) ∧
        ∃ eof, IsEof eof ∧ ∀ n, k ≤ n → c'.resultsOn target n = .ok eof := by
  intro c c'
  have hroom : target.Affords c.assembler.limits := haffords
  have hroom' : target.Affords c'.assembler.limits := haffords
  have hresults := Connection.results_eq endian seed role limits buffered sent writes chunks hne
  have hresults' := Connection.results_eq endian' seed' role limits buffered' sent' writes'
    chunks' hne'
  obtain ⟨q, hq⟩ := hcut
  rw [← hq] at hresults
  have hc (n : Nat) : c.resultsOn target n =
      .ok (reference role limits (buffered' ++ chunks'.flatten ++ q) n) := by
    rw [hroom.resultsOn_eq, show c.results = _ from hresults]
  have hc' (n : Nat) : c'.resultsOn target n =
      .ok (reference role limits (buffered' ++ chunks'.flatten) n) := by
    rw [hroom'.resultsOn_eq, show c'.results = _ from hresults']
  have hsame {n : Nat} (h : ¬IsEof (reference role limits (buffered' ++ chunks'.flatten) n)) :
      c'.resultsOn target n = c.resultsOn target n := by
    rw [hc, hc', reference_append h q]
  classical
  by_cases heof : ∃ k, IsEof (reference role limits (buffered' ++ chunks'.flatten) k)
  · -- The first read that reports the end of the file.
    refine .inr ⟨Nat.find heof, fun n hn => hsame (Nat.find_min heof hn), _, Nat.find_spec heof,
      fun n hn => ?_⟩
    rw [hc', reference_eof hn (Nat.find_spec heof)]
  · exact .inl fun n => hsame fun h => heof ⟨n, h⟩

/-- A text of two bytes that is cut in its payload. -/
theorem hangup_keeps_results_text :
    let c := Connection.withBuffered .little 7 ⟨[[0x02, 0x48, 0x69]].map .ok, [], []⟩ .client
      .default [0x81]
    let c' := Connection.withBuffered .little 7 ⟨[[0x81], [0x02, 0x48]].map .ok, [], []⟩ .client
      .default []
    (∀ n, c'.resultsOn (.roomy 64) n = c.resultsOn (.roomy 64) n) ∨
      ∃ k, (∀ n < k, c'.resultsOn (.roomy 64) n = c.resultsOn (.roomy 64) n) ∧
        ∃ eof, IsEof eof ∧ ∀ n, k ≤ n → c'.resultsOn (.roomy 64) n = .ok eof :=
  hangup_keeps_results (.roomy 64) .little .little 7 7 .client .default
    (Target.roomy_affords (by decide) (by decide)) [0x81] [] [] [] [] [] [[0x02, 0x48, 0x69]]
    [[0x81], [0x02, 0x48]] (by decide) (by decide) (by decide)

/-! ## Larger limits -/

/-- A refusal for size. -/
def RefusesSize (result : Except Error (Option Message)) : Prop :=
  result = .error (.frame .tooLarge) ∨ result = .error (.protocol .messageTooLarge)

/-- A larger limit changes nothing but a refusal for size. -/
theorem Header.decode_mono {input : Bytes} {max max' : UInt64} (hle : max ≤ max')
    (h : decode input max ≠ .error .tooLarge) : decode input max' = decode input max := by
  unfold decode at h ⊢
  split
  · rfl
  · next hlen =>
    rw [dif_neg hlen] at h
    simp only at h ⊢
    split
    · rfl
    · next hreserved =>
      rw [if_neg hreserved] at h
      cases hopcode : OpCode.fromBits (input[0] &&& 0x0F) with
      | none => rfl
      | some opcode =>
        simp only [hopcode] at h ⊢
        split
        · rfl
        · next hcontrol =>
          rw [if_neg hcontrol] at h
          rcases hlength : decodeLength input (input[1] &&& 0x7F) with e | i | ⟨len, cursor⟩
          · rfl
          · rfl
          · simp only [hlength] at h ⊢
            by_cases hlarge : len > max
            · rw [if_pos hlarge] at h
              exact absurd rfl h
            · have hlarge' : ¬len > max' := fun h' => hlarge (UInt64.lt_of_le_of_lt hle h')
              rw [if_neg hlarge, if_neg hlarge']

namespace Assembler

/-- The same state under other limits. -/
def withLimits (a : Assembler) (limits : Limits) : Assembler := { a with limits := limits }

variable {a : Assembler} {limits : Limits}

@[simp] theorem withLimits_limits : (a.withLimits limits).limits = limits := rfl

@[simp] theorem withLimits_partialMessage :
    (a.withLimits limits).partialMessage = a.partialMessage := rfl

@[simp] theorem withLimits_closed : (a.withLimits limits).closed = a.closed := rfl

theorem acceptContinuation_mono (hle : a.limits.maxMessage ≤ limits.maxMessage) {fin : Bool}
    {payload : Bytes} (h : (a.acceptContinuation fin payload).1 ≠ .error .messageTooLarge) :
    (a.withLimits limits).acceptContinuation fin payload =
      ((a.acceptContinuation fin payload).1,
        (a.acceptContinuation fin payload).2.withLimits limits) := by
  rw [acceptContinuation] at h
  rw [acceptContinuation, acceptContinuation]
  cases hpartial : a.partialMessage with
  | none => simp only [withLimits_partialMessage, hpartial]
  | some p =>
    simp only [withLimits_partialMessage, hpartial] at h ⊢
    by_cases hlarge : p.2.length + payload.length > a.limits.maxMessage
    · rw [if_pos hlarge] at h
      exact absurd rfl h
    · have hlarge' : ¬p.2.length + payload.length > (a.withLimits limits).limits.maxMessage :=
        fun h' => hlarge (Nat.lt_of_le_of_lt hle h')
      rw [if_neg hlarge, if_neg hlarge']
      cases fin <;> rfl

theorem acceptData_mono (hle : a.limits.maxMessage ≤ limits.maxMessage) {kind : DataKind}
    {fin : Bool} {payload : Bytes}
    (h : (a.acceptData kind fin payload).1 ≠ .error .messageTooLarge) :
    (a.withLimits limits).acceptData kind fin payload =
      ((a.acceptData kind fin payload).1, (a.acceptData kind fin payload).2.withLimits limits) := by
  by_cases hpartial : a.partialMessage.isSome = true
  · have hpartial' : (a.withLimits limits).partialMessage.isSome = true := hpartial
    rw [acceptData, acceptData, if_pos hpartial, if_pos hpartial']
  · have hpartial' : ¬(a.withLimits limits).partialMessage.isSome = true := hpartial
    rw [acceptData, if_neg hpartial] at h
    rw [acceptData, acceptData, if_neg hpartial, if_neg hpartial']
    by_cases hlarge : payload.length > a.limits.maxMessage
    · rw [if_pos hlarge] at h
      exact absurd rfl h
    · have hlarge' : ¬payload.length > (a.withLimits limits).limits.maxMessage :=
        fun h' => hlarge (Nat.lt_of_le_of_lt hle h')
      rw [if_neg hlarge, if_neg hlarge']
      cases fin <;> rfl

/-- Larger limits change nothing but a refusal for size. -/
theorem accept_mono (hle : a.limits.maxMessage ≤ limits.maxMessage) {f : Frame}
    (h : (a.accept f).1 ≠ .error .messageTooLarge) :
    (a.withLimits limits).accept f = ((a.accept f).1, (a.accept f).2.withLimits limits) := by
  obtain ⟨opcode, fin, payload⟩ := f
  cases hc : a.closed with
  | true =>
    have hc' : (a.withLimits limits).closed = true := hc
    rw [accept_closed _ hc, accept_closed _ hc']
  | false =>
    have hc' : (a.withLimits limits).closed = false := hc
    cases opcode with
    | ping => rw [accept_ping fin payload hc, accept_ping fin payload hc']
    | pong => rw [accept_pong fin payload hc, accept_pong fin payload hc']
    | close =>
      rw [accept_close fin payload hc, accept_close fin payload hc']
      rfl
    | continuation =>
      rw [accept_continuation fin payload hc] at h ⊢
      rw [accept_continuation fin payload hc']
      exact acceptContinuation_mono hle h
    | text =>
      have ha := accept_data .text fin payload hc
      have ha' := accept_data .text fin payload hc'
      simp only [DataKind.opcode] at ha ha'
      rw [ha] at h ⊢
      rw [ha']
      exact acceptData_mono hle h
    | binary =>
      have ha := accept_data .binary fin payload hc
      have ha' := accept_data .binary fin payload hc'
      simp only [DataKind.opcode] at ha ha'
      rw [ha] at h ⊢
      rw [ha']
      exact acceptData_mono hle h

end Assembler

/-- A reader with larger limits follows the one with smaller limits up to a refusal for
size. -/
theorem follows_of_le {role : Role} {limits limits' : Limits}
    (hframe : limits.maxFrame ≤ limits'.maxFrame)
    (hmessage : limits.maxMessage ≤ limits'.maxMessage) :
    Cutter.Follows (frameCutter role limits.maxFrame) (frameCutter role limits'.maxFrame) feed feed
      (fun a a' => a.limits = limits ∧ a' = a.withLimits limits')
      (fun r => RefusesSize (Connection.received r)) := by
  refine ⟨fun s hs => ?_, ?_⟩
  · change frameCut _ _ _ = frameCut _ _ _
    have hdecode : Header.decode s limits.maxFrame ≠ .error .tooLarge := by
      intro hlarge
      refine hs (.frame .tooLarge) ?_ (.inl rfl)
      change frameCut _ _ _ = _
      rw [frameCut, hlarge]
    rw [frameCut, frameCut, Header.decode_mono hframe hdecode]
  · rintro a _ f ⟨ha, rfl⟩ hobjects
    have haccept : (a.accept f).1 ≠ .error .messageTooLarge := by
      intro hlarge
      refine hobjects (.error (.protocol .messageTooLarge)) ?_ (.inr rfl)
      rw [feed, hlarge]
      rfl
    have hle : a.limits.maxMessage ≤ limits'.maxMessage := by rwa [ha]
    have hmono := Assembler.accept_mono hle haccept
    simp only [feed, hmono, true_and, and_true]
    exact (a.accept_limits f).trans ha

/-- Larger limits change nothing but refusals for size: as long as no read of a connection
has refused anything for its size, one with larger limits that reads the same stream gives
the same results. -/
theorem larger_limits_keep_results (endian endian' : Endian) (seed seed' : UInt64) (role : Role)
    (limits limits' : Limits) (hframe : limits.maxFrame ≤ limits'.maxFrame)
    (hmessage : limits.maxMessage ≤ limits'.maxMessage) (buffered buffered' sent sent' : Bytes)
    (writes writes' : List (Option (Errno × Nat))) (chunks chunks' : List Bytes)
    (hne : ∀ chunk ∈ chunks, chunk ≠ []) (hne' : ∀ chunk ∈ chunks', chunk ≠ [])
    (hsame : buffered' ++ chunks'.flatten = buffered ++ chunks.flatten) :
    let c := Connection.withBuffered endian seed ⟨chunks.map .ok, sent, writes⟩ role limits buffered
    let c' := Connection.withBuffered endian' seed' ⟨chunks'.map .ok, sent', writes'⟩ role limits'
      buffered'
    ∀ n, (∀ m ≤ n, ¬RefusesSize (c.results m)) → c'.results n = c.results n := by
  intro c c' n hn
  have hresults := Connection.results_eq endian seed role limits buffered sent writes chunks hne
  have hresults' := Connection.results_eq endian' seed' role limits' buffered' sent' writes'
    chunks' hne'
  rw [show c.results = _ from hresults] at hn ⊢
  rw [show c'.results = _ from hresults', hsame, reference_eq_concluded, reference_eq_concluded]
  have hfresh : (Assembler.new limits).limits = limits ∧
      Assembler.new limits' = (Assembler.new limits).withLimits limits' := ⟨rfl, rfl⟩
  obtain ⟨hdrain, hstate⟩ := (@follows_of_le role _ _ hframe hmessage).drainAt_eq hfresh
    (s := buffered ++ chunks.flatten) (n := n) fun m hm r hr hrefuses => by
      refine hn m hm ?_
      rw [reference_eq_concluded]
      simp only [hr, Connection.concluded]
      exact hrefuses
  simp only [hdrain, hstate.2, Assembler.withLimits]

/-- A text of two bytes, read under a limit of two and under the default limits. -/
theorem larger_limits_keep_results_text :
    (Connection.withBuffered .little 7 ⟨[[0x02, 0x48, 0x69]].map .ok, [], []⟩ .client .default
      [0x81]).results 0 =
    (Connection.withBuffered .little 7 ⟨[[0x02], [0x48, 0x69]].map .ok, [], []⟩ .client ⟨2, 2⟩
      [0x81]).results 0 := by
  refine larger_limits_keep_results .little .little 7 7 .client ⟨2, 2⟩ .default (by decide)
    (by decide) [0x81] [0x81] [] [] [] [] [[0x02], [0x48, 0x69]] [[0x02, 0x48, 0x69]] (by decide)
    (by decide) (by decide) 0 fun m hm => ?_
  obtain rfl := Nat.le_zero.mp hm
  have htext : reference .client ⟨2, 2⟩ ([0x81] ++ [[0x02], [0x48, 0x69]].flatten) 0 =
      .ok (some (.text [0x48, 0x69])) := by decide +kernel
  rw [Connection.results_eq .little 7 .client ⟨2, 2⟩ [0x81] [] [] [[0x02], [0x48, 0x69]]
    (by decide), htext]
  rintro (h | h) <;> cases h

end NagoWss
