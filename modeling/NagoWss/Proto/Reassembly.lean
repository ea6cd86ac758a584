import NagoWss.Proto.Message

/-!
# Reassembly

What a legal frame sequence is, said without an assembler: up to the first close
frame its data frames are the fragments of a list of messages, one message after
the other and the last one possibly unfinished, with probes and replies anywhere
between them. The assembler accepts exactly these sequences, and emits exactly
the messages they are made of.
-/

namespace NagoWss

/-- A data message in its fragments. -/
structure Fragmented where
  /-- Text or binary. -/
  kind : DataKind
  /-- The payload of the first frame. -/
  first : Bytes
  /-- The payloads of the continuation frames. -/
  rest : List Bytes

/-- Continuation frames of which only the last is final. -/
def continuations : List Bytes → List Frame
  | [] => []
  | payload :: rest => ⟨.continuation, rest.isEmpty, payload⟩ :: continuations rest

namespace Fragmented

/-- The frames of a finished message. -/
def frames (m : Fragmented) : List Frame :=
  ⟨m.kind.opcode, m.rest.isEmpty, m.first⟩ :: continuations m.rest

/-- The frames of a message whose last fragment is still to come. -/
def openFrames (m : Fragmented) : List Frame :=
  ⟨m.kind.opcode, false, m.first⟩ :: m.rest.map fun payload => ⟨.continuation, false, payload⟩

/-- The concatenated payload. -/
def payload (m : Fragmented) : Bytes := m.first ++ m.rest.flatten

/-- The message of the first fragment's kind with the concatenated payload. -/
def message (m : Fragmented) : Message :=
  match m.kind with
  | .text => .text m.payload
  | .binary => .binary m.payload

/-- One more fragment. -/
def extend (m : Fragmented) (payload : Bytes) : Fragmented := ⟨m.kind, m.first, m.rest ++ [payload]⟩

/-- A text is UTF-8 as a whole; binary data is anything. -/
def WellFormed (m : Fragmented) : Prop := m.kind = .text → ∃ text, m.payload = Utf8.encode text

end Fragmented

/-- What a sequence of frames says. -/
structure Transcript where
  /-- The finished data messages. -/
  messages : List Fragmented
  /-- The message that the sequence leaves unfinished. -/
  unfinished : Option Fragmented
  /-- The content of the first close frame. -/
  closing : Option (Option CloseFrame)

/-- The frames before the first close frame. -/
def beforeClose (frames : List Frame) : List Frame := frames.takeWhile (·.opcode != .close)

/-- The frames that carry data, in order. -/
def dataFrames (frames : List Frame) : List Frame := frames.filter (!·.opcode.isControl)

/-- The body of the first close frame. -/
def firstClose (frames : List Frame) : Option Bytes :=
  (frames.find? (·.opcode == .close)).map Frame.payload

namespace Transcript

/-- The data frames of a transcript. -/
def data (t : Transcript) : List Frame :=
  t.messages.flatMap Fragmented.frames ++ t.unfinished.elim [] Fragmented.openFrames

/-- A sequence of frames and what it says. -/
structure Spells (frames : List Frame) (t : Transcript) : Prop where
  /-- Up to the first close the data frames are those of the messages. -/
  data_eq : dataFrames (beforeClose frames) = t.data
  /-- The first close frame has the body of the closing content. -/
  close_eq : firstClose frames = t.closing.map CloseFrame.body

/-- A transcript that may be received within the limits. -/
structure Admissible (limits : Limits) (t : Transcript) : Prop where
  /-- Every message, finished or not, stays within the limit. -/
  fits : ∀ m ∈ t.messages ++ t.unfinished.toList, m.payload.length ≤ limits.maxMessage
  /-- Every finished text is UTF-8 as a whole. -/
  wellFormed : ∀ m ∈ t.messages, m.WellFormed
  /-- The close body is legal. -/
  legal : ∀ content, t.closing = some content → CloseFrame.Legal content

/-- What is emitted at each frame: a probe or reply at once, a data message at its
final frame, the closing content at the first close frame and nothing behind it. -/
def emissions (closing : Option Message) : List Frame → List Message → List (Option Message)
  | [], _ => []
  | f :: frames, messages =>
    match f.opcode with
    | .ping => some (.ping f.payload) :: emissions closing frames messages
    | .pong => some (.pong f.payload) :: emissions closing frames messages
    | .close => closing :: frames.map fun _ => none
    | .continuation | .text | .binary =>
      if f.fin then messages.head? :: emissions closing frames messages.tail
      else none :: emissions closing frames messages

/-- The emissions of a sequence of frames with this transcript. -/
def emit (t : Transcript) (frames : List Frame) : List (Option Message) :=
  emissions (t.closing.map Message.close) frames (t.messages.map Fragmented.message)

/-- A transcript with one more message at its front. -/
def cons (m : Fragmented) (t : Transcript) : Transcript :=
  ⟨m :: t.messages, t.unfinished, t.closing⟩

theorem data_cons (m : Fragmented) (t : Transcript) : (cons m t).data = m.frames ++ t.data := by
  rw [data, data, cons, List.flatMap_cons, List.append_assoc]

end Transcript

/-- Feed a sequence of frames to an assembler, up to its first error. -/
def Assembler.run (a : Assembler) : List Frame → Except ProtocolError (List (Option Message))
  | [] => .ok []
  | f :: frames =>
    match a.accept f with
    | (.error e, _) => .error e
    | (.ok m, a') => (run a' frames).map (m :: ·)

/-! ## Fragments as a prefix code -/

namespace Fragmented

@[simp] theorem openFrames_extend (m : Fragmented) (payload : Bytes) :
    (m.extend payload).openFrames = m.openFrames ++ [⟨.continuation, false, payload⟩] := by
  rw [extend, openFrames, openFrames, List.map_append]
  rfl

theorem continuations_append (rest : List Bytes) (payload : Bytes) :
    continuations (rest ++ [payload]) =
      rest.map (fun p => ⟨.continuation, false, p⟩) ++ [⟨.continuation, true, payload⟩] := by
  induction rest with
  | nil => rfl
  | cons p rest ih =>
    have hne : (rest ++ [payload]).isEmpty = false := by cases rest <;> rfl
    rw [List.cons_append, continuations, ih, hne]
    rfl

/-- A final fragment finishes the message. -/
@[simp] theorem frames_extend (m : Fragmented) (payload : Bytes) :
    (m.extend payload).frames = m.openFrames ++ [⟨.continuation, true, payload⟩] := by
  have hne : (m.rest ++ [payload]).isEmpty = false := by cases m.rest <;> rfl
  rw [extend, frames, openFrames, continuations_append, hne]
  rfl

@[simp] theorem payload_extend (m : Fragmented) (payload : Bytes) :
    (m.extend payload).payload = m.payload ++ payload := by
  simp only [extend, Fragmented.payload, List.flatten_append, List.flatten_cons, List.flatten_nil,
    List.append_nil, List.append_assoc]

/-- The continuation frames of one message end where they end. -/
theorem continuations_prefix {xs ys : List Bytes} {X Y : List Frame}
    (h : continuations xs ++ X = continuations ys ++ Y) (he : xs.isEmpty = ys.isEmpty) :
    xs = ys ∧ X = Y := by
  induction xs generalizing ys with
  | nil =>
    cases ys with
    | nil => exact ⟨rfl, h⟩
    | cons y ys => cases he
  | cons x xs ih =>
    cases ys with
    | nil => cases he
    | cons y ys =>
      simp only [continuations, List.cons_append, List.cons.injEq, Frame.mk.injEq, true_and] at h
      obtain ⟨⟨hfin, rfl⟩, htail⟩ := h
      obtain ⟨rfl, rfl⟩ := ih htail hfin
      exact ⟨rfl, rfl⟩

/-- The frames of a finished message say where it ends. -/
theorem frames_prefix {m n : Fragmented} {X Y : List Frame}
    (h : m.frames ++ X = n.frames ++ Y) : m = n ∧ X = Y := by
  obtain ⟨k, p, xs⟩ := m
  obtain ⟨k', p', ys⟩ := n
  simp only [frames, List.cons_append, List.cons.injEq, Frame.mk.injEq] at h
  obtain ⟨⟨hkind, hfin, rfl⟩, htail⟩ := h
  obtain ⟨rfl, rfl⟩ := continuations_prefix htail hfin
  cases k <;> cases k' <;> first | exact ⟨rfl, rfl⟩ | cases hkind

/-- No frame of an open message is final. -/
theorem fin_of_mem_openFrames {m : Fragmented} {f : Frame} (h : f ∈ m.openFrames) :
    f.fin = false := by
  rcases List.mem_cons.mp h with rfl | h
  · rfl
  · obtain ⟨p, _, rfl⟩ := List.mem_map.mp h
    rfl

/-- The last frame of a finished message is final. -/
theorem exists_fin_mem_frames (m : Fragmented) : ∃ f ∈ m.frames, f.fin = true := by
  obtain ⟨k, p, rest⟩ := m
  rcases List.eq_nil_or_concat rest with rfl | ⟨xs, x, rfl⟩
  · exact ⟨_, List.mem_cons_self, rfl⟩
  · refine ⟨⟨.continuation, true, x⟩, ?_, rfl⟩
    rw [List.concat_eq_append, frames, continuations_append]
    exact List.mem_cons_of_mem _ (List.mem_append_right _ List.mem_cons_self)

/-- Fragments that open a message, found at the front of continuation frames. -/
theorem continuations_open {xs ys : List Bytes} {D E : List Frame} (hne : ys ≠ [])
    (h : (xs.map fun p => (⟨.continuation, false, p⟩ : Frame)) ++ D = continuations ys ++ E) :
    ∃ qs, qs ≠ [] ∧ ys = xs ++ qs ∧ D = continuations qs ++ E := by
  induction xs generalizing ys with
  | nil => exact ⟨ys, hne, rfl, h⟩
  | cons x xs ih =>
    cases ys with
    | nil => exact absurd rfl hne
    | cons y ys =>
      simp only [continuations, List.map_cons, List.cons_append, List.cons.injEq, Frame.mk.injEq,
        true_and] at h
      obtain ⟨⟨hfin, rfl⟩, htail⟩ := h
      have hys : ys ≠ [] := by
        rintro rfl
        cases hfin
      obtain ⟨qs, hqs, rfl, hD⟩ := ih hys htail
      exact ⟨qs, hqs, rfl, hD⟩

/-- An open message at the front of a finished one is continued by it. -/
theorem openFrames_frames {m n : Fragmented} {D E : List Frame}
    (h : m.openFrames ++ D = n.frames ++ E) :
    ∃ qs, qs ≠ [] ∧ n = ⟨m.kind, m.first, m.rest ++ qs⟩ ∧ D = continuations qs ++ E := by
  obtain ⟨k, p, xs⟩ := m
  obtain ⟨k', p', ys⟩ := n
  simp only [openFrames, frames, List.cons_append, List.cons.injEq, Frame.mk.injEq] at h
  obtain ⟨⟨hkind, hfin, rfl⟩, htail⟩ := h
  have hys : ys ≠ [] := by
    rintro rfl
    cases hfin
  obtain ⟨qs, hqs, rfl, hD⟩ := continuations_open hys htail
  refine ⟨qs, hqs, ?_, hD⟩
  cases k <;> cases k' <;> first | rfl | cases hkind

/-- An open message at the front of an open one is continued by it. -/
theorem openFrames_openFrames {m n : Fragmented} {D : List Frame}
    (h : m.openFrames ++ D = n.openFrames) :
    ∃ qs, n = ⟨m.kind, m.first, m.rest ++ qs⟩ ∧
      D = qs.map fun p => ⟨.continuation, false, p⟩ := by
  obtain ⟨k, p, xs⟩ := m
  obtain ⟨k', p', ys⟩ := n
  simp only [openFrames, List.cons_append, List.cons.injEq, Frame.mk.injEq, true_and] at h
  obtain ⟨⟨hkind, rfl⟩, htail⟩ := h
  obtain ⟨zs, qs, rfl, hzs, hqs⟩ := List.map_eq_append_iff.mp htail.symm
  have hinj : Function.Injective fun p => (⟨.continuation, false, p⟩ : Frame) := by
    intro a b hab
    exact congrArg Frame.payload hab
  rw [List.map_injective_iff.mpr hinj hzs]
  refine ⟨qs, ?_, hqs.symm⟩
  cases k <;> cases k' <;> first | rfl | cases hkind

/-- A message that continues another is at least as long. -/
theorem payload_length_le (m : Fragmented) (qs : List Bytes) :
    m.payload.length ≤ (⟨m.kind, m.first, m.rest ++ qs⟩ : Fragmented).payload.length := by
  simp only [Fragmented.payload, List.flatten_append, List.length_append]
  omega

end Fragmented

/-! ## What the front of a transcript determines -/

namespace Transcript

/-- No data frame sequence starts with a continuation. -/
theorem head_data {t : Transcript} {f : Frame} {D : List Frame} (h : f :: D = t.data) :
    f.opcode ≠ .continuation := by
  have hopcode (k : DataKind) : k.opcode ≠ .continuation := by cases k <;> decide
  obtain ⟨_ | ⟨m, ms⟩, _ | u, closing⟩ := t
  · cases h
  · obtain ⟨rfl, -⟩ := List.cons.inj h
    exact hopcode u.kind
  · obtain ⟨rfl, -⟩ := List.cons.inj h
    exact hopcode m.kind
  · obtain ⟨rfl, -⟩ := List.cons.inj h
    exact hopcode m.kind

/-- A finished message at the front is the first message. -/
theorem frames_data {t : Transcript} {m : Fragmented} {D : List Frame}
    (h : m.frames ++ D = t.data) : ∃ t', t = cons m t' ∧ D = t'.data := by
  obtain ⟨_ | ⟨n, ns⟩, unfinished, closing⟩ := t
  · obtain ⟨f, hf, hfin⟩ := m.exists_fin_mem_frames
    have hmem : f ∈ unfinished.elim [] Fragmented.openFrames := by
      have hf' := List.mem_append_left D hf
      rw [h] at hf'
      exact hf'
    cases unfinished with
    | none => cases hmem
    | some u =>
      rw [Fragmented.fin_of_mem_openFrames hmem] at hfin
      cases hfin
  · have hcons : (⟨n :: ns, unfinished, closing⟩ : Transcript).data =
        n.frames ++ (⟨ns, unfinished, closing⟩ : Transcript).data :=
      data_cons n ⟨ns, unfinished, closing⟩
    rw [hcons] at h
    obtain ⟨rfl, rfl⟩ := Fragmented.frames_prefix h
    exact ⟨_, rfl, rfl⟩

/-- An open message at the front is continued by the transcript, with
continuation frames. -/
theorem openFrames_data {t : Transcript} {m : Fragmented} {D : List Frame}
    (h : m.openFrames ++ D = t.data) :
    (∃ n ∈ t.messages ++ t.unfinished.toList, m.payload.length ≤ n.payload.length) ∧
      ∀ f D', D = f :: D' → f.opcode = .continuation := by
  obtain ⟨_ | ⟨n, ns⟩, unfinished, closing⟩ := t
  · cases unfinished with
    | none => cases h
    | some u =>
      obtain ⟨qs, rfl, rfl⟩ := Fragmented.openFrames_openFrames h
      refine ⟨⟨_, List.mem_singleton_self _, m.payload_length_le qs⟩, ?_⟩
      intro f D' hD
      cases qs with
      | nil => cases hD
      | cons q qs => rw [← (List.cons.inj hD).1]
  · have hcons : (⟨n :: ns, unfinished, closing⟩ : Transcript).data =
        n.frames ++ (⟨ns, unfinished, closing⟩ : Transcript).data :=
      data_cons n ⟨ns, unfinished, closing⟩
    rw [hcons] at h
    obtain ⟨qs, hqs, rfl, rfl⟩ := Fragmented.openFrames_frames h
    refine ⟨⟨_, List.mem_cons_self, m.payload_length_le qs⟩, ?_⟩
    intro f D' hD
    cases qs with
    | nil => exact absurd rfl hqs
    | cons q qs => rw [← (List.cons.inj hD).1]

/-- A transcript with one more message is admissible when both parts are. -/
theorem admissible_cons {limits : Limits} {m : Fragmented} {t : Transcript} :
    (cons m t).Admissible limits ↔
      m.payload.length ≤ limits.maxMessage ∧ m.WellFormed ∧ t.Admissible limits := by
  constructor
  · intro h
    refine ⟨h.fits m List.mem_cons_self, h.wellFormed m List.mem_cons_self, ?_, ?_, h.legal⟩
    · intro n hn
      exact h.fits n (List.mem_cons_of_mem m hn)
    · intro n hn
      exact h.wellFormed n (List.mem_cons_of_mem m hn)
  · rintro ⟨hfits, hwell, h⟩
    refine ⟨?_, ?_, h.legal⟩
    · intro n hn
      rcases List.mem_cons.mp hn with rfl | hn
      · exact hfits
      · exact h.fits n hn
    · intro n hn
      rcases List.mem_cons.mp hn with rfl | hn
      · exact hwell
      · exact h.wellFormed n hn

end Transcript

/-! ## The assembler along a sequence -/

/-- Completing a message succeeds when it is well formed, and gives that message. -/
theorem finishUnfragmented_iff {m : Fragmented} {msg : Message} :
    Assembler.finishUnfragmented m.kind m.payload = .ok msg ↔ m.WellFormed ∧ msg = m.message := by
  obtain ⟨kind, first, rest⟩ := m
  cases kind with
  | binary =>
    simp only [Assembler.finishUnfragmented, Except.ok.injEq, Fragmented.WellFormed,
      Fragmented.message, reduceCtorEq, false_implies, true_and]
    exact eq_comm
  | text =>
    simp only [Assembler.finishUnfragmented, Fragmented.WellFormed, Fragmented.message,
      forall_const, ← Utf8.valid_iff]
    cases Utf8.valid (Fragmented.payload ⟨.text, first, rest⟩) with
    | false => simp only [Bool.not_false, if_true, reduceCtorEq, false_and]
    | true =>
      simp only [Bool.not_true, Bool.false_eq_true, if_false, Except.ok.injEq, true_and]
      exact eq_comm

namespace Assembler

/-- The assembler that holds the fragments of an open message. -/
def holding (limits : Limits) (current : Option Fragmented) : Assembler :=
  ⟨limits, current.map fun m => (m.kind, m.payload), false⟩

/-- The frames of the message an assembler holds. -/
def held (current : Option Fragmented) : List Frame := current.elim [] Fragmented.openFrames

/-- Behind a close frame a run accepts everything and emits nothing. -/
theorem run_closed {a : Assembler} (h : a.closed = true) (frames : List Frame) :
    a.run frames = .ok (frames.map fun _ => none) := by
  induction frames with
  | nil => rfl
  | cons f frames ih =>
    simp only [run, accept_closed f h, ih]
    rfl

/-- What it means that a transcript continues the held message. -/
def Continues (current : Option Fragmented) (frames : List Frame) (t : Transcript) : Prop :=
  held current ++ dataFrames (beforeClose frames) = t.data ∧
    firstClose frames = t.closing.map CloseFrame.body

/-- A run that succeeds emits what an admissible transcript says. -/
def Explained (limits : Limits) (current : Option Fragmented) (frames : List Frame)
    (outs : List (Option Message)) : Prop :=
  ∃ t : Transcript, Continues current frames t ∧ t.Admissible limits ∧ outs = t.emit frames

variable {limits : Limits} {current : Option Fragmented} {f : Frame} {frames : List Frame}

theorem beforeClose_cons (h : f.opcode ≠ .close) :
    beforeClose (f :: frames) = f :: beforeClose frames := by
  rw [beforeClose, List.takeWhile_cons, if_pos (by simpa using h)]
  rfl

theorem firstClose_cons (h : f.opcode ≠ .close) : firstClose (f :: frames) = firstClose frames := by
  rw [firstClose, List.find?_cons, show (f.opcode == OpCode.close) = false by simpa using h]
  rfl

/-- A data frame stands behind the held ones. -/
theorem continues_data (h : f.opcode.isControl = false) {t : Transcript} :
    Continues current (f :: frames) t ↔
      held current ++ f :: dataFrames (beforeClose frames) = t.data ∧
        firstClose frames = t.closing.map CloseFrame.body := by
  have hclose : f.opcode ≠ .close := by
    intro hc
    rw [hc] at h
    cases h
  have hfilter : dataFrames (f :: beforeClose frames) = f :: dataFrames (beforeClose frames) := by
    rw [dataFrames, List.filter_cons, h]
    rfl
  rw [Continues, beforeClose_cons hclose, firstClose_cons hclose, hfilter]

/-- A probe or reply leaves no trace among the data frames. -/
theorem continues_probe (h : f.opcode = .ping ∨ f.opcode = .pong) {t : Transcript} :
    Continues current (f :: frames) t ↔ Continues current frames t := by
  have hclose : f.opcode ≠ .close := by
    rcases h with h | h <;> rw [h] <;> decide
  have hfilter : dataFrames (f :: beforeClose frames) = dataFrames (beforeClose frames) := by
    rcases h with h | h <;> rw [dataFrames, List.filter_cons, h] <;> rfl
  rw [Continues, beforeClose_cons hclose, firstClose_cons hclose, hfilter, Continues]

/-- The run over one frame that was accepted. -/
theorem run_cons_ok {a a' : Assembler} {m : Option Message} (h : a.accept f = (.ok m, a'))
    {outs : List (Option Message)} :
    a.run (f :: frames) = .ok outs ↔ ∃ rest, a'.run frames = .ok rest ∧ outs = m :: rest := by
  simp only [run, h]
  cases a'.run frames with
  | error e => simp only [Except.map, reduceCtorEq, false_and, exists_false]
  | ok rest =>
    simp only [Except.map, Except.ok.injEq]
    exact ⟨fun h => ⟨rest, rfl, h.symm⟩, fun ⟨_, h, h'⟩ => by rw [h', h]⟩

/-- The run over a frame that was refused. -/
theorem run_cons_error {a a' : Assembler} {e : ProtocolError} (h : a.accept f = (.error e, a')) :
    a.run (f :: frames) = .error e := by
  simp only [run, h]

/-- The end of the sequence: the held message stays unfinished. -/
theorem explained_nil (hfits : ∀ m ∈ current, m.payload.length ≤ limits.maxMessage)
    {outs : List (Option Message)} : outs = [] ↔ Explained limits current [] outs := by
  constructor
  · rintro rfl
    refine ⟨⟨[], current, none⟩, ⟨List.append_nil _, rfl⟩, ⟨?_, ?_, ?_⟩, rfl⟩
    · intro m hm
      exact hfits m (Option.mem_toList.mp hm)
    · intro m hm
      cases hm
    · intro content hc
      cases hc
  · rintro ⟨t, -, -, rfl⟩
    rfl

/-- A probe or reply: emitted at once. -/
theorem explained_probe {m : Message} (h : f.opcode = .ping ∧ m = .ping f.payload ∨
    f.opcode = .pong ∧ m = .pong f.payload) {outs : List (Option Message)} :
    (∃ rest, Explained limits current frames rest ∧ outs = some m :: rest) ↔
      Explained limits current (f :: frames) outs := by
  have hprobe : f.opcode = .ping ∨ f.opcode = .pong := h.imp And.left And.left
  have hemit (t : Transcript) : t.emit (f :: frames) = some m :: t.emit frames := by
    rcases h with ⟨h, rfl⟩ | ⟨h, rfl⟩ <;> rw [Transcript.emit, Transcript.emissions, h] <;> rfl
  constructor
  · rintro ⟨_, ⟨t, ht, hadm, rfl⟩, rfl⟩
    exact ⟨t, (continues_probe hprobe).mpr ht, hadm, (hemit t).symm⟩
  · rintro ⟨t, ht, hadm, rfl⟩
    exact ⟨_, ⟨t, (continues_probe hprobe).mp ht, hadm, rfl⟩, hemit t⟩

/-- A close frame: its content is emitted and the rest of the sequence is not. -/
theorem explained_close (hfits : ∀ m ∈ current, m.payload.length ≤ limits.maxMessage)
    (h : f.opcode = .close) {outs : List (Option Message)} :
    (∃ content, parseCloseBody f.payload = .ok content ∧
        outs = some (.close content) :: frames.map fun _ => none) ↔
      Explained limits current (f :: frames) outs := by
  have hbefore : beforeClose (f :: frames) = [] := by
    rw [beforeClose, List.takeWhile_cons, h]
    rfl
  have hfirst : firstClose (f :: frames) = some f.payload := by
    rw [firstClose, List.find?_cons, h]
    rfl
  have hemit (t : Transcript) :
      t.emit (f :: frames) = t.closing.map Message.close :: frames.map fun _ => none := by
    rw [Transcript.emit, Transcript.emissions, h]
  constructor
  · rintro ⟨content, hparse, rfl⟩
    obtain ⟨hbody, hlegal⟩ := parseCloseBody_iff.mp hparse
    refine ⟨⟨[], current, some content⟩, ⟨?_, ?_⟩, ⟨?_, ?_, ?_⟩,
      (hemit ⟨[], current, some content⟩).symm⟩
    · rw [hbefore]
      exact List.append_nil _
    · rw [hfirst, hbody]
      rfl
    · intro m hm
      exact hfits m (Option.mem_toList.mp hm)
    · intro m hm
      cases hm
    · intro c hc
      cases hc
      exact hlegal
  · rintro ⟨t, ⟨-, hclose⟩, hadm, rfl⟩
    rw [hfirst] at hclose
    cases hc : t.closing with
    | none =>
      rw [hc] at hclose
      cases hclose
    | some content =>
      rw [hc] at hclose
      refine ⟨content, parseCloseBody_iff.mpr ⟨Option.some.inj hclose, hadm.legal _ hc⟩, ?_⟩
      rw [hemit, hc]
      rfl

/-- A fragment that does not finish its message: nothing is emitted. -/
theorem explained_open {m : Fragmented} (hcontrol : f.opcode.isControl = false)
    (hfin : f.fin = false) (hheld : held current ++ [f] = m.openFrames)
    {outs : List (Option Message)} :
    (∃ rest, Explained limits (some m) frames rest ∧ outs = none :: rest) ↔
      Explained limits current (f :: frames) outs := by
  have hcont (t : Transcript) : Continues current (f :: frames) t ↔ Continues (some m) frames t := by
    have hsome : held (some m) = m.openFrames := rfl
    rw [continues_data hcontrol, Continues, hsome, ← hheld, List.append_assoc]
    rfl
  have hemit (t : Transcript) : t.emit (f :: frames) = none :: t.emit frames := by
    rw [Transcript.emit, Transcript.emissions, hfin]
    cases hop : f.opcode <;> first | rfl | (rw [hop] at hcontrol; cases hcontrol)
  constructor
  · rintro ⟨_, ⟨t, ht, hadm, rfl⟩, rfl⟩
    exact ⟨t, (hcont t).mpr ht, hadm, (hemit t).symm⟩
  · rintro ⟨t, ht, hadm, rfl⟩
    exact ⟨_, ⟨t, (hcont t).mp ht, hadm, rfl⟩, hemit t⟩

/-- A fragment that finishes its message: the message is emitted. -/
theorem explained_final {m : Fragmented} (hcontrol : f.opcode.isControl = false)
    (hfin : f.fin = true) (hheld : held current ++ [f] = m.frames)
    {outs : List (Option Message)} :
    (m.payload.length ≤ limits.maxMessage ∧ m.WellFormed ∧
        ∃ rest, Explained limits none frames rest ∧ outs = some m.message :: rest) ↔
      Explained limits current (f :: frames) outs := by
  have hcont (t : Transcript) : Continues current (f :: frames) t ↔
      m.frames ++ dataFrames (beforeClose frames) = t.data ∧
        firstClose frames = t.closing.map CloseFrame.body := by
    rw [continues_data hcontrol, ← hheld, List.append_assoc]
    rfl
  have hemit (t : Transcript) :
      (t.cons m).emit (f :: frames) = some m.message :: t.emit frames := by
    rw [Transcript.emit, Transcript.emissions, hfin]
    cases hop : f.opcode <;> first | rfl | (rw [hop] at hcontrol; cases hcontrol)
  constructor
  · rintro ⟨hfits, hwell, _, ⟨t, ht, hadm, rfl⟩, rfl⟩
    refine ⟨t.cons m, (hcont _).mpr ⟨?_, ht.2⟩, Transcript.admissible_cons.mpr ⟨hfits, hwell, hadm⟩,
      (hemit t).symm⟩
    rw [Transcript.data_cons, ← ht.1]
    rfl
  · rintro ⟨t, ht, hadm, rfl⟩
    obtain ⟨hdata, hclose⟩ := (hcont t).mp ht
    obtain ⟨t, rfl, hrest⟩ := Transcript.frames_data hdata
    obtain ⟨hfits, hwell, hadm⟩ := Transcript.admissible_cons.mp hadm
    exact ⟨hfits, hwell, _, ⟨t, ⟨hrest, hclose⟩, hadm, rfl⟩, hemit t⟩

/-- A refused frame has no transcript. -/
theorem run_refused {e : ProtocolError} {a a' : Assembler} (h : a.accept f = (.error e, a'))
    (hnone : ∀ t : Transcript, Continues current (f :: frames) t → ¬t.Admissible limits)
    {outs : List (Option Message)} :
    a.run (f :: frames) = .ok outs ↔ Explained limits current (f :: frames) outs := by
  rw [run_cons_error h]
  constructor
  · intro hrun
    cases hrun
  · rintro ⟨t, ht, hadm, -⟩
    exact absurd hadm (hnone t ht)

/-- A fragment that would grow the held message beyond the limit has no transcript. -/
theorem not_admissible_of_long {m : Fragmented} {t : Transcript} {D : List Frame}
    (hlong : limits.maxMessage < m.payload.length)
    (h : m.openFrames ++ D = t.data ∨ m.frames ++ D = t.data) : ¬t.Admissible limits := by
  intro hadm
  rcases h with h | h
  · obtain ⟨⟨n, hn, hle⟩, -⟩ := Transcript.openFrames_data h
    have := hadm.fits n hn
    omega
  · obtain ⟨t, rfl, -⟩ := Transcript.frames_data h
    have := (Transcript.admissible_cons.mp hadm).1
    omega

/-- The data frames behind the held message, with one more fragment joined to it. -/
theorem data_fragment {m : Fragmented} {t : Transcript} {fin : Bool} {before D : List Frame}
    (hopen : fin = false → before ++ [f] = m.openFrames)
    (hfinal : fin = true → before ++ [f] = m.frames)
    (h : before ++ f :: D = t.data) : m.openFrames ++ D = t.data ∨ m.frames ++ D = t.data := by
  rw [List.append_cons] at h
  cases fin with
  | false => exact .inl (hopen rfl ▸ h)
  | true => exact .inr (hfinal rfl ▸ h)

/-- One data frame joined to what is held: the step shared by first frames and
continuation frames. -/
theorem run_fragment (m : Fragmented) (hcontrol : f.opcode.isControl = false)
    (hopen : f.fin = false → held current ++ [f] = m.openFrames)
    (hfinal : f.fin = true → held current ++ [f] = m.frames)
    (haccept : (holding limits current).accept f =
      if m.payload.length > limits.maxMessage then
        (.error .messageTooLarge, holding limits current)
      else if f.fin then
        ((finishUnfragmented m.kind m.payload).map some, holding limits none)
      else (.ok none, holding limits (some m)))
    (ih : ∀ current outs, (∀ m ∈ current, m.payload.length ≤ limits.maxMessage) →
      ((holding limits current).run frames = .ok outs ↔ Explained limits current frames outs))
    {outs : List (Option Message)} :
    (holding limits current).run (f :: frames) = .ok outs ↔
      Explained limits current (f :: frames) outs := by
  by_cases hlong : m.payload.length > limits.maxMessage
  · rw [if_pos hlong] at haccept
    refine run_refused haccept ?_
    intro t ht
    exact not_admissible_of_long hlong
      (data_fragment hopen hfinal ((continues_data hcontrol).mp ht).1)
  · have hfits : m.payload.length ≤ limits.maxMessage := Nat.not_lt.mp hlong
    rw [if_neg hlong] at haccept
    cases hfin : f.fin with
    | false =>
      rw [hfin, if_neg Bool.false_ne_true] at haccept
      rw [run_cons_ok haccept, ← explained_open hcontrol hfin (hopen hfin)]
      have hm : ∀ n ∈ some m, n.payload.length ≤ limits.maxMessage := by
        rintro n ⟨⟩
        exact hfits
      simp only [ih (some m) _ hm]
    | true =>
      rw [hfin, if_pos rfl] at haccept
      rw [← explained_final hcontrol hfin (hfinal hfin)]
      have hnone : ∀ n ∈ (none : Option Fragmented), n.payload.length ≤ limits.maxMessage := by
        rintro n ⟨⟩
      cases hfinish : finishUnfragmented m.kind m.payload with
      | error e =>
        rw [hfinish] at haccept
        rw [run_cons_error haccept]
        constructor
        · intro hrun
          cases hrun
        · rintro ⟨-, hwell, -⟩
          rw [finishUnfragmented_iff.mpr ⟨hwell, rfl⟩] at hfinish
          cases hfinish
      | ok msg =>
        obtain ⟨hwell, rfl⟩ := finishUnfragmented_iff.mp hfinish
        rw [hfinish] at haccept
        rw [run_cons_ok haccept]
        simp only [ih none _ hnone, hfits, hwell, true_and]

/-- The first frame of a message, joined to nothing or refused. -/
theorem run_data (kind : DataKind) (fin : Bool) (payload : Bytes)
    (ih : ∀ current outs, (∀ m ∈ current, m.payload.length ≤ limits.maxMessage) →
      ((holding limits current).run frames = .ok outs ↔ Explained limits current frames outs))
    {outs : List (Option Message)} :
    (holding limits current).run (⟨kind.opcode, fin, payload⟩ :: frames) = .ok outs ↔
      Explained limits current (⟨kind.opcode, fin, payload⟩ :: frames) outs := by
  have hcontrol : kind.opcode.isControl = false := by cases kind <;> rfl
  have haccept : (holding limits current).accept ⟨kind.opcode, fin, payload⟩ = _ :=
    accept_data kind fin payload rfl
  cases current with
  | some m =>
    refine run_refused haccept ?_
    intro t ht
    obtain ⟨-, hhead⟩ := Transcript.openFrames_data ((continues_data hcontrol).mp ht).1
    have hop : kind.opcode = .continuation := hhead _ _ rfl
    cases kind <;> cases hop
  | none =>
    have hm : (⟨kind, payload, []⟩ : Fragmented).payload = payload := List.append_nil payload
    refine run_fragment ⟨kind, payload, []⟩ hcontrol ?_ ?_ ?_ ih
    · rintro rfl
      rfl
    · rintro rfl
      rfl
    · have hidle : ¬(holding limits none).partialMessage.isSome = true := Bool.false_ne_true
      rw [haccept, acceptData, if_neg hidle, hm]
      simp only [holding, Option.map_none, Option.map_some, hm]
      cases fin <;> rfl

/-- A continuation frame, joined to the held message or refused. -/
theorem run_continuation (fin : Bool) (payload : Bytes)
    (ih : ∀ current outs, (∀ m ∈ current, m.payload.length ≤ limits.maxMessage) →
      ((holding limits current).run frames = .ok outs ↔ Explained limits current frames outs))
    {outs : List (Option Message)} :
    (holding limits current).run (⟨.continuation, fin, payload⟩ :: frames) = .ok outs ↔
      Explained limits current (⟨.continuation, fin, payload⟩ :: frames) outs := by
  have haccept : (holding limits current).accept ⟨.continuation, fin, payload⟩ = _ :=
    accept_continuation fin payload rfl
  cases current with
  | none =>
    refine run_refused haccept ?_
    intro t ht
    exact absurd rfl (Transcript.head_data ((continues_data rfl).mp ht).1)
  | some m =>
    refine run_fragment (m.extend payload) rfl ?_ ?_ ?_ ih
    · rintro rfl
      exact (m.openFrames_extend payload).symm
    · rintro rfl
      exact (m.frames_extend payload).symm
    · have hkind : (m.extend payload).kind = m.kind := rfl
      rw [haccept, acceptContinuation]
      simp only [holding, Option.map_some, Option.map_none, Fragmented.payload_extend,
        List.length_append, hkind]
      cases fin <;> rfl

/-- A run succeeds with the emissions of an admissible transcript, and only so. -/
theorem run_iff (hfits : ∀ m ∈ current, m.payload.length ≤ limits.maxMessage)
    (frames : List Frame) (outs : List (Option Message)) :
    (holding limits current).run frames = .ok outs ↔ Explained limits current frames outs := by
  induction frames generalizing current outs with
  | nil =>
    rw [← explained_nil hfits, run, Except.ok.injEq]
    exact eq_comm
  | cons f frames ih =>
    have ih' := fun current outs hfits => @ih current hfits outs
    obtain ⟨opcode, fin, payload⟩ := f
    cases opcode with
    | continuation => exact run_continuation fin payload ih'
    | text => exact run_data .text fin payload ih'
    | binary => exact run_data .binary fin payload ih'
    | ping =>
      rw [run_cons_ok (accept_ping fin payload rfl), ← explained_probe (.inl ⟨rfl, rfl⟩)]
      simp only [ih' current _ hfits]
    | pong =>
      rw [run_cons_ok (accept_pong fin payload rfl), ← explained_probe (.inr ⟨rfl, rfl⟩)]
      simp only [ih' current _ hfits]
    | close =>
      have haccept : (holding limits current).accept ⟨.close, fin, payload⟩ = _ :=
        accept_close fin payload rfl
      rw [← explained_close hfits rfl]
      cases hparse : parseCloseBody payload with
      | error e =>
        rw [hparse] at haccept
        rw [run_cons_error haccept]
        simp only [reduceCtorEq, false_and, exists_false]
      | ok content =>
        rw [hparse] at haccept
        rw [run_cons_ok haccept]
        simp only [run_closed, Except.ok.injEq, exists_eq_left', Function.comp_apply]

/-- The assembler recognises exactly the legal frame sequences: a fresh one fed
any sequence of frames never errors if and only if the sequence spells an
admissible transcript, and then it emits what the transcript says, frame by frame. -/
theorem run_recognises (limits : Limits) (frames : List Frame) :
    ((∃ outs, (new limits).run frames = .ok outs) ↔
        ∃ t : Transcript, t.Spells frames ∧ t.Admissible limits) ∧
      ∀ t : Transcript, t.Spells frames → t.Admissible limits →
        (new limits).run frames = .ok (t.emit frames) := by
  have hnone : ∀ m ∈ (none : Option Fragmented), m.payload.length ≤ limits.maxMessage := by
    rintro m ⟨⟩
  have hrun := fun outs => @run_iff limits none hnone frames outs
  have hnew : new limits = holding limits none := rfl
  rw [hnew]
  refine ⟨⟨?_, ?_⟩, ?_⟩
  · rintro ⟨outs, h⟩
    obtain ⟨t, ⟨hdata, hclose⟩, hadm, -⟩ := (hrun outs).mp h
    exact ⟨t, ⟨hdata, hclose⟩, hadm⟩
  · rintro ⟨t, ht, hadm⟩
    exact ⟨_, (hrun _).mpr ⟨t, ⟨ht.data_eq, ht.close_eq⟩, hadm, rfl⟩⟩
  · intro t ht hadm
    exact (hrun _).mpr ⟨t, ⟨ht.data_eq, ht.close_eq⟩, hadm, rfl⟩

end Assembler

end NagoWss
