import NagoWss.Conn.Closing
import NagoWss.Core.Scramble

/-!
# The keys of the masks

The generator counts through all the states of 64 bits and scrambles each of them one to
one, so that every key comes up equally often. A client puts the next key on every frame.
-/

namespace NagoWss

/-! ## The generator -/

/-- What the state of the generator grows by. -/
def maskStep : UInt64 := 0x9E3779B97F4A7C15

/-- The mixing step from the state of the generator to the word that the key is taken of. -/
def mix (state : UInt64) : UInt64 :=
  let z := state
  let z := (z ^^^ z >>> 30) * 0xBF58476D1CE4E5B9
  let z := (z ^^^ z >>> 27) * 0x94D049BB133111EB
  z ^^^ z >>> 31

/-- The factors of the generator are odd. -/
theorem isUnit_factors : IsUnit maskStep.toBitVec ∧ IsUnit (0xBF58476D1CE4E5B9 : BitVec 64) ∧
    IsUnit (0x94D049BB133111EB : BitVec 64) :=
  ⟨.of_mul_eq_one 0xF1DE83E19937733D (by decide), .of_mul_eq_one 0x96DE1B173F119089 (by decide),
    .of_mul_eq_one 0x319642B2D24D8EC3 (by decide)⟩

/-- The mixing step of words. -/
def mixBits (x : BitVec 64) : BitVec 64 :=
  Scramble.xorShift 31 (Scramble.xorShift 27 (Scramble.xorShift 30 x *
    0xBF58476D1CE4E5B9) * 0x94D049BB133111EB)

/-- The mixing step loses nothing. -/
theorem mixBits_injective : Function.Injective mixBits :=
  (Scramble.xorShift_injective (by decide)).comp <|
    (Scramble.mul_injective isUnit_factors.2.2).comp <|
    (Scramble.xorShift_injective (by decide)).comp <|
    (Scramble.mul_injective isUnit_factors.2.1).comp <|
    Scramble.xorShift_injective (by decide)

/-- The mixing step is one to one, and has every word for a value. -/
theorem mix_bijective : Function.Bijective mix := by
  have hmix (state : UInt64) : (mix state).toBitVec = mixBits state.toBitVec := rfl
  constructor
  · intro s t h
    refine UInt64.toBitVec_inj.mp (mixBits_injective ?_)
    rw [← hmix, ← hmix, h]
  · intro z
    obtain ⟨x, hx⟩ := (Scramble.bijective_of_injective mixBits_injective).2 z.toBitVec
    refine ⟨⟨x⟩, UInt64.toBitVec_inj.mp ?_⟩
    rw [hmix, ← hx]

/-- Every key is that of one word. -/
theorem Endian.wordBytes_iff (e : Endian) (key : Mask) :
    ∃ low : UInt32, ∀ word, e.wordBytes word = key ↔ word = low := by
  have hlen : key.toList.length = 4 := Vector.length_toList
  have hback := e.toNeBytes_fromNeBytes key.toList
  rw [hlen] at hback
  have hlow : (UInt32.ofNat (e.fromNeBytes key.toList)).toNat = e.fromNeBytes key.toList := by
    have hlt := BigEndian.decode_lt (e.significant key.toList)
    rw [e.length_significant, hlen] at hlt
    exact UInt32.toNat_ofNat_of_lt' hlt
  refine ⟨.ofNat (e.fromNeBytes key.toList), fun word => ⟨?_, ?_⟩⟩
  · rintro rfl
    have hword : e.fromNeBytes (e.wordBytes word).toList = word.toNat := by
      change BigEndian.decode (e.significant (e.significant (BigEndian.encode 4 word.toNat))) = _
      rw [e.significant_significant, BigEndian.decode_encode word.toNat_lt]
    rw [hword, UInt32.ofNat_toNat]
  · rintro rfl
    refine Vector.toList_inj.mp ?_
    change e.toNeBytes 4 (UInt32.ofNat (e.fromNeBytes key.toList)).toNat = key.toList
    rw [hlow, hback]

namespace Connection

/-- The generator and the key that it gives. -/
theorem nextMask_eq (c : Connection) : c.nextMask =
    (c.endian.wordBytes (mix (c.maskState + maskStep)).toUInt32,
      { c with maskState := c.maskState + maskStep }) := rfl

/-- The connection behind a number of keys. -/
def maskAfter (c : Connection) : Nat → Connection
  | 0 => c
  | n + 1 => (c.maskAfter n).nextMask.2

/-- The key behind a number of keys. -/
def maskAt (c : Connection) (n : Nat) : Mask := (c.maskAfter n).nextMask.1

/-- The generator touches nothing but its own state, which counts. -/
theorem maskAfter_eq (c : Connection) (n : Nat) :
    c.maskAfter n = { c with maskState := c.maskState + UInt64.ofNat n * maskStep } := by
  induction n with
  | zero =>
    have hzero : c.maskState + UInt64.ofNat 0 * maskStep = c.maskState := by
      exact (congrArg (c.maskState + ·) (UInt64.zero_mul)).trans (UInt64.add_zero _)
    rw [hzero]
    rfl
  | succ n ih =>
    have hsucc : c.maskState + UInt64.ofNat (n + 1) * maskStep =
        c.maskState + UInt64.ofNat n * maskStep + maskStep := by
      rw [UInt64.ofNat_add, UInt64.add_mul, UInt64.ofNat_one, UInt64.one_mul, UInt64.add_assoc]
    rw [maskAfter, ih, nextMask_eq, hsucc]

/-- The states of the generator are those of a counter. -/
theorem toBitVec_maskAfter (c : Connection) (n : Nat) : (c.maskAfter n).maskState.toBitVec =
    Scramble.counter c.maskState.toBitVec maskStep.toBitVec n := by
  rw [maskAfter_eq]
  rfl

/-- A key is taken of the word that the next state is mixed to. -/
theorem maskAt_eq (c : Connection) (n : Nat) : c.maskAt n =
    c.endian.wordBytes (mix (c.maskAfter (n + 1)).maskState).toUInt32 := by
  rw [maskAt, nextMask_eq, maskAfter, nextMask_eq, maskAfter_eq]

/-- The states of a full round are different. -/
theorem maskState_injOn (c : Connection) (n : Nat) :
    Set.InjOn (fun i => (c.maskAfter i).maskState) (Finset.Ico n (n + 2 ^ 64) : Finset Nat) := by
  intro i hi j hj h
  have hcounter := congrArg UInt64.toBitVec h
  simp only [toBitVec_maskAfter] at hcounter
  exact Scramble.counter_injOn isUnit_factors.1 _ n hi hj hcounter

/-- In a full round every key comes up equally often. -/
theorem card_maskAt (c : Connection) (n : Nat) (key : Mask) :
    ((Finset.Ico n (n + 2 ^ 64)).filter fun i => c.maskAt i = key).card = 2 ^ 32 := by
  obtain ⟨low, hlow⟩ := c.endian.wordBytes_iff key
  have hkey (i : Nat) : c.maskAt i = key ↔
      (mixBits (Scramble.counter (c.maskState + maskStep).toBitVec maskStep.toBitVec i)).setWidth 32
        = low.toBitVec := by
    have hstate : (c.maskAfter (i + 1)).maskState.toBitVec =
        Scramble.counter (c.maskState + maskStep).toBitVec maskStep.toBitVec i := by
      rw [maskAfter, nextMask_eq, UInt64.toBitVec_add, toBitVec_maskAfter, Scramble.counter,
        Scramble.counter, UInt64.toBitVec_add, add_right_comm]
    rw [maskAt_eq, hlow, ← UInt32.toBitVec_inj, UInt64.toBitVec_toUInt32, ← hstate]
    rfl
  simp only [hkey]
  exact Scramble.card_low isUnit_factors.1 _ n mixBits_injective (by decide) _

/-- The keys behind a number of keys. -/
theorem maskAt_add {c c' : Connection} {k : Nat} (hendian : c'.endian = c.endian)
    (hstate : c'.maskState = (c.maskAfter k).maskState) (i : Nat) :
    c'.maskAt i = c.maskAt (k + i) ∧
      (c'.maskAfter i).maskState = (c.maskAfter (k + i)).maskState := by
  have hafter (i : Nat) : (c'.maskAfter i).maskState = (c.maskAfter (k + i)).maskState := by
    rw [maskAfter_eq, maskAfter_eq c, hstate, maskAfter_eq, UInt64.ofNat_add, UInt64.add_mul,
      UInt64.add_assoc]
  refine ⟨?_, hafter i⟩
  rw [maskAt_eq, maskAt_eq, hendian, hafter, Nat.add_assoc]

/-! ## The keys of the frames -/

/-- A client has put frames on the wire, each under the next key. -/
structure Keyed (c c' : Connection) (ws : List WireFrame) : Prop where
  /-- Receiving is as it was. -/
  keeps : c.KeepsReceiving c'
  /-- One key was taken for every frame. -/
  maskState : c'.maskState = (c.maskAfter ws.length).maskState
  /-- The keys are put on in order. -/
  masks : ws.map WireFrame.mask = (List.range ws.length).map fun i => some (c.maskAt i)
  /-- The frames are on the wire. -/
  sent : c'.stream.sent = c.stream.sent ++ ws.flatMap WireFrame.bytes

/-- The keys of frames put on the wire one after the other. -/
theorem masks_append {c c' : Connection} {ws ws' : List WireFrame}
    (hendian : c'.endian = c.endian)
    (hstate : c'.maskState = (c.maskAfter ws.length).maskState)
    (h : ws.map WireFrame.mask = (List.range ws.length).map fun i => some (c.maskAt i))
    (h' : ws'.map WireFrame.mask = (List.range ws'.length).map fun i => some (c'.maskAt i)) :
    (ws ++ ws').map WireFrame.mask =
      (List.range (ws ++ ws').length).map fun i => some (c.maskAt i) := by
  rw [List.map_append, h, h', List.length_append, List.range_add, List.map_append, List.map_map]
  refine congrArg _ (List.map_congr_left fun i _ => ?_)
  exact congrArg some (maskAt_add hendian hstate i).1

/-- Frames put on the wire one after the other. -/
theorem Keyed.trans {c₁ c₂ c₃ : Connection} {ws ws' : List WireFrame} (h : c₁.Keyed c₂ ws)
    (h' : c₂.Keyed c₃ ws') : c₁.Keyed c₃ (ws ++ ws') where
  keeps := h.keeps.trans h'.keeps
  maskState := by
    rw [h'.maskState, (maskAt_add h.keeps.endian h.maskState _).2, List.length_append]
  masks := masks_append h.keeps.endian h.maskState h.masks h'.masks
  sent := by rw [h'.sent, h.sent, List.flatMap_append, List.append_assoc]

/-- No frame takes no key. -/
theorem Keyed.refl (c : Connection) : c.Keyed c [] :=
  ⟨.refl c, rfl, rfl, (List.append_nil _).symm⟩

/-- The frame of the next message of a client takes the next key. -/
theorem frameMask_client {c : Connection} (hclient : c.role = .client) (m : Message) :
    (c.noteClose m).frameMask.1 = some (c.maskAt 0) ∧
      (c.noteClose m).frameMask.2.maskState = (c.maskAfter 1).maskState ∧
      c.KeepsReceiving (c.noteClose m).frameMask.2 := by
  have hfixed := (c.noteClose m).frameMask_fixed
  rw [noteClose_eq] at hfixed ⊢
  rw [frameMask, hclient] at hfixed ⊢
  exact ⟨rfl, rfl, rfl, hclient.symm, rfl, rfl, rfl⟩

/-- A message of a client that goes out. -/
theorem write_keyed {c c' : Connection} {m : Message} (hclient : c.role = .client)
    (hfits : m.Fits) (h : c.write m = (.ok (), c')) : ∃ ws, c.Keyed c' ws := by
  obtain ⟨hmask, hstate, -⟩ := frameMask_client hclient m
  obtain ⟨hkeeps, -, hsent⟩ := writeFrame_sends hfits h
  have hwritten := ((c.noteClose m).writeFrame_frameBytes (frameOf m).1 (frameOf m).2).2
  refine ⟨[(c.noteClose m).wireFrame m hfits], (c.keepsReceiving_noteClose m).trans hkeeps,
    ?_, congrArg (fun mask => [mask]) hmask, ?_⟩
  · have hlast := congrArg Connection.maskState hwritten
    change (c.write m).2.maskState = _ at hlast
    rw [h] at hlast
    exact hlast.trans hstate
  · rw [hsent, List.flatMap_singleton, noteClose_eq]

/-- The frames of a batch of a client take the next keys. -/
theorem encodeAll_masks {c : Connection} (hclient : c.role = .client) (outgoing : Bytes)
    {messages : List Message} (hfits : ∀ m ∈ messages, m.Fits) : ∃ ws : List WireFrame,
      (c.encodeAll outgoing messages).2.1 = outgoing ++ ws.flatMap WireFrame.bytes ∧
      (c.encodeAll outgoing messages).2.2.maskState = (c.maskAfter ws.length).maskState ∧
      ws.map WireFrame.mask = (List.range ws.length).map fun i => some (c.maskAt i) := by
  induction messages generalizing c outgoing with
  | nil => exact ⟨[], (List.append_nil _).symm, rfl, rfl⟩
  | cons m messages ih =>
    have hm := hfits m List.mem_cons_self
    obtain ⟨hmask, hstate, hkeeps⟩ := frameMask_client hclient m
    obtain ⟨ws, hbytes, hlast, hmasks⟩ := ih (hkeeps.role.trans hclient)
      (outgoing ++ ((c.noteClose m).wireFrame m hm).bytes)
      fun x hx => hfits x (List.mem_cons_of_mem m hx)
    have hfirst : [(c.noteClose m).wireFrame m hm].map WireFrame.mask =
        (List.range 1).map fun i => some (c.maskAt i) := congrArg (fun mask => [mask]) hmask
    refine ⟨(c.noteClose m).wireFrame m hm :: ws, ?_, ?_, ?_⟩
    · rw [encodeAll]
      simp only [encodeFrame_eq _ _ _ hm]
      rw [hbytes, List.flatMap_cons, List.append_assoc]
    · rw [encodeAll]
      simp only [encodeFrame_eq _ _ _ hm]
      rw [hlast, (maskAt_add hkeeps.endian hstate _).2, List.length_cons, Nat.add_comm]
    · exact @masks_append c _ [_] ws hkeeps.endian hstate hfirst hmasks

/-- A batch of a client that goes out. -/
theorem writeAll_keyed {c c' : Connection} {messages : List Message}
    (hclient : c.role = .client) (hfits : ∀ m ∈ messages, m.Fits)
    (h : c.writeAll messages = (.ok (), c')) : ∃ ws, c.Keyed c' ws := by
  obtain ⟨ws, hbytes, hstate, hmasks⟩ := encodeAll_masks hclient [] hfits
  obtain ⟨hkeeps, hstream⟩ := c.encodeAll_keepsReceiving [] messages
  obtain ⟨vs, state, -, heq⟩ := c.encodeAll_eq [] messages hfits
  have hok := congrArg Prod.fst heq
  rcases hencoded : c.encodeAll [] messages with ⟨result, outgoing, d⟩
  rw [hencoded] at hbytes hstate hkeeps hstream hok
  simp only [List.nil_append] at hbytes hstate hkeeps hstream hok
  have hkeyed (stream : ByteStream) (hincoming : stream.incoming = d.stream.incoming)
      (hsent : stream.sent = d.stream.sent ++ outgoing) :
      c.Keyed { d with stream := stream, outgoing := [] } ws :=
    ⟨⟨hkeeps.endian, hkeeps.role, hkeeps.assembler, hkeeps.readBuffer,
      hincoming.trans hkeeps.incoming⟩, hstate, hmasks, by rw [hsent, hstream, hbytes]⟩
  rw [writeAll, hencoded, hok] at h
  simp only at h
  split at h
  · next hempty =>
    cases h
    refine ⟨ws, hkeyed d.stream rfl ?_⟩
    rw [List.isEmpty_iff.mp hempty, List.append_nil]
  · rcases hw : d.stream.writeAll outgoing with ⟨_ | _, stream⟩
    · rw [hw] at h
      cases h
    · rw [hw] at h
      cases h
      obtain ⟨hsent, hincoming⟩ := ByteStream.writeAll_ok hw
      exact ⟨ws, hkeyed stream hincoming hsent⟩

/-- A call of a client that succeeds. -/
theorem call_keyed {c c' : Connection} {call : Call} (hclient : c.role = .client)
    (hfits : ∀ m ∈ call.messages c.closeSent, m.Fits) (h : c.call call = (.ok (), c')) :
    ∃ ws, c.Keyed c' ws := by
  cases call with
  | write m => exact write_keyed hclient (hfits m List.mem_cons_self) h
  | writeAll messages => exact writeAll_keyed hclient hfits h
  | pong payload => exact @write_keyed c c' (.pong payload) hclient (hfits _ List.mem_cons_self) h
  | close frame =>
    simp only [call, close] at h
    rw [Call.messages] at hfits
    split at h
    · cases h
      exact ⟨[], .refl c⟩
    · next hopen =>
      rw [if_neg hopen] at hfits
      exact write_keyed hclient (hfits _ List.mem_cons_self) h

/-- A run of calls of a client over a reliable stream. -/
theorem callAll_keyed {c : Connection} (hclient : c.role = .client) (h : c.stream.Reliable)
    {calls : List Call} (hfits : ∀ call ∈ calls, ∀ m ∈ call.handed, m.Fits) :
    ∃ ws, c.Keyed (c.callAll calls) ws := by
  induction calls generalizing c with
  | nil => exact ⟨[], .refl c⟩
  | cons call calls ih =>
    have hhanded : ∀ m ∈ call.messages c.closeSent, m.Fits := fun m hm =>
      hfits call List.mem_cons_self m (call.messages_subset c.closeSent hm)
    obtain ⟨hok, hreliable⟩ := call_ok h hhanded
    obtain ⟨ws, hws⟩ := call_keyed hclient hhanded (Prod.ext hok rfl)
    obtain ⟨ws', hws'⟩ := ih (hws.keeps.role.trans hclient) hreliable fun x hx =>
      hfits x (List.mem_cons_of_mem call hx)
    exact ⟨ws ++ ws', hws.trans hws'⟩

/-- Among the frames of a full round every key comes up equally often. -/
theorem Keyed.count {c c' : Connection} {ws : List WireFrame} (h : c.Keyed c' ws) {n : Nat}
    (hn : n + 2 ^ 64 ≤ ws.length) (key : Mask) :
    ((ws.drop n).take (2 ^ 64)).countP (fun w => w.mask = some key) = 2 ^ 32 := by
  have hcount (l : List WireFrame) : l.countP (fun w => w.mask = some key) =
      (l.map WireFrame.mask).countP fun mask => mask = some key := by
    rw [List.countP_map]
    rfl
  rw [hcount, List.map_take, List.map_drop, h.masks, ← List.map_drop, ← List.map_take,
    Scramble.take_drop_range hn, List.countP_map]
  have hkey : (List.range' n (2 ^ 64)).countP (fun i => c.maskAt i = key) = 2 ^ 32 := by
    rw [Scramble.countP_range', card_maskAt]
  rw [← hkey]
  refine List.countP_congr fun i _ => ?_
  simp only [Function.comp_apply, Option.some.injEq]

/-- The keys are equidistributed. In any 2 ^ 64 consecutive calls of the generator the states
are different; the mixing step, of which a key is the low half, is one to one; and every key
is given 2 ^ 32 times. So is every key of 2 ^ 64 consecutive frames of a client. -/
theorem masks_equidistributed (c : Connection) :
    (∀ n, Set.InjOn (fun i => (c.maskAfter i).maskState) (Finset.Ico n (n + 2 ^ 64) : Finset Nat)) ∧
    Function.Bijective mix ∧
    (∀ n, c.maskAt n = c.endian.wordBytes (mix (c.maskAfter (n + 1)).maskState).toUInt32) ∧
    (∀ n key, ((Finset.Ico n (n + 2 ^ 64)).filter fun i => c.maskAt i = key).card = 2 ^ 32) ∧
    (c.role = .client → c.stream.Reliable → ∀ calls : List Call,
      (∀ call ∈ calls, ∀ m ∈ call.handed, m.Fits) →
      (∃ ws : List WireFrame,
        (c.callAll calls).stream.sent = c.stream.sent ++ ws.flatMap WireFrame.bytes) ∧
      ∀ ws : List WireFrame,
        (c.callAll calls).stream.sent = c.stream.sent ++ ws.flatMap WireFrame.bytes →
        ∀ n key, n + 2 ^ 64 ≤ ws.length →
          ((ws.drop n).take (2 ^ 64)).countP (fun w => w.mask = some key) = 2 ^ 32) := by
  refine ⟨c.maskState_injOn, mix_bijective, c.maskAt_eq, c.card_maskAt, ?_⟩
  intro hclient hreliable calls hfits
  obtain ⟨ws, hkeyed⟩ := callAll_keyed hclient hreliable hfits
  refine ⟨⟨ws, hkeyed.sent⟩, fun vs hvs n key hn => ?_⟩
  obtain rfl : ws = vs :=
    WireFrame.flatMap_bytes_injective (List.append_cancel_left (hkeyed.sent.symm.trans hvs))
  exact hkeyed.count hn key

end Connection

end NagoWss
