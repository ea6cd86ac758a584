import NagoWss.Proto.Conformance

/-!
# Lists on several lines

A list that is the value of one header may as well be spread over several headers of the
name, in order. The subprotocols on such lines add up, but of several `Connection` lines
only the last one counts.
-/

namespace NagoWss

/-! ## Lines with pieces of a list -/

/-- The names whose values are comma separated lists. -/
def listNames : List (List Char) := ["connection".toList, "sec-websocket-protocol".toList]

/-- A header line of this name, in whatever case it is written, with this value. -/
def SaysHeader (name value line : List Char) : Prop :=
  ∃ spelled, Text.eqIgnoreAsciiCase spelled name = true ∧
    headerOf line = some (spelled, Text.trim value)

/-- Lines of the name of a line that carry consecutive pieces of the list on it. -/
structure CarriesPieces (name line : List Char) (pieces lines : List (List Char)) : Prop where
  /-- There is at least one piece. -/
  ne_nil : pieces ≠ []
  /-- The pieces make up the list. -/
  whole : SaysHeader name (List.intercalate [','] pieces) line
  /-- There is a line for each piece. -/
  parts : List.Forall₂ (SaysHeader name) pieces lines

/-- What a request asked for: an upgrade or not, with which key and which subprotocols. -/
def Parsed.asked : Parsed → Bool × Bytes × List (List Char)
  | .upgrade request => (true, request.key, request.protocols)
  | .plain request => (false, request.key, request.protocols)

/-- A request with a list on several lines asks for the same. -/
def MeansSame (parsed : Parsed) (input : Bytes) (maxHead : Nat) : Prop :=
  ∃ parsed', parseRequest input maxHead = .ok parsed' ∧ parsed'.asked = parsed.asked

/-- The last `Connection` line of an upgrade is spread over several, and the last of them
does not list `upgrade`. -/
structure HidesUpgrade (start : List Char) (before after : List (List Char)) (name : List Char)
    (pieces : List (List Char)) : Prop where
  /-- The method is `GET`. -/
  method : (start.splitOn ' ').head?.map Method.named = some .get
  /-- A WebSocket is asked for. -/
  upgrade : (valuesOf "upgrade".toList (headersOf (before ++ after))).getLast?.any
    (Text.eqIgnoreAsciiCase · "websocket".toList) = true
  /-- The line is a `Connection` line. -/
  connection : name = "connection".toList
  /-- It is the last one. -/
  last : valuesOf "connection".toList (headersOf after) = []
  /-- It lists `upgrade`. -/
  lists : pieces.any listsUpgrade = true
  /-- The last piece does not. -/
  hidden : pieces.getLast?.any listsUpgrade = false

/-! ## What the pieces say -/

theorem headersOf_append (lines lines' : List (List Char)) :
    headersOf (lines ++ lines') = headersOf lines ++ headersOf lines' := List.filterMap_append

theorem valuesOf_append (name : List Char) (headers headers' : List HeaderLine) :
    valuesOf name (headers ++ headers') = valuesOf name headers ++ valuesOf name headers' :=
  List.filterMap_append

/-- A list whose white space at the ends is trimmed has the same tokens. -/
@[simp] theorem tokens_trim (value : List Char) : tokens (Text.trim value) = tokens value := by
  rw [tokens, Text.map_trim_splitOn_trim (by decide), ← tokens]

/-- Trimming a list does not hide `upgrade`. -/
@[simp] theorem listsUpgrade_trim (value : List Char) :
    listsUpgrade (Text.trim value) = listsUpgrade value := by
  have hmap (value : List Char) : listsUpgrade value =
      ((value.splitOn ',').map Text.trim).any (Text.eqIgnoreAsciiCase · "upgrade".toList) := by
    rw [List.any_map]
    rfl
  rw [hmap, Text.map_trim_splitOn_trim (by decide), ← hmap]

/-- The tokens of a list are those of its pieces. -/
theorem tokens_intercalate {pieces : List (List Char)} (h : pieces ≠ []) :
    tokens (List.intercalate [','] pieces) = pieces.flatMap tokens := by
  rw [tokens, Text.splitOn_intercalate_eq_flatMap h, List.map_flatMap, List.filter_flatMap]
  rfl

/-- A list has `upgrade` in it if one of its pieces has. -/
theorem listsUpgrade_intercalate {pieces : List (List Char)} (h : pieces ≠ []) :
    listsUpgrade (List.intercalate [','] pieces) = pieces.any listsUpgrade := by
  rw [listsUpgrade, Text.splitOn_intercalate_eq_flatMap h, List.any_flatMap]
  rfl

/-- Lines of a name say their values, and nothing of other names. -/
theorem valuesOf_of_saysHeader {name : List Char} {values lines : List (List Char)}
    (h : List.Forall₂ (SaysHeader name) values lines) :
    valuesOf name (headersOf lines) = values.map Text.trim ∧
      ∀ other, Text.eqIgnoreAsciiCase name other = false →
        valuesOf other (headersOf lines) = [] := by
  induction h with
  | nil => exact ⟨rfl, fun other _ => rfl⟩
  | @cons value line values lines hline hlines ih =>
    obtain ⟨spelled, hname, hheader⟩ := hline
    have hcons : headersOf (line :: lines) = (spelled, Text.trim value) :: headersOf lines :=
      List.filterMap_cons_some hheader
    refine ⟨?_, fun other hother => ?_⟩
    · rw [hcons, valuesOf, List.filterMap_cons, if_pos hname, ← valuesOf, ih.1]
      rfl
    · have hne := eqIgnoreAsciiCase_ne hname hother
      rw [hcons, valuesOf, List.filterMap_cons, if_neg (Bool.eq_false_iff.mp hne), ← valuesOf,
        ih.2 other hother]

/-- Header lines have a colon. -/
theorem colon_of_saysHeader {name : List Char} {values lines : List (List Char)}
    (h : List.Forall₂ (SaysHeader name) values lines) : ∀ line ∈ lines, ':' ∈ line := by
  induction h with
  | nil => exact List.forall_mem_nil _
  | @cons value line values lines hline hlines ih =>
    refine List.forall_mem_cons.mpr ⟨?_, ih⟩
    obtain ⟨spelled, -, hheader⟩ := hline
    by_contra hnone
    rw [(headerOf_eq_none_iff line).mpr hnone] at hheader
    cases hheader

section Pieces

variable {name line : List Char} {pieces lines : List (List Char)}
  (h : CarriesPieces name line pieces lines) (before after : List (List Char))

include h

/-- What other headers say is left alone. -/
theorem CarriesPieces.valuesOf_other {other : List Char}
    (hother : Text.eqIgnoreAsciiCase name other = false) :
    valuesOf other (headersOf (before ++ lines ++ after)) =
        valuesOf other (headersOf (before ++ after)) ∧
      valuesOf other (headersOf (before ++ line :: after)) =
        valuesOf other (headersOf (before ++ after)) := by
  have hlines := (valuesOf_of_saysHeader h.parts).2 other hother
  have hline := (valuesOf_of_saysHeader (.cons h.whole .nil)).2 other hother
  have hcons : before ++ line :: after = before ++ [line] ++ after := List.append_cons ..
  refine ⟨?_, ?_⟩
  · rw [headersOf_append, headersOf_append, valuesOf_append, valuesOf_append, hlines,
      List.append_nil, headersOf_append, valuesOf_append]
  · rw [hcons, headersOf_append, headersOf_append, valuesOf_append, valuesOf_append, hline,
      List.append_nil, headersOf_append, valuesOf_append]

/-- The pieces stand where the list stood. -/
theorem CarriesPieces.valuesOf_same :
    valuesOf name (headersOf (before ++ lines ++ after)) = valuesOf name (headersOf before) ++
        pieces.map Text.trim ++ valuesOf name (headersOf after) ∧
      valuesOf name (headersOf (before ++ line :: after)) = valuesOf name (headersOf before) ++
        [Text.trim (List.intercalate [','] pieces)] ++ valuesOf name (headersOf after) := by
  have hlines := (valuesOf_of_saysHeader h.parts).1
  have hline := (valuesOf_of_saysHeader (.cons h.whole .nil)).1
  have hcons : before ++ line :: after = before ++ [line] ++ after := List.append_cons ..
  refine ⟨?_, ?_⟩
  · rw [headersOf_append, headersOf_append, valuesOf_append, valuesOf_append, hlines]
  · rw [hcons, headersOf_append, headersOf_append, valuesOf_append, valuesOf_append, hline,
      List.map_singleton]

/-- The subprotocols on the pieces are those of the list. -/
theorem CarriesPieces.protocols_eq (hname : name = "sec-websocket-protocol".toList) :
    (Fields.of (headersOf (before ++ lines ++ after))).protocols =
      (Fields.of (headersOf (before ++ line :: after))).protocols := by
  obtain ⟨hnew, hold⟩ := h.valuesOf_same before after
  rw [hname] at hnew hold
  have hpieces : (pieces.map Text.trim).flatMap tokens = pieces.flatMap tokens := by
    rw [List.flatMap_map]
    exact List.flatMap_congr fun piece _ => tokens_trim piece
  simp only [Fields.of, hnew, hold, List.flatMap_append, List.flatMap_singleton, tokens_trim,
    tokens_intercalate h.ne_nil, hpieces]

/-- Whether an upgrade is asked for, if it is the last `Connection` line that is spread. -/
theorem CarriesPieces.connectionSeen_eq (hname : name = "connection".toList)
    (hlast : valuesOf "connection".toList (headersOf after) = []) :
    (Fields.of (headersOf (before ++ lines ++ after))).connectionSeen =
        pieces.getLast?.any listsUpgrade ∧
      (Fields.of (headersOf (before ++ line :: after))).connectionSeen =
        pieces.any listsUpgrade := by
  obtain ⟨hnew, hold⟩ := h.valuesOf_same before after
  rw [hname] at hnew hold
  rw [hlast, List.append_nil] at hnew hold
  have hne : pieces.map Text.trim ≠ [] := by
    rw [ne_eq, List.map_eq_nil_iff]
    exact h.ne_nil
  refine ⟨?_, ?_⟩
  · simp only [Fields.of, hnew, List.getLast?_append_of_ne_nil _ hne, List.getLast?_map,
      Option.any_map]
    cases pieces.getLast? with
    | none => rfl
    | some piece => exact listsUpgrade_trim piece
  · simp only [Fields.of, hold, List.getLast?_concat, Option.any_some, listsUpgrade_trim,
      listsUpgrade_intercalate h.ne_nil]

/-- The pieces change nothing but whether an upgrade is asked for, and that only if it is
the last `Connection` line that is spread. -/
theorem CarriesPieces.fields_eq (hname : name ∈ listNames) :
    let old := Fields.of (headersOf (before ++ line :: after))
    let new := Fields.of (headersOf (before ++ lines ++ after))
    { new with connectionSeen := old.connectionSeen, headers := [] } =
        { old with headers := [] } ∧
      (name = "connection".toList ∧ valuesOf "connection".toList (headersOf after) = [] ∨
        new.connectionSeen = old.connectionSeen) := by
  intro old new
  have hsame {other : List Char} (hother : Text.eqIgnoreAsciiCase name other = false) :
      valuesOf other (headersOf (before ++ lines ++ after)) =
        valuesOf other (headersOf (before ++ line :: after)) := by
    obtain ⟨hnew, hold⟩ := h.valuesOf_other before after hother
    rw [hnew, hold]
  rw [listNames, List.mem_cons, List.mem_singleton] at hname
  rcases hname with rfl | rfl
  · refine ⟨?_, ?_⟩
    · simp only [old, new, Fields.of, @hsame "upgrade".toList (by decide),
        @hsame "sec-websocket-version".toList (by decide),
        @hsame "sec-websocket-key".toList (by decide),
        @hsame "sec-websocket-protocol".toList (by decide)]
    · by_cases hlast : valuesOf "connection".toList (headersOf after) = []
      · exact .inl ⟨rfl, hlast⟩
      · obtain ⟨hnew, hold⟩ := h.valuesOf_same before after
        refine .inr ?_
        simp only [old, new, Fields.of, hnew, hold, List.getLast?_append_of_ne_nil _ hlast]
  · have hprotocols := h.protocols_eq before after rfl
    have hconnection : new.connectionSeen = old.connectionSeen := by
      simp only [old, new, Fields.of, @hsame "connection".toList (by decide)]
    refine ⟨?_, .inr hconnection⟩
    simp only [Fields.of] at hprotocols
    simp only [old, new, Fields.of, @hsame "upgrade".toList (by decide),
      @hsame "sec-websocket-version".toList (by decide),
      @hsame "sec-websocket-key".toList (by decide), hprotocols]

/-- The pieces change whether an upgrade is asked for exactly if it is the last `Connection`
line that is spread, with `upgrade` on it but not on the last piece. -/
theorem CarriesPieces.connectionSeen_ne_iff (hname : name ∈ listNames) :
    (Fields.of (headersOf (before ++ lines ++ after))).connectionSeen ≠
        (Fields.of (headersOf (before ++ line :: after))).connectionSeen ↔
      name = "connection".toList ∧ valuesOf "connection".toList (headersOf after) = [] ∧
        pieces.any listsUpgrade = true ∧ pieces.getLast?.any listsUpgrade = false := by
  -- The last piece lists `upgrade` only if the whole list does.
  have hpart : pieces.getLast?.any listsUpgrade = true → pieces.any listsUpgrade = true := by
    intro hany
    obtain ⟨piece, hpiece, hlists⟩ := (Option.any_eq_true _ _).mp hany
    exact List.any_eq_true.mpr ⟨piece, List.mem_of_getLast? hpiece, hlists⟩
  constructor
  · intro hdiffers
    obtain ⟨hlist, hlast⟩ := (h.fields_eq before after hname).2.resolve_right hdiffers
    obtain ⟨hnew, hold⟩ := h.connectionSeen_eq before after hlist hlast
    rw [hnew, hold] at hdiffers
    have hhidden : pieces.getLast?.any listsUpgrade = false := by
      rw [Bool.eq_false_iff]
      exact fun hany => hdiffers (hany.trans (hpart hany).symm)
    rw [hhidden] at hdiffers
    exact ⟨hlist, hlast, Bool.eq_true_of_not_eq_false hdiffers.symm, hhidden⟩
  · rintro ⟨hlist, hlast, hlists, hhidden⟩
    obtain ⟨hnew, hold⟩ := h.connectionSeen_eq before after hlist hlast
    rw [hnew, hold, hlists, hhidden]
    exact Bool.false_ne_true

/-- Every line still has a colon. -/
theorem CarriesPieces.allColons (hcolons : AllColons (before ++ line :: after)) :
    AllColons (before ++ lines ++ after) := by
  intro other hother hne
  rw [List.append_assoc, List.mem_append, List.mem_append] at hother
  rcases hother with hbefore | hlines | hafter
  · exact hcolons other (List.mem_append_left _ hbefore) hne
  · exact colon_of_saysHeader h.parts other hlines
  · exact hcolons other (List.mem_append_right _ (List.mem_cons_of_mem _ hafter)) hne

end Pieces

/-! ## The verdict on the pieces -/

/-- What was asked for does not depend on the headers that were kept. -/
theorem Parsed.asked_withoutHeaders (parsed : Parsed) :
    parsed.withoutHeaders.asked = parsed.asked := by
  cases parsed <;> rfl

/-- Verdicts that differ in the headers that were kept only ask for the same. -/
theorem Fields.conclude_asked_congr {f f' : Fields} {method : Method} {path : List Char}
    {parsed : Parsed} (h : ({ f' with headers := [] } : Fields) = { f with headers := [] })
    (hparsed : f.conclude method path = .ok parsed) :
    ∃ parsed', f'.conclude method path = .ok parsed' ∧ parsed'.asked = parsed.asked := by
  have hsame : (f'.conclude method path).map Parsed.withoutHeaders =
      (f.conclude method path).map Parsed.withoutHeaders := by
    rw [conclude_withoutHeaders, conclude_withoutHeaders, h]
  rw [hparsed] at hsame
  cases hverdict : f'.conclude method path with
  | error e =>
    rw [hverdict] at hsame
    cases hsame
  | ok parsed' =>
    rw [hverdict] at hsame
    refine ⟨parsed', rfl, ?_⟩
    rw [← parsed'.asked_withoutHeaders, ← parsed.asked_withoutHeaders]
    exact congrArg Parsed.asked (Except.ok.inj hsame)

/-- A request that does not ask for an upgrade is plain. -/
theorem Fields.conclude_plain {f : Fields} {method : Method} (path : List Char)
    (h : ¬(method = .get ∧ f.upgradeSeen = true ∧ f.connectionSeen = true)) :
    f.conclude method path = .ok (.plain ⟨method, path, [], f.protocols, f.headers⟩) := by
  simp only [conclude]
  refine if_pos ?_
  by_contra hall
  simp only [Bool.or_eq_true, not_or, decide_eq_true_eq, Bool.not_eq_true', not_not,
    Bool.not_eq_false] at hall
  exact h ⟨hall.1.1, hall.1.2, hall.2⟩

/-- A request that asks for an upgrade and is accepted is one. -/
theorem Fields.conclude_asked_upgrade {f : Fields} {method : Method} {path : List Char}
    {parsed : Parsed} (h : method = .get ∧ f.upgradeSeen = true ∧ f.connectionSeen = true)
    (hparsed : f.conclude method path = .ok parsed) : parsed.asked.1 = true := by
  obtain ⟨rfl, hupgrade, hconnection⟩ := h
  simp only [conclude, hupgrade, hconnection] at hparsed
  split at hparsed
  · next hplain => simp at hplain
  · split at hparsed
    · cases hparsed
    · split at hparsed
      · cases hparsed
      · split at hparsed
        · cases hparsed
        · cases hparsed
          rfl

/-- If the `Connection` header no longer asks for an upgrade, the request asks for the same
exactly if it did not ask for one anyway. -/
theorem Fields.conclude_lost {old new : Fields} {method : Method} {path : List Char}
    {parsed : Parsed} (hold : old.connectionSeen = true) (hnew : new.connectionSeen = false)
    (hprotocols : new.protocols = old.protocols)
    (hparsed : old.conclude method path = .ok parsed) :
    (∃ parsed', new.conclude method path = .ok parsed' ∧ parsed'.asked = parsed.asked) ↔
      ¬(method = .get ∧ old.upgradeSeen = true) := by
  have hplain := @conclude_plain new method path fun hasks => by
    rw [hnew] at hasks
    cases hasks.2.2
  rw [hplain]
  by_cases hall : method = .get ∧ old.upgradeSeen = true
  · have hask := conclude_asked_upgrade ⟨hall.1, hall.2, hold⟩ hparsed
    refine iff_of_false ?_ fun hno => hno hall
    rintro ⟨parsed', hparsed', hasked⟩
    cases hparsed'
    rw [← hasked] at hask
    cases hask
  · rw [conclude_plain path fun hasks => hall ⟨hasks.1, hasks.2.1⟩] at hparsed
    cases hparsed
    exact iff_of_true ⟨_, rfl, congrArg (false, [], ·) hprotocols⟩ hall

section Verdict

variable {maxHead : Nat} {input input' : Bytes} {parsed : Parsed} {start : List Char}
  {before after : List (List Char)} {name line : List Char} {pieces lines : List (List Char)}

/-- A list on several lines means what it means on one, exactly if it is not the last
`Connection` line of an upgrade that is spread so that the last piece does not list
`upgrade`. -/
theorem meansSame_iff (hparsed : parseRequest input maxHead = .ok parsed)
    (hhead : headLines input = some (start, before ++ line :: after))
    (hname : name ∈ listNames) (hpieces : CarriesPieces name line pieces lines)
    (hhead' : headLines input' = some (start, before ++ lines ++ after))
    (hmax' : input'.length ≤ maxHead)
    (hcount' : (headersOf (before ++ lines ++ after)).length ≤ MAX_HEADERS) :
    MeansSame parsed input' maxHead ↔ ¬HidesUpgrade start before after name pieces := by
  obtain ⟨start', all, method, path, rest, hsome, hwords, hcolons, hverdict⟩ :=
    parseRequest_ok hparsed
  rw [hhead] at hsome
  cases hsome
  have hcolons' := hpieces.allColons before after hcolons
  rw [MeansSame, parseRequest_words hmax' hhead' hwords hcolons' hcount']
  have hfields := (hpieces.fields_eq before after hname).1
  have hsame := hpieces.connectionSeen_eq before after
  have hdiffers := hpieces.connectionSeen_ne_iff before after hname
  have hupgrade : valuesOf "upgrade".toList (headersOf (before ++ line :: after)) =
      valuesOf "upgrade".toList (headersOf (before ++ after)) := by
    refine (hpieces.valuesOf_other before after ?_).2
    rw [listNames, List.mem_cons, List.mem_singleton] at hname
    rcases hname with rfl | rfl <;> decide
  have hfirst : (start.splitOn ' ').head?.map Method.named = some .get ↔
      Method.named method = .get := by
    rw [hwords]
    exact Option.some_inj
  generalize hold : Fields.of (headersOf (before ++ line :: after)) = old at *
  generalize hnew : Fields.of (headersOf (before ++ lines ++ after)) = new at *
  have hseen : (valuesOf "upgrade".toList (headersOf (before ++ after))).getLast?.any
      (Text.eqIgnoreAsciiCase · "websocket".toList) = old.upgradeSeen := by
    rw [← hupgrade, ← hold]
    rfl
  by_cases hspread : name = "connection".toList ∧
    valuesOf "connection".toList (headersOf after) = [] ∧
      pieces.any listsUpgrade = true ∧ pieces.getLast?.any listsUpgrade = false
  · obtain ⟨hlist, hlast, hlists, hhidden⟩ := hspread
    obtain ⟨hafter, hbefore⟩ := hsame hlist hlast
    have hprotocols := congrArg Fields.protocols hfields
    rw [Fields.conclude_lost (hbefore.trans hlists) (hafter.trans hhidden) hprotocols hverdict]
    refine not_congr ⟨fun hasks => ?_, fun hhides => ?_⟩
    · exact ⟨hfirst.mpr hasks.1, hseen.trans hasks.2, hlist, hlast, hlists, hhidden⟩
    · exact ⟨hfirst.mp hhides.method, hseen.symm.trans hhides.upgrade⟩
  · have hkept := not_not.mp (mt hdiffers.mp hspread)
    have heq : ({ new with headers := [] } : Fields) = { old with headers := [] } := by
      rw [← hfields, ← hkept]
    refine iff_of_true (Fields.conclude_asked_congr heq hverdict) fun hhides => hspread ?_
    exact ⟨hhides.connection, hhides.last, hhides.lists, hhides.hidden⟩

end Verdict

/-- The lines behind the request line of an upgrade with these `Connection` lines. -/
def connectionLines (connection : List (List Char)) : List (List Char) :=
  "Upgrade: websocket".toList :: connection ++
    ["Sec-WebSocket-Version: 13".toList, "Sec-WebSocket-Key: dGhlIHNhbXBsZSBub25jZQ==".toList]

/-- An upgrade with these `Connection` lines. -/
def connectionHead (connection : List (List Char)) : Bytes :=
  bareHead ("GET / HTTP/1.1".toList :: connectionLines connection)

/-- What is parsed out of such a head, if `upgrade` is on the last line or not. -/
def connectionParsed (connection : List (List Char)) (upgrade : Bool) : Parsed :=
  let request (key : Bytes) : Request :=
    ⟨.get, "/".toList, key, [], headersOf (connectionLines connection)⟩
  if upgrade then .upgrade (request (Utf8.encode "dGhlIHNhbXBsZSBub25jZQ==".toList))
  else .plain (request [])

section Connection

variable {connection : List (List Char)} {upgrade : Bool}
  (hlines : Text.lines (("GET / HTTP/1.1".toList :: connectionLines connection).flatMap
    (· ++ ['\n']) ++ ['\n']) =
      "GET / HTTP/1.1".toList :: connectionLines connection ++ [[], []])

include hlines

/-- The lines of such a head. -/
theorem headLines_connectionHead : headLines (connectionHead connection) =
    some ("GET / HTTP/1.1".toList, connectionLines connection ++ [[], []]) := by
  rw [connectionHead, bareHead, headLines_encode, hlines]
  rfl

/-- What is parsed out of such a head, if its lines are as they should be. -/
theorem parseRequest_connectionHead
    (hmax : (connectionHead connection).length ≤ DEFAULT_MAX_HEAD)
    (hcolons : AllColons (connectionLines connection ++ [[], []]))
    (hcount : (headersOf (connectionLines connection ++ [[], []])).length ≤ MAX_HEADERS)
    (hverdict : (Fields.of (headersOf (connectionLines connection ++ [[], []]))).conclude .get
      "/".toList = .ok (connectionParsed connection upgrade)) :
    parseRequest (connectionHead connection) DEFAULT_MAX_HEAD =
      .ok (connectionParsed connection upgrade) := by
  have hwords : "GET / HTTP/1.1".toList.splitOn ' ' =
      ["GET".toList, "/".toList, "HTTP/1.1".toList] := by decide +kernel
  have hmethod : Method.named "GET".toList = .get := by decide
  rw [parseRequest_words hmax (headLines_connectionHead hlines) hwords hcolons hcount, hmethod,
    hverdict]

end Connection

/-- A proxy that puts `keep-alive` on a line of its own, in front of the list. -/
theorem meansSame_iff_inFront :
    MeansSame (connectionParsed ["Connection: keep-alive, Upgrade".toList] true)
      (connectionHead ["Connection: keep-alive".toList, "connection:Upgrade".toList])
      DEFAULT_MAX_HEAD := by
  have hhead : headLines (connectionHead ["Connection: keep-alive, Upgrade".toList]) =
      some ("GET / HTTP/1.1".toList, ["Upgrade: websocket".toList] ++
        "Connection: keep-alive, Upgrade".toList :: ((connectionLines []).tail ++ [[], []])) :=
    headLines_connectionHead (by decide +kernel)
  have hparsed := @parseRequest_connectionHead ["Connection: keep-alive, Upgrade".toList] true
    (by decide +kernel) (by decide +kernel) (by decide +kernel) (by decide +kernel)
    (by decide +kernel)
  have hpieces : CarriesPieces "connection".toList "Connection: keep-alive, Upgrade".toList
      ["keep-alive".toList, " Upgrade".toList]
      ["Connection: keep-alive".toList, "connection:Upgrade".toList] :=
    ⟨by decide, ⟨"Connection".toList, by decide, by decide⟩,
      .cons ⟨"Connection".toList, by decide, by decide⟩
        (.cons ⟨"connection".toList, by decide, by decide⟩ .nil)⟩
  have hhead' := @headLines_connectionHead
    ["Connection: keep-alive".toList, "connection:Upgrade".toList] (by decide +kernel)
  have hname : "connection".toList ∈ listNames := by decide
  exact (meansSame_iff hparsed hhead hname hpieces hhead'
    (by decide +kernel) (by decide +kernel)).mpr fun hhides => absurd hhides.hidden (by decide)

/-- A proxy that adds `keep-alive` on a line of its own, behind the list: the upgrade is a
plain request. -/
theorem listed_upgrade_lost :
    parseRequest (connectionHead ["Connection: Upgrade, keep-alive".toList]) DEFAULT_MAX_HEAD =
        .ok (connectionParsed ["Connection: Upgrade, keep-alive".toList] true) ∧
      CarriesPieces "connection".toList "Connection: Upgrade, keep-alive".toList
        ["Upgrade".toList, " keep-alive".toList]
        ["Connection: Upgrade".toList, "Connection: keep-alive".toList] ∧
      parseRequest (connectionHead ["Connection: Upgrade".toList,
          "Connection: keep-alive".toList]) DEFAULT_MAX_HEAD =
        .ok (connectionParsed ["Connection: Upgrade".toList, "Connection: keep-alive".toList]
          false) ∧
      ¬MeansSame (connectionParsed ["Connection: Upgrade, keep-alive".toList] true)
        (connectionHead ["Connection: Upgrade".toList, "Connection: keep-alive".toList])
        DEFAULT_MAX_HEAD := by
  have hwhole := @parseRequest_connectionHead ["Connection: Upgrade, keep-alive".toList] true
    (by decide +kernel) (by decide +kernel) (by decide +kernel) (by decide +kernel)
    (by decide +kernel)
  have hsplit := @parseRequest_connectionHead
    ["Connection: Upgrade".toList, "Connection: keep-alive".toList] false
    (by decide +kernel) (by decide +kernel) (by decide +kernel) (by decide +kernel)
    (by decide +kernel)
  refine ⟨hwhole, ⟨by decide, ⟨"Connection".toList, by decide, by decide⟩,
      .cons ⟨"Connection".toList, by decide, by decide⟩
        (.cons ⟨"Connection".toList, by decide, by decide⟩ .nil)⟩, hsplit, ?_⟩
  rintro ⟨parsed, hparsed, hasked⟩
  obtain rfl := Except.ok.inj (hsplit.symm.trans hparsed)
  exact absurd (congrArg Prod.fst hasked) Bool.false_ne_true

end NagoWss
