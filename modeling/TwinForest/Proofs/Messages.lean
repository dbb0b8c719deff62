import TwinForest.Proofs.HandleSpelling
import TwinForest.Proofs.RoundTrip
import TwinForest.Service.Document

/-!
# Messages in documents

A request is decoded from the text that it is encoded as, and so is a reply, unless its trees nest too
deep. A request that was decoded from some other text is written in one way only: whichever way its
handle was spelled there, it is written in groups of digits in lower case.
-/

namespace TwinForest

/-! ## Decoders of written values -/

namespace Json

variable {α ν : Type} {name : String} {value : Json → Except DecodeError α} {a : α}

theorem Plain.decodeText_render {value : Access → Json → Except DecodeError α} {j : Json}
    (h : j.Plain) : decodeText value j.render = value (.direct maxDepth) j := by
  rw [decodeText, read_render h]
  cases value (.direct maxDepth) j <;> rfl

theorem Plain.parse?_render {j : Json} (h : j.Plain) : parse? j.render = some j := by
  simp [parse?, read_render h]

theorem onlyField_eq (whole : Bool) (found : Option α) (members : List (String × Json)) :
    onlyField name value whole found members =
      (do let found ← gather name value found (valuesOf name members)
          ending whole
          required name found) := by
  induction members generalizing found with
  | nil => rfl
  | cons m members ih =>
    obtain ⟨other, j⟩ := m
    by_cases hname : other = name
    · subst hname
      rw [onlyField, if_pos rfl, valuesOf_cons_self, gather_cons]
      cases field other found (value j) with
      | error e => rfl
      | ok found => exact ih found
    · rw [onlyField, if_neg hname, valuesOf_cons_ne hname]
      exact ih found

theorem ending_eq_ok_iff {whole : Bool} {u : Unit} : ending whole = .ok u ↔ whole = true := by
  cases whole <;> simp [ending]

/-- A field that is the only one is decoded when it has one value. -/
theorem onlyField_eq_ok_iff {whole : Bool} {members : List (String × Json)} :
    onlyField name value whole none members = .ok a ↔
      whole = true ∧ ∃ j, valuesOf name members = [j] ∧ value j = .ok a := by
  have hvalue : ∀ j ∈ valuesOf name members, ∀ b, value j = .ok b ↔ (value · = .ok ·) j b :=
    fun _ _ _ => .rfl
  have hgather : gather name value none (valuesOf name members) = .ok (some a) ↔
      ∃ j, valuesOf name members = [j] ∧ value j = .ok a :=
    (gather_eq_some_iff name hvalue).trans once_iff
  rw [← hgather, onlyField_eq]
  constructor
  · intro h
    obtain ⟨found, hfound, h⟩ := bind_eq_ok_iff.mp h
    obtain ⟨_, hwhole, h⟩ := bind_eq_ok_iff.mp h
    rw [required_eq_ok_iff.mp h] at hfound
    exact ⟨ending_eq_ok_iff.mp hwhole, hfound⟩
  · rintro ⟨rfl, hfound⟩
    rw [hfound]
    rfl

namespace Tagged

variable {t : Tagged ν α} {v : ν} {access : Access} {content j : Json}

/-- A tagged value as it is written. -/
theorem decode_tagged (htag : t.tag ≠ contentName) (hv : t.variantOf name = .ok v) :
    t.decode access (.object [(t.tag, .string name), (contentName, content)]) =
      t.content v access.inside content := by
  have hrelevant : t.relevant [(t.tag, .string name), (contentName, content)] =
      [(t.tag, .string name), (contentName, content)] := by
    simp [relevant]
  have hvariant : t.variant (.string name) = .ok v := hv
  rw [decode, hrelevant, ofMembers, if_pos rfl, hvariant]
  change (if contentName = t.tag then _ else _) = _
  rw [if_neg htag.symm]
  cases t.content v access.inside content <;> rfl

theorem decode_absent (hv : t.variantOf name = .ok v) :
    t.decode access (.object [(t.tag, .string name)]) = t.absent v := by
  have hrelevant : t.relevant [(t.tag, .string name)] = [(t.tag, .string name)] := by
    simp [relevant]
  have hvariant : t.variant (.string name) = .ok v := hv
  rw [decode, hrelevant, ofMembers, if_pos rfl, hvariant]
  rfl

theorem noMore_eq_ok_iff {whole : Bool} {b : α} {members : List (String × Json)} :
    noMore whole a members = .ok b ↔ whole = true ∧ members = [] ∧ a = b := by
  cases members with
  | nil => cases whole <;> simp [noMore, ending, bind, Except.bind, pure, Except.pure]
  | cons m members => simp [noMore]

/-- Members that are decoded give a variant without content, or the content next to the tag. -/
theorem content_of_ofMembers {whole : Bool} {members : List (String × Json)}
    (h : t.ofMembers access whole members = .ok a) :
    whole = true ∧ ((∃ v, t.absent v = .ok a) ∨
      ∃ tag other content v access', other ≠ t.tag ∧ t.content v access' content = .ok a ∧
        (members = [(t.tag, tag), (other, content)] ∨ members = [(other, content), (t.tag, tag)])) := by
  match members with
  | [] => cases whole <;> cases h
  | [(name, j)] =>
    rw [ofMembers] at h
    split at h
    · obtain ⟨v, -, h⟩ := bind_eq_ok_iff.mp h
      obtain ⟨_, hwhole, habsent⟩ := bind_eq_ok_iff.mp h
      exact ⟨ending_eq_ok_iff.mp hwhole, .inl ⟨v, habsent⟩⟩
    · obtain ⟨_, -, h⟩ := bind_eq_ok_iff.mp h
      cases whole <;> cases h
  | (name, j) :: (next, k) :: more =>
    rw [ofMembers] at h
    split at h
    · -- The tag comes first, and the content is where it stands in the text.
      rename_i hname
      obtain ⟨v, -, h⟩ := bind_eq_ok_iff.mp h
      split at h
      · cases h
      · rename_i hnext
        obtain ⟨b, hcontent, h⟩ := bind_eq_ok_iff.mp h
        obtain ⟨hwhole, rfl, rfl⟩ := noMore_eq_ok_iff.mp h
        exact ⟨hwhole, .inr ⟨j, next, k, v, access, hnext, hcontent, .inl (by rw [hname])⟩⟩
    · -- The content comes first, and is held.
      rename_i hname
      obtain ⟨_, -, h⟩ := bind_eq_ok_iff.mp h
      split at h
      · rename_i hnext
        obtain ⟨v, -, h⟩ := bind_eq_ok_iff.mp h
        obtain ⟨b, hcontent, h⟩ := bind_eq_ok_iff.mp h
        obtain ⟨hwhole, rfl, rfl⟩ := noMore_eq_ok_iff.mp h
        exact ⟨hwhole, .inr ⟨k, name, j, v, .held, hname, hcontent, .inr (by rw [hnext])⟩⟩
      · cases h

/-- The content of a tagged value that is decoded stands next to the tag, under its name or in its
place. -/
theorem content_of_decode (htag : t.tag ≠ contentName) (h : t.decode access j = .ok a) :
    (∃ v, t.absent v = .ok a) ∨
      ∃ members content v access', j.named [t.tag, contentName] = some members ∧
        valuesOf contentName members = [content] ∧ t.content v access' content = .ok a := by
  cases j with
  | object members =>
    obtain ⟨-, habsent | ⟨tag, other, content, v, access', hother, hcontent, hmembers⟩⟩ :=
      content_of_ofMembers h
    · exact .inl habsent
    · have hrelevant : valuesOf contentName (t.relevant members) = valuesOf contentName members := by
        rw [valuesOf, relevant, List.filter_filter]
        congr 2
        funext m
        by_cases hm : m.1 = contentName <;> simp [hm]
      have hname : other = contentName := by
        have hmem : (other, content) ∈ t.relevant members := by
          rcases hmembers with hmembers | hmembers <;> simp [hmembers]
        simpa [relevant, hother] using (List.mem_filter.mp hmem).2
      subst hname
      refine .inr ⟨members, content, v, access', rfl, ?_, hcontent⟩
      rcases hmembers with hmembers | hmembers <;> rw [← hrelevant, hmembers] <;> simp [htag]
  | broken members => cases (content_of_ofMembers h).1
  | array items =>
    obtain ⟨tag, -, h⟩ := bind_eq_ok_iff.mp h
    obtain ⟨v, -, h⟩ := bind_eq_ok_iff.mp h
    obtain ⟨content, hitem, h⟩ := bind_eq_ok_iff.mp h
    obtain ⟨b, hcontent, h⟩ := bind_eq_ok_iff.mp h
    split at h
    · rename_i hlength
      obtain rfl := pure_eq_ok_iff.mp h
      refine .inr ⟨_, content, v, _, if_pos hlength, ?_, hcontent⟩
      rw [valuesOf_zip (i := 1) (by simpa using htag) rfl, itemAt_eq_ok_iff.mp hitem]
      rfl
    · cases h
  | _ => simp [decode] at h

end Tagged

end Json

open Json

/-! ## Requests -/

namespace Request

variable {α : Type} {name : String} {value : Json → Except DecodeError α} {a : α}

def aboutHandle : List (String × (Handle → Request)) :=
  [("getParseString", .getParseString), ("getTreeString", .getTreeString), ("getTree", .getTree),
   ("takeTree", .takeTree), ("releaseTree", .releaseTree)]

def handle? : Request → Option Handle
  | getParseString id | getTreeString id | getTree id | takeTree id | releaseTree id => some id
  | parseCode _ | getTreeCount => none

/-- The text of a request about a handle, where the handle is spelled as given. -/
def handleText (event spelling : String) : String :=
  (toJson.tagged event "id" (.string spelling)).render

def Mentions (text spelling : String) : Prop :=
  ∃ j members content, parse? text = some j ∧ j.named ["event", "value"] = some members ∧
    valuesOf "value" members = [.object content] ∧ valuesOf "id" content = [.string spelling]

theorem plain_tagged (event name s : String) : (toJson.tagged event name (.string s)).Plain := by
  refine .object ?_
  have hcontent : (Json.object [(name, .string s)]).Plain := .object (by simp [Plain.string])
  simp [Plain.string, hcontent]

theorem plain_toJson (r : Request) : r.toJson.Plain := by
  cases r with
  | getTreeCount => exact .object (by simp [Plain.string])
  | _ => exact plain_tagged _ _ _

theorem fieldOfJson_object (variant : String) (j : Json) :
    fieldOfJson variant name value (.object [(name, j)]) = value j := by
  cases hj : value j with
  | ok a =>
    refine onlyField_eq_ok_iff.mpr ⟨rfl, j, ?_, hj⟩
    simp
  | error e => simp [fieldOfJson, onlyField, field, hj, bind, Except.bind, Functor.map, Except.map]

theorem fieldOfJson_ok {variant : String} {j : Json} (h : fieldOfJson variant name value j = .ok a) :
    ∃ content k, j = .object content ∧ valuesOf name content = [k] ∧ value k = .ok a := by
  cases j with
  | object members =>
    obtain ⟨-, k, hk, ha⟩ := onlyField_eq_ok_iff.mp h
    exact ⟨members, k, rfl, hk, ha⟩
  | broken members => cases (onlyField_eq_ok_iff.mp h).1
  | _ => simp [fieldOfJson] at h

theorem decode_tagged {event : String} {v : Variant} (hv : format.variantOf event = .ok v)
    (name s : String) : decodeText format.decode (toJson.tagged event name (.string s)).render =
      ofContent v (.object [(name, .string s)]) := by
  rw [(plain_tagged event name s).decodeText_render]
  exact Tagged.decode_tagged (by decide) hv

variable {p : String × (Handle → Request)}

/-- All kinds of requests about a handle are written and decoded in the same way. -/
theorem of_mem_aboutHandle (hp : p ∈ aboutHandle) :
    (∀ id, (p.2 id).handle? = some id ∧ (p.2 id).encode = handleText p.1 id.display) ∧
      ∃ v variant, format.variantOf p.1 = .ok v ∧
        ∀ j, ofContent v j = p.2 <$> fieldOfJson variant "id" Handle.ofJson j := by
  simp only [aboutHandle, List.mem_cons, List.not_mem_nil, or_false] at hp
  rcases hp with rfl | rfl | rfl | rfl | rfl <;>
    exact ⟨fun _ => ⟨rfl, rfl⟩, _, _, rfl, fun _ => rfl⟩

theorem decode_handleText (hp : p ∈ aboutHandle) (spelling : String) :
    decode (handleText p.1 spelling) = p.2 <$> Handle.ofString spelling := by
  obtain ⟨-, v, variant, hv, hcontent⟩ := of_mem_aboutHandle hp
  rw [decode, handleText, decode_tagged hv, hcontent, fieldOfJson_object]
  rfl

theorem field_of_ofContent {v : Variant} {j : Json} {r : Request} {id : Handle}
    (h : ofContent v j = .ok r) (hid : r.handle? = some id) :
    ∃ variant, fieldOfJson variant "id" Handle.ofJson j = .ok id := by
  cases v with
  | parseCode =>
    obtain ⟨code, -, rfl⟩ := map_eq_ok_iff.mp h
    cases hid
  | getTreeCount =>
    cases j with
    | null =>
      cases h
      cases hid
    | _ => simp [ofContent] at h
  | _ =>
    obtain ⟨id', hfield, rfl⟩ := map_eq_ok_iff.mp h
    cases hid
    exact ⟨_, hfield⟩

/-- A request about a handle comes from a text that spells the handle. -/
theorem mentions_of_decode {text : String} {r : Request} {id : Handle} (h : decode text = .ok r)
    (hid : r.handle? = some id) :
    ∃ spelling, Mentions text spelling ∧ Handle.ofString? spelling = some id := by
  obtain ⟨j, hj, h⟩ := decodeText_eq_ok_iff.mp h
  rcases Tagged.content_of_decode (by decide) h with ⟨v, habsent⟩ |
    ⟨members, content, v, _, hmembers, hcontent, h⟩
  · cases v <;> cases habsent
    cases hid
  · obtain ⟨variant, hfield⟩ := field_of_ofContent h hid
    obtain ⟨fields, k, rfl, hk, hspelled⟩ := fieldOfJson_ok hfield
    cases k with
    | string s =>
      exact ⟨s, ⟨j, members, fields, hj, hmembers, hcontent, hk⟩, Handle.ofString_eq_ok_iff.mp hspelled⟩
    | _ => simp [Handle.ofJson] at hspelled

theorem exists_aboutHandle {r : Request} {id : Handle} (h : r.handle? = some id) :
    ∃ p ∈ aboutHandle, r = p.2 id := by
  cases r <;> cases h <;> simp [aboutHandle]

/-- A request is decoded from the text that it is encoded as. -/
theorem decode_encode (r : Request) : decode r.encode = .ok r := by
  cases hr : r.handle? with
  | some id =>
    obtain ⟨p, hp, rfl⟩ := exists_aboutHandle hr
    rw [((of_mem_aboutHandle hp).1 id).2, decode_handleText hp, id.ofString_display]
    rfl
  | none =>
    cases r with
    | parseCode code =>
      rw [encode, decode, toJson, decode_tagged rfl, ofContent, fieldOfJson_object]
      rfl
    | getTreeCount =>
      have hv : format.variantOf "getTreeCount" = .ok .getTreeCount := rfl
      rw [encode, decode, (plain_toJson getTreeCount).decodeText_render]
      exact Tagged.decode_absent hv
    | _ => cases hr

end Request

/-! ## Replies -/

namespace Reply

theorem plain_toJson {reply : Reply} (h : ∀ n, reply = .treeCount n → n < UInt64.size) :
    reply.toJson.Plain := by
  have hcontent : reply.contentToJson.Plain := by
    cases reply with
    | parsed id => exact .object (by simp [Handle.toJson, Plain.string])
    | treeString text => cases text with
      | none => exact .null
      | some text => exact .string text
    | tree trees => cases trees with
      | none => exact .null
      | some trees => exact .array (ParseTree.plain_childrenToJson trees)
    | released was => exact .bool was
    | treeCount n => exact .nat (h n rfl)
  refine .object ?_
  simp [Plain.string, hcontent]

/-- The content of a reply is decoded from its value, unless that nests too deep. -/
theorem ofContent_contentToJson {reply : Reply} (h : ∀ n, reply = .treeCount n → n < UInt64.size) :
    ∃ v, format.variantOf reply.name = .ok v ∧ ofContent v (.direct 126) reply.contentToJson =
      if reply.contentToJson.depth ≤ 126 then .ok reply else .error .malformed := by
  -- Only trees nest, and for them this is known.
  cases reply with
  | parsed id =>
    refine ⟨.parsed, rfl, ?_⟩
    have hid : onlyField "id" Handle.ofJson true none [("id", id.toJson)] = .ok id :=
      onlyField_eq_ok_iff.mpr ⟨rfl, id.toJson, valuesOf_cons_self _ _ _, id.ofString_display⟩
    rw [ofContent, contentToJson, parsedToJson, parsedOfJson, hid]
    rfl
  | treeString text =>
    refine ⟨.treeString, rfl, ?_⟩
    cases text <;> rfl
  | tree trees =>
    refine ⟨.tree, rfl, ?_⟩
    cases trees with
    | none => rfl
    | some trees =>
      have htrees := ParseTree.listOfJson_listToJson 124 trees
      change tree <$> (some <$> ParseTree.listOfJson (.direct 126) (ParseTree.listToJson trees)) = _
      rw [htrees, contentToJson]
      split <;> rfl
  | released was => exact ⟨.released, rfl, rfl⟩
  | treeCount n =>
    refine ⟨.treeCount, rfl, ?_⟩
    have hn : (0 : Int) ≤ n ∧ (n : Int) < UInt64.size := by
      have := h n rfl
      omega
    rw [ofContent, contentToJson, Json.nat, toNatBelow, if_pos hn]
    rfl

/-- A reply is decoded from the text that it is encoded as, unless that nests too deep. -/
theorem decode_encode {reply : Reply} (h : ∀ n, reply = .treeCount n → n < UInt64.size) :
    decode reply.encode = if reply.toJson.depth ≤ 127 then .ok reply else .error .malformed := by
  obtain ⟨v, hv, hcontent⟩ := ofContent_contentToJson h
  have hdepth : reply.toJson.depth = reply.contentToJson.depth + 1 := by
    simp [toJson, depth, membersDepth]
  rw [encode, decode, (plain_toJson h).decodeText_render]
  refine (Tagged.decode_tagged (by decide) hv).trans (hcontent.trans (if_congr ?_ rfl rfl))
  omega

end Reply

/-! ## Both -/

/-- Messages in documents:

* a request is decoded from the text that it is encoded as;
* so is a reply, with a count below 2⁶⁴, unless the text nests more than 127 levels deep, where it is
  refused as malformed;
* what a request that was decoded from any text is encoded as does not change when it is decoded and
  encoded again, and if it is about a handle, it is written with the digits of the handle in groups and
  in lower case, in one of whose spellings the handle stood in the text before;
* all these spellings are decoded, in letters of either case, for each kind of request about a handle. -/
theorem messages_round_trip :
    (∀ r : Request, Request.decode r.encode = .ok r) ∧
    (∀ reply : Reply, (∀ n, reply = .treeCount n → n < UInt64.size) →
      ∃ j, Json.parse? reply.encode = some j ∧ Reply.decode reply.encode =
        if j.depth ≤ 127 then .ok reply else .error .malformed) ∧
    (∀ text r, Request.decode text = .ok r →
      Request.encode <$> Request.decode r.encode = .ok r.encode ∧
      ∀ p ∈ Request.aboutHandle, ∀ id, r = p.2 id → ∃ spelling ds, Request.Mentions text spelling ∧
        Handle.IsDigits ds ∧ spelling.toList.map Char.toLower ∈ Handle.spellings ds ∧
        r.encode = Request.handleText p.1 (String.ofList (Handle.grouped ds))) ∧
    ∀ p ∈ Request.aboutHandle, ∀ spelling ds, Handle.IsDigits ds →
      spelling.toList.map Char.toLower ∈ Handle.spellings ds →
      ∃ id, Request.decode (Request.handleText p.1 spelling) = .ok (p.2 id) ∧
        (p.2 id).encode = Request.handleText p.1 (String.ofList (Handle.grouped ds)) := by
  refine ⟨Request.decode_encode, fun reply h => ?_, fun text r h => ⟨?_, ?_⟩, ?_⟩
  · exact ⟨reply.toJson, (Reply.plain_toJson h).parse?_render, Reply.decode_encode h⟩
  · rw [Request.decode_encode]
    rfl
  · rintro p hp id rfl
    obtain ⟨hhandle, hencode⟩ := (Request.of_mem_aboutHandle hp).1 id
    obtain ⟨spelling, hmentions, hid⟩ := Request.mentions_of_decode h hhandle
    exact ⟨spelling, _, hmentions, Handle.isDigits_digits _, Handle.ofString?_eq_some_iff.mp hid, hencode⟩
  · intro p hp spelling ds hds hspelling
    obtain ⟨id, rfl⟩ := Handle.exists_digits hds
    refine ⟨id, ?_, ((Request.of_mem_aboutHandle hp).1 id).2⟩
    have hid := Handle.ofString_eq_ok_iff.mpr (Handle.ofString?_eq_some_iff.mpr hspelling)
    rw [Request.decode_handleText hp, hid]
    rfl

/-- A handle in capital letters after `urn:uuid:`, and the greatest count. -/
theorem messages_round_trip_urn :
    ∃ id, Request.decode (Request.handleText "takeTree"
        "URN:UUID:67E55044-10B1-426F-9247-BB680E5FE0C8") = .ok (.takeTree id) ∧
      (Request.takeTree id).encode =
        Request.handleText "takeTree" "67e55044-10b1-426f-9247-bb680e5fe0c8" ∧
      (∃ spelling, Request.Mentions (Request.handleText "takeTree"
        "URN:UUID:67E55044-10B1-426F-9247-BB680E5FE0C8") spelling) ∧
      Reply.decode (Reply.treeCount 18446744073709551615).encode =
        .ok (.treeCount 18446744073709551615) := by
  obtain ⟨-, hreply, hagain, hspellings⟩ := messages_round_trip
  have hp : ("takeTree", Request.takeTree) ∈ Request.aboutHandle := by simp [Request.aboutHandle]
  obtain ⟨id, hdecode, hencode⟩ := hspellings _ hp "URN:UUID:67E55044-10B1-426F-9247-BB680E5FE0C8"
    "67e5504410b1426f9247bb680e5fe0c8".toList ⟨by decide, by decide⟩ (by decide)
  obtain ⟨spelling, ds, hmentions, -⟩ := (hagain _ _ hdecode).2 _ hp id rfl
  have hcount : ∀ n, Reply.treeCount 18446744073709551615 = .treeCount n → n < UInt64.size := by
    rintro n ⟨⟩
    decide
  obtain ⟨j, hj, hresult⟩ := hreply _ hcount
  obtain rfl := Option.some.inj (hj.symm.trans (Reply.plain_toJson hcount).parse?_render)
  exact ⟨id, hdecode, hencode, ⟨spelling, hmentions⟩, hresult⟩

end TwinForest
