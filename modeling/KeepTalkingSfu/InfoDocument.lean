import KeepTalkingSfu.TopicHex

/-!
# The info document

Clients learn how to reach the server from a small JSON document, written and read
by hand. The reader looks for the first quoted key and takes what stands behind its
colon. Keys and values are quoted alike, so a value could be taken for a key; it is
not, because an endpoint id is hex digits and a URL has a colon, and no key is or
has that.
-/
namespace KeepTalkingSfu.InfoDocument
open BufferReads WireFormat TextSlices TopicHex

def sfuAlpn : List Char := "keeptalking/sfu/2".toList

/-- The port as the document has it. -/
def qadText : Option UInt16 → List Char
  | none => "null".toList
  | some port => decimal port.toNat

/-- The document. -/
def sfuInfoJson (sfu relay : List Char) (qadPort : Option UInt16) : List Char :=
  "\x7b\"sfu\":\"".toList++sfu++"\",\"relay\":\"".toList++relay++"\",\"alpn\":\"".toList++sfuAlpn++
    "\",\"qad_port\":".toList++qadText qadPort++"\x7d".toList

/-- The value behind a key: quoted text up to the next quote, or anything else up to
a comma or the closing brace. -/
def fieldValue (rest : List Char) : Option (List Char) :=
  match trimStart rest with
  | ':'::rest =>
      match trimStart rest with
      | '\x22'::text => some (upTo ['\x22'] text)
      | rest => some (trim (upTo [',','\x7d'] rest))
  | _ => none

def jsonField (json key : List Char) : Except Fault (Option (List Char)) :=
  match find (quoted '\x22' key) json with
  | none => .ok none
  | some found =>
      match dropBytes (found+width key+2) json with
      | none => .error .panicked
      | some rest => .ok (fieldValue rest)

/-- Values with a serialised form that is read back. -/
class TextForm (T : Type) where
  toText : T → List Char
  fromText : List Char → Except String T
  fromText_toText : ∀ x, fromText (toText x) = .ok x

structure SfuInfo (Id Url : Type) where
  sfu : Id
  relay : Url
  alpn : List Char
  qadPort : Option UInt16

section
variable {Id Url : Type} [TextForm Id] [TextForm Url]

/-- A field the document must have. -/
def required (json key : List Char) (missing : String) : Except Fault (List Char) := do
  match ← jsonField json key with
  | some value => pure value
  | none => .error (.failed missing)

def parsed {T : Type} [TextForm T] (what : String) (text : List Char) : Except Fault T :=
  (TextForm.fromText text).mapError fun e => .failed (what++": "++e)

def parsePort (value : Option (List Char)) : Except Fault (Option UInt16) :=
  match value with
  | none => .ok none
  | some text =>
      if text = "null".toList then .ok none
      else match parseUnsigned 10 65536 text with
        | .ok n => .ok (some (UInt16.ofNat n))
        | .error e => .error (.failed ("bad qad_port: "++e.text))

def SfuInfo.parse (json : List Char) : Except Fault (SfuInfo Id Url) := do
  let sfu ← required json "sfu".toList "info has no \"sfu\""
  let relay ← required json "relay".toList "info has no \"relay\""
  let alpn ← required json "alpn".toList "info has no \"alpn\""
  let qadPort ← parsePort (← jsonField json "qad_port".toList)
  let sfu ← parsed "bad sfu id" sfu
  let relay ← parsed "bad relay url" relay
  pure ⟨sfu,relay,alpn,qadPort⟩

end

/-! ### Finding a key -/

/-- What stands behind the first place a quoted key is found. -/
theorem jsonField_of_find {before key rest : List Char}
    (h : find (quoted '\x22' key) (before++(quoted '\x22' key++rest)) = some (width before)) :
    jsonField (before++(quoted '\x22' key++rest)) key = .ok (fieldValue rest) := by
  have hwidth : width before+width key+2 = width (before++quoted '\x22' key) := by
    rw [width_append,width_quoted,show ('\x22' : Char).utf8Size = 1 from rfl]
    omega
  rw [jsonField,h]
  simp only
  rw [hwidth,← List.append_assoc,dropBytes_width]

/-- The parts of the document before a key: an opening brace, and then quoted texts
that are not the key, each with one character behind it. -/
inductive Before (key : List Char) : List Char → Prop
  | start : Before key ['\x7b']
  | text (before v : List Char) (s : Char) : Before key before → '\x22' ∉ v → v ≠ key →
      s = ':' ∨ s = ',' → Before key (before++(quoted '\x22' v++[s]))

/-- A name and its value, neither of them the key. -/
theorem Before.field {key before name v : List Char} (h : Before key before) (hname : '\x22' ∉ name)
    (hkey : name ≠ key) (hv : '\x22' ∉ v) (hother : v ≠ key) :
    Before key (before++(quoted '\x22' name++[':'])++(quoted '\x22' v++[','])) := by
  have hbefore : Before key (before++(quoted '\x22' name++[':'])) :=
    .text _ _ _ h hname hkey (.inl rfl)
  exact .text _ _ _ hbefore hv hother (.inr rfl)

theorem Before.find {k : Char} {key before : List Char} (h : Before (k::key) before)
    (hkey : '\x22' ∉ k::key) (hk : k ≠ ':' ∧ k ≠ ',') (cs : List Char) :
    find (quoted '\x22' (k::key)) (before++cs) =
      (find (quoted '\x22' (k::key)) cs).map (width before+·) := by
  induction h generalizing cs with
  | start => exact find_skip (by decide)
  | text before v s _ hv hne hs ih =>
      have hquote : '\x22' ∉ [s] := by
        rcases hs with rfl | rfl <;> decide
      have hsk : s ≠ k := by
        rcases hs with rfl | rfl
        · exact Ne.symm hk.1
        · exact Ne.symm hk.2
      rw [List.append_assoc,ih,find_past hkey hv hne hquote hsk,Option.map_map]
      congr 1
      funext n
      simp only [Function.comp_apply,width_append]
      omega

theorem Before.jsonField {key before : List Char} (h : Before key before) (hne : key ≠ [])
    (hkey : key.all (fun c => c ∉ ['\x22',':',',']) = true) (rest : List Char) :
    jsonField (before++(quoted '\x22' key++rest)) key = .ok (fieldValue rest) := by
  apply jsonField_of_find
  cases key with
  | nil => exact absurd rfl hne
  | cons k key =>
      have hmarks : ∀ c ∈ k::key, c ∉ ['\x22',':',','] := by simpa using hkey
      have hk := hmarks k List.mem_cons_self
      have hquote : '\x22' ∉ k::key := fun hmem => hmarks _ hmem List.mem_cons_self
      rw [h.find hquote (by simp_all),find_here]
      rfl

/-! ### Values -/

theorem fieldValue_quoted {v rest : List Char} (hv : '\x22' ∉ v) :
    fieldValue (':'::(quoted '\x22' v++rest)) = some v := by
  have hcolon : trimStart (':'::(quoted '\x22' v++rest)) = ':'::(quoted '\x22' v++rest) :=
    trimStart_cons (by decide) _
  have hquote : trimStart (quoted '\x22' v++rest) = '\x22'::(v++ '\x22'::rest) := by
    rw [quoted,List.cons_append,List.append_assoc]
    exact trimStart_cons (by decide) _
  have hvalue : upTo ['\x22'] (v++ '\x22'::rest) = v := by
    refine upTo_mark List.mem_cons_self ?_
    intro c hc hmem
    rw [List.mem_singleton.mp hmem] at hc
    exact hv hc
  simp only [fieldValue,hcolon,hquote,hvalue]

/-- What the text of a port has none of. -/
theorem qadText_plain (port : Option UInt16) : qadText port ≠ [] ∧
    ∀ c ∈ qadText port, isWhitespace c = false ∧ c ≠ '\x22' ∧ c ∉ [',','\x7d'] := by
  cases port with
  | none =>
      have hall : (qadText none).all (fun c => isWhitespace c = false ∧ c ≠ '\x22' ∧
          c ∉ [',','\x7d']) = true := by decide
      exact ⟨by decide,fun c hc => of_decide_eq_true (List.all_eq_true.mp hall c hc)⟩
  | some port =>
      refine ⟨decimal_ne_nil _,?_⟩
      intro c hc
      have hall : ∀ d : Fin 10, isWhitespace (Char.ofNat (48+d)) = false ∧
          Char.ofNat (48+d) ≠ '\x22' ∧ Char.ofNat (48+d) ∉ [',','\x7d'] := by decide
      obtain ⟨d,hd,rfl⟩ := decimal_digits _ c hc
      exact hall ⟨d,hd⟩

theorem fieldValue_port (port : Option UInt16) (rest : List Char) :
    fieldValue (':'::(qadText port++ '\x7d'::rest)) = some (qadText port) := by
  obtain ⟨hne,hplain⟩ := qadText_plain port
  have hcolon : trimStart (':'::(qadText port++ '\x7d'::rest)) = ':'::(qadText port++ '\x7d'::rest) :=
    trimStart_cons (by decide) _
  have hvalue : upTo [',','\x7d'] (qadText port++ '\x7d'::rest) = qadText port :=
    upTo_mark (by decide) fun c hc => (hplain c hc).2.2
  have htrim : trim (qadText port) = qadText port := trim_of_solid fun c hc => (hplain c hc).1
  obtain ⟨c,cs,hcs⟩ := List.exists_cons_of_ne_nil hne
  have hc := hplain c (by rw [hcs]; exact List.mem_cons_self)
  have hstart : trimStart (qadText port++ '\x7d'::rest) = c::(cs++ '\x7d'::rest) := by
    rw [hcs,List.cons_append]
    exact trimStart_cons hc.1 _
  rw [hcs,List.cons_append] at hvalue
  simp only [fieldValue,hcolon,hstart]
  split
  · next heq =>
    cases heq
    exact absurd rfl hc.2.1
  · rw [hvalue,← hcs,htrim]

/-! ### The fields of the document -/

section
variable {sfu relay : List Char}

/-- An endpoint id is no key, and neither is a URL. -/
theorem digits_ne {key : List Char} (h : ∀ c ∈ sfu, IsHexDigit c)
    (hkey : key.all (fun c => IsHexDigit c) = false) : sfu ≠ key := by
  rintro rfl
  have hall : sfu.all (fun c => IsHexDigit c) = true :=
    List.all_eq_true.mpr fun c hc => decide_eq_true (h c hc)
  rw [hall] at hkey
  cases hkey

theorem url_ne {key : List Char} (h : ':' ∈ relay) (hkey : ':' ∉ key) : relay ≠ key := by
  rintro rfl
  exact hkey h

theorem digits_unquoted (h : ∀ c ∈ sfu, IsHexDigit c) : '\x22' ∉ sfu := by
  intro hmem
  exact absurd (h _ hmem) (by decide)

/-- The four fields of the document. -/
structure Fields (json sfu relay : List Char) (qadPort : Option UInt16) : Prop where
  sfu : jsonField json "sfu".toList = .ok (some sfu)
  relay : jsonField json "relay".toList = .ok (some relay)
  alpn : jsonField json "alpn".toList = .ok (some sfuAlpn)
  qadPort : jsonField json "qad_port".toList = .ok (some (qadText qadPort))

/-- What is looked for before each value: the fields in front of it. -/
def beforeRelay (sfu : List Char) : List Char :=
  ['\x7b']++(quoted '\x22' "sfu".toList++[':'])++(quoted '\x22' sfu++[','])

def beforeAlpn (sfu relay : List Char) : List Char :=
  beforeRelay sfu++(quoted '\x22' "relay".toList++[':'])++(quoted '\x22' relay++[','])

def beforePort (sfu relay : List Char) : List Char :=
  beforeAlpn sfu relay++(quoted '\x22' "alpn".toList++[':'])++(quoted '\x22' sfuAlpn++[','])

theorem before_relay {key : List Char} (hsfu : ∀ c ∈ sfu, IsHexDigit c)
    (hkey : key.all (fun c => IsHexDigit c) = false) (hfirst : "sfu".toList ≠ key) :
    Before key (beforeRelay sfu) :=
  Before.start.field (by decide) hfirst (digits_unquoted hsfu) (digits_ne hsfu hkey)

theorem before_alpn {key : List Char} (h : Before key (beforeRelay sfu)) (hcolon : ':' ∈ relay)
    (hquote : '\x22' ∉ relay) (hkey : ':' ∉ key) (hnext : "relay".toList ≠ key) :
    Before key (beforeAlpn sfu relay) :=
  h.field (by decide) hnext hquote (url_ne hcolon hkey)

theorem before_port {key : List Char} (h : Before key (beforeAlpn sfu relay))
    (hnext : "alpn".toList ≠ key) (halpn : sfuAlpn ≠ key) :
    Before key (beforePort sfu relay) :=
  h.field (by decide) hnext (by decide) halpn

/-- Texts of a format with quoted keys, cut at their quotes. -/
theorem format_cut {a b c d e ka kb kc kd : List Char} (v w x y : List Char)
    (ha : a = ['\x7b']++(quoted '\x22' ka++[':'])++['\x22'])
    (hb : b = ['\x22',',']++(quoted '\x22' kb++[':'])++['\x22'])
    (hc : c = ['\x22',',']++(quoted '\x22' kc++[':'])++['\x22'])
    (hd : d = ['\x22',',']++(quoted '\x22' kd++[':'])) (he : e = ['\x7d']) :
    a++v++b++w++c++x++d++y++e =
      ['\x7b']++(quoted '\x22' ka++[':'])++(quoted '\x22' v++[','])++
        (quoted '\x22' kb++[':'])++(quoted '\x22' w++[','])++
        (quoted '\x22' kc++[':'])++(quoted '\x22' x++[','])++(quoted '\x22' kd++ ':'::(y++['\x7d'])) := by
  rw [ha,hb,hc,hd,he]
  simp [quoted]

theorem sfuInfoJson_eq (sfu relay : List Char) (qadPort : Option UInt16) :
    sfuInfoJson sfu relay qadPort =
      beforePort sfu relay++(quoted '\x22' "qad_port".toList++ ':'::(qadText qadPort++['\x7d'])) :=
  format_cut sfu relay sfuAlpn (qadText qadPort) (by decide) (by decide) (by decide) (by decide)
    (by decide)

theorem document_fields (hsfu : ∀ c ∈ sfu, IsHexDigit c) (hcolon : ':' ∈ relay)
    (hquote : '\x22' ∉ relay) (qadPort : Option UInt16) :
    Fields (sfuInfoJson sfu relay qadPort) sfu relay qadPort := by
  have hport : ∀ key : List Char, beforePort sfu relay++key =
      beforeAlpn sfu relay++(quoted '\x22' "alpn".toList++ ':'::(quoted '\x22' sfuAlpn++(','::key))) := by
    simp [beforePort]
  have halpn : ∀ key : List Char, beforeAlpn sfu relay++key =
      beforeRelay sfu++(quoted '\x22' "relay".toList++ ':'::(quoted '\x22' relay++(','::key))) := by
    simp [beforeAlpn]
  have hrelay : ∀ key : List Char, beforeRelay sfu++key =
      ['\x7b']++(quoted '\x22' "sfu".toList++ ':'::(quoted '\x22' sfu++(','::key))) := by
    simp [beforeRelay]
  constructor
  · have h : Before "sfu".toList ['\x7b'] := .start
    rw [sfuInfoJson_eq,hport,halpn,hrelay,h.jsonField (by decide) (by decide),
      fieldValue_quoted (digits_unquoted hsfu)]
  · have h : Before "relay".toList (beforeRelay sfu) := before_relay hsfu (by decide) (by decide)
    rw [sfuInfoJson_eq,hport,halpn,h.jsonField (by decide) (by decide),fieldValue_quoted hquote]
  · have h : Before "alpn".toList (beforeAlpn sfu relay) :=
      before_alpn (before_relay hsfu (by decide) (by decide)) hcolon hquote (by decide) (by decide)
    rw [sfuInfoJson_eq,hport,h.jsonField (by decide) (by decide),fieldValue_quoted (by decide)]
  · have h : Before "qad_port".toList (beforePort sfu relay) :=
      before_port (before_alpn (before_relay hsfu (by decide) (by decide)) hcolon hquote
        (by decide) (by decide)) (by decide) (by decide)
    rw [sfuInfoJson_eq,h.jsonField (by decide) (by decide),fieldValue_port]

theorem parsePort_qadText (qadPort : Option UInt16) :
    parsePort (some (qadText qadPort)) = .ok qadPort := by
  cases qadPort with
  | none => rfl
  | some port =>
      -- the first letter of `null` is no digit
      have hnull : decimal port.toNat ≠ "null".toList := by
        intro h
        have hall : ∀ d : Fin 10, Char.ofNat (48+d) ≠ 'n' := by decide
        have hmem : 'n' ∈ decimal port.toNat := by
          rw [h]
          decide
        obtain ⟨d,hd,hn⟩ := decimal_digits _ _ hmem
        exact hall ⟨d,hd⟩ hn.symm
      have hlt : port.toNat < 65536 := port.toNat_lt
      rw [parsePort,qadText,if_neg hnull,parseUnsigned_decimal hlt]
      simp

end

section
variable {Id Url : Type} [TextForm Id] [TextForm Url]

theorem parse_of_fields {json : List Char} {id : Id} {url : Url} {qadPort : Option UInt16}
    (h : Fields json (TextForm.toText id) (TextForm.toText url) qadPort) :
    SfuInfo.parse json = .ok ⟨id,url,sfuAlpn,qadPort⟩ := by
  have hid : parsed "bad sfu id" (TextForm.toText id) = .ok id := by
    rw [parsed,TextForm.fromText_toText]
    rfl
  have hurl : parsed "bad relay url" (TextForm.toText url) = .ok url := by
    rw [parsed,TextForm.fromText_toText]
    rfl
  simp only [SfuInfo.parse,required,h.sfu,h.relay,h.alpn,h.qadPort,parsePort_qadText,hid,hurl,bind,
    Except.bind,pure,Except.pure]

/-- The document is read back as it was written: the four fields are found for every
id of hex digits and every URL with a colon and no quote, and so is what they stand
for. -/
theorem info_document_round_trip :
    (∀ (sfu relay : List Char) (qadPort : Option UInt16), (∀ c ∈ sfu, IsHexDigit c) → ':' ∈ relay →
      '\x22' ∉ relay → Fields (sfuInfoJson sfu relay qadPort) sfu relay qadPort) ∧
    ∀ (id : Id) (url : Url) (qadPort : Option UInt16), (∀ c ∈ TextForm.toText id, IsHexDigit c) →
      ':' ∈ TextForm.toText url → '\x22' ∉ TextForm.toText url →
      SfuInfo.parse (sfuInfoJson (TextForm.toText id) (TextForm.toText url) qadPort) =
        .ok (⟨id,url,sfuAlpn,qadPort⟩ : SfuInfo Id Url) := by
  constructor
  · intro sfu relay qadPort hsfu hcolon hquote
    exact document_fields hsfu hcolon hquote qadPort
  · intro id url qadPort hid hcolon hquote
    exact parse_of_fields (document_fields hid hcolon hquote qadPort)

end

/-- An endpoint id is written like a topic. -/
instance : TextForm RawId where
  toText id := hex id.bytes
  fromText text :=
    match fromHex (String.ofList text) with
    | .ok t => .ok ⟨t.bytes,t.length_eq⟩
    | .error _ => .error "invalid key"
  fromText_toText id := by
    have h := fromHex_display ⟨id.bytes,id.length_eq⟩
    rw [display] at h
    simp only [h]

/-- The text of a URL with a scheme. -/
structure AbsoluteUrl where
  text : List Char
  scheme : ':' ∈ text

instance : TextForm AbsoluteUrl where
  toText url := url.text
  fromText text :=
    if h : ':' ∈ text then .ok ⟨text,h⟩ else .error "relative URL without a base"
  fromText_toText url := dif_pos url.scheme

def relayExample : AbsoluteUrl := ⟨"https://relay.example/,\x7d?a=alpn:1".toList,by decide⟩

theorem info_document_round_trip_example :
    Fields (sfuInfoJson "0aF".toList "x:,".toList none) "0aF".toList "x:,".toList none ∧
    SfuInfo.parse (sfuInfoJson (TextForm.toText RawId.base) (TextForm.toText relayExample) (some 7842)) =
      .ok (⟨RawId.base,relayExample,sfuAlpn,some 7842⟩ : SfuInfo RawId AbsoluteUrl) := by
  obtain ⟨hfields,hparse⟩ := @info_document_round_trip RawId AbsoluteUrl _ _
  have hdigits : ∀ cs : List Char, cs.all (fun c => IsHexDigit c) = true → ∀ c ∈ cs, IsHexDigit c :=
    fun cs h c hc => of_decide_eq_true (List.all_eq_true.mp h c hc)
  refine ⟨hfields _ _ none (hdigits _ (by decide)) (by decide) (by decide),?_⟩
  exact hparse RawId.base relayExample (some 7842) (hdigits _ (by decide)) (by decide) (by decide)

end KeepTalkingSfu.InfoDocument
