import KeepTalkingSfu.InfoDocument
import KeepTalkingSfu.Utf8Text

/-!
# Fetching the info document

The document is served over a hand-written HTTP exchange: the server reads until it has
seen a blank line, or 4 KiB, or the end of the stream, and looks at the first line only;
the client reads until the server closes, or 64 KiB, and splits the head off at the first
blank line. Neither depends on how the bytes were split on the way, and what the client
gets is what the server was started with.
-/
namespace KeepTalkingSfu.InfoExchange
open ByteTransport Utf8Text BufferReads WireFormat TextSlices TopicHex InfoDocument

/-- The bytes of a text. -/
def textBytes (cs : List Char) : Bytes := cs.flatMap String.utf8EncodeChar

theorem lossyChars_textBytes (cs : List Char) : lossyChars (textBytes cs) = cs := by
  have h := fromUtf8Lossy_utf8 (String.ofList cs)
  rw [fromUtf8Lossy,utf8,String.toList_ofList] at h
  exact String.ofList_injective h

theorem textBytes_append (cs ds : List Char) : textBytes (cs++ds) = textBytes cs++textBytes ds := by
  rw [textBytes,List.flatMap_append]
  rfl

/-! ### The server -/

def infoPath : List Char := "/kt/sfu".toList

/-- Bytes of a request head that are read at most. -/
def headLimit : ℕ := 4096

def hasBlankLine : Bytes → Bool
  | [] => false
  | b::bs => [13,10,13,10].isPrefixOf (b::bs) || hasBlankLine bs

/-- Reads until the end of the request head, the end of the stream or the limit. -/
def readHead (got : Bytes) (r : Reads) : Except String Bytes :=
  if got.length < headLimit then
    match r.read (headLimit-got.length) with
    | .error e => .error e
    | .ok (bs,r') =>
        if bs = [] then .ok got
        else if hasBlankLine (got++bs) then .ok (got++bs)
        else readHead (got++bs) r'
  else .ok got
termination_by headLimit-got.length
decreasing_by
  have := List.length_pos_iff.mpr ‹bs ≠ []›
  rw [List.length_append]
  omega

/-- A line of a head. -/
def crlf (line : String) : List Char := line.toList++['\r','\n']

def okHead (len : ℕ) : List Char :=
  crlf "HTTP/1.1 200 OK"++crlf "Content-Type: application/json"++crlf "Cache-Control: no-store"++
    "Content-Length: ".toList++decimal len++['\r','\n']++crlf "Connection: close"++['\r','\n']

def notFound : List Char :=
  crlf "HTTP/1.1 404 Not Found"++crlf "Content-Length: 0"++crlf "Connection: close"++['\r','\n']

/-- The response to a request head. -/
def answer (body head : List Char) : List Char :=
  let parts := words (firstLine head)
  let method := parts.getD 0 []
  let path := upTo ['?'] (parts.getD 1 [])
  if (method = "GET".toList ∨ method = "HEAD".toList) ∧ path = infoPath then
    okHead (width body)++if method = "HEAD".toList then [] else body
  else notFound

def respond (body : List Char) (r : Reads) : Except String Bytes :=
  (readHead [] r).map fun got => textBytes (answer body (lossyChars got))

/-! ### The client -/

/-- The path with its query. -/
def target (path : List Char) : Option (List Char) → List Char
  | some query => path++ '?'::query
  | none => path

def request (path : List Char) (query : Option (List Char)) (host : List Char) : List Char :=
  "GET ".toList++target path query++crlf " HTTP/1.1"++"Host: ".toList++host++['\r','\n']++
    crlf "Accept: application/json"++crlf "Connection: close"++['\r','\n']

/-- Bytes of a response from which on no more is read. -/
def responseLimit : ℕ := 64*1024

/-- Reads the response until the peer closes; `closed` are the errors of a peer that closes
without saying so. -/
def exchange (closed : String → Bool) (got : Bytes) (r : Reads) : Except String Bytes :=
  if got.length < responseLimit then
    match r.read 4096 with
    | .error e => if closed e ∧ got ≠ [] then .ok got else .error e
    | .ok (bs,r') => if bs = [] then .ok got else exchange closed (got++bs) r'
  else .ok got
termination_by responseLimit-got.length
decreasing_by
  have := List.length_pos_iff.mpr ‹bs ≠ []›
  rw [List.length_append]
  omega

section
variable {Id Url : Type} [TextForm Id] [TextForm Url]

def readInfo (url response : List Char) : Except Fault (SfuInfo Id Url) :=
  match splitOnce blankLine response with
  | none => .error (.failed "malformed HTTP response")
  | some (head,body) => do
      let status := firstLine head
      if (words status)[1]? = some "200".toList then
        let info ← SfuInfo.parse body
        if info.alpn = sfuAlpn then pure info
        else
          .error (.failed ("the SFU speaks "++String.ofList info.alpn++", this build speaks "++
            String.ofList sfuAlpn))
      else .error (.failed ("GET "++String.ofList url++": "++String.ofList status))

/-- What is made of the server's response. -/
def fetchInfo (closed : String → Bool) (url : List Char) (r : Reads) : Except Fault (SfuInfo Id Url) :=
  match exchange closed [] r with
  | .error e => .error (.failed e)
  | .ok bytes => readInfo url (lossyChars bytes)

end

/-! ### However the bytes are split -/

theorem hasBlankLine_iff (bs : Bytes) : hasBlankLine bs = true ↔ [13,10,13,10] <:+: bs := by
  induction bs with
  | nil => exact ⟨nofun,fun h => absurd (List.infix_nil.mp h) (by simp)⟩
  | cons b bs ih => rw [hasBlankLine,Bool.or_eq_true,List.isPrefixOf_iff_prefix,ih,List.infix_cons_iff]

theorem mem_of_hasBlankLine {bs : Bytes} (h : hasBlankLine bs = true) : 10 ∈ bs :=
  ((hasBlankLine_iff bs).mp h).subset (by decide)

/-- All of a request head is there: it has its blank line, or is at the limit. -/
def HeadThere (bs : Bytes) : Prop := headLimit ≤ bs.length ∨ [13,10,13,10] <:+: bs

/-- What has been read of a head that is all there or whose stream ends: all there is of it, or
at least its first line. No read waits for what is behind it. -/
theorem readHead_spec {got : Bytes} {r : Reads} (hr : r.failure = none ∨ HeadThere (got++r.bytes))
    (hgot : got.length ≤ headLimit) (hopen : hasBlankLine got = false) :
    ∃ head, readHead got r = .ok head ∧ head <+: (got++r.bytes).take headLimit ∧
      (head = (got++r.bytes).take headLimit ∨ 10 ∈ head) := by
  induction hn : headLimit-got.length using Nat.strong_induction_on generalizing got r with
  | _ n ih =>
    have hall : got.length = headLimit → got = (got++r.bytes).take headLimit := by
      intro hlen
      rw [List.take_append_of_le_length hlen.ge,List.take_of_length_le hlen.le]
    rw [readHead]
    by_cases hlt : got.length < headLimit
    · rw [if_pos hlt]
      by_cases hb : r.bytes = []
      · have hended : r.failure = none := by
          rw [hb,List.append_nil] at hr
          rcases hr with hr | hlong | hblank
          · exact hr
          · omega
          · rw [← hasBlankLine_iff,hopen] at hblank
            cases hblank
        rw [r.read_none _ hb,hended]
        simp only [if_true]
        refine ⟨got,rfl,?_⟩
        rw [hb,List.append_nil,List.take_of_length_le hgot]
        exact ⟨List.prefix_rfl,.inl rfl⟩
      · obtain ⟨bs,r',hread,hne,hle,hbytes,hfail⟩ := @Reads.read_some r (headLimit-got.length) (by omega) hb
        have hpos := List.length_pos_iff.mpr hne
        have hlen : (got++bs).length ≤ headLimit := by
          rw [List.length_append]
          omega
        rw [hread]
        simp only [if_neg hne]
        rw [hbytes,← List.append_assoc] at hr ⊢
        split_ifs with hblank
        · refine ⟨got++bs,rfl,?_,.inr (mem_of_hasBlankLine hblank)⟩
          exact List.prefix_take_iff.mpr ⟨List.prefix_append _ _,hlen⟩
        · rw [← hfail] at hr
          exact ih _ (by rw [List.length_append]; omega) hr hlen (by simpa using hblank) rfl
    · rw [if_neg hlt]
      refine ⟨got,rfl,?_⟩
      rw [← hall (by omega)]
      exact ⟨List.prefix_rfl,.inl rfl⟩

/-- A head that is not all there is read on until the stream fails. -/
theorem readHead_failed {got : Bytes} {r : Reads} {e : String} (hr : r.failure = some e)
    (hthere : ¬HeadThere (got++r.bytes)) : readHead got r = .error e := by
  induction hn : headLimit-got.length using Nat.strong_induction_on generalizing got r with
  | _ n ih =>
    obtain ⟨hshort,hblank⟩ := not_or.mp hthere
    rw [List.length_append] at hshort
    rw [readHead,if_pos (by omega)]
    by_cases hb : r.bytes = []
    · rw [r.read_none _ hb,hr]
    · obtain ⟨bs,r',hread,hne,-,hbytes,hfail⟩ := @Reads.read_some r (headLimit-got.length) (by omega) hb
      have hpos := List.length_pos_iff.mpr hne
      rw [hbytes,← List.append_assoc] at hthere hblank
      have hopen : hasBlankLine (got++bs) = false := by
        rw [Bool.eq_false_iff,Ne,hasBlankLine_iff]
        exact fun h => hblank (h.trans (List.prefix_append _ _).isInfix)
      rw [hread]
      simp only [if_neg hne,hopen,Bool.false_eq_true,if_false]
      exact ih _ (by rw [List.length_append]; omega) (hfail.trans hr) hthere rfl

/-- Of a request only the first line counts. -/
theorem answer_firstLine (body : List Char) {head head' : List Char}
    (h : firstLine head = firstLine head') : answer body head = answer body head' := by
  simp only [answer,h]

theorem lossyChars_newline (a bs : Bytes) :
    lossyChars (a++10::bs) = lossyChars a++ '\n'::lossyChars bs := by
  have hnewline : lossyChars (10::bs) = '\n'::lossyChars bs := lossyChars_encode '\n' bs
  rw [lossyChars_append a (by decide),hnewline]

/-- The server answers as if it had read the whole head, or the first 4 KiB. -/
theorem respond_eq (body : List Char) {r : Reads} (hr : r.failure = none ∨ HeadThere r.bytes) :
    respond body r = .ok (textBytes (answer body (lossyChars (r.bytes.take headLimit)))) := by
  obtain ⟨head,hread,hpre,hend⟩ := @readHead_spec [] r hr (Nat.zero_le _) rfl
  rw [List.nil_append] at hpre hend
  rw [respond,hread]
  rcases hend with rfl | hmem
  · rfl
  · obtain ⟨a,bs,rfl⟩ := List.append_of_mem hmem
    obtain ⟨rest,hrest⟩ := hpre
    rw [← hrest,List.append_assoc,List.cons_append]
    have hline : firstLine (lossyChars (a++10::bs)) = firstLine (lossyChars (a++10::(bs++rest))) := by
      rw [lossyChars_newline,lossyChars_newline]
      exact firstLine_append _ _ _
    simp only [Except.map,answer_firstLine body hline]

/-- The client gets a response that is not too long whole, also from a peer that closes
without saying so. -/
theorem exchange_eq {closed : String → Bool} {got : Bytes} {r : Reads}
    (hr : ∀ e, r.failure = some e → closed e = true) (hne : got++r.bytes ≠ [])
    (hlen : (got++r.bytes).length ≤ responseLimit) : exchange closed got r = .ok (got++r.bytes) := by
  induction hn : responseLimit-got.length using Nat.strong_induction_on generalizing got r with
  | _ n ih =>
    rw [exchange]
    by_cases hb : r.bytes = []
    · rw [hb,List.append_nil] at hne ⊢
      split_ifs with hlt
      · rw [r.read_none _ hb]
        cases hf : r.failure with
        | none => simp only [if_true]
        | some e => simp only [hr e hf,hne,ne_eq,not_false_eq_true,and_self,if_true]
      · rfl
    · have hpos := List.length_pos_iff.mpr hb
      rw [List.length_append] at hlen
      obtain ⟨bs,r',hread,hbs,-,hbytes,hfail⟩ := @Reads.read_some r 4096 (by decide) hb
      have hbpos := List.length_pos_iff.mpr hbs
      rw [if_pos (by omega),hread]
      simp only [if_neg hbs]
      rw [hbytes,← List.append_assoc]
      refine ih (responseLimit-(got++bs).length) ?_ ?_ ?_ ?_ rfl
      · rw [List.length_append]
        omega
      · rwa [hfail]
      · simp [hbs]
      · rw [List.length_append,List.length_append]
        rw [hbytes,List.length_append] at hlen
        omega

/-! ### The request and its answer -/

/-- The first line of a request. -/
def requestLine (path : List Char) (query : Option (List Char)) : List Char :=
  "GET ".toList++target path query++" HTTP/1.1".toList

theorem solid_of_all {cs : List Char} (h : cs.all (fun c => isWhitespace c = false) = true) :
    ∀ c ∈ cs, isWhitespace c = false :=
  fun c hc => of_decide_eq_true (List.all_eq_true.mp h c hc)

section
variable {query : Option (List Char)}

theorem target_solid (hquery : ∀ q, query = some q → ∀ c ∈ q, isWhitespace c = false) :
    target infoPath query ≠ [] ∧ (∀ c ∈ target infoPath query, isWhitespace c = false) ∧
      upTo ['?'] (target infoPath query) = infoPath := by
  have hsolid : ∀ c ∈ infoPath, isWhitespace c = false := solid_of_all (by decide)
  cases query with
  | none => exact ⟨by decide,hsolid,by decide⟩
  | some q =>
      have hmark : ∀ c ∈ infoPath, c ∉ ['?'] := by
        intro c hc hmem
        rw [List.mem_singleton.mp hmem] at hc
        exact absurd hc (by decide)
      refine ⟨by simp [target],?_,upTo_mark List.mem_cons_self hmark⟩
      intro c hc
      rcases List.mem_append.mp hc with hc | hc
      · exact hsolid c hc
      · rcases List.mem_cons.mp hc with rfl | hc
        · decide
        · exact hquery q rfl c hc

theorem answer_request (body : List Char)
    (hquery : ∀ q, query = some q → ∀ c ∈ q, isWhitespace c = false) (ds : List Char) :
    answer body (requestLine infoPath query++ '\r':: '\n'::ds) = okHead (width body)++body := by
  obtain ⟨hne,hsolid,hpath⟩ := target_solid hquery
  have hnewline : '\n' ∉ requestLine infoPath query := by
    intro hmem
    rcases List.mem_append.mp hmem with hmem | hmem
    · rcases List.mem_append.mp hmem with hmem | hmem
      · exact absurd hmem (by decide)
      · exact absurd (hsolid _ hmem) (by decide)
    · exact absurd hmem (by decide)
  have hwords : words (requestLine infoPath query) =
      "GET".toList::target infoPath query::words "HTTP/1.1".toList := by
    have hline : requestLine infoPath query =
        "GET".toList++ ' '::(target infoPath query++ ' '::"HTTP/1.1".toList) := by
      simp [requestLine]
    rw [hline,words_cons (by decide) (solid_of_all (by decide)) (by decide),
      words_cons hne hsolid (by decide)]
  simp only [answer,firstLine_crlf hnewline,hwords,List.getD_cons_zero,List.getD_cons_succ,hpath]
  rw [if_pos ⟨.inl trivial,trivial⟩,if_neg (by decide)]

theorem request_cut (path : List Char) (query : Option (List Char)) (host : List Char) :
    ∃ ds, request path query host = (requestLine path query++['\r'])++ '\n'::ds := by
  have hcut : ∀ a b c d e f g h i : List Char, a++b++(c++['\r','\n'])++d++e++f++g++h++i =
      (a++b++c++['\r'])++ '\n'::(d++(e++(f++(g++(h++i))))) := by simp
  exact ⟨_,hcut "GET ".toList (target path query) " HTTP/1.1".toList "Host: ".toList host
    ['\r','\n'] (crlf "Accept: application/json") (crlf "Connection: close") ['\r','\n']⟩

/-- A request ends with its blank line. -/
theorem request_there (path : List Char) (query : Option (List Char)) (host : List Char) :
    HeadThere (textBytes (request path query host)) := by
  have hend : ∃ start, request path query host = start++(crlf "Connection: close"++['\r','\n']) :=
    ⟨_,List.append_assoc _ _ _⟩
  obtain ⟨start,hstart⟩ := hend
  rw [hstart,textBytes_append]
  have hblank : [13,10,13,10] <:+: textBytes (crlf "Connection: close"++['\r','\n']) := by
    rw [← hasBlankLine_iff]
    decide
  exact .inr (hblank.trans (List.suffix_append _ _).isInfix)

/-- A request for the document is answered with it, if its first line is within the limit,
also while the client's side stays open. -/
theorem respond_request (body : List Char) (host : List Char)
    (hquery : ∀ q, query = some q → ∀ c ∈ q, isWhitespace c = false)
    (hlen : (textBytes (requestLine infoPath query)).length+2 ≤ headLimit) {r : Reads}
    (hbytes : r.bytes = textBytes (request infoPath query host)) :
    respond body r = .ok (textBytes (okHead (width body)++body)) := by
  have hthere : HeadThere r.bytes := by
    rw [hbytes]
    exact request_there infoPath query host
  obtain ⟨ds,hds⟩ := request_cut infoPath query host
  have hhead : (textBytes (requestLine infoPath query++['\r'])).length+1 ≤ headLimit := by
    rw [textBytes_append,List.length_append]
    exact hlen
  have htake : r.bytes.take headLimit = textBytes (requestLine infoPath query++['\r'])++
      10::(textBytes ds).take (headLimit-(textBytes (requestLine infoPath query++['\r'])).length-1) := by
    have hnewline : textBytes ('\n'::ds) = 10::textBytes ds := rfl
    rw [hbytes,hds,textBytes_append,hnewline,List.take_append,
      List.take_of_length_le (by omega),List.take_cons (by omega)]
  rw [respond_eq body (.inr hthere),htake,lossyChars_newline,lossyChars_textBytes,List.append_assoc]
  rw [List.singleton_append,answer_request body hquery]

end

/-! ### The client's reading of it -/

theorem okHead_lines (len : ℕ) : okHead len =
    "HTTP/1.1 200 OK".toList++ '\r':: '\n'::("Content-Type: application/json".toList++ '\r':: '\n'::
      ("Cache-Control: no-store".toList++ '\r':: '\n'::("Content-Length: ".toList++decimal len++
        '\r':: '\n'::("Connection: close".toList++blankLine)))) := by
  simp only [okHead,crlf,blankLine,List.append_assoc,List.cons_append,List.nil_append]

/-- The head of a response is split off, whatever the body is. -/
theorem splitOnce_okHead (len : ℕ) (body : List Char) : ∃ rest,
    splitOnce blankLine (okHead len++body) = some ("HTTP/1.1 200 OK".toList++ '\r':: '\n'::rest,body) := by
  have hdigits : '\r' ∉ "Content-Length: ".toList++decimal len := by
    intro hmem
    rcases List.mem_append.mp hmem with hmem | hmem
    · exact absurd hmem (by decide)
    · obtain ⟨d,hd,hc⟩ := decimal_digits len _ hmem
      have hall : ∀ d : Fin 10, Char.ofNat (48+d) ≠ '\r' := by decide
      exact hall ⟨d,hd⟩ hc.symm
  have hend : splitOnce blankLine ("Connection: close".toList++(blankLine++body)) =
      some ("Connection: close".toList,body) := by
    rw [blankLine,splitOnce_skip (by decide),splitOnce_here]
    rfl
  have hnext : ∀ {name : List Char}, name.head? = some 'C' → ∀ rest,
      (name++rest).head? ≠ some '\r' := by
    intro name hname rest
    rw [List.head?_append,hname,Option.some_or]
    decide
  rw [okHead_lines]
  simp only [List.append_assoc,List.cons_append]
  rw [splitOnce_line (by decide) (hnext (by decide) _),splitOnce_line (by decide) (hnext (by decide) _),
    splitOnce_line (by decide) (hnext (by decide) _),← List.append_assoc "Content-Length: ".toList,
    splitOnce_line hdigits (hnext (by decide) _),hend]
  exact ⟨_,rfl⟩

section
variable {Id Url : Type} [TextForm Id] [TextForm Url]

theorem readInfo_ok (url : List Char) (len : ℕ) {body : List Char} {info : SfuInfo Id Url}
    (hparse : SfuInfo.parse body = .ok info) (halpn : info.alpn = sfuAlpn) :
    readInfo url (okHead len++body) = .ok info := by
  obtain ⟨rest,hsplit⟩ := splitOnce_okHead len body
  have hstatus : firstLine ("HTTP/1.1 200 OK".toList++ '\r':: '\n'::rest) = "HTTP/1.1 200 OK".toList :=
    firstLine_crlf (by decide) rest
  have hcode : (words "HTTP/1.1 200 OK".toList)[1]? = some "200".toList := by decide
  simp only [readInfo,hsplit,hstatus,if_pos hcode,hparse,halpn,if_true,bind,Except.bind,pure,Except.pure]

/-- **The info exchange**: however the bytes of a request are split, the server answers as
if it had read its first 4 KiB at once, as soon as the head is all there; a head that is not
is waited for until the stream ends or fails. A request for the document whose first line is
within the limit is answered with it while the client's side stays open, and however a
response within the limit is split and the connection closed behind it, the client reads back
what the server was started with. -/
theorem info_exchange :
    (∀ (body : List Char) (r : Reads),
      (r.failure = none ∨ HeadThere r.bytes → respond body r =
        .ok (textBytes (answer body (lossyChars (r.bytes.take headLimit))))) ∧
      ∀ e, r.failure = some e → ¬HeadThere r.bytes → respond body r = .error e) ∧
    ∀ (id : Id) (relay : Url) (qadPort : Option UInt16) (query : Option (List Char))
      (host url : List Char) (closed : String → Bool) (asked : Reads),
      (∀ c ∈ TextForm.toText id, IsHexDigit c) → ':' ∈ TextForm.toText relay →
      '\x22' ∉ TextForm.toText relay →
      (∀ q, query = some q → ∀ c ∈ q, isWhitespace c = false) →
      (textBytes (requestLine infoPath query)).length+2 ≤ headLimit →
      asked.bytes = textBytes (request infoPath query host) →
      ∃ response,
        respond (sfuInfoJson (TextForm.toText id) (TextForm.toText relay) qadPort) asked = .ok response ∧
        (response.length ≤ responseLimit → ∀ answered : Reads, answered.bytes = response →
          (∀ e, answered.failure = some e → closed e = true) →
          fetchInfo closed url answered = .ok (⟨id,relay,sfuAlpn,qadPort⟩ : SfuInfo Id Url)) := by
  constructor
  · intro body r
    refine ⟨respond_eq body,?_⟩
    intro e hr hthere
    rw [respond,readHead_failed hr hthere]
    rfl
  · intro id relay qadPort query host url closed asked hid hcolon hquote hquery hline hrequest
    refine ⟨_,respond_request _ host hquery hline hrequest,?_⟩
    intro hlen answered hbytes hclosed
    have hne : []++answered.bytes ≠ [] := by
      rw [List.nil_append,hbytes,textBytes_append,okHead_lines]
      simp [textBytes]
    have hparse := parse_of_fields (document_fields hid hcolon hquote qadPort)
    rw [fetchInfo,exchange_eq hclosed hne (by rwa [List.nil_append,hbytes]),List.nil_append,hbytes]
    simp only
    rw [lossyChars_textBytes]
    exact readInfo_ok url _ hparse rfl

end

/-! ### A document fetched over a connection that is cut behind it -/

theorem textBytes_length_le (cs : List Char) : (textBytes cs).length ≤ 4*cs.length := by
  induction cs with
  | nil => exact Nat.le_refl _
  | cons c cs ih =>
      rw [textBytes,List.flatMap_cons,List.length_append,String.length_utf8EncodeChar,List.length_cons]
      have hchar := c.utf8Size_le_four
      rw [textBytes] at ih
      omega

theorem decimal_length_le (n : ℕ) : (decimal n).length ≤ n+1 := by
  induction n using Nat.strong_induction_on with
  | _ n ih =>
    rw [decimal]
    split_ifs with hlt
    · exact Nat.succ_le_succ (Nat.zero_le n)
    · have hn := ih (n/10) (by omega)
      rw [List.length_append,List.length_singleton]
      omega

theorem okHead_length_le (len : ℕ) : (okHead len).length ≤ len+200 := by
  have hdigits := decimal_length_le len
  rw [okHead_lines]
  simp only [List.length_append,List.length_cons,blankLine]
  have htexts : "HTTP/1.1 200 OK".toList.length = 15 ∧
      "Content-Type: application/json".toList.length = 30 ∧
      "Cache-Control: no-store".toList.length = 23 ∧ "Content-Length: ".toList.length = 16 ∧
      "Connection: close".toList.length = 17 := by decide
  simp only [htexts,List.length_nil]
  omega

def pageExample : List Char :=
  sfuInfoJson (TextForm.toText RawId.base) (TextForm.toText relayExample) none

/-- The client keeps its side open: a read behind the request only times out. -/
def askedExample : Reads :=
  { Reads.whole (textBytes (request infoPath (some "v=2".toList) "sfu.example".toList)) with
    failure := some "timed out" }

/-- The peer closes without saying so. -/
def answeredExample : Reads :=
  { Reads.whole (textBytes (okHead (width pageExample)++pageExample)) with failure := some "unexpected eof" }

theorem pageExample_length : width pageExample ≤ 300 ∧ pageExample.length ≤ 300 := by
  decide +kernel

theorem info_exchange_example :
    respond pageExample askedExample = .ok answeredExample.bytes ∧
    fetchInfo (fun e => e = "unexpected eof") [] answeredExample =
      .ok (⟨RawId.base,relayExample,sfuAlpn,none⟩ : SfuInfo RawId AbsoluteUrl) := by
  obtain ⟨-,hfetch⟩ := @info_exchange RawId AbsoluteUrl _ _
  have hdigits : ∀ cs : List Char, cs.all (fun c => IsHexDigit c) = true → ∀ c ∈ cs, IsHexDigit c :=
    fun cs h c hc => of_decide_eq_true (List.all_eq_true.mp h c hc)
  have hquery : ∀ q, some "v=2".toList = some q → ∀ c ∈ q, isWhitespace c = false := by
    rintro _ ⟨⟩
    exact solid_of_all (by decide)
  have hline : (textBytes (requestLine infoPath (some "v=2".toList))).length+2 ≤ headLimit := by decide
  have hwhole : ∀ (bs : Bytes) (e : String), Reads.bytes { Reads.whole bs with failure := some e } = bs :=
    fun bs _ => Reads.whole_bytes bs
  have hbytes : answeredExample.bytes = textBytes (okHead (width pageExample)++pageExample) := hwhole _ _
  have hanswer : respond pageExample askedExample = .ok answeredExample.bytes := by
    rw [hbytes]
    exact respond_request pageExample _ hquery hline (hwhole _ _)
  have hlen : answeredExample.bytes.length ≤ responseLimit := by
    have hpage := pageExample_length
    have hhead := okHead_length_le (width pageExample)
    have hle := textBytes_length_le (okHead (width pageExample)++pageExample)
    rw [List.length_append] at hle
    rw [hbytes,responseLimit]
    omega
  obtain ⟨response,hresponse,hread⟩ := hfetch RawId.base relayExample none (some "v=2".toList)
    "sfu.example".toList [] (fun e => e = "unexpected eof") askedExample (hdigits _ (by decide))
    (by decide) (by decide) hquery hline (hwhole _ _)
  have hsame : response = answeredExample.bytes := Except.ok.inj (hresponse.symm.trans hanswer)
  refine ⟨hanswer,hread (by rwa [hsame]) answeredExample hsame.symm ?_⟩
  rintro e ⟨⟩
  decide

end KeepTalkingSfu.InfoExchange
