import KeepTalkingSfu.FrameCodec

/-!
# Reading length-prefixed frames

The reader takes a four-byte length and then fills a buffer that grows as
bytes arrive: it starts at no more than one step, doubles when it is full and
never exceeds the declared length. Every read asks for what is still missing
and still fits the buffer, so the reader takes no byte of the next frame.
-/
namespace KeepTalkingSfu.FrameReader
open ByteTransport WireFormat FrameCodec

/-- Bytes read per step while filling a frame body. -/
def readStep : ℕ := 64*1024

/-- A length out of range is fatal for the connection; every other error ends
the stream only. -/
inductive FrameError where
  | length (len : ℕ)
  | other (text : String)
  deriving DecidableEq, Repr

/-- A growing byte buffer and its capacity. -/
structure Buffer where
  data : Bytes
  capacity : ℕ

/-- A full buffer doubles, by at least one step and up to the frame's length. -/
def Buffer.grow (len : ℕ) (b : Buffer) : Buffer :=
  if b.data.length = b.capacity then
    let target := min (max (b.capacity*2) readStep) len
    { b with capacity := b.data.length+(target-b.data.length) }
  else b

/-- What the next read may add. -/
def Buffer.room (len : ℕ) (b : Buffer) : ℕ :=
  min (len-b.data.length) (b.capacity-b.data.length)

/-- The body loop: at most `fuel` reads, of which each must add a byte. -/
def fillBody (len : ℕ) : ℕ → Buffer → Reads → Except FrameError (Buffer × Reads)
  | 0,buf,r => .ok (buf,r)
  | fuel+1,buf,r =>
      if buf.data.length < len then
        let buf := buf.grow len
        match r.read (buf.room len) with
        | .error e => .error (.other ("reading frame body: "++e))
        | .ok (bs,r') =>
            if bs = [] then .error (.other "truncated frame")
            else fillBody len fuel { buf with data := buf.data++bs } r'
      else .ok (buf,r)

/-- One raw frame: its tag and body, or `none` when the stream ends in place of
a length prefix. The body loop never needs more reads than the frame has bytes. -/
def readFrame (r : Reads) : Except FrameError (Option (UInt8 × Bytes) × Reads) :=
  match r.readExact 4 [] with
  | .error .unexpectedEof => .ok (none,⟨[],by simp,none⟩)
  | .error (.failed e) => .error (.other e)
  | .ok (head,r₁) =>
      let len := beValue head
      if 1 ≤ len ∧ len ≤ maxFrameLen then
        match fillBody len len ⟨[],min len readStep⟩ r₁ with
        | .error e => .error e
        | .ok (buf,r₂) =>
            match buf.data with
            | tag::body => .ok (some (tag,body),r₂)
            | [] => .ok (none,r₂)
      else .error (.length len)

/-- The first byte of a lane stream. -/
def readLaneByte (r : Reads) : Except FrameError (Option UInt8 × Reads) :=
  match r.readExact 1 [] with
  | .error .unexpectedEof => .ok (none,⟨[],by simp,none⟩)
  | .error (.failed e) => .error (.other e)
  | .ok (bs,r') => .ok (bs.head?,r')

/-! ### The body loop -/

/-- The buffer of a running body loop: it holds a proper part of the frame and
its capacity is between that and the frame's length. -/
structure Filling (len : ℕ) (b : Buffer) : Prop where
  held : b.data.length ≤ b.capacity
  capped : b.capacity ≤ len

theorem Filling.grow {len : ℕ} {b : Buffer} (h : Filling len b) (hl : b.data.length < len) :
    Filling len (b.grow len) ∧ (b.grow len).data = b.data ∧ 0 < (b.grow len).room len := by
  have hh := h.held
  have hc := h.capped
  unfold Buffer.grow
  split_ifs with hfull
  · have ht : b.data.length < min (max (b.capacity*2) readStep) len := by
      simp only [readStep]
      omega
    refine ⟨⟨by simp,?_⟩,rfl,?_⟩
    · simp only
      omega
    · simp only [Buffer.room]
      omega
  · exact ⟨h,rfl,by simp only [Buffer.room]; omega⟩

theorem Filling.extend {len : ℕ} {b : Buffer} (h : Filling len b) {bs : Bytes}
    (hbs : bs.length ≤ b.room len) : Filling len { b with data := b.data++bs } := by
  have hh := h.held
  have hc := h.capped
  simp only [Buffer.room] at hbs
  refine ⟨?_,hc⟩
  simp only [List.length_append]
  omega

/-- With the frame's bytes on the stream the loop collects exactly them. -/
theorem fillBody_enough (len fuel : ℕ) (b : Buffer) (r : Reads) (hb : Filling len b)
    (hfuel : len-b.data.length ≤ fuel) (h : len-b.data.length ≤ r.bytes.length) :
    ∃ b' r', fillBody len fuel b r = .ok (b',r') ∧ Filling len b' ∧
      b'.data = b.data++r.bytes.take (len-b.data.length) ∧
      r'.bytes = r.bytes.drop (len-b.data.length) ∧ r'.failure = r.failure := by
  induction fuel generalizing b r with
  | zero =>
      have h0 : len-b.data.length = 0 := by omega
      exact ⟨b,r,rfl,hb,by simp [h0],by simp [h0],rfl⟩
  | succ fuel ih =>
      by_cases hl : b.data.length < len
      · obtain ⟨hg,hdata,hroom⟩ := hb.grow hl
        have hne : r.bytes ≠ [] := by
          intro he
          simp [he] at h
          omega
        obtain ⟨bs,r₁,hread,hbs,hle,hsplit,hf⟩ := r.read_some hroom hne
        have hpos := List.length_pos_iff.mpr hbs
        have hmiss : bs.length ≤ len-b.data.length := by
          simp only [Buffer.room,hdata] at hle
          omega
        have hlen : ({ b.grow len with data := (b.grow len).data++bs } : Buffer).data.length =
            b.data.length+bs.length := by simp [hdata]
        obtain ⟨b',r',hgo,hb',hd,hr,hf'⟩ :=
          ih { b.grow len with data := (b.grow len).data++bs } r₁ (hg.extend hle)
            (by rw [hlen]; omega)
            (by rw [hsplit,List.length_append] at h; rw [hlen]; omega)
        have hsub : len-(b.data.length+bs.length) = len-b.data.length-bs.length := by omega
        refine ⟨b',r',?_,hb',?_,?_,hf'.trans hf⟩
        · simp only [fillBody,if_pos hl,hread,if_neg hbs]
          exact hgo
        · rw [hd,hlen,hsplit,List.take_append,List.take_of_length_le hmiss,hsub]
          simp [hdata]
        · rw [hr,hlen,hsplit,List.drop_append,List.drop_of_length_le hmiss,hsub,List.nil_append]
      · have h0 : len-b.data.length = 0 := by omega
        exact ⟨b,r,by simp only [fillBody,if_neg hl],hb,by simp [h0],by simp [h0],rfl⟩

/-- How a stream that is out of bytes answers a body that is still short. -/
def truncated : Option String → FrameError
  | none => .other "truncated frame"
  | some e => .other ("reading frame body: "++e)

theorem fillBody_short (len fuel : ℕ) (b : Buffer) (r : Reads) (hb : Filling len b)
    (hfuel : len-b.data.length ≤ fuel) (h : r.bytes.length < len-b.data.length) :
    fillBody len fuel b r = .error (truncated r.failure) := by
  induction fuel generalizing b r with
  | zero => omega
  | succ fuel ih =>
      have hl : b.data.length < len := by omega
      obtain ⟨hg,hdata,hroom⟩ := hb.grow hl
      by_cases hne : r.bytes = []
      · have hread := r.read_none ((b.grow len).room len) hne
        simp only [fillBody,if_pos hl,hread]
        cases r.failure with
        | none => simp [truncated]
        | some e => rfl
      · obtain ⟨bs,r₁,hread,hbs,hle,hsplit,hf⟩ := r.read_some hroom hne
        have hpos := List.length_pos_iff.mpr hbs
        have hlen : ({ b.grow len with data := (b.grow len).data++bs } : Buffer).data.length =
            b.data.length+bs.length := by simp [hdata]
        simp only [fillBody,if_pos hl,hread,if_neg hbs,← hf]
        apply ih { b.grow len with data := (b.grow len).data++bs } r₁ (hg.extend hle)
        · rw [hlen]
          omega
        · rw [hsplit,List.length_append] at h
          rw [hlen]
          omega

/-! ### A frame off a byte string -/

/-- What the reader makes of the bytes that are left, and the bytes after it:
the splitting into reads does not occur. -/
def nextFrame (failure : Option String) (bs : Bytes) :
    Except FrameError (Option (UInt8 × Bytes) × Bytes) :=
  if bs.length < 4 then
    match failure with
    | none => .ok (none,[])
    | some e => .error (.other e)
  else
    let len := beValue (bs.take 4)
    if 1 ≤ len ∧ len ≤ maxFrameLen then
      if 4+len ≤ bs.length then
        .ok (some (bs.getD 4 0,(bs.drop 5).take (len-1)),bs.drop (4+len))
      else .error (truncated failure)
    else .error (.length len)

theorem fillBody_start (len : ℕ) (r : Reads) :
    if len ≤ r.bytes.length then
      ∃ b r', fillBody len len ⟨[],min len readStep⟩ r = .ok (b,r') ∧
        b.data = r.bytes.take len ∧ r'.bytes = r.bytes.drop len ∧ r'.failure = r.failure
    else fillBody len len ⟨[],min len readStep⟩ r = .error (truncated r.failure) := by
  have hstart : Filling len ⟨[],min len readStep⟩ := ⟨Nat.zero_le _,Nat.min_le_left _ _⟩
  split_ifs with h
  · obtain ⟨b,r',hfill,-,hdata,hr,hf⟩ := fillBody_enough len len _ r hstart (by simp) (by simpa)
    exact ⟨b,r',hfill,hdata,hr,hf⟩
  · exact fillBody_short len len _ r hstart (by simp) (by simpa using h)

/-- A call of the reader is a function of the bytes that are left and of how the
stream ends. -/
theorem readFrame_next (r : Reads) :
    match nextFrame r.failure r.bytes with
    | .error e => readFrame r = .error e
    | .ok (f,rest) => ∃ r', readFrame r = .ok (f,r') ∧ r'.bytes = rest ∧ r'.failure = r.failure := by
  by_cases h4 : r.bytes.length < 4
  · have hread := r.readExact_short 4 [] h4
    simp only [nextFrame,if_pos h4,readFrame,hread,Reads.shortfall]
    cases r.failure with
    | none => exact ⟨_,rfl,rfl,rfl⟩
    | some e => rfl
  · obtain ⟨r₁,hread,hr₁,hf₁⟩ := r.readExact_enough 4 [] (Nat.not_lt.mp h4)
    simp only [nextFrame,if_neg h4,readFrame,hread,List.nil_append]
    generalize beValue (r.bytes.take 4) = len
    by_cases hrange : 1 ≤ len ∧ len ≤ maxFrameLen
    · have hfill := fillBody_start len r₁
      rw [if_pos hrange,if_pos hrange]
      by_cases hlen : 4+len ≤ r.bytes.length
      · rw [if_pos (by rw [hr₁,List.length_drop]; omega)] at hfill
        obtain ⟨b,r₂,hfill,hdata,hr₂,hf₂⟩ := hfill
        obtain ⟨n,rfl⟩ := Nat.exists_eq_add_of_le' hrange.1
        have hcons : b.data = r.bytes.getD 4 0::(r.bytes.drop 5).take n := by
          rw [hdata,hr₁,List.drop_eq_getElem_cons (by omega),List.take_succ_cons]
          simp [List.getD,List.getElem?_eq_getElem (by omega : 4 < r.bytes.length)]
        simp only [if_pos hlen,hfill,hcons]
        exact ⟨r₂,rfl,by rw [hr₂,hr₁,List.drop_drop],hf₂.trans hf₁⟩
      · rw [if_neg (by rw [hr₁,List.length_drop]; omega)] at hfill
        simp only [if_neg hlen,hfill,hf₁]
    · rw [if_neg hrange,if_neg hrange]

/-! ### Reading a frame that is there -/

theorem nextFrame_rawFrame (failure : Option String) (tag : UInt8) (body rest : Bytes)
    (hlen : 1+body.length ≤ maxFrameLen) :
    nextFrame failure (rawFrame tag body++rest) = .ok (some (tag,body),rest) := by
  have hlt : 1+body.length < 4294967296 := by
    rw [maxFrameLen_eq] at hlen
    omega
  have hhead : (rawFrame tag body++rest).take 4 = putU32 (1+body.length) := by
    rw [rawFrame,List.append_assoc]
    exact List.take_left' (putU32_length _)
  have hval : beValue (putU32 (1+body.length)) = 1+body.length := by
    rw [beValue_putU32,Nat.mod_eq_of_lt hlt]
  have htotal : (rawFrame tag body++rest).length = 5+body.length+rest.length := by simp
  unfold nextFrame
  simp only [hhead,hval]
  rw [if_neg (by omega),if_pos ⟨by omega,hlen⟩,if_pos (by omega)]
  have htag : (rawFrame tag body++rest).getD 4 0 = tag := rfl
  have hbody : (rawFrame tag body++rest).drop 5 = body++rest := rfl
  have hafter : (rawFrame tag body++rest).drop (4+(1+body.length)) = rest :=
    List.drop_left' (by rw [rawFrame_length]; omega)
  rw [htag,hbody,hafter,List.take_left' (by omega)]

/-- A complete frame at the head of the stream is read whatever the splitting,
and nothing after it is taken. -/
theorem readFrame_rawFrame (r : Reads) (tag : UInt8) (body rest : Bytes)
    (hlen : 1+body.length ≤ maxFrameLen) (hr : r.bytes = rawFrame tag body++rest) :
    ∃ r', readFrame r = .ok (some (tag,body),r') ∧ r'.bytes = rest ∧ r'.failure = r.failure := by
  have h := readFrame_next r
  rwa [hr,nextFrame_rawFrame _ tag body rest hlen] at h

theorem nextFrame_shrinks {failure : Option String} {bs rest : Bytes} {f : UInt8 × Bytes}
    (h : nextFrame failure bs = .ok (some f,rest)) : rest.length < bs.length := by
  simp only [nextFrame] at h
  split_ifs at h
  · cases failure <;> cases h
  · cases h
    rw [List.length_drop]
    omega

theorem readFrame_shrinks {r r' : Reads} {f : UInt8 × Bytes}
    (h : readFrame r = .ok (some f,r')) : r'.bytes.length < r.bytes.length := by
  have hnext := readFrame_next r
  cases hn : nextFrame r.failure r.bytes with
  | error e => simp [hn,h] at hnext
  | ok x =>
      obtain ⟨g,rest⟩ := x
      rw [hn,h] at hnext
      obtain ⟨r'',heq,hrest,-⟩ := hnext
      cases heq
      rw [hrest]
      exact nextFrame_shrinks hn

theorem readFrame_end (r : Reads) (hb : r.bytes = []) (hf : r.failure = none) :
    ∃ r', readFrame r = .ok (none,r') ∧ r'.bytes = [] := by
  have h := readFrame_next r
  rw [hb,hf] at h
  obtain ⟨r',hread,hrest,-⟩ := h
  exact ⟨r',hread,hrest⟩

theorem readLaneByte_cons (r : Reads) (b : UInt8) (rest : Bytes) (hr : r.bytes = b::rest) :
    ∃ r', readLaneByte r = .ok (some b,r') ∧ r'.bytes = rest ∧ r'.failure = r.failure := by
  obtain ⟨r',hread,hrest,hf⟩ := r.readExact_enough 1 [] (by simp [hr])
  refine ⟨r',?_,by simp [hrest,hr],hf⟩
  simp [readLaneByte,hread,hr]

end KeepTalkingSfu.FrameReader
