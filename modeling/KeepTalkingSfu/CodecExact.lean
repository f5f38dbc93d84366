import KeepTalkingSfu.BufferReads
import KeepTalkingSfu.LaneStream

/-!
# The codecs are exact

The decoders once more, as the source takes its bytes: every read of the buffer
can panic, and each is preceded by its check. They answer on every input, with
the frame or the error of the plain decoders.

A decoded frame gives its bytes back when it is encoded. Two things are lost on
purpose: the reserved flag bits of a SNAPSHOT, and the bytes of an ERROR's text
that are not UTF-8.
-/
namespace KeepTalkingSfu.CodecExact
open ByteTransport Utf8Text WireFormat FrameCodec FrameReader StreamWriters LaneStream BufferReads
  EndpointKey

variable {Id : Type} [EndpointKey Id]

/-! ### The decoders, read by read -/

def takeTopic (body : Bytes) : Except Fault (Topic × Bytes) := do
  ensure (32 ≤ body.length) "truncated topic"
  let (bytes,rest) ← splitTo 32 body
  let topic ← asArray 32 bytes
  pure (⟨topic.1,topic.2⟩,rest)

def takeId (body : Bytes) : Except Fault (Id × Bytes) := do
  ensure (32 ≤ body.length) "truncated endpoint id"
  let (bytes,rest) ← splitTo 32 body
  let bytes ← asArray 32 bytes
  match fromBytes bytes.1 with
  | .ok id => pure (id,rest)
  | .error e => .error (.failed ("invalid endpoint id: "++e))

def clientDecode (tag : UInt8) (body : Bytes) : Except Fault (ClientFrame Id) :=
  let finish (frame : ClientFrame Id) (body : Bytes) := do
    ensure (body = []) ("trailing bytes in client frame 0x"++hexByte tag)
    pure frame
  if tag = Tag.subscribe then do
    let (topic,body) ← takeTopic body
    finish (.subscribe topic) body
  else if tag = Tag.unsubscribe then do
    let (topic,body) ← takeTopic body
    finish (.unsubscribe topic) body
  else if tag = Tag.announce then do
    let (topic,blob) ← takeTopic body
    pure (.announce topic blob)
  else if tag = Tag.publish then do
    let (topic,payload) ← takeTopic body
    pure (.publish topic payload)
  else if tag = Tag.publishTo then do
    let (topic,body) ← takeTopic body
    let (recipient,payload) ← takeId body
    pure (.publishTo topic recipient payload)
  else .error (.failed ("unknown client frame 0x"++hexByte tag))

/-- The loop over a SNAPSHOT's entries, with the members it has pushed. -/
def takeMembers : ℕ → List (Member Id) → Bytes → Except Fault (List (Member Id) × Bytes)
  | 0,members,body => .ok (members,body)
  | count+1,members,body => do
      let (id,body) ← takeId body
      ensure (4 ≤ body.length) "truncated snapshot blob length"
      let (len,body) ← getWord 4 body
      ensure (len ≤ body.length) "truncated snapshot blob"
      let (blob,body) ← splitTo len body
      takeMembers count (members++[⟨id,blob⟩]) body

def serverDecode (tag : UInt8) (body : Bytes) : Except Fault (ServerFrame Id) :=
  let finish (frame : ServerFrame Id) (body : Bytes) := do
    ensure (body = []) ("trailing bytes in server frame 0x"++hexByte tag)
    pure frame
  if tag = Tag.snapshot then do
    let (topic,body) ← takeTopic body
    ensure (3 ≤ body.length) "truncated snapshot header"
    let (flags,body) ← getU8 body
    let (count,body) ← getWord 2 body
    let (members,body) ← takeMembers count [] body
    finish (.snapshot topic (flags &&& snapshotMore != 0) members) body
  else if tag = Tag.joined then do
    let (topic,body) ← takeTopic body
    let (id,body) ← takeId body
    finish (.joined topic id) body
  else if tag = Tag.left then do
    let (topic,body) ← takeTopic body
    let (id,body) ← takeId body
    finish (.left topic id) body
  else if tag = Tag.presence then do
    let (topic,body) ← takeTopic body
    let (id,blob) ← takeId body
    pure (.presence topic id blob)
  else if tag = Tag.deliver then do
    let (topic,payload) ← takeTopic body
    pure (.deliver topic payload)
  else if tag = Tag.error then do
    let (topic,reason) ← takeTopic body
    pure (.error (if topic.isZero then none else some topic) (fromUtf8Lossy reason))
  else .error (.failed ("unknown server frame 0x"++hexByte tag))

/-! ### No read is out of bounds -/

theorem takeTopic_answered (body : Bytes) :
    takeTopic body = answered (WireFormat.takeTopic body) := by
  unfold takeTopic WireFormat.takeTopic
  rw [ensure_bind]
  split_ifs with h
  · rw [splitTo_of_le h]
    change (asArray 32 (body.take 32) >>= _) = _
    rw [asArray_of_length (List.length_take_of_le h)]
    rfl
  · rfl

theorem takeId_answered (body : Bytes) :
    (takeId body : Except Fault (Id × Bytes)) = answered (WireFormat.takeId body) := by
  unfold takeId WireFormat.takeId
  rw [ensure_bind]
  split_ifs with h
  · rw [splitTo_of_le h]
    change (asArray 32 (body.take 32) >>= _) = _
    rw [asArray_of_length (List.length_take_of_le h)]
    change (match (fromBytes (body.take 32) : Except String Id) with
      | .ok id => _
      | .error e => _) = _
    cases (fromBytes (body.take 32) : Except String Id) <;> rfl
  · rfl

theorem finish_answered {A : Type} {text what : String} (tag : UInt8) (frame : A) (body : Bytes)
    (htext : text = "trailing bytes in "++what++" frame 0x") :
    (ensure (body = []) (text++hexByte tag) >>= fun _ => pure frame) =
      answered (ensureEmpty what tag frame body) := by
  rw [ensure_bind,ensureEmpty,htext]
  split_ifs <;> rfl

theorem clientDecode_answered (tag : UInt8) (body : Bytes) :
    (clientDecode tag body : Except Fault (ClientFrame Id)) =
      answered (ClientFrame.decode tag body) := by
  have hfinish : ∀ (frame : ClientFrame Id) (body : Bytes),
      (ensure (body = []) ("trailing bytes in client frame 0x"++hexByte tag) >>=
        fun _ => pure frame) = answered (ensureEmpty "client" tag frame body) :=
    fun frame body => finish_answered tag frame body (by decide)
  unfold clientDecode ClientFrame.decode
  simp only [takeTopic_answered,hfinish,apply_ite answered]
  -- the two decoders have the same branches
  refine ite_congr rfl (fun _ => answered_bind _ _) fun _ => ?_
  refine ite_congr rfl (fun _ => answered_bind _ _) fun _ => ?_
  refine ite_congr rfl (fun _ => ?_) fun _ => ?_
  · cases WireFormat.takeTopic body <;> rfl
  refine ite_congr rfl (fun _ => ?_) fun _ => ?_
  · cases WireFormat.takeTopic body <;> rfl
  refine ite_congr rfl (fun _ => ?_) fun _ => rfl
  cases WireFormat.takeTopic body with
  | error e => rfl
  | ok x =>
      change (takeId x.2 >>= _) = answered (WireFormat.takeId x.2 >>= _)
      rw [takeId_answered]
      exact answered_bind (WireFormat.takeId x.2) fun y => .ok (ClientFrame.publishTo x.1 y.1 y.2)

theorem takeMembers_answered (count : ℕ) (members : List (Member Id)) (body : Bytes) :
    takeMembers count members body =
      answered ((takeEntries count body).map fun x => (members++x.1,x.2)) := by
  induction count generalizing members body with
  | zero => simp [takeMembers,takeEntries,Except.map]
  | succ count ih =>
      rw [takeMembers,takeEntries,takeId_answered]
      cases (WireFormat.takeId body : Except String (Id × Bytes)) with
      | error e => rfl
      | ok x =>
          obtain ⟨id,rest⟩ := x
          change (ensure (4 ≤ rest.length) _ >>= fun _ => _) =
            answered (Except.map _ (if _ then _ else _))
          rw [ensure_bind]
          by_cases h4 : 4 ≤ rest.length
          · rw [if_pos h4,if_pos h4,getWord_of_le h4]
            change (ensure (beValue (rest.take 4) ≤ (rest.drop 4).length) _ >>= fun _ => _) = _
            rw [ensure_bind]
            by_cases hlen : beValue (rest.take 4) ≤ (rest.drop 4).length
            · simp only [if_pos hlen,splitTo_of_le hlen]
              change takeMembers count _ _ = _
              rw [ih]
              cases (takeEntries count ((rest.drop 4).drop (beValue (rest.take 4))) :
                Except String (List (Member Id) × Bytes)) with
              | error e => rfl
              | ok y => simp [Except.map,Bind.bind,Except.bind,Pure.pure,Except.pure]
            · simp only [if_neg hlen]
              rfl
          · rw [if_neg h4,if_neg h4]
            rfl

theorem serverDecode_answered (tag : UInt8) (body : Bytes) :
    (serverDecode tag body : Except Fault (ServerFrame Id)) =
      answered (ServerFrame.decode tag body) := by
  have hfinish : ∀ (frame : ServerFrame Id) (body : Bytes),
      (ensure (body = []) ("trailing bytes in server frame 0x"++hexByte tag) >>=
        fun _ => pure frame) = answered (ensureEmpty "server" tag frame body) :=
    fun frame body => finish_answered tag frame body (by decide)
  unfold serverDecode ServerFrame.decode
  simp only [takeTopic_answered,hfinish,apply_ite answered]
  cases WireFormat.takeTopic body with
  | error e =>
      refine ite_congr rfl (fun _ => rfl) fun _ => ite_congr rfl (fun _ => rfl) fun _ =>
        ite_congr rfl (fun _ => rfl) fun _ => ite_congr rfl (fun _ => rfl) fun _ =>
        ite_congr rfl (fun _ => rfl) fun _ => ite_congr rfl (fun _ => rfl) fun _ => rfl
  | ok x =>
      obtain ⟨topic,rest⟩ := x
      refine ite_congr rfl (fun _ => ?_) fun _ => ?_
      · change (ensure (3 ≤ rest.length) _ >>= fun _ => _) = _
        rw [ensure_bind]
        match rest with
        | flags::c₁::c₀::rest =>
            rw [if_pos (by simp)]
            change (takeMembers (beValue [c₁,c₀]) [] rest >>= _) = _
            rw [takeMembers_answered]
            change _ = answered (takeEntries (beValue [c₁,c₀]) rest >>= _)
            cases (takeEntries (beValue [c₁,c₀]) rest : Except String (List (Member Id) × Bytes)) <;>
              rfl
        | [] | [_] | [_,_] => rfl
      refine ite_congr rfl (fun _ => ?_) fun _ => ?_
      · change (takeId rest >>= _) = answered (WireFormat.takeId rest >>= _)
        rw [takeId_answered]
        exact answered_bind _ _
      refine ite_congr rfl (fun _ => ?_) fun _ => ?_
      · change (takeId rest >>= _) = answered (WireFormat.takeId rest >>= _)
        rw [takeId_answered]
        exact answered_bind _ _
      refine ite_congr rfl (fun _ => ?_) fun _ => ?_
      · change (takeId rest >>= _) = answered (WireFormat.takeId rest >>= _)
        rw [takeId_answered]
        exact answered_bind (WireFormat.takeId rest) fun y => .ok (ServerFrame.presence topic y.1 y.2)
      exact ite_congr rfl (fun _ => rfl) fun _ => ite_congr rfl (fun _ => rfl) fun _ => rfl

/-! ### What a decoder took -/

theorem putU16_beValue (a b : UInt8) : putU16 (beValue [a,b]) = [a,b] := by
  have ha := a.toNat_lt
  have hb := b.toNat_lt
  simp only [putU16,beValue,List.foldl_cons,List.foldl_nil,List.cons.injEq,and_true,
    ← UInt8.toNat_inj,UInt8.toNat_ofNat']
  omega

theorem putU32_beValue {bs : Bytes} (h : bs.length = 4) : putU32 (beValue bs) = bs := by
  match bs with
  | [a,b,c,d] =>
      have ha := a.toNat_lt
      have hb := b.toNat_lt
      have hc := c.toNat_lt
      have hd := d.toNat_lt
      simp only [putU32,beValue,List.foldl_cons,List.foldl_nil,List.cons.injEq,and_true,
        ← UInt8.toNat_inj,UInt8.toNat_ofNat']
      omega

theorem takeTopic_ok {body rest : Bytes} {t : Topic}
    (h : WireFormat.takeTopic body = .ok (t,rest)) : body = t.bytes++rest := by
  unfold WireFormat.takeTopic at h
  split_ifs at h
  cases h
  exact (List.take_append_drop 32 body).symm

theorem takeId_ok {body rest : Bytes} {id : Id} (h : WireFormat.takeId body = .ok (id,rest)) :
    body = asBytes id++rest := by
  unfold WireFormat.takeId at h
  split_ifs at h
  split at h
  · next id' hid =>
    cases h
    rw [asBytes_of_fromBytes _ _ hid,List.take_append_drop]
  · cases h

theorem ensureEmpty_ok {A : Type} {what : String} {tag : UInt8} {frame a : A} {body : Bytes}
    (h : ensureEmpty what tag frame body = .ok a) : body = [] ∧ a = frame := by
  unfold ensureEmpty at h
  split_ifs at h with hb
  cases h
  exact ⟨hb,rfl⟩

/-- Entries that were taken are the entries that were there. -/
theorem takeEntries_ok {count : ℕ} {body rest : Bytes} {members : List (Member Id)}
    (h : takeEntries count body = .ok (members,rest)) :
    members.length = count ∧ body = members.flatMap encodeEntry++rest ∧
      ∀ m ∈ members, m.blob.length < 4294967296 := by
  induction count generalizing body members with
  | zero =>
      cases h
      exact ⟨rfl,rfl,nofun⟩
  | succ count ih =>
      rw [takeEntries] at h
      obtain ⟨⟨id,after⟩,hid,h⟩ := bind_eq_ok h
      simp only at h
      split_ifs at h with h4 hlen
      obtain ⟨⟨ms,tail⟩,hms,h⟩ := bind_eq_ok h
      cases h
      obtain ⟨hcount,hbody,hblobs⟩ := ih hms
      have hword : (after.take 4).length = 4 := by simpa using h4
      have hblob : ((after.drop 4).take (beValue (after.take 4))).length = beValue (after.take 4) := by
        simpa using hlen
      refine ⟨by simp [hcount],?_,?_⟩
      · rw [takeId_ok hid,List.flatMap_cons,encodeEntry,hblob,putU32_beValue hword]
        simp only [List.append_assoc]
        rw [← hbody,List.take_append_drop,List.take_append_drop]
      · intro m hm
        rcases List.mem_cons.mp hm with rfl | hm
        · have hlt := beValue_putU32 (beValue (after.take 4))
          rw [putU32_beValue hword] at hlt
          rw [hblob]
          omega
        · exact hblobs m hm

/-! ### Client frames -/

theorem clientFrame_of_decode {tag : UInt8} {body : Bytes} {f : ClientFrame Id}
    (h : ClientFrame.decode tag body = .ok f) : clientTag f = tag ∧ clientBody f = body := by
  unfold ClientFrame.decode at h
  split_ifs at h with hs hu ha hp ht
  · obtain ⟨⟨t,rest⟩,htopic,h⟩ := bind_eq_ok h
    obtain ⟨rfl,rfl⟩ := ensureEmpty_ok h
    exact ⟨hs.symm,by rw [takeTopic_ok htopic,List.append_nil]; rfl⟩
  · obtain ⟨⟨t,rest⟩,htopic,h⟩ := bind_eq_ok h
    obtain ⟨rfl,rfl⟩ := ensureEmpty_ok h
    exact ⟨hu.symm,by rw [takeTopic_ok htopic,List.append_nil]; rfl⟩
  · obtain ⟨⟨t,rest⟩,htopic,h⟩ := bind_eq_ok h
    cases h
    exact ⟨ha.symm,(takeTopic_ok htopic).symm⟩
  · obtain ⟨⟨t,rest⟩,htopic,h⟩ := bind_eq_ok h
    cases h
    exact ⟨hp.symm,(takeTopic_ok htopic).symm⟩
  · obtain ⟨⟨t,rest⟩,htopic,h⟩ := bind_eq_ok h
    obtain ⟨⟨id,payload⟩,hid,h⟩ := bind_eq_ok h
    cases h
    refine ⟨ht.symm,?_⟩
    rw [takeTopic_ok htopic,takeId_ok hid,clientBody,List.append_assoc]

theorem clientFrame_header (f : ClientFrame Id) :
    f.encode = frameHeader (clientTag f) (clientBody f).length++clientBody f := by
  have hadd : ∀ n, 32+(32+n) = 64+n := by omega
  cases f <;>
    simp [ClientFrame.encode,WireFormat.encode,clientTag,clientBody,Topic.length_eq,hadd]

/-- The bodies the client decoder takes under each tag. -/
def Accepted (Id : Type) [EndpointKey Id] (tag : UInt8) (body : Bytes) : Prop :=
  ((tag = Tag.subscribe ∨ tag = Tag.unsubscribe) ∧ body.length = 32) ∨
  ((tag = Tag.announce ∨ tag = Tag.publish) ∧ 32 ≤ body.length) ∨
  (tag = Tag.publishTo ∧ 64 ≤ body.length ∧
    ∃ id : Id, fromBytes ((body.drop 32).take 32) = .ok id)

theorem accepted_of_decode {tag : UInt8} {body : Bytes} {f : ClientFrame Id}
    (h : ClientFrame.decode tag body = .ok f) : Accepted Id tag body := by
  obtain ⟨rfl,rfl⟩ := clientFrame_of_decode h
  cases f with
  | subscribe t => exact .inl ⟨.inl rfl,t.length_eq⟩
  | unsubscribe t => exact .inl ⟨.inr rfl,t.length_eq⟩
  | announce t blob => exact .inr (.inl ⟨.inl rfl,by simp [clientBody,t.length_eq]⟩)
  | publish t payload => exact .inr (.inl ⟨.inr rfl,by simp [clientBody,t.length_eq]⟩)
  | publishTo t id payload =>
      refine .inr (.inr ⟨rfl,?_,id,?_⟩)
      · simp [clientBody,t.length_eq]
        omega
      · have hrest : (t.bytes++(asBytes id++payload)).drop 32 = asBytes id++payload :=
          List.drop_left' t.length_eq
        rw [clientBody,List.append_assoc,hrest,List.take_left' (asBytes_length id),
          fromBytes_asBytes]

/-- A body that starts with a whole topic is that topic and the rest. -/
theorem takeTopic_of_le {body : Bytes} (h : 32 ≤ body.length) :
    ∃ t, WireFormat.takeTopic body = .ok (t,body.drop 32) :=
  ⟨⟨body.take 32,by simpa using h⟩,dif_pos h⟩

theorem decode_of_accepted {tag : UInt8} {body : Bytes} (h : Accepted Id tag body) :
    ∃ f : ClientFrame Id, ClientFrame.decode tag body = .ok f := by
  have hle : 32 ≤ body.length := by
    rcases h with ⟨-,hl⟩ | ⟨-,hl⟩ | ⟨-,hl,-⟩ <;> omega
  obtain ⟨t,ht⟩ := takeTopic_of_le hle
  rcases h with ⟨htag,hl⟩ | ⟨htag,hl⟩ | ⟨rfl,hl,id,hid⟩
  · have hend : body.drop 32 = [] := List.drop_of_length_le (Nat.le_of_eq hl)
    rcases htag with rfl | rfl
    · exact ⟨.subscribe t,by
        simp [ClientFrame.decode,ht,hend,ensureEmpty,Bind.bind,Except.bind]⟩
    · exact ⟨.unsubscribe t,by
        simp [ClientFrame.decode,Tag.unsubscribe,Tag.subscribe,ht,hend,ensureEmpty,Bind.bind,
          Except.bind]⟩
  · rcases htag with rfl | rfl
    · exact ⟨.announce t (body.drop 32),by
        simp [ClientFrame.decode,Tag.announce,Tag.unsubscribe,Tag.subscribe,ht,Bind.bind,
          Except.bind,Pure.pure,Except.pure]⟩
    · exact ⟨.publish t (body.drop 32),by
        simp [ClientFrame.decode,Tag.publish,Tag.announce,Tag.unsubscribe,Tag.subscribe,ht,
          Bind.bind,Except.bind,Pure.pure,Except.pure]⟩
  · have hrest : 32 ≤ (body.drop 32).length := by
      rw [List.length_drop]
      omega
    have htake : WireFormat.takeId (body.drop 32) = .ok (id,(body.drop 32).drop 32) := by
      simp only [WireFormat.takeId,if_pos hrest,hid]
    exact ⟨.publishTo t id ((body.drop 32).drop 32),by
      simp [ClientFrame.decode,Tag.publishTo,Tag.publish,Tag.announce,Tag.unsubscribe,
        Tag.subscribe,ht,htake,Bind.bind,Except.bind,Pure.pure,Except.pure]⟩

theorem clientDecode_eq_ok {tag : UInt8} {body : Bytes} {f : ClientFrame Id} :
    clientDecode tag body = .ok f ↔ ClientFrame.decode tag body = .ok f := by
  rw [clientDecode_answered]
  exact answered_eq_ok

theorem clientDecode_accepted_iff (tag : UInt8) (body : Bytes) :
    (∃ f : ClientFrame Id, clientDecode tag body = .ok f) ↔ Accepted Id tag body := by
  constructor
  · rintro ⟨f,h⟩
    exact accepted_of_decode (clientDecode_eq_ok.mp h)
  · intro h
    obtain ⟨f,hf⟩ := decode_of_accepted h
    exact ⟨f,clientDecode_eq_ok.mpr hf⟩

/-- An encoded frame that fits is read off its stream, and decoded back. -/
theorem client_frame_read (f : ClientFrame Id) (r : Reads) (hlen : f.encode.length ≤ 4+maxFrameLen)
    (hr : r.bytes = f.encode) : ∃ tag body r', readFrame r = .ok (some (tag,body),r') ∧
      r'.bytes = [] ∧ clientDecode tag body = .ok f := by
  rw [clientFrame_header,List.length_append] at hlen
  have hhead : (frameHeader (clientTag f) (clientBody f).length).length = 5 := rfl
  have hbody : 1+(clientBody f).length ≤ maxFrameLen := by omega
  have hmax := maxFrameLen_eq
  rw [clientFrame_encode f (by omega),← List.append_nil (rawFrame _ _)] at hr
  obtain ⟨r',hread,hrest,-⟩ := readFrame_rawFrame r _ _ [] hbody hr
  exact ⟨_,_,r',hread,hrest,clientDecode_eq_ok.mpr (clientFrame_decode f)⟩

/-- What may be published fits a frame, and so does its DELIVER. -/
theorem publishable_fits {f : ClientFrame Id} (hf : Publishable f) :
    f.encode.length ≤ 4+maxFrameLen ∧
      (Deliver.new f.topic.bytes (lanePayload f)).len ≤ 4+maxFrameLen := by
  have hbody := hf.body_length
  have hpayload := hf.2
  have hmax := maxFrameLen_eq
  have hpub : maxPublishLen = 1048576 := rfl
  have hhead : (frameHeader (clientTag f) (clientBody f).length).length = 5 := rfl
  constructor
  · rw [clientFrame_header,List.length_append,hhead]
    omega
  · have hlen : (Deliver.new f.topic.bytes (lanePayload f)).len = 5+32+(lanePayload f).length := by
      rw [← f.topic.length_eq]
      rfl
    omega

/-- An encoded frame that fits is read and decoded back whatever the splitting; a
decoded frame encodes to the header and the body it came from, so two inputs never
give one frame; the decoder takes exactly the accepted bodies and answers on all
others; and what may be published, and its DELIVER, fits a frame. -/
theorem client_codec_exact :
    (∀ (f : ClientFrame Id) (r : Reads), f.encode.length ≤ 4+maxFrameLen → r.bytes = f.encode →
      ∃ tag body r', readFrame r = .ok (some (tag,body),r') ∧ r'.bytes = [] ∧
        clientDecode tag body = .ok f) ∧
    (∀ (tag : UInt8) (body : Bytes) (f : ClientFrame Id), clientDecode tag body = .ok f →
      f.encode = frameHeader tag body.length++body) ∧
    (∀ (tag tag' : UInt8) (body body' : Bytes) (f : ClientFrame Id),
      clientDecode tag body = .ok f → clientDecode tag' body' = .ok f → tag = tag' ∧ body = body') ∧
    (∀ (tag : UInt8) (body : Bytes),
      (∃ f : ClientFrame Id, clientDecode tag body = .ok f) ↔ Accepted Id tag body) ∧
    (∀ (tag : UInt8) (body : Bytes), ¬Accepted Id tag body →
      ∃ text, (clientDecode tag body : Except Fault (ClientFrame Id)) = .error (.failed text)) ∧
    (∀ f : ClientFrame Id, Publishable f → f.encode.length ≤ 4+maxFrameLen ∧
      (Deliver.new f.topic.bytes (lanePayload f)).len ≤ 4+maxFrameLen) := by
  refine ⟨client_frame_read,?_,?_,clientDecode_accepted_iff,?_,fun _ => publishable_fits⟩
  · intro tag body f h
    obtain ⟨rfl,rfl⟩ := clientFrame_of_decode (clientDecode_eq_ok.mp h)
    exact clientFrame_header f
  · intro tag tag' body body' f h h'
    obtain ⟨htag,hbody⟩ := clientFrame_of_decode (clientDecode_eq_ok.mp h)
    obtain ⟨htag',hbody'⟩ := clientFrame_of_decode (clientDecode_eq_ok.mp h')
    exact ⟨htag.symm.trans htag',hbody.symm.trans hbody'⟩
  · intro tag body hnot
    rw [← clientDecode_accepted_iff,clientDecode_answered] at hnot
    rw [clientDecode_answered]
    rcases answered_cases (ClientFrame.decode tag body : Except String (ClientFrame Id)) with
      herr | hok
    · exact herr
    · exact absurd hok hnot

/-- A PUBLISH_TO of the base point's holder. -/
theorem client_codec_exact_publish_to :
    (∃ tag body r', readFrame (Reads.whole
        (ClientFrame.publishTo (Topic.zero) RawId.base [104,105]).encode) =
      .ok (some (tag,body),r') ∧ r'.bytes = [] ∧
        clientDecode tag body = .ok (ClientFrame.publishTo Topic.zero RawId.base [104,105])) ∧
    (∃ text, (clientDecode Tag.publishTo (List.replicate 63 1) :
      Except Fault (ClientFrame RawId)) = .error (.failed text)) := by
  obtain ⟨hread,-,-,-,hothers,-⟩ := @client_codec_exact RawId _
  refine ⟨hread _ _ (by decide +kernel) (Reads.whole_bytes _),hothers _ _ ?_⟩
  rintro (⟨h | h,-⟩ | ⟨h | h,-⟩ | ⟨-,h,-⟩)
  · cases h
  · cases h
  · cases h
  · cases h
  · simp at h

/-! ### Server frames -/

/-- The body a decoded frame is encoded with: reserved flag bits of a SNAPSHOT are
cleared, and what is not UTF-8 in an ERROR is replaced. -/
def normalBody (tag : UInt8) (body : Bytes) : Bytes :=
  if tag = Tag.snapshot then body.modify 32 (· &&& snapshotMore)
  else if tag = Tag.error then body.take 32++utf8 (fromUtf8Lossy (body.drop 32))
  else body

theorem flag_cleared (flags : UInt8) :
    (if flags &&& snapshotMore != 0 then snapshotMore else 0) = flags &&& snapshotMore := by
  have htable : ∀ n : Fin 256, (if UInt8.ofNat n &&& snapshotMore != 0 then snapshotMore else 0) =
      UInt8.ofNat n &&& snapshotMore := by decide +kernel
  simpa using htable ⟨flags.toNat,flags.toNat_lt⟩

theorem flag_kept {flags : UInt8} (h : flags ≤ snapshotMore) : flags &&& snapshotMore = flags := by
  have htable : ∀ n : Fin 256, UInt8.ofNat n ≤ snapshotMore →
      UInt8.ofNat n &&& snapshotMore = UInt8.ofNat n := by decide +kernel
  simpa using htable ⟨flags.toNat,flags.toNat_lt⟩ (by simpa using h)

/-- Nothing is lost of a SNAPSHOT without reserved bits and of an ERROR in UTF-8. -/
theorem normalBody_eq {tag : UInt8} {body : Bytes}
    (hflags : tag = Tag.snapshot → body.getD 32 0 ≤ snapshotMore)
    (htext : tag = Tag.error → ∃ text, body.drop 32 = utf8 text) : normalBody tag body = body := by
  unfold normalBody
  split_ifs with hs he
  · apply List.ext_getElem?
    intro i
    rw [List.getElem?_modify]
    by_cases hi : 32 = i
    · subst hi
      cases hb : body[32]? with
      | none => simp
      | some flags =>
          have h := hflags hs
          rw [List.getD_eq_getElem?_getD,hb,Option.getD_some] at h
          simp [flag_kept h]
    · simp [hi]
  · obtain ⟨text,ht⟩ := htext he
    rw [ht,fromUtf8Lossy_utf8,← ht,List.take_append_drop]
  · rfl

/-- A SNAPSHOT body: topic, flags, count and that many entries, and nothing after. -/
def snapshotBody (topic : Topic) (flags : UInt8) (members : List (Member Id)) : Bytes :=
  topic.bytes++flags::(putU16 members.length++members.flatMap encodeEntry)

theorem snapshotBody_flags (topic : Topic) (flags : UInt8) (members : List (Member Id))
    (g : UInt8 → UInt8) :
    (snapshotBody topic flags members).modify 32 g = snapshotBody topic (g flags) members := by
  unfold snapshotBody
  rw [List.modify_eq_take_drop,List.take_left' topic.length_eq,List.drop_left' topic.length_eq]
  rfl

/-- The decoder of a SNAPSHOT took a SNAPSHOT body. -/
theorem snapshot_of_decode {body : Bytes} {f : ServerFrame Id}
    (h : ServerFrame.decode Tag.snapshot body = .ok f) :
    ∃ topic flags members, f = .snapshot topic (flags &&& snapshotMore != 0) members ∧
      members.length < 65536 ∧ (∀ m ∈ members, m.blob.length < 4294967296) ∧
      body = snapshotBody topic flags members := by
  unfold ServerFrame.decode at h
  rw [if_pos rfl] at h
  obtain ⟨⟨topic,rest⟩,htopic,h⟩ := bind_eq_ok h
  simp only at h
  split at h
  · next flags c₁ c₀ rest =>
    obtain ⟨⟨members,tail⟩,hentries,h⟩ := bind_eq_ok h
    obtain ⟨rfl,rfl⟩ := ensureEmpty_ok h
    obtain ⟨hcount,hbody,hblobs⟩ := takeEntries_ok hentries
    refine ⟨topic,flags,members,rfl,?_,hblobs,?_⟩
    · have hlt := beValue_putU16 (beValue [c₁,c₀])
      rw [putU16_beValue] at hlt
      omega
    · rw [takeTopic_ok htopic,snapshotBody,hcount,putU16_beValue,hbody,List.append_nil]
      rfl
  · cases h

theorem decode_snapshotBody (topic : Topic) (flags : UInt8) (members : List (Member Id))
    (hcount : members.length < 65536) (hblobs : ∀ m ∈ members, m.blob.length < 4294967296) :
    ServerFrame.decode Tag.snapshot (snapshotBody topic flags members) =
      .ok (.snapshot topic (flags &&& snapshotMore != 0) members) := by
  have hentries := takeEntries_append members [] hblobs
  have hword : beValue (putU16 members.length) = members.length := by
    rw [beValue_putU16]
    exact Nat.mod_eq_of_lt hcount
  rw [List.append_nil] at hentries
  simp only [putU16] at hword
  simp [ServerFrame.decode,snapshotBody,putU16,hword,hentries,ensureEmpty,Bind.bind,Except.bind]

/-- A SNAPSHOT that was decoded encodes to its body, the reserved flags cleared. -/
theorem snapshotFrame_of_decode {body : Bytes} {f : ServerFrame Id}
    (h : ServerFrame.decode Tag.snapshot body = .ok f) :
    f.encode.getD 4 0 = Tag.snapshot ∧ f.encode.drop 5 = normalBody Tag.snapshot body := by
  obtain ⟨topic,flags,members,rfl,hcount,hblobs,rfl⟩ := snapshot_of_decode h
  refine ⟨rfl,?_⟩
  rw [normalBody,if_pos rfl,snapshotBody_flags]
  simp only [ServerFrame.encode]
  rw [Nat.min_eq_left (by omega),List.take_length]
  have hbody : (encodeSnapshotChunk topic (flags &&& snapshotMore != 0) members).drop 5 =
      snapshotBody topic (if flags &&& snapshotMore != 0 then snapshotMore else 0) members := by
    change topic.bytes++[_]++_++_ = _
    rw [snapshotBody,List.append_assoc,List.append_assoc]
    rfl
  rw [hbody,flag_cleared]

theorem serverFrame_of_decode {tag : UInt8} {body : Bytes} {f : ServerFrame Id}
    (h : ServerFrame.decode tag body = .ok f) :
    f.encode.getD 4 0 = tag ∧ f.encode.drop 5 = normalBody tag body := by
  by_cases hs : tag = Tag.snapshot
  · subst hs
    exact snapshotFrame_of_decode h
  · have hnormal : tag ≠ Tag.error → normalBody tag body = body := by
      intro he
      rw [normalBody,if_neg hs,if_neg he]
    unfold ServerFrame.decode at h
    rw [if_neg hs] at h
    split_ifs at h with hj hl hp hd he
    · obtain ⟨⟨t,rest⟩,htopic,h⟩ := bind_eq_ok h
      obtain ⟨⟨id,rest⟩,hid,h⟩ := bind_eq_ok h
      obtain ⟨rfl,rfl⟩ := ensureEmpty_ok h
      subst hj
      refine ⟨rfl,?_⟩
      rw [hnormal (by decide),takeTopic_ok htopic,takeId_ok hid,List.append_nil]
      rfl
    · obtain ⟨⟨t,rest⟩,htopic,h⟩ := bind_eq_ok h
      obtain ⟨⟨id,rest⟩,hid,h⟩ := bind_eq_ok h
      obtain ⟨rfl,rfl⟩ := ensureEmpty_ok h
      subst hl
      refine ⟨rfl,?_⟩
      rw [hnormal (by decide),takeTopic_ok htopic,takeId_ok hid,List.append_nil]
      rfl
    · obtain ⟨⟨t,rest⟩,htopic,h⟩ := bind_eq_ok h
      obtain ⟨⟨id,blob⟩,hid,h⟩ := bind_eq_ok h
      cases h
      subst hp
      refine ⟨rfl,?_⟩
      rw [hnormal (by decide),takeTopic_ok htopic,takeId_ok hid,← List.append_assoc]
      rfl
    · obtain ⟨⟨t,payload⟩,htopic,h⟩ := bind_eq_ok h
      cases h
      subst hd
      refine ⟨rfl,?_⟩
      rw [hnormal (by decide),takeTopic_ok htopic]
      rfl
    · obtain ⟨⟨t,reason⟩,htopic,h⟩ := bind_eq_ok h
      cases h
      subst he
      have htopicBack : (if t.isZero then none else some t).getD Topic.zero = t := by
        split_ifs with hz
        · exact (of_decide_eq_true hz).symm
        · rfl
      refine ⟨rfl,?_⟩
      rw [normalBody,if_neg hs,if_pos rfl,takeTopic_ok htopic,List.take_left' t.length_eq,
        List.drop_left' t.length_eq]
      simp only [ServerFrame.encode,htopicBack]
      rfl

/-- A frame whose counts fit encodes to its length, its tag and its body, and
decodes back, up to an ERROR about the all-zero topic; on every input the decoder
answers, with an error or with a frame that encodes to the same tag and body up
to what is lost on purpose; and the SNAPSHOT bodies it takes are exactly those
that are complete and have nothing after. -/
theorem server_codec_exact :
    (∀ f : ServerFrame Id, CanEncode f → ∃ body,
      f.encode = putU32 (1+body.length)++serverTag f::body ∧
      beValue (f.encode.take 4) = 1+body.length ∧
      serverDecode (serverTag f) body = .ok (onWire f)) ∧
    (∀ (tag : UInt8) (body : Bytes),
      (∃ text, (serverDecode tag body : Except Fault (ServerFrame Id)) = .error (.failed text)) ∨
      ∃ f : ServerFrame Id, serverDecode tag body = .ok f ∧ f.encode.getD 4 0 = tag ∧
        f.encode.drop 5 = normalBody tag body) ∧
    (∀ (tag : UInt8) (body : Bytes), (tag = Tag.snapshot → body.getD 32 0 ≤ snapshotMore) →
      (tag = Tag.error → ∃ text, body.drop 32 = utf8 text) → normalBody tag body = body) ∧
    ∀ body : Bytes, (∃ f : ServerFrame Id, serverDecode Tag.snapshot body = .ok f) ↔
      ∃ topic flags, ∃ members : List (Member Id), members.length < 65536 ∧
        (∀ m ∈ members, m.blob.length < 4294967296) ∧ body = snapshotBody topic flags members := by
  refine ⟨?_,?_,fun _ _ => normalBody_eq,?_⟩
  · intro f hf
    have hlt : 1+(serverBody f).length < 4294967296 := by
      have := hf.1
      omega
    have hencode := serverFrame_encode f hf
    refine ⟨serverBody f,hencode,?_,?_⟩
    · rw [hencode,rawFrame,List.take_left' (putU32_length _),beValue_putU32,Nat.mod_eq_of_lt hlt]
    · rw [serverDecode_answered,serverFrame_decode f hf,answered_ok]
  · intro tag body
    rw [serverDecode_answered]
    rcases answered_cases (ServerFrame.decode tag body : Except String (ServerFrame Id)) with
      herr | ⟨f,hf⟩
    · exact .inl herr
    · exact .inr ⟨f,hf,serverFrame_of_decode (answered_eq_ok.mp hf)⟩
  · intro body
    constructor
    · rintro ⟨f,hf⟩
      rw [serverDecode_answered] at hf
      obtain ⟨topic,flags,members,-,hrest⟩ := snapshot_of_decode (answered_eq_ok.mp hf)
      exact ⟨topic,flags,members,hrest⟩
    · rintro ⟨topic,flags,members,hcount,hblobs,rfl⟩
      refine ⟨.snapshot topic (flags &&& snapshotMore != 0) members,?_⟩
      rw [serverDecode_answered,decode_snapshotBody topic flags members hcount hblobs,answered_ok]

/-- A SNAPSHOT chunk with one member, and what its reserved bits become. -/
theorem server_codec_exact_snapshot :
    (∃ body, (ServerFrame.snapshot Topic.zero true [⟨RawId.base,[97]⟩]).encode =
        putU32 (1+body.length)++Tag.snapshot::body ∧
      serverDecode Tag.snapshot body =
        .ok (ServerFrame.snapshot Topic.zero true [⟨RawId.base,[97]⟩])) ∧
    ∃ f : ServerFrame RawId,
      serverDecode Tag.snapshot (snapshotBody Topic.zero 0xFE ([] : List (Member RawId))) = .ok f ∧
      f.encode.drop 5 = snapshotBody Topic.zero 0 ([] : List (Member RawId)) := by
  obtain ⟨hforward,hback,-,haccept⟩ := @server_codec_exact RawId _
  constructor
  · obtain ⟨body,hencode,-,hdecode⟩ := hforward (.snapshot Topic.zero true [⟨RawId.base,[97]⟩])
      ⟨by decide +kernel,by decide⟩
    exact ⟨body,hencode,hdecode⟩
  · obtain ⟨f,hf⟩ := (haccept _).mpr
      ⟨Topic.zero,0xFE,([] : List (Member RawId)),by decide,nofun,rfl⟩
    rcases hback Tag.snapshot (snapshotBody Topic.zero 0xFE ([] : List (Member RawId))) with
      ⟨text,herr⟩ | ⟨g,hg,-,hbody⟩
    · rw [hf] at herr
      cases herr
    · exact ⟨g,hg,hbody.trans (by decide +kernel)⟩

end KeepTalkingSfu.CodecExact
