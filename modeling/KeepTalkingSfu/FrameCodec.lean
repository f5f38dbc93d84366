import KeepTalkingSfu.WireFormat
import Mathlib.Algebra.Order.BigOperators.Group.List

/-!
# Decoding an encoded frame

A frame is a tag and a body; these are named here so that the encoder, the
frame reader and the decoders can be composed. Every server frame decodes to
itself, except that an ERROR about the all-zero topic is an ERROR about no
topic, and every client frame decodes to itself.
-/
namespace KeepTalkingSfu.FrameCodec
open ByteTransport Utf8Text WireFormat EndpointKey

variable {Id : Type} [EndpointKey Id]

/-! ### Fields -/

@[simp] theorem takeTopic_append (t : Topic) (rest : Bytes) :
    takeTopic (t.bytes++rest) = .ok (t,rest) := by
  have h : 32 ≤ (t.bytes++rest).length := by simp [t.length_eq]
  have ht : (t.bytes++rest).take 32 = t.bytes := List.take_left' t.length_eq
  have hd : (t.bytes++rest).drop 32 = rest := List.drop_left' t.length_eq
  obtain ⟨bytes,hl⟩ := t
  simp only [takeTopic,dif_pos h,ht,hd]

@[simp] theorem takeTopic_bytes (t : Topic) : takeTopic t.bytes = .ok (t,[]) := by
  simpa using takeTopic_append t []

@[simp] theorem takeId_append (id : Id) (rest : Bytes) :
    takeId (asBytes id++rest) = .ok (id,rest) := by
  have h : 32 ≤ (asBytes id++rest).length := by simp
  have ht : (asBytes id++rest).take 32 = asBytes id := List.take_left' (asBytes_length id)
  have hd : (asBytes id++rest).drop 32 = rest := List.drop_left' (asBytes_length id)
  simp only [takeId,if_pos h,ht,hd,fromBytes_asBytes]

@[simp] theorem takeId_bytes (id : Id) : takeId (asBytes id) = .ok (id,[]) := by
  simpa using takeId_append id []

@[simp] theorem encodeEntry_length (m : Member Id) :
    (encodeEntry m).length = snapshotEntryLen m := by
  simp only [encodeEntry,snapshotEntryLen,List.length_append,asBytes_length,putU32_length]

theorem flatMap_encodeEntry_length (ms : List (Member Id)) :
    (ms.flatMap encodeEntry).length = (ms.map snapshotEntryLen).sum := by
  simp only [List.length_flatMap,encodeEntry_length]

/-- A blob whose length fits its 32-bit field is read back whole. -/
theorem takeEntries_append (ms : List (Member Id)) (rest : Bytes)
    (h : ∀ m ∈ ms, m.blob.length < 4294967296) :
    takeEntries ms.length (ms.flatMap encodeEntry++rest) = .ok (ms,rest) := by
  induction ms with
  | nil => rfl
  | cons m ms ih =>
      have hm := h m List.mem_cons_self
      have hlen : beValue (putU32 m.blob.length) = m.blob.length := by
        rw [beValue_putU32,Nat.mod_eq_of_lt hm]
      have htail := ih (fun k hk => h k (List.mem_cons_of_mem _ hk))
      have hsplit : (m::ms).flatMap encodeEntry++rest =
          asBytes m.id++(putU32 m.blob.length++(m.blob++(ms.flatMap encodeEntry++rest))) := by
        simp [encodeEntry]
      have h4 : (putU32 m.blob.length++(m.blob++(ms.flatMap encodeEntry++rest))).take 4 =
          putU32 m.blob.length := List.take_left' (putU32_length _)
      have hd4 : (putU32 m.blob.length++(m.blob++(ms.flatMap encodeEntry++rest))).drop 4 =
          m.blob++(ms.flatMap encodeEntry++rest) := List.drop_left' (putU32_length _)
      rw [hsplit,List.length_cons,takeEntries]
      simp [h4,hd4,hlen,htail,Bind.bind,Except.bind,Pure.pure,Except.pure]

/-! ### Whole frames -/

/-- Wraps a body whose length fits the prefix. -/
def rawFrame (tag : UInt8) (body : Bytes) : Bytes := putU32 (1+body.length)++tag::body

theorem encode_eq_rawFrame (tag : UInt8) (n : ℕ) (body : Bytes) (hn : body.length = n)
    (h : n < 4294967295) : encode tag n body = rawFrame tag body := by
  subst hn
  simp [encode,frameHeader,rawFrame,Nat.mod_eq_of_lt (by omega : body.length < 4294967296)]

@[simp] theorem encode_length (tag : UInt8) (n : ℕ) (body : Bytes) :
    (encode tag n body).length = 5+body.length := by
  simp only [encode,frameHeader,List.length_append,putU32_length,List.length_singleton]

@[simp] theorem rawFrame_length (tag : UInt8) (body : Bytes) :
    (rawFrame tag body).length = 5+body.length := by
  simp only [rawFrame,List.length_append,putU32_length,List.length_cons]
  omega

/-- The tag a server frame is sent under. -/
def serverTag : ServerFrame Id → UInt8
  | .snapshot _ _ _ => Tag.snapshot
  | .joined _ _ => Tag.joined
  | .left _ _ => Tag.left
  | .presence _ _ _ => Tag.presence
  | .deliver _ _ => Tag.deliver
  | .error _ _ => Tag.error

def serverBody : ServerFrame Id → Bytes
  | .snapshot topic more members =>
      topic.bytes++[if more then snapshotMore else 0]++putU16 members.length++
        members.flatMap encodeEntry
  | .joined topic id | .left topic id => topic.bytes++asBytes id
  | .presence topic id blob => topic.bytes++asBytes id++blob
  | .deliver topic payload => topic.bytes++payload
  | .error topic reason => (topic.getD Topic.zero).bytes++utf8 reason

/-- What the wire can tell apart: an ERROR about the all-zero topic is about
no topic. -/
def onWire : ServerFrame Id → ServerFrame Id
  | .error topic reason => .error (if topic = some Topic.zero then none else topic) reason
  | f => f

/-- The counts of a frame fit their fields. -/
def CanEncode (f : ServerFrame Id) : Prop :=
  (serverBody f).length < 4294967295 ∧
    match f with
    | .snapshot _ _ members => members.length ≤ 65535
    | _ => True

theorem serverFrame_encode (f : ServerFrame Id) (h : CanEncode f) :
    f.encode = rawFrame (serverTag f) (serverBody f) := by
  obtain ⟨hb,hc⟩ := h
  cases f with
  | snapshot topic more members =>
      have hlen : (serverBody (.snapshot topic more members)).length =
          snapshotHeadLen+(members.map snapshotEntryLen).sum := by
        simp only [serverBody,List.length_append,topic.length_eq,List.length_singleton,
          putU16_length,flatMap_encodeEntry_length,snapshotHeadLen]
      simp only [ServerFrame.encode,Nat.min_eq_left hc,List.take_length]
      exact encode_eq_rawFrame _ _ _ hlen (hlen ▸ hb)
  | joined topic id | left topic id =>
      exact encode_eq_rawFrame _ _ _ (by simp [topic.length_eq]) (by decide)
  | presence topic id blob =>
      have hlen : (topic.bytes++asBytes id++blob).length = 64+blob.length := by
        simp [topic.length_eq]
        omega
      exact encode_eq_rawFrame _ _ _ hlen (hlen ▸ hb)
  | deliver topic payload =>
      have hlen : (topic.bytes++payload).length = 32+payload.length := by simp [topic.length_eq]
      exact encode_eq_rawFrame _ _ _ hlen (hlen ▸ hb)
  | error topic reason =>
      have hlen : ((topic.getD Topic.zero).bytes++utf8 reason).length =
          32+(utf8 reason).length := by simp [Topic.length_eq]
      exact encode_eq_rawFrame _ _ _ hlen (hlen ▸ hb)

/-- A blob is shorter than the body it is in. -/
theorem blob_length_le (ms : List (Member Id)) (m : Member Id) (hm : m ∈ ms) :
    m.blob.length ≤ (ms.flatMap encodeEntry).length := by
  rw [flatMap_encodeEntry_length]
  have h := List.single_le_sum (by simp) _ (List.mem_map_of_mem (f := snapshotEntryLen) hm)
  simp only [snapshotEntryLen] at h ⊢
  omega

/-- Only a SNAPSHOT has counts that its decoder depends on. -/
theorem serverFrame_decode_fixed (f : ServerFrame Id)
    (hf : ∀ topic more members, f ≠ .snapshot topic more members) :
    ServerFrame.decode (serverTag f) (serverBody f) = .ok (onWire f) := by
  cases f with
  | snapshot topic more members => exact absurd rfl (hf topic more members)
  | joined topic id =>
      simp [ServerFrame.decode,serverTag,serverBody,onWire,Tag.joined,Tag.snapshot,
        ensureEmpty,Bind.bind,Except.bind]
  | left topic id =>
      simp [ServerFrame.decode,serverTag,serverBody,onWire,Tag.left,Tag.joined,Tag.snapshot,
        ensureEmpty,Bind.bind,Except.bind]
  | presence topic id blob =>
      simp [ServerFrame.decode,serverTag,serverBody,onWire,Tag.presence,Tag.left,Tag.joined,
        Tag.snapshot,Bind.bind,Except.bind,Pure.pure,Except.pure]
  | deliver topic payload =>
      simp [ServerFrame.decode,serverTag,serverBody,onWire,Tag.deliver,Tag.presence,Tag.left,
        Tag.joined,Tag.snapshot,Bind.bind,Except.bind,Pure.pure,Except.pure]
  | error topic reason =>
      have htopic : (if (topic.getD Topic.zero).isZero then none else some (topic.getD Topic.zero))
          = if topic = some Topic.zero then none else topic := by
        cases topic with
        | none => simp [Topic.isZero]
        | some t => by_cases ht : t = Topic.zero <;> simp [Topic.isZero,ht]
      simp [ServerFrame.decode,serverTag,serverBody,onWire,Tag.error,Tag.deliver,Tag.presence,
        Tag.left,Tag.joined,Tag.snapshot,Bind.bind,Except.bind,Pure.pure,Except.pure,
        htopic,fromUtf8Lossy_utf8]

theorem serverFrame_decode (f : ServerFrame Id) (h : CanEncode f) :
    ServerFrame.decode (serverTag f) (serverBody f) = .ok (onWire f) := by
  obtain ⟨hb,hc⟩ := h
  cases f with
  | snapshot topic more members =>
      have hentries := takeEntries_append members [] (by
        intro m hm
        have := blob_length_le members m hm
        simp only [serverBody,List.length_append] at hb
        omega)
      have hcount : beValue (putU16 members.length) = members.length := by
        rw [beValue_putU16]
        exact Nat.mod_eq_of_lt (by simp only at hc; omega)
      have hflag : ((if more then snapshotMore else 0) &&& snapshotMore != 0) = more := by
        cases more <;> decide
      simp only [List.append_nil] at hentries
      simp only [putU16] at hcount
      simp [ServerFrame.decode,serverTag,serverBody,onWire,putU16,hcount,hentries,hflag,
        ensureEmpty,Bind.bind,Except.bind]
  | _ => exact serverFrame_decode_fixed _ (by rintro _ _ _ ⟨⟩)

/-! ### Client frames -/

def clientTag : ClientFrame Id → UInt8
  | .subscribe _ => Tag.subscribe
  | .unsubscribe _ => Tag.unsubscribe
  | .announce _ _ => Tag.announce
  | .publish _ _ => Tag.publish
  | .publishTo _ _ _ => Tag.publishTo

def clientBody : ClientFrame Id → Bytes
  | .subscribe topic | .unsubscribe topic => topic.bytes
  | .announce topic blob => topic.bytes++blob
  | .publish topic payload => topic.bytes++payload
  | .publishTo topic recipient payload => topic.bytes++asBytes recipient++payload

theorem clientFrame_encode (f : ClientFrame Id) (h : (clientBody f).length < 4294967295) :
    f.encode = rawFrame (clientTag f) (clientBody f) := by
  cases f with
  | subscribe topic | unsubscribe topic =>
      exact encode_eq_rawFrame _ _ _ topic.length_eq (by decide)
  | announce topic rest | publish topic rest =>
      have hlen : (topic.bytes++rest).length = 32+rest.length := by simp [topic.length_eq]
      exact encode_eq_rawFrame _ _ _ hlen (hlen ▸ h)
  | publishTo topic recipient payload =>
      have hlen : (topic.bytes++asBytes recipient++payload).length = 64+payload.length := by
        simp [topic.length_eq]
        omega
      exact encode_eq_rawFrame _ _ _ hlen (hlen ▸ h)

theorem clientFrame_decode (f : ClientFrame Id) :
    ClientFrame.decode (clientTag f) (clientBody f) = .ok f := by
  cases f <;>
    simp [ClientFrame.decode,clientTag,clientBody,Tag.subscribe,Tag.unsubscribe,Tag.announce,
      Tag.publish,Tag.publishTo,ensureEmpty,Bind.bind,Except.bind,Pure.pure,Except.pure]

end KeepTalkingSfu.FrameCodec
