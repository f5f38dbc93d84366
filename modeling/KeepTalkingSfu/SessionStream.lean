import KeepTalkingSfu.FrameReader
import KeepTalkingSfu.StreamWriters
import Mathlib.Data.List.AList

/-!
# The session stream from the server's queue to the client's inbox

The client reads session frames until its stream ends, skips what it cannot
decode and merges the chunks of a snapshot by topic. The server cuts every
snapshot into chunks and sends them back to back, so between two items of the
queue the client holds no partial snapshot, and it hands out one frame per
item whatever the chunk limits, the writes and the reads were.
-/
namespace KeepTalkingSfu.SessionStream
open ByteTransport WireFormat FrameCodec SnapshotChunks StreamWriters FrameReader

variable {Id : Type} [EndpointKey Id]

/-! ### The client's reader -/

/-- The reader's state: the snapshots under way, what it has handed out and how
many frames it has skipped. -/
structure Pump (Id : Type) where
  pending : AList fun _ : Topic => List (Member Id)
  handed : List (ServerFrame Id)
  skipped : ℕ

def Pump.start : Pump Id := ⟨∅,[],0⟩

def Pump.skip (p : Pump Id) : Pump Id := { p with skipped := p.skipped+1 }

/-- What one raw frame does to the merge state, and the frame to hand out. -/
def Pump.merge (p : Pump Id) (tag : UInt8) (body : Bytes) : Pump Id × Option (ServerFrame Id) :=
  match ServerFrame.decode tag body with
  | .ok (.snapshot topic more members) =>
      let merged := (p.pending.lookup topic).getD []++members
      if 2*maxMembersPerTopic < merged.length then
        ({ p with pending := p.pending.erase topic }.skip,none)
      else if more then ({ p with pending := p.pending.insert topic merged },none)
      else ({ p with pending := p.pending.erase topic },some (.snapshot topic false merged))
  | .ok (.deliver _ _) => (p.skip,none)
  | .ok frame => (p,some frame)
  | .error _ => (p.skip,none)

/-- Hands a frame out. `alive n` says whether the receiver still takes the
`n`-th one; the second component whether the loop goes on. -/
def Pump.handOut (alive : ℕ → Bool) : Pump Id × Option (ServerFrame Id) → Pump Id × Bool
  | (p,none) => (p,true)
  | (p,some frame) =>
      if alive p.handed.length then ({ p with handed := p.handed++[frame] },true)
      else (p,false)

def pumpFrames (alive : ℕ → Bool) (r : Reads) (p : Pump Id) : Pump Id :=
  match _h : readFrame r with
  | .ok (some (tag,body),r') =>
      let next := Pump.handOut alive (p.merge tag body)
      if next.2 then pumpFrames alive r' next.1 else next.1
  | _ => p
termination_by r.bytes.length
decreasing_by exact readFrame_shrinks _h

omit [EndpointKey Id] in
theorem handOut_alive (next : Pump Id × Option (ServerFrame Id)) :
    Pump.handOut (fun _ => true) next =
      ({ next.1 with handed := next.1.handed++next.2.toList },true) := by
  obtain ⟨p,frame⟩ := next
  cases frame <;> simp [Pump.handOut]

/-- A complete frame on the stream is merged and the loop goes on behind it. -/
theorem pumpFrames_rawFrame (r : Reads) (p : Pump Id) (tag : UInt8) (body rest : Bytes)
    (hlen : 1+body.length ≤ maxFrameLen) (hr : r.bytes = rawFrame tag body++rest) :
    ∃ r', r'.bytes = rest ∧ r'.failure = r.failure ∧
      pumpFrames (fun _ => true) r p = pumpFrames (fun _ => true) r'
        { (p.merge tag body).1 with
          handed := (p.merge tag body).1.handed++(p.merge tag body).2.toList } := by
  obtain ⟨r',hread,hrest,hf⟩ := readFrame_rawFrame r tag body rest hlen hr
  refine ⟨r',hrest,hf,?_⟩
  rw [pumpFrames]
  split
  · rename_i tag' body' r'' h
    rw [hread] at h
    cases h
    simp only [handOut_alive,if_true]
  · rename_i h
    exact (h _ _ _ hread).elim

theorem pumpFrames_end (r : Reads) (p : Pump Id) (hb : r.bytes = []) (hf : r.failure = none) :
    pumpFrames (fun _ => true) r p = p := by
  obtain ⟨r',hread,-⟩ := readFrame_end r hb hf
  rw [pumpFrames]
  split
  · rename_i h
    rw [hread] at h
    cases h
  · rfl

/-! ### What the server queues -/

/-- A session item as its sender means it: a frame about a room, or a whole
snapshot. -/
inductive Sent (Id : Type) where
  | event (frame : ServerFrame Id)
  | room (topic : Topic) (members : List (Member Id))

/-- The queued form. -/
def Sent.item : Sent Id → SessionItem Id
  | .event frame => .frame frame.encode
  | .room topic members => .snapshot topic members

/-- What the client should be shown. -/
def Sent.shown : Sent Id → ServerFrame Id
  | .event frame => onWire frame
  | .room topic members => .snapshot topic false members

/-- Frames that go out whole, within the frame limit; rooms and blobs within
theirs. -/
def Sent.Fits : Sent Id → Prop
  | .event (.snapshot _ _ _) | .event (.deliver _ _) => False
  | .event frame => frame.encode.length ≤ 4+maxFrameLen
  | .room _ members =>
      members.length ≤ maxMembersPerTopic ∧ ∀ m ∈ members, m.blob.length ≤ maxAnnounceLen

instance (s : Sent Id) : Decidable s.Fits :=
  match s with
  | .event (.snapshot _ _ _) | .event (.deliver _ _) => inferInstanceAs (Decidable False)
  | .event (.joined _ _) | .event (.left _ _) | .event (.presence _ _ _) | .event (.error _ _) =>
      inferInstanceAs (Decidable (_ ≤ _))
  | .room _ _ => inferInstanceAs (Decidable (_ ∧ _))

/-! ### Events -/

theorem merge_event (p : Pump Id) (frame : ServerFrame Id) (h : (Sent.event frame).Fits)
    (he : CanEncode frame) :
    p.merge (serverTag frame) (serverBody frame) = (p,some (onWire frame)) := by
  unfold Pump.merge
  rw [serverFrame_decode frame he]
  cases frame <;> first | exact h.elim | rfl

theorem event_encodable (frame : ServerFrame Id) (h : (Sent.event frame).Fits) :
    CanEncode frame ∧ 1+(serverBody frame).length ≤ maxFrameLen := by
  have hmax := maxFrameLen_eq
  cases frame with
  | snapshot topic more members => exact h.elim
  | deliver topic payload => exact h.elim
  | joined topic id | left topic id =>
      have hb : (topic.bytes++EndpointKey.asBytes id).length = 64 := by simp [topic.length_eq]
      refine ⟨⟨?_,trivial⟩,?_⟩ <;> simp only [serverBody] <;> omega
  | presence topic id blob =>
      have hb : (topic.bytes++EndpointKey.asBytes id++blob).length = 64+blob.length := by
        simp [topic.length_eq]
        omega
      have hl : 5+(64+blob.length) ≤ 4+maxFrameLen := by
        simpa only [Sent.Fits,ServerFrame.encode,encode_length,hb] using h
      refine ⟨⟨?_,trivial⟩,?_⟩ <;> simp only [serverBody] <;> omega
  | error topic reason =>
      have hb : ((topic.getD Topic.zero).bytes++Utf8Text.utf8 reason).length =
          32+(Utf8Text.utf8 reason).length := by simp [Topic.length_eq]
      have hl : 5+(32+(Utf8Text.utf8 reason).length) ≤ 4+maxFrameLen := by
        simpa only [Sent.Fits,ServerFrame.encode,encode_length,hb] using h
      refine ⟨⟨?_,trivial⟩,?_⟩ <;> simp only [serverBody] <;> omega

theorem pump_event (r : Reads) (p : Pump Id) (frame : ServerFrame Id) (rest : Bytes)
    (h : (Sent.event frame).Fits) (hr : r.bytes = frame.encode++rest) :
    ∃ r', r'.bytes = rest ∧ r'.failure = r.failure ∧
      pumpFrames (fun _ => true) r p =
        pumpFrames (fun _ => true) r' { p with handed := p.handed++[onWire frame] } := by
  obtain ⟨he,hlen⟩ := event_encodable frame h
  rw [serverFrame_encode frame he] at hr
  obtain ⟨r',hrest,hf,hgo⟩ := pumpFrames_rawFrame r p _ _ rest hlen hr
  refine ⟨r',hrest,hf,?_⟩
  rw [hgo,merge_event p frame h he]
  rfl

/-! ### Snapshots -/

/-- The merge state while a snapshot of `topic` is under way. -/
inductive UnderWay (topic : Topic) : List (Member Id) → AList (fun _ : Topic => List (Member Id)) → Prop
  | first : UnderWay topic [] ∅
  | later (got : List (Member Id)) : UnderWay topic got (AList.singleton topic got)

theorem merge_chunk (p : Pump Id) (topic : Topic) (got members : List (Member Id)) (more : Bool)
    (hp : UnderWay topic got p.pending) (he : CanEncode (.snapshot topic more members))
    (hlen : got.length+members.length ≤ 2*maxMembersPerTopic) :
    p.merge Tag.snapshot (serverBody (.snapshot topic more members)) =
      if more then ({ p with pending := AList.singleton topic (got++members) },none)
      else ({ p with pending := ∅ },some (.snapshot topic false (got++members))) := by
  obtain ⟨pending,handed,skipped⟩ := p
  have hdec := serverFrame_decode (.snapshot topic more members) he
  have hgot : (pending.lookup topic).getD [] = got := by
    cases hp <;> simp [AList.lookup]
  have hins : pending.insert topic (got++members) = AList.singleton topic (got++members) := by
    cases hp with
    | first => exact AList.insert_empty _ _
    | later => exact AList.insert_singleton_eq
  have her : pending.erase topic = ∅ := by
    apply AList.ext
    cases hp with
    | first => exact List.kerase_nil (a := topic)
    | later => exact List.kerase_cons_eq rfl
  have hsmall : ¬ 2*maxMembersPerTopic < (got++members).length := by
    rw [List.length_append]
    omega
  simp only [serverTag,onWire] at hdec
  simp only [Pump.merge,hdec,hgot,if_neg hsmall,hins,her]

/-- One chunk on the stream is merged, and the loop goes on behind it. -/
theorem pump_chunk (topic : Topic) (more : Bool) (got ms : List (Member Id)) (r : Reads) (p : Pump Id)
    (rest : Bytes) (hp : UnderWay topic got p.pending)
    (hlen : got.length+ms.length ≤ 2*maxMembersPerTopic) (hcount : ms.length ≤ 65535)
    (hfits : 1+(snapshotHeadLen+(ms.map snapshotEntryLen).sum) ≤ maxFrameLen)
    (hr : r.bytes = encodeSnapshotChunk topic more ms++rest) :
    ∃ r', r'.bytes = rest ∧ r'.failure = r.failure ∧
      pumpFrames (fun _ => true) r p = pumpFrames (fun _ => true) r'
        (if more then { p with pending := AList.singleton topic (got++ms) }
        else { p with pending := ∅, handed := p.handed++[.snapshot topic false (got++ms)] }) := by
  have hmax := maxFrameLen_eq
  rw [← snapshotBody_length topic more ms] at hfits
  have hcan : CanEncode (.snapshot topic more ms) := ⟨by omega,hcount⟩
  have henc : encodeSnapshotChunk topic more ms =
      rawFrame Tag.snapshot (serverBody (.snapshot topic more ms)) := by
    have h := serverFrame_encode _ hcan
    simpa only [ServerFrame.encode,Nat.min_eq_left hcount,List.take_length,serverTag] using h
  rw [henc] at hr
  obtain ⟨r',hr',hf,hgo⟩ := pumpFrames_rawFrame r p _ _ rest hfits hr
  refine ⟨r',hr',hf,?_⟩
  rw [hgo,merge_chunk p topic got ms more hp hcan hlen]
  cases more <;> simp

/-- The chunks of a snapshot, read one after the other, add up to it. -/
theorem pump_chunks (topic : Topic) (maxEntries maxBody : ℕ) (hpos : 0 < maxEntries)
    (hcount : maxEntries ≤ 65535) (hbody : maxBody < maxFrameLen)
    (members got : List (Member Id)) (r : Reads) (p : Pump Id) (rest : Bytes)
    (hp : UnderWay topic got p.pending)
    (hlen : got.length+members.length ≤ 2*maxMembersPerTopic)
    (hblob : ∀ m ∈ members, m.blob.length ≤ maxAnnounceLen)
    (hr : r.bytes = (chunkLoop topic maxEntries maxBody hpos members).flatten++rest) :
    ∃ r', r'.bytes = rest ∧ r'.failure = r.failure ∧
      pumpFrames (fun _ => true) r p = pumpFrames (fun _ => true) r'
        { p with pending := ∅, handed := p.handed++[.snapshot topic false (got++members)] } := by
  induction hn : members.length using Nat.strong_induction_on
    generalizing members got r p with
  | _ n ih =>
    generalize hk : takeChunk maxEntries maxBody 0 snapshotHeadLen members = k at *
    have hent := takeChunk_entries maxEntries maxBody 0 snapshotHeadLen members (Nat.zero_le _)
    have hfits := takeChunk_fits maxEntries maxBody members hbody hblob
    rw [hk] at hent hfits
    have hshort : (members.take k).length ≤ 65535 := (List.length_take_le _ _).trans (by omega)
    have hpart : got.length+(members.take k).length ≤ 2*maxMembersPerTopic := by
      rw [List.length_take]
      omega
    rw [chunkLoop] at hr
    simp only [hk] at hr
    split_ifs at hr with hmore
    · -- one more chunk: merge it and continue with the members left
      rw [List.flatten_cons,List.append_assoc] at hr
      obtain ⟨r₁,hr₁,hf₁,hgo⟩ := pump_chunk topic true got _ r p _ hp hpart hshort hfits hr
      have hne : members ≠ [] := by
        rintro rfl
        simp at hmore
      have hkpos := takeChunk_pos maxEntries maxBody snapshotHeadLen members hpos hne
      rw [hk] at hkpos
      obtain ⟨r₂,hr₂,hf₂,hgo₂⟩ := ih (members.drop k).length (by simp; omega) (members.drop k)
        (got++members.take k) r₁
        { p with pending := AList.singleton topic (got++members.take k) } (.later _)
        (by simp only [List.length_append,List.length_take,List.length_drop]; omega)
        (fun m hm => hblob m (List.mem_of_mem_drop hm)) hr₁ rfl
      refine ⟨r₂,hr₂,hf₂.trans hf₁,?_⟩
      rw [hgo]
      simp only [if_true,hgo₂,List.append_assoc,List.take_append_drop]
    · -- the last chunk
      have hall : members.take k = members := List.take_of_length_le (by omega)
      rw [List.flatten_singleton] at hr
      obtain ⟨r₁,hr₁,hf₁,hgo⟩ := pump_chunk topic false got _ r p _ hp hpart hshort hfits hr
      refine ⟨r₁,hr₁,hf₁,?_⟩
      rw [hgo,hall]
      rfl

/-! ### End to end -/

theorem pump_items (chunkEntries chunkBytes : ℕ) (hbody : chunkBytes < maxFrameLen)
    (items : List (Sent Id)) (hi : ∀ i ∈ items, i.Fits) (r : Reads) (handed : List (ServerFrame Id))
    (hr : r.bytes =
      (items.flatMap fun i => i.item.chunks chunkEntries chunkBytes).flatten)
    (hf : r.failure = none) :
    pumpFrames (fun _ => true) r ⟨∅,handed,0⟩ = ⟨∅,handed++items.map Sent.shown,0⟩ := by
  induction items generalizing r handed with
  | nil => simpa using pumpFrames_end r (⟨∅,handed,0⟩ : Pump Id) (by simpa using hr) hf
  | cons i items ih =>
      rw [List.flatMap_cons,List.flatten_append] at hr
      have hnext := fun r' handed' h₁ h₂ =>
        ih (fun j hj => hi j (List.mem_cons_of_mem _ hj)) r' handed' h₁ h₂
      have hfit := hi i List.mem_cons_self
      cases i with
      | event frame =>
          simp only [Sent.item,SessionItem.chunks,List.flatten_singleton] at hr
          obtain ⟨r',hr',hf',hgo⟩ := pump_event r ⟨∅,handed,0⟩ frame _ hfit hr
          rw [hgo,hnext r' _ hr' (hf'.trans hf)]
          simp [Sent.shown]
      | room topic members =>
          obtain ⟨hcount,hblob⟩ := hfit
          simp only [Sent.item,SessionItem.chunks,encodeSnapshot] at hr
          obtain ⟨r',hr',hf',hgo⟩ := pump_chunks topic _ chunkBytes _ (by omega) hbody members []
            r ⟨∅,handed,0⟩ _ .first (by simp; omega) hblob hr
          rw [hgo,hnext r' _ hr' (hf'.trans hf)]
          simp [Sent.shown]

/-- The session stream end to end: the writer drains its queue, and whatever
the chunk limits, the partial writes and the reads, the client hands out one
frame per item, in order, and skips none. -/
theorem session_stream_end_to_end {plan : ℕ → WriteOutcome} (hp : Flowing plan)
    (k chunkEntries chunkBytes : ℕ) (hbody : chunkBytes < maxFrameLen)
    (items : List (Sent Id)) (hi : ∀ i ∈ items, i.Fits) :
    (sessionWriter plan chunkEntries chunkBytes k (items.map Sent.item)).2.2 = .finished ∧
    ∀ r : Reads, r.failure = none →
      r.bytes = (sessionWriter plan chunkEntries chunkBytes k (items.map Sent.item)).1 →
      pumpFrames (fun _ => true) r Pump.start = ⟨∅,items.map Sent.shown,0⟩ := by
  obtain ⟨k',hw⟩ := sessionWriter_flowing hp chunkEntries chunkBytes k (items.map Sent.item)
  refine ⟨by rw [hw],?_⟩
  intro r hf hr
  rw [hw] at hr
  simpa [Pump.start] using pump_items chunkEntries chunkBytes hbody items hi r []
    (by simpa [List.flatMap_map] using hr) hf

def sampleItems : List (Sent RawId) :=
  [.event (.joined ⟨List.replicate 32 7,rfl⟩ RawId.base),
    .event (.error (some Topic.zero) "malformed"),
    .room ⟨List.replicate 32 7,rfl⟩ [⟨RawId.base,[1]⟩,⟨RawId.identity,[]⟩]]

/-- A JOINED, an ERROR about the reserved topic and a room of two, one entry
and one byte at a time. -/
theorem session_stream_end_to_end_sample :
    pumpFrames (fun _ => true)
        (Reads.whole (sessionWriter (fun _ => .took 0) 1 0 0 (sampleItems.map Sent.item)).1)
        Pump.start =
      ⟨∅,sampleItems.map Sent.shown,0⟩ :=
  (session_stream_end_to_end (fun _ => ⟨0,rfl⟩) 0 1 0 (by decide) sampleItems
    (by decide)).2 _ rfl (by simp)

end KeepTalkingSfu.SessionStream
