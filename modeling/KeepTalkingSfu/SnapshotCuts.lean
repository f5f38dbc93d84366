import KeepTalkingSfu.CodecExact
import KeepTalkingSfu.GreedyCuts

/-!
# What the chunks of a snapshot are

The chunks are a greedy cut of the member list by the entry limit and the byte
limit. A chunk is over the byte limit only if it holds a single member or none:
the empty chunk of an empty room is sent whatever the limits are.

A queue is charged for a snapshot before it is cut. The charge takes the larger of
two divisions for the number of chunks; with the server's own limits it is never
more than one chunk away from the cut.
-/
namespace KeepTalkingSfu.SnapshotCuts
open ByteTransport WireFormat FrameCodec SnapshotChunks GreedyCuts

variable {Id : Type}

/-- Body bytes of the chunk that holds these members. -/
def chunkBody (ms : List (Member Id)) : ℕ := snapshotHeadLen+(ms.map snapshotEntryLen).sum

/-- The members fit one chunk, by number and by bytes. -/
def FitsChunk (maxEntries maxBody : ℕ) (ms : List (Member Id)) : Prop :=
  ms.length ≤ maxEntries ∧ chunkBody ms ≤ maxBody

/-- The entry limit that is applied. -/
def entryLimit (maxEntries : ℕ) : ℕ := min (max maxEntries 1) 65535

/-! ### The inner loop -/

theorem takeChunk_stops (maxEntries maxBody taken body : ℕ) (ms : List (Member Id))
    (h : takeChunk maxEntries maxBody taken body ms-taken < ms.length) :
    maxEntries ≤ takeChunk maxEntries maxBody taken body ms ∨
      maxBody < body+((ms.take (takeChunk maxEntries maxBody taken body ms-taken+1)).map
        snapshotEntryLen).sum := by
  induction ms generalizing taken body with
  | nil => exact absurd h (Nat.not_lt_zero _)
  | cons m ms ih =>
      simp only [takeChunk] at h ⊢
      split_ifs at h ⊢ with hlt hcut
      · right
        simp only [Nat.sub_self,Nat.zero_add,List.take_succ_cons,List.take_zero,List.map_cons,
          List.map_nil,List.sum_cons,List.sum_nil]
        exact hcut.2
      · have hge := takeChunk_ge maxEntries maxBody (taken+1) (body+snapshotEntryLen m) ms
        have hnext := ih (taken+1) (body+snapshotEntryLen m)
        generalize takeChunk maxEntries maxBody (taken+1) (body+snapshotEntryLen m) ms = n at *
        obtain ⟨k,rfl⟩ : ∃ k, n = taken+1+k := ⟨n-(taken+1),by omega⟩
        have h₁ : taken+1+k-taken = k+1 := by omega
        have h₂ : taken+1+k-(taken+1) = k := by omega
        rw [h₁,List.length_cons] at h
        rw [h₂] at hnext
        rw [h₁,List.take_succ_cons,List.map_cons,List.sum_cons]
        rcases hnext (by omega) with hn | hn
        · exact .inl hn
        · right
          omega
      · exact .inl (Nat.not_lt.mp hlt)

section
variable (maxEntries maxBody : ℕ) (ms : List (Member Id))

theorem takeChunk_group (hpos : 0 < maxEntries) :
    FitsChunk maxEntries maxBody (ms.take (takeChunk maxEntries maxBody 0 snapshotHeadLen ms)) ∨
      (ms.take (takeChunk maxEntries maxBody 0 snapshotHeadLen ms)).length ≤ 1 := by
  have hentries := takeChunk_entries maxEntries maxBody 0 snapshotHeadLen ms hpos.le
  rcases takeChunk_body maxEntries maxBody 0 snapshotHeadLen ms with hone | hbody
  · right
    rw [List.length_take]
    omega
  · left
    rw [Nat.sub_zero] at hbody
    exact ⟨(List.length_take_le _ _).trans hentries,hbody⟩

theorem takeChunk_full
    (h : takeChunk maxEntries maxBody 0 snapshotHeadLen ms < ms.length) :
    ¬FitsChunk maxEntries maxBody
      (ms.take (takeChunk maxEntries maxBody 0 snapshotHeadLen ms+1)) := by
  rintro ⟨hentries,hbody⟩
  rw [List.length_take,Nat.min_eq_left h] at hentries
  have hstop := takeChunk_stops maxEntries maxBody 0 snapshotHeadLen ms
    (by rwa [Nat.sub_zero])
  rw [Nat.sub_zero] at hstop
  rcases hstop with hmax | hmax
  · omega
  · exact absurd hbody (Nat.not_le.mpr hmax)

end

/-! ### The chunks -/

/-- The parts of a snapshot with the MORE flag of each: set on all but the last. -/
def flagged : List (List (Member Id)) → List (Bool × List (Member Id))
  | [] => []
  | [g] => [(false,g)]
  | g::g'::gs => (true,g)::flagged (g'::gs)

theorem flagged_cons (g : List (Member Id)) {gs : List (List (Member Id))} (h : gs ≠ []) :
    flagged (g::gs) = (true,g)::flagged gs := by
  cases gs with
  | nil => exact (h rfl).elim
  | cons g' gs => rfl

theorem flagged_parts (gs : List (List (Member Id))) : (flagged gs).map Prod.snd = gs := by
  induction gs with
  | nil => rfl
  | cons g gs ih =>
      by_cases h : gs = []
      · subst h
        rfl
      · rw [flagged_cons g h,List.map_cons,ih]

section
variable [EndpointKey Id]

/-- The outer loop sends a greedy cut, chunk by chunk. -/
theorem chunkLoop_cut (topic : Topic) (maxEntries maxBody : ℕ) (hpos : 0 < maxEntries)
    (members : List (Member Id)) :
    ∃ gs, Cut (FitsChunk maxEntries maxBody) members gs ∧
      chunkLoop topic maxEntries maxBody hpos members =
        (flagged gs).map fun part => encodeSnapshotChunk topic part.1 part.2 := by
  induction hn : members.length using Nat.strong_induction_on generalizing members with
  | _ n ih =>
    generalize hk : takeChunk maxEntries maxBody 0 snapshotHeadLen members = k
    have hgroup := takeChunk_group maxEntries maxBody members hpos
    rw [hk] at hgroup
    rw [chunkLoop]
    simp only [hk]
    split_ifs with hmore
    · -- the members that are left start with one that does not fit
      have hfull := takeChunk_full maxEntries maxBody members (by rwa [hk])
      have hne : members ≠ [] := by
        rintro rfl
        exact absurd hmore (Nat.not_lt_zero _)
      have hkpos := takeChunk_pos maxEntries maxBody snapshotHeadLen members hpos hne
      rw [hk] at hfull hkpos
      obtain ⟨gs,hcut,hchunks⟩ := ih (members.drop k).length
        (by rw [List.length_drop]; omega) (members.drop k) rfl
      have hdrop := List.drop_eq_getElem_cons hmore
      rw [List.take_succ_eq_append_getElem hmore] at hfull
      rw [hdrop] at hcut
      refine ⟨members.take k::gs,?_,?_⟩
      · have hfirst : members.take k ≠ [] := by
          intro hnil
          rcases List.take_eq_nil_iff.mp hnil with h0 | h0
          · omega
          · exact hne h0
        have hnext := Cut.more _ _ _ gs hfirst hgroup hfull hcut
        rwa [← hdrop,List.take_append_drop] at hnext
      · rw [hchunks,flagged_cons _ hcut.ne_nil,List.map_cons]
    · have hall : members.take k = members := List.take_of_length_le (Nat.not_lt.mp hmore)
      rw [hall] at hgroup ⊢
      exact ⟨[members],.last members hgroup,rfl⟩

/-- Reads a chunk behind its length prefix. -/
def decodeChunk (chunk : Bytes) : Except String (ServerFrame Id) :=
  ServerFrame.decode (chunk.getD 4 0) (chunk.drop 5)

theorem encodeSnapshotChunk_length (topic : Topic) (more : Bool) (ms : List (Member Id)) :
    (encodeSnapshotChunk topic more ms).length = 5+chunkBody ms := by
  rw [encodeSnapshotChunk,encode_length,chunkBody]
  exact congrArg (5+·) (snapshotBody_length topic more ms)

theorem decodeChunk_encode (topic : Topic) (more : Bool) {ms : List (Member Id)}
    (hcount : ms.length ≤ 65535) (hblob : ∀ m ∈ ms, m.blob.length < 4294967296) :
    decodeChunk (encodeSnapshotChunk topic more ms) = .ok (.snapshot topic more ms) := by
  have hflag : ((if more then snapshotMore else 0) &&& snapshotMore != 0) = more := by
    cases more <;> decide
  have hdecode := CodecExact.decode_snapshotBody topic (if more then snapshotMore else 0) ms
    (by omega) hblob
  rw [hflag,CodecExact.snapshotBody] at hdecode
  rw [← hdecode]
  simp [decodeChunk,encodeSnapshotChunk,WireFormat.encode,frameHeader,putU32]

theorem encodeSnapshot_cut (topic : Topic) (members : List (Member Id)) (maxEntries maxBody : ℕ) :
    ∃ gs, Cut (FitsChunk (entryLimit maxEntries) maxBody) members gs ∧
      encodeSnapshot topic members maxEntries maxBody =
        (flagged gs).map fun part => encodeSnapshotChunk topic part.1 part.2 :=
  chunkLoop_cut topic (entryLimit maxEntries) maxBody _ members

theorem chunk_lengths (topic : Topic) (gs : List (List (Member Id))) :
    ((flagged gs).map fun part => encodeSnapshotChunk topic part.1 part.2).map List.length =
      gs.map fun g => 5+chunkBody g := by
  conv_rhs => rw [← flagged_parts gs]
  rw [List.map_map,List.map_map]
  exact List.map_congr_left fun part _ => encodeSnapshotChunk_length topic part.1 part.2

/-- The chunks and the members each of them holds. -/
structure Chunked (topic : Topic) (members : List (Member Id)) (maxEntries maxBody : ℕ)
    (chunks : List Bytes) (gs : List (List (Member Id))) : Prop where
  whole : gs.flatten = members
  sizes : chunks.map List.length = gs.map fun g => 5+chunkBody g
  decodes : (∀ m ∈ members, m.blob.length < 4294967296) → chunks.map decodeChunk =
    (flagged gs).map fun part => .ok (.snapshot topic part.1 part.2)
  entries : ∀ g ∈ gs, g.length ≤ entryLimit maxEntries
  bytes : ∀ g ∈ gs, chunkBody g ≤ maxBody ∨ g.length ≤ 1
  nonempty : [] ∈ gs → members = [] ∧ gs = [[]]
  greedy : gs.IsChain fun g g' =>
    ∀ m ∈ g'.head?, ¬FitsChunk (entryLimit maxEntries) maxBody (g++[m])

/-- The chunks of a snapshot are a greedy cut of it, and each decodes to its part. -/
theorem snapshot_chunking (topic : Topic) (members : List (Member Id)) (maxEntries maxBody : ℕ) :
    ∃ gs, Chunked topic members maxEntries maxBody
      (encodeSnapshot topic members maxEntries maxBody) gs := by
  have hpos : 0 < entryLimit maxEntries := by
    unfold entryLimit
    omega
  obtain ⟨gs,hcut,hchunks⟩ := encodeSnapshot_cut topic members maxEntries maxBody
  have hentries : ∀ g ∈ gs, g.length ≤ entryLimit maxEntries := by
    intro g hg
    rcases hcut.group g hg with hfits | hone
    · exact hfits.1
    · exact hone.trans hpos
  refine ⟨gs,hcut.flatten,?_,?_,hentries,?_,?_,hcut.greedy⟩
  · rw [hchunks,chunk_lengths]
  · intro hblob
    rw [hchunks,List.map_map]
    apply List.map_congr_left
    intro part hpart
    have hmem : part.2 ∈ gs := by
      rw [← flagged_parts gs]
      exact List.mem_map_of_mem hpart
    refine decodeChunk_encode topic part.1 ((hentries _ hmem).trans (Nat.min_le_right _ _)) ?_
    intro m hm
    apply hblob
    rw [← hcut.flatten]
    exact List.mem_flatten_of_mem hmem hm
  · intro g hg
    rcases hcut.group g hg with hfits | hone
    · exact .inl hfits.2
    · exact .inr hone
  · intro hnil
    have hempty : members = [] := by
      by_contra hne
      exact hcut.group_ne_nil hne [] hnil rfl
    rw [hempty] at hcut
    exact ⟨hempty,hcut.of_nil⟩

theorem decodeChunk_blob_lt {chunk : Bytes} {topic : Topic} {more : Bool} {ms : List (Member Id)}
    (h : decodeChunk chunk = .ok (.snapshot topic more ms)) : ∀ m ∈ ms, m.blob.length < 4294967296 := by
  have htag : chunk.getD 4 0 = Tag.snapshot := (CodecExact.serverFrame_of_decode h).1.symm
  rw [decodeChunk,htag] at h
  obtain ⟨topic',flags,members,hf,-,hblobs,-⟩ := CodecExact.snapshot_of_decode h
  cases hf
  exact hblobs

end

/-- A blob whose length does not fit its field. -/
def hugeMember : Member RawId := ⟨.base,List.replicate 4294967296 0⟩

/-- Without members a chunk can be over the byte limit too, and a blob of 4 GiB is
not read back. -/
theorem chunk_over_limit :
    (¬∀ chunk ∈ encodeSnapshot Topic.zero ([] : List (Member RawId)) 256 0,
      ∀ more (ms : List (Member RawId)), decodeChunk chunk = .ok (.snapshot Topic.zero more ms) →
        (chunk.drop 5).length ≤ 0 ∨ ms.length = 1) ∧
    ¬∃ gs : List (List (Member RawId)), gs.flatten = [hugeMember] ∧
      (encodeSnapshot Topic.zero [hugeMember] 256 262144).map decodeChunk =
        (flagged gs).map fun part => .ok (.snapshot Topic.zero part.1 part.2) := by
  constructor
  · intro h
    have hchunk : encodeSnapshot Topic.zero ([] : List (Member RawId)) 256 0 =
        [encodeSnapshotChunk Topic.zero false ([] : List (Member RawId))] := by
      rw [encodeSnapshot,chunkLoop]
      simp [takeChunk]
    rw [hchunk] at h
    have hover := h _ List.mem_cons_self false []
      (decodeChunk_encode Topic.zero false (Nat.zero_le _) (by simp))
    revert hover
    decide
  · rintro ⟨gs,hwhole,hdecode⟩
    obtain ⟨g,hg,hmem⟩ : ∃ g ∈ gs, hugeMember ∈ g := by
      rw [← List.mem_flatten,hwhole]
      exact List.mem_cons_self
    rw [← flagged_parts gs] at hg
    obtain ⟨part,hpart,rfl⟩ := List.mem_map.mp hg
    have hok := List.mem_map_of_mem (f := fun part : Bool × List (Member RawId) =>
      (.ok (.snapshot Topic.zero part.1 part.2) : Except String (ServerFrame RawId))) hpart
    rw [← hdecode] at hok
    obtain ⟨chunk,-,hchunk⟩ := List.mem_map.mp hok
    have hlt := decodeChunk_blob_lt hchunk hugeMember hmem
    rw [show hugeMember.blob.length = 4294967296 from List.length_replicate] at hlt
    exact absurd hlt (Nat.lt_irrefl _)

/-! ### The charge of a queue -/

section
variable {ms : List (Member Id)}

theorem entries_sum_le (h : ∀ m ∈ ms, m.blob.length ≤ maxAnnounceLen) :
    (ms.map snapshotEntryLen).sum ≤ ms.length*1060 := by
  induction ms with
  | nil => exact Nat.zero_le _
  | cons m ms ih =>
      have hm : m.blob.length ≤ 1024 := h m List.mem_cons_self
      have hrest := ih fun m' hm' => h m' (List.mem_cons_of_mem _ hm')
      rw [List.map_cons,List.sum_cons,List.length_cons,Nat.succ_mul,snapshotEntryLen]
      omega

/-- A chunk of the server's that can take no further member has at least 247: so
many of the largest fill it. -/
theorem full_chunk_length {g : List (Member Id)} {m : Member Id}
    (hg : ∀ m' ∈ g, m'.blob.length ≤ maxAnnounceLen) (hm : m.blob.length ≤ maxAnnounceLen)
    (h : ¬FitsChunk snapshotChunkEntries snapshotChunkBytes (g++[m])) : 247 ≤ g.length := by
  have hall : ∀ m' ∈ g++[m], m'.blob.length ≤ maxAnnounceLen := by
    intro m' hm'
    rcases List.mem_append.mp hm' with hm' | hm'
    · exact hg m' hm'
    · rwa [List.mem_singleton.mp hm']
  have hsum := entries_sum_le hall
  simp only [FitsChunk,chunkBody,snapshotChunkEntries,snapshotChunkBytes,snapshotHeadLen,not_and,
    not_le] at h
  rw [List.length_append,List.length_singleton] at h hsum
  by_contra hlt
  have hover := h (by omega)
  omega

theorem chunk_sum_le (hms : ∀ m ∈ ms, m.blob.length ≤ maxAnnounceLen)
    (h : FitsChunk snapshotChunkEntries snapshotChunkBytes ms ∨ ms.length ≤ 1) :
    (ms.map snapshotEntryLen).sum ≤ 262109 := by
  rcases h with hfits | hone
  · have hbody := hfits.2
    simp only [chunkBody,snapshotChunkBytes,snapshotHeadLen] at hbody
    omega
  · have hsum := entries_sum_le hms
    omega

theorem chunks_sum (gs : List (List (Member Id))) : (gs.map fun g => 5+chunkBody g).sum =
    gs.length*(5+snapshotHeadLen)+(gs.flatten.map snapshotEntryLen).sum := by
  induction gs with
  | nil => rfl
  | cons g gs ih =>
      rw [List.map_cons,List.sum_cons,ih,List.flatten_cons,List.map_append,List.sum_append,
        List.length_cons,Nat.succ_mul,chunkBody]
      omega

/-- The estimated number of chunks is at most one away from the cut. -/
theorem chunk_estimate {gs : List (List (Member Id))} (hlen : ms.length ≤ maxMembersPerTopic)
    (hblob : ∀ m ∈ ms, m.blob.length ≤ maxAnnounceLen)
    (hcut : Cut (FitsChunk snapshotChunkEntries snapshotChunkBytes) ms gs) :
    gs.length ≤ max (ms.length/256) ((ms.map snapshotEntryLen).sum/262144)+2 ∧
      max (ms.length/256) ((ms.map snapshotEntryLen).sum/262144) ≤ gs.length := by
  have hmem : ∀ g ∈ gs, ∀ m ∈ g, m.blob.length ≤ maxAnnounceLen := by
    intro g hg m hm
    apply hblob
    rw [← hcut.flatten]
    exact List.mem_flatten_of_mem hg hm
  have hbytes := hcut.weight_le snapshotEntryLen 262109
    fun g hg => chunk_sum_le (hmem g hg) (hcut.group g hg)
  have hentries := hcut.weight_le (fun _ => 1) 256 ?_
  · have hmany : (gs.length-1)*247 ≤ ms.length := by
      by_cases hne : ms = []
      · subst hne
        simp [hcut.of_nil]
      · refine (Nat.le_succ _).trans (hcut.length_ge hne 247 ?_)
        intro g hg m hm hfull
        exact full_chunk_length (fun m' hm' => hblob m' (hg m' hm')) (hblob m hm) hfull
    have hmax : maxMembersPerTopic = 1024 := rfl
    simp only [List.map_const',List.sum_replicate_nat,Nat.mul_one] at hentries
    omega
  · intro g hg
    simp only [List.map_const',List.sum_replicate_nat,Nat.mul_one]
    rcases hcut.group g hg with hfits | hone
    · exact hfits.1
    · omega

end

section
variable [EndpointKey Id]

/-- The charge of a snapshot is within one chunk's overhead of what is sent. -/
theorem snapshot_charge_close (topic : Topic) (members : List (Member Id))
    (hlen : members.length ≤ maxMembersPerTopic)
    (hblob : ∀ m ∈ members, m.blob.length ≤ maxAnnounceLen) :
    ((encodeSnapshot topic members snapshotChunkEntries snapshotChunkBytes).map List.length).sum ≤
        snapshotWireLen members snapshotChunkEntries+(5+snapshotHeadLen) ∧
      snapshotWireLen members snapshotChunkEntries ≤
        ((encodeSnapshot topic members snapshotChunkEntries snapshotChunkBytes).map List.length).sum+
          (5+snapshotHeadLen) := by
  obtain ⟨gs,hcut,hchunks⟩ :=
    encodeSnapshot_cut topic members snapshotChunkEntries snapshotChunkBytes
  obtain ⟨hupper,hlower⟩ := chunk_estimate hlen hblob hcut
  rw [hchunks,chunk_lengths,chunks_sum,hcut.flatten]
  simp only [snapshotWireLen,snapshotHeadLen,snapshotChunkEntries,snapshotChunkBytes]
  generalize (members.map snapshotEntryLen).sum = entries at *
  simp only [show max 256 1 = 256 from rfl,show 256*1024 = 262144 from rfl]
  omega

end

/-- The first chunk is full by its entries, the second by its bytes. -/
def mixedRoom : List (Member RawId) :=
  List.replicate 260 ⟨.identity,[]⟩++List.replicate 260 ⟨.base,List.replicate 1024 7⟩

theorem snapshot_charge_close_mixed :
    (encodeSnapshot Topic.zero mixedRoom snapshotChunkEntries snapshotChunkBytes).length = 3 ∧
    ((encodeSnapshot Topic.zero mixedRoom snapshotChunkEntries snapshotChunkBytes).map
      List.length).sum ≤ snapshotWireLen mixedRoom snapshotChunkEntries+40 ∧
    snapshotWireLen mixedRoom snapshotChunkEntries ≤
      ((encodeSnapshot Topic.zero mixedRoom snapshotChunkEntries snapshotChunkBytes).map
        List.length).sum+40 := by
  have hlen : mixedRoom.length ≤ maxMembersPerTopic := by
    rw [mixedRoom,List.length_append,List.length_replicate,List.length_replicate]
    decide
  have hblob : ∀ m ∈ mixedRoom, m.blob.length ≤ maxAnnounceLen := by
    intro m hm
    rcases List.mem_append.mp hm with hm | hm
    · rw [List.eq_of_mem_replicate hm]
      exact Nat.zero_le _
    · rw [List.eq_of_mem_replicate hm,List.length_replicate]
      exact le_rfl
  have hhead : 5+snapshotHeadLen = 40 := rfl
  have hclose := snapshot_charge_close Topic.zero mixedRoom hlen hblob
  rw [hhead] at hclose
  have hchunks : (encodeSnapshot Topic.zero mixedRoom snapshotChunkEntries snapshotChunkBytes).length = 3 := by
    decide +kernel
  exact ⟨hchunks,hclose⟩

end KeepTalkingSfu.SnapshotCuts
