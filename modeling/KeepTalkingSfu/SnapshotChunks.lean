import KeepTalkingSfu.FrameCodec

/-!
# Cutting a snapshot into chunks

A snapshot goes out as one or more SNAPSHOT frames, cut greedily by a number
of entries and a number of body bytes. A chunk always takes at least one
member, so the loop ends; every chunk but the last carries MORE.
-/
namespace KeepTalkingSfu.SnapshotChunks
open ByteTransport WireFormat FrameCodec

variable {Id : Type}

/-- The inner loop: how many of the remaining members the chunk takes when it
already has `taken` of them and `body` bytes. -/
def takeChunk (maxEntries maxBody : ℕ) : ℕ → ℕ → List (Member Id) → ℕ
  | taken,_,[] => taken
  | taken,body,m::ms =>
      if taken < maxEntries then
        if 0 < taken ∧ maxBody < body+snapshotEntryLen m then taken
        else takeChunk maxEntries maxBody (taken+1) (body+snapshotEntryLen m) ms
      else taken

theorem takeChunk_ge (maxEntries maxBody taken body : ℕ) (ms : List (Member Id)) :
    taken ≤ takeChunk maxEntries maxBody taken body ms := by
  induction ms generalizing taken body with
  | nil => simp [takeChunk]
  | cons m ms ih =>
      simp only [takeChunk]
      split_ifs
      · exact le_rfl
      · exact (Nat.le_succ _).trans (ih _ _)
      · exact le_rfl

theorem takeChunk_entries (maxEntries maxBody taken body : ℕ) (ms : List (Member Id))
    (h : taken ≤ maxEntries) : takeChunk maxEntries maxBody taken body ms ≤ maxEntries := by
  induction ms generalizing taken body with
  | nil => simpa [takeChunk] using h
  | cons m ms ih =>
      simp only [takeChunk]
      split_ifs with hlt
      · exact h
      · exact ih _ _ hlt
      · exact h

/-- Every chunk of a nonempty rest makes progress. -/
theorem takeChunk_pos (maxEntries maxBody body : ℕ) (ms : List (Member Id))
    (he : 0 < maxEntries) (hne : ms ≠ []) : 0 < takeChunk maxEntries maxBody 0 body ms := by
  cases ms with
  | nil => exact (hne rfl).elim
  | cons m ms =>
      simp only [takeChunk,if_pos he,lt_irrefl,false_and,if_false]
      exact takeChunk_ge _ _ 1 _ _

/-- Beyond its first member a chunk stays within the byte limit. -/
theorem takeChunk_body (maxEntries maxBody taken body : ℕ) (ms : List (Member Id)) :
    takeChunk maxEntries maxBody taken body ms ≤ max taken 1 ∨
      body+((ms.take (takeChunk maxEntries maxBody taken body ms-taken)).map
        snapshotEntryLen).sum ≤ maxBody := by
  induction ms generalizing taken body with
  | nil => exact .inl (by simp [takeChunk])
  | cons m ms ih =>
      simp only [takeChunk]
      split_ifs with hlt hcut
      · exact .inl (le_max_left _ _)
      · have hge := takeChunk_ge maxEntries maxBody (taken+1) (body+snapshotEntryLen m) ms
        rcases ih (taken+1) (body+snapshotEntryLen m) with h | h
        · -- the chunk stops right after this member
          have heq : takeChunk maxEntries maxBody (taken+1) (body+snapshotEntryLen m) ms =
              taken+1 := by omega
          rw [heq]
          by_cases h0 : taken = 0
          · exact .inl (by omega)
          · refine .inr ?_
            simp only [Nat.add_sub_cancel_left,List.take_succ_cons,List.take_zero,
              List.map_cons,List.map_nil,List.sum_cons,List.sum_nil]
            omega
        · refine .inr ?_
          generalize takeChunk maxEntries maxBody (taken+1) (body+snapshotEntryLen m) ms = n at *
          obtain ⟨k,rfl⟩ : ∃ k, n = taken+1+k := ⟨n-(taken+1),by omega⟩
          have h₁ : taken+1+k-taken = k+1 := by omega
          have h₂ : taken+1+k-(taken+1) = k := by omega
          rw [h₂] at h
          rw [h₁,List.take_succ_cons,List.map_cons,List.sum_cons]
          omega
      · exact .inl (le_max_left _ _)

/-- A chunk fits a frame when its limits do: the byte limit leaves room for the
tag, and a member alone in its chunk has a bounded blob. -/
theorem takeChunk_fits (maxEntries maxBody : ℕ) (ms : List (Member Id))
    (hbody : maxBody < maxFrameLen) (hblob : ∀ m ∈ ms, m.blob.length ≤ maxAnnounceLen) :
    1+(snapshotHeadLen+((ms.take (takeChunk maxEntries maxBody 0 snapshotHeadLen ms)).map
      snapshotEntryLen).sum) ≤ maxFrameLen := by
  rcases takeChunk_body maxEntries maxBody 0 snapshotHeadLen ms with h | h
  · have hone : ((ms.take (takeChunk maxEntries maxBody 0 snapshotHeadLen ms)).map
        snapshotEntryLen).sum ≤ 36+1024 := by
      cases ms with
      | nil => simp
      | cons m ms =>
          have hm : m.blob.length ≤ 1024 := hblob m List.mem_cons_self
          generalize takeChunk maxEntries maxBody 0 snapshotHeadLen (m::ms) = n at h ⊢
          have hn : n = 0 ∨ n = 1 := by omega
          rcases hn with rfl | rfl
          · simp
          · simp only [List.take_succ_cons,List.take_zero,List.map_cons,List.map_nil,
              List.sum_cons,List.sum_nil,snapshotEntryLen]
            omega
    have hhead : snapshotHeadLen = 35 := rfl
    have hmax := maxFrameLen_eq
    omega
  · rw [Nat.sub_zero] at h
    omega

section
variable [EndpointKey Id]

/-- The outer loop, with the entry limit already clamped to at least one. -/
def chunkLoop (topic : Topic) (maxEntries maxBody : ℕ) (hpos : 0 < maxEntries)
    (members : List (Member Id)) : List Bytes :=
  let n := takeChunk maxEntries maxBody 0 snapshotHeadLen members
  if n < members.length then
    encodeSnapshotChunk topic true (members.take n)::
      chunkLoop topic maxEntries maxBody hpos (members.drop n)
  else [encodeSnapshotChunk topic false (members.take n)]
termination_by members.length
decreasing_by
  have hne : members ≠ [] := by
    rintro rfl
    simp_all
  have := takeChunk_pos maxEntries maxBody snapshotHeadLen members hpos hne
  simp only [List.length_drop]
  omega

def encodeSnapshot (topic : Topic) (members : List (Member Id)) (maxEntries maxBody : ℕ) :
    List Bytes :=
  chunkLoop topic (min (max maxEntries 1) 65535) maxBody (by omega) members

/-- Queue charge of a snapshot: its entries plus an estimated chunk overhead. -/
def snapshotWireLen (members : List (Member Id)) (maxEntries : ℕ) : ℕ :=
  let entries := (members.map snapshotEntryLen).sum
  let chunks := max (members.length/max maxEntries 1) (entries/snapshotChunkBytes)+1
  entries+chunks*(5+snapshotHeadLen)

/-! ### A chunk on the wire -/

theorem snapshotBody_length (topic : Topic) (more : Bool) (ms : List (Member Id)) :
    (serverBody (.snapshot topic more ms)).length =
      snapshotHeadLen+(ms.map snapshotEntryLen).sum := by
  simp only [serverBody,List.length_append,topic.length_eq,List.length_singleton,putU16_length,
    flatMap_encodeEntry_length,snapshotHeadLen]

end

end KeepTalkingSfu.SnapshotChunks
