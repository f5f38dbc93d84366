import KeepTalkingSfu.SnapshotChunks

/-!
# The server's stream writers

What is queued towards a client and how the writer tasks turn it into bytes.
A write plan says what each successive call to the transport does: an open or
a write makes progress, finds its stream (or connection) closed, or stalls.
The session writer ends at its first failure. A lane writer opens its stream
on the first DELIVER and replaces a stream the client stopped. A bulk delivery
has a stream of its own.

A DELIVER is never encoded again: a fresh header is sent in front of the topic
and payload bytes as they were received.
-/
namespace KeepTalkingSfu.StreamWriters
open ByteTransport WireFormat FrameCodec SnapshotChunks

/-- A DELIVER, shared by every recipient. -/
structure Deliver where
  head : Bytes
  topic : Bytes
  payload : Bytes
  deriving DecidableEq

def Deliver.new (topic payload : Bytes) : Deliver :=
  ⟨frameHeader Tag.deliver (topic.length+payload.length),topic,payload⟩

def Deliver.len (d : Deliver) : ℕ := d.head.length+d.topic.length+d.payload.length

def Deliver.chunks (d : Deliver) : List Bytes := [d.head,d.topic,d.payload]

/-- Something queued on the session stream: an encoded frame, or a room
snapshot that the writer encodes. -/
inductive SessionItem (Id : Type) where
  | frame (bytes : Bytes)
  | snapshot (topic : Topic) (members : List (Member Id))
  deriving DecidableEq

inductive WriteFailure where
  | closed
  | stalled
  deriving DecidableEq, Repr

/-! ### Writing chunks -/

/-- Dropping the empty chunks in front changes no byte. -/
theorem flatten_dropWhile_isEmpty (cs : List Bytes) :
    (cs.dropWhile List.isEmpty).flatten = cs.flatten := by
  induction cs with
  | nil => rfl
  | cons c cs ih =>
      cases c with
      | nil => simpa using ih
      | cons b bs => simp

theorem dropWhile_isEmpty_flatten_ne (cs : List Bytes) (h : cs.dropWhile List.isEmpty ≠ []) :
    cs.flatten ≠ [] := by
  rw [← flatten_dropWhile_isEmpty cs]
  obtain ⟨c,rest,hc⟩ := List.exists_cons_of_ne_nil h
  have hhead := List.head_dropWhile_not List.isEmpty h
  simp only [hc,List.head_cons] at hhead
  rw [hc,List.flatten_cons]
  intro he
  rw [(List.append_eq_nil_iff.mp he).1] at hhead
  cases hhead

/-- Writes the chunks from call `k` of the plan on. Returns the bytes written,
the next call, and whether everything went out. -/
def writeChunks (plan : ℕ → WriteOutcome) (k : ℕ) (chunks : List Bytes) :
    Bytes × ℕ × Except WriteFailure Unit :=
  let rest := chunks.dropWhile List.isEmpty
  if rest = [] then ([],k,.ok ())
  else
    match plan k with
    | .took extra =>
        let next := writeChunks plan (k+1) (advance (extra+1) rest)
        (rest.flatten.take (extra+1)++next.1,next.2)
    | .closed => ([],k+1,.error .closed)
    | .stalled => ([],k+1,.error .stalled)
termination_by chunks.flatten.length
decreasing_by
  have h := List.length_pos_iff.mpr (dropWhile_isEmpty_flatten_ne chunks ‹_›)
  rw [flatten_advance,flatten_dropWhile_isEmpty,List.length_drop]
  omega

/-- Under a flowing plan everything goes out, whatever each write takes. -/
theorem writeChunks_flowing {plan : ℕ → WriteOutcome} (hp : Flowing plan) (k : ℕ)
    (chunks : List Bytes) : ∃ k', writeChunks plan k chunks = (chunks.flatten,k',.ok ()) := by
  induction hn : chunks.flatten.length using Nat.strong_induction_on generalizing k chunks with
  | _ n ih =>
    rw [writeChunks]
    by_cases hrest : chunks.dropWhile List.isEmpty = []
    · refine ⟨k,?_⟩
      have hflat : chunks.flatten = [] := by
        rw [← flatten_dropWhile_isEmpty,hrest]
        rfl
      simp only [if_pos hrest,hflat]
    · obtain ⟨extra,hk⟩ := hp k
      have hpos := List.length_pos_iff.mpr (dropWhile_isEmpty_flatten_ne chunks hrest)
      have hadv : (advance (extra+1) (chunks.dropWhile List.isEmpty)).flatten =
          chunks.flatten.drop (extra+1) := by rw [flatten_advance,flatten_dropWhile_isEmpty]
      obtain ⟨k',hgo⟩ := ih _ (by rw [hadv,List.length_drop]; omega) (k+1)
        (advance (extra+1) (chunks.dropWhile List.isEmpty)) rfl
      refine ⟨k',?_⟩
      simp only [if_neg hrest,hk,hgo,hadv,flatten_dropWhile_isEmpty,List.take_append_drop]

/-! ### The session stream -/

section
variable {Id : Type} [EndpointKey Id]

/-- How a writer task ended. -/
inductive WriterExit where
  | finished
  | closed
  | stalled
  deriving DecidableEq, Repr

/-- The chunks an item is written as. -/
def SessionItem.chunks (chunkEntries chunkBytes : ℕ) : SessionItem Id → List Bytes
  | .frame bytes => [bytes]
  | .snapshot topic members => encodeSnapshot topic members chunkEntries chunkBytes

/-- The session writer over everything its queue hands out: the bytes of the
stream, the next call and how the task ended. -/
def sessionWriter (plan : ℕ → WriteOutcome) (chunkEntries chunkBytes : ℕ) :
    ℕ → List (SessionItem Id) → Bytes × ℕ × WriterExit
  | k,[] => ([],k,.finished)
  | k,item::items =>
      match writeChunks plan k (item.chunks chunkEntries chunkBytes) with
      | (written,k₁,.ok ()) =>
          let next := sessionWriter plan chunkEntries chunkBytes k₁ items
          (written++next.1,next.2)
      | (written,k₁,.error .closed) => (written,k₁,.closed)
      | (written,k₁,.error .stalled) => (written,k₁,.stalled)

theorem sessionWriter_flowing {plan : ℕ → WriteOutcome} (hp : Flowing plan)
    (chunkEntries chunkBytes k : ℕ) (items : List (SessionItem Id)) :
    ∃ k', sessionWriter plan chunkEntries chunkBytes k items =
      ((items.flatMap (SessionItem.chunks chunkEntries chunkBytes)).flatten,k',.finished) := by
  induction items generalizing k with
  | nil => exact ⟨k,rfl⟩
  | cons item items ih =>
      obtain ⟨k₁,h₁⟩ := writeChunks_flowing hp k (item.chunks chunkEntries chunkBytes)
      obtain ⟨k₂,h₂⟩ := ih k₁
      refine ⟨k₂,?_⟩
      simp only [sessionWriter,h₁,h₂,List.flatMap_cons,List.flatten_append]

end

/-! ### Lane streams -/

/-- The lane writer over everything its queue hands out. `stream` is what has
been written to the open stream, if there is one; `lost` says whether the
connection has a close reason when a call finds its stream closed. Returns the
bytes of every stream it opened, in order. -/
def laneWriter (plan : ℕ → WriteOutcome) (lost : ℕ → Bool) (lane : Lane) :
    ℕ → Option Bytes → List Deliver → List Bytes × WriterExit
  | _,stream,[] => (stream.toList,.finished)
  | k,some sent,d::ds =>
      match writeChunks plan k d.chunks with
      | (written,k₁,.ok ()) => laneWriter plan lost lane k₁ (some (sent++written)) ds
      | (written,k₁,.error .closed) =>
          if lost k₁ then ([sent++written],.closed)
          else
            let next := laneWriter plan lost lane k₁ none ds
            ((sent++written)::next.1,next.2)
      | (written,_,.error .stalled) => ([sent++written],.stalled)
  | k,none,d::ds =>
      -- opening the stream is the first call; waiting for credit can stall
      match plan k with
      | .took _ =>
          match writeChunks plan (k+1) (lane.prefixBytes::d.chunks) with
          | (written,k₁,.ok ()) => laneWriter plan lost lane k₁ (some written) ds
          | (written,k₁,.error .closed) =>
              if lost k₁ then ([written],.closed)
              else
                let next := laneWriter plan lost lane k₁ none ds
                (written::next.1,next.2)
          | (written,_,.error .stalled) => ([written],.stalled)
      | .closed =>
          if lost (k+1) then ([],.closed) else laneWriter plan lost lane (k+1) none ds
      | .stalled => ([],.stalled)

theorem laneWriter_open_flowing {plan : ℕ → WriteOutcome} (hp : Flowing plan)
    (lost : ℕ → Bool) (lane : Lane) (k : ℕ) (sent : Bytes) (ds : List Deliver) :
    laneWriter plan lost lane k (some sent) ds =
      ([sent++(ds.flatMap Deliver.chunks).flatten],.finished) := by
  induction ds generalizing k sent with
  | nil => simp [laneWriter]
  | cons d ds ih =>
      obtain ⟨k₁,h₁⟩ := writeChunks_flowing hp k d.chunks
      simp only [laneWriter,h₁,ih,List.flatMap_cons,List.flatten_append,List.append_assoc]

/-- Under a flowing plan one stream carries the whole lane. -/
theorem laneWriter_flowing {plan : ℕ → WriteOutcome} (hp : Flowing plan)
    (lost : ℕ → Bool) (lane : Lane) (k : ℕ) (d : Deliver) (ds : List Deliver) :
    laneWriter plan lost lane k none (d::ds) =
      ([lane.byte::((d::ds).flatMap Deliver.chunks).flatten],.finished) := by
  obtain ⟨extra,hk⟩ := hp k
  obtain ⟨k₁,h₁⟩ := writeChunks_flowing hp (k+1) (lane.prefixBytes::d.chunks)
  simp only [laneWriter,hk,h₁,laneWriter_open_flowing hp]
  simp [Lane.prefixBytes]

/-- How a bulk delivery ended: on a reset stream the client saw part of it. -/
inductive BulkExit where
  | acknowledged
  | closed
  | stalled
  deriving DecidableEq, Repr

/-- One bulk delivery: the bytes of its stream (`none` if none was opened). The
last call waits for the acknowledgement; a failure there is not told apart from
success. -/
def sendBulk (plan : ℕ → WriteOutcome) (k : ℕ) (d : Deliver) : Option Bytes × BulkExit :=
  match plan k with
  | .closed => (none,.closed)
  | .stalled => (none,.stalled)
  | .took _ =>
      match writeChunks plan (k+1) (Lane.bulk.prefixBytes::d.chunks) with
      | (written,_,.error .closed) => (some written,.closed)
      | (written,_,.error .stalled) => (some written,.stalled)
      | (written,k₁,.ok ()) =>
          match plan k₁ with
          | .stalled => (some written,.stalled)
          | _ => (some written,.acknowledged)

theorem sendBulk_flowing {plan : ℕ → WriteOutcome} (hp : Flowing plan) (k : ℕ) (d : Deliver) :
    sendBulk plan k d = (some (Lane.bulk.byte::d.chunks.flatten),.acknowledged) := by
  obtain ⟨extra,hk⟩ := hp k
  obtain ⟨k₁,h₁⟩ := writeChunks_flowing hp (k+1) (Lane.bulk.prefixBytes::d.chunks)
  obtain ⟨extra',hk'⟩ := hp k₁
  simp only [sendBulk,hk,h₁,hk']
  simp [Lane.prefixBytes]

end KeepTalkingSfu.StreamWriters
