import KeepTalkingSfu.FrameReader

/-!
# Frame after frame

A reader is called until its stream ends or fails. What it returns depends on
the bytes and not on how the transport cut them into reads, and while complete
frames are there it stops exactly behind each of them.

The last call is where streams differ. A length out of range and a body that is
cut short are told apart from everything else. A stream that ends inside a
length prefix is not: the reader takes it for a clean end.
-/
namespace KeepTalkingSfu.FrameSequence
open ByteTransport WireFormat FrameCodec FrameReader

/-! ### Many calls -/

/-- The next `n` frames and the stream behind them, if they are all there. -/
def readMany : ℕ → Reads → Option (List (UInt8 × Bytes) × Reads)
  | 0,r => some ([],r)
  | n+1,r =>
      match readFrame r with
      | .ok (some f,r') => (readMany n r').map fun x => (f::x.1,x.2)
      | _ => none

/-- How the last call ended. -/
inductive Ending where
  | ended
  | failed (e : FrameError)
  deriving DecidableEq, Repr

/-- Every frame of a stream and how it ended. -/
def readFrames (r : Reads) : List (UInt8 × Bytes) × Ending :=
  match _h : readFrame r with
  | .ok (some f,r') => (f::(readFrames r').1,(readFrames r').2)
  | .ok (none,_) => ([],.ended)
  | .error e => ([],.failed e)
termination_by r.bytes.length
decreasing_by all_goals exact readFrame_shrinks _h

theorem readFrames_some {r r' : Reads} {f : UInt8 × Bytes} (h : readFrame r = .ok (some f,r')) :
    readFrames r = (f::(readFrames r').1,(readFrames r').2) := by
  rw [readFrames]
  split <;> rename_i heq <;> rw [h] at heq <;> cases heq
  rfl

theorem readFrames_none {r r' : Reads} (h : readFrame r = .ok (none,r')) :
    readFrames r = ([],.ended) := by
  rw [readFrames]
  split <;> rename_i heq <;> rw [h] at heq <;> cases heq

theorem readFrames_error {r : Reads} {e : FrameError} (h : readFrame r = .error e) :
    readFrames r = ([],.failed e) := by
  rw [readFrames]
  split <;> rename_i heq <;> rw [h] at heq <;> cases heq
  rfl

/-- Two streams of the same bytes that end alike give the same results. -/
theorem readFrames_congr {r r' : Reads} (hb : r'.bytes = r.bytes) (hf : r'.failure = r.failure) :
    readFrames r' = readFrames r := by
  induction hn : r.bytes.length using Nat.strong_induction_on generalizing r r' with
  | _ n ih =>
    have h := readFrame_next r
    have h' := readFrame_next r'
    rw [hb,hf] at h'
    cases hnext : nextFrame r.failure r.bytes with
    | error e =>
        simp only [hnext] at h h'
        rw [readFrames_error h,readFrames_error h']
    | ok x =>
        obtain ⟨f,rest⟩ := x
        simp only [hnext] at h h'
        obtain ⟨u,hu,hub,huf⟩ := h
        obtain ⟨u',hu',hub',huf'⟩ := h'
        cases f with
        | none => rw [readFrames_none hu,readFrames_none hu']
        | some f =>
            have hlt : u.bytes.length < n := by
              rw [hub,← hn]
              exact nextFrame_shrinks hnext
            rw [readFrames_some hu,readFrames_some hu',
              ih _ hlt (hub'.trans hub.symm) (huf'.trans huf.symm) rfl]

/-- Raw frames back to back. -/
def rawFrames (frames : List (UInt8 × Bytes)) : Bytes := frames.flatMap fun f => rawFrame f.1 f.2

theorem readMany_rawFrames (frames : List (UInt8 × Bytes)) (rest : Bytes) (r : Reads)
    (hlen : ∀ f ∈ frames, 1+f.2.length ≤ maxFrameLen) (hr : r.bytes = rawFrames frames++rest) :
    ∃ r', readMany frames.length r = some (frames,r') ∧ r'.bytes = rest ∧ r'.failure = r.failure := by
  induction frames generalizing r with
  | nil => exact ⟨r,rfl,hr,rfl⟩
  | cons f frames ih =>
      rw [rawFrames,List.flatMap_cons,List.append_assoc] at hr
      obtain ⟨r₁,hread,hr₁,hf₁⟩ :=
        readFrame_rawFrame r f.1 f.2 _ (hlen f List.mem_cons_self) hr
      obtain ⟨r₂,hmany,hr₂,hf₂⟩ := ih r₁ (fun g hg => hlen g (List.mem_cons_of_mem _ hg)) hr₁
      refine ⟨r₂,?_,hr₂,hf₂.trans hf₁⟩
      simp only [List.length_cons,readMany,hread,hmany,Option.map_some]

/-- Frames that were read one by one are the first of all. -/
theorem readFrames_of_many {n : ℕ} {r r' : Reads} {frames : List (UInt8 × Bytes)}
    (h : readMany n r = some (frames,r')) :
    readFrames r = (frames++(readFrames r').1,(readFrames r').2) := by
  induction n generalizing r frames with
  | zero =>
      cases h
      rfl
  | succ n ih =>
      simp only [readMany] at h
      split at h
      · next f u hread =>
        obtain ⟨x,hmany,hx⟩ := Option.map_eq_some_iff.mp h
        cases hx
        rw [readFrames_some hread,ih hmany]
        rfl
      · cases h

/-- Complete frames are read one by one, each call stopping behind its frame, and
what follows them is read as it would be alone. The splitting into reads never
matters. -/
theorem framing_chunking_independent :
    (∀ (frames : List (UInt8 × Bytes)) (suffix : Bytes) (r : Reads),
      (∀ f ∈ frames, 1+f.2.length ≤ maxFrameLen) → r.bytes = rawFrames frames++suffix →
      (∀ k, k ≤ frames.length → ∃ r', readMany k r = some (frames.take k,r') ∧
        r'.bytes = rawFrames (frames.drop k)++suffix ∧ r'.failure = r.failure) ∧
      ∀ u : Reads, u.bytes = suffix → u.failure = r.failure →
        readFrames r = (frames++(readFrames u).1,(readFrames u).2)) ∧
    ∀ r r' : Reads, r'.bytes = r.bytes → r'.failure = r.failure → readFrames r' = readFrames r := by
  refine ⟨?_,fun r r' => readFrames_congr⟩
  intro frames suffix r hlen hr
  constructor
  · intro k hk
    have htake : (frames.take k).length = k := by
      rw [List.length_take]
      omega
    have h := readMany_rawFrames (frames.take k) (rawFrames (frames.drop k)++suffix) r
      (fun f hf => hlen f (List.mem_of_mem_take hf))
      (by rw [hr,← List.append_assoc,rawFrames,rawFrames,rawFrames,← List.flatMap_append,
        List.take_append_drop])
    rwa [htake] at h
  · intro u hu hf
    obtain ⟨r',hmany,hrest,hfail⟩ := readMany_rawFrames frames suffix r hlen hr
    rw [readFrames_of_many hmany,readFrames_congr (hu.trans hrest.symm) (hf.trans hfail.symm)]

/-- A frame in three reads, the last one of which has a byte of what follows. -/
def threeReads : Reads := ⟨[[0,0],[0,2,0x21],[1,0]],by decide,none⟩

theorem framing_chunking_independent_three_reads :
    (∃ r', readMany 1 threeReads = some ([(0x21,[1])],r') ∧ r'.bytes = [0]) ∧
    readFrames threeReads = ([(0x21,[1])]++(readFrames (Reads.whole [0])).1,
      (readFrames (Reads.whole [0])).2) ∧
    readFrames (Reads.whole [0,0,0,2,0x21,1,0]) = readFrames threeReads := by
  obtain ⟨hframes,hsplit⟩ := framing_chunking_independent
  obtain ⟨hmany,hall⟩ := hframes [(0x21,[1])] [0] threeReads (by decide) (by decide)
  obtain ⟨r',hread,hrest,-⟩ := hmany 1 (by decide)
  exact ⟨⟨r',hread,hrest⟩,hall (Reads.whole [0]) rfl rfl,hsplit _ _ rfl rfl⟩

/-! ### The last call -/

/-- The value of the length prefix. -/
def declared (r : Reads) : ℕ := beValue (r.bytes.take 4)

/-- Each outcome of a call, told by the bytes that are left: the end of the stream
when there are none, a bad length, a frame, and a truncation otherwise. -/
structure Classified (r : Reads) : Prop where
  ended : (∃ r', readFrame r = .ok (none,r')) ↔ r.bytes = []
  length : (∃ len, readFrame r = .error (.length len)) ↔
    4 ≤ r.bytes.length ∧ (declared r = 0 ∨ maxFrameLen < declared r)
  frame : (∃ f r', readFrame r = .ok (some f,r')) ↔
    4 ≤ r.bytes.length ∧ (1 ≤ declared r ∧ declared r ≤ maxFrameLen) ∧
      4+declared r ≤ r.bytes.length
  other : (∃ e, readFrame r = .error (.other e)) ↔
    (r.bytes ≠ [] ∧ r.bytes.length < 4) ∨
      (4 ≤ r.bytes.length ∧ (1 ≤ declared r ∧ declared r ≤ maxFrameLen) ∧
        r.bytes.length < 4+declared r)

/-- A stream that ends is classified unless it ends inside a length prefix. -/
theorem end_of_stream_classified_iff (r : Reads) (hf : r.failure = none) :
    Classified r ↔ r.bytes.length = 0 ∨ 4 ≤ r.bytes.length := by
  have hnext := readFrame_next r
  rw [hf] at hnext
  by_cases h4 : 4 ≤ r.bytes.length
  · refine iff_of_true ?_ (.inr h4)
    have hne : r.bytes ≠ [] := by
      rintro he
      simp [he] at h4
    have hnlt : ¬r.bytes.length < 4 := Nat.not_lt.mpr h4
    simp only [nextFrame,if_neg hnlt] at hnext
    rw [← declared] at hnext
    by_cases hrange : 1 ≤ declared r ∧ declared r ≤ maxFrameLen
    · have hin : ¬(declared r = 0 ∨ maxFrameLen < declared r) := by omega
      rw [if_pos hrange] at hnext
      by_cases hlen : 4+declared r ≤ r.bytes.length
      · rw [if_pos hlen] at hnext
        obtain ⟨r',hread,-⟩ := hnext
        constructor <;> simp [hread,hne,h4,hnlt,hrange,hin,hlen]
      · rw [if_neg hlen] at hnext
        have hshort := Nat.not_le.mp hlen
        constructor <;> simp [hnext,truncated,hne,h4,hnlt,hrange,hin,hlen,hshort]
    · have hout : declared r = 0 ∨ maxFrameLen < declared r := by omega
      rw [if_neg hrange] at hnext
      constructor <;> simp [hnext,hne,h4,hnlt,hrange,hout]
  · have hlt : r.bytes.length < 4 := Nat.not_le.mp h4
    simp only [nextFrame,if_pos hlt] at hnext
    obtain ⟨r',hread,-⟩ := hnext
    have hended : (∃ r', readFrame r = .ok (none,r')) := ⟨r',hread⟩
    constructor
    · intro h
      left
      rw [h.ended.mp hended,List.length_nil]
    · rintro (h0 | h0)
      · have hnil : r.bytes = [] := List.length_eq_zero_iff.mp h0
        constructor <;> simp [hread,hnil]
      · exact absurd h0 h4

theorem end_of_stream_classified_iff_body : Classified (Reads.whole [0,0,0,2,0x21]) :=
  (end_of_stream_classified_iff _ rfl).mpr (.inr (by decide))

/-- Two bytes of a length prefix, and then the end: not an error. -/
theorem length_cut_short : (Reads.whole [0,0]).failure = none ∧ (Reads.whole [0,0]).bytes = [0,0] ∧
    (∃ r', readFrame (Reads.whole [0,0]) = .ok (none,r')) ∧ ¬Classified (Reads.whole [0,0]) := by
  have hbytes : (Reads.whole [0,0]).bytes = [0,0] := rfl
  have hnext := readFrame_next (Reads.whole [0,0])
  rw [hbytes] at hnext
  obtain ⟨r',hread,-⟩ := hnext
  refine ⟨rfl,hbytes,⟨r',hread⟩,?_⟩
  intro h
  have hnil := h.ended.mp ⟨r',hread⟩
  rw [hbytes] at hnil
  cases hnil

end KeepTalkingSfu.FrameSequence
