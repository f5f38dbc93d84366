import Mathlib.Data.List.Basic
import Mathlib.Tactic.Ring

/-!
# Byte strings, big-endian words and byte transports

The general part of the wire layer; nothing here names a frame. A receiving
stream is the list of byte groups its reads will return, so one byte string
has as many streams as it has splittings, and a reader is independent of the
transport when its result depends on the concatenation only. A read of zero
bytes is the end of the stream; a stream may also end in a transport error.

A sending stream is a plan: what each successive write call does. A write
takes at least one byte of what it is offered, or it fails.
-/
namespace KeepTalkingSfu.ByteTransport

abbrev Bytes := List UInt8

/-! ### Big-endian words -/

def putU16 (n : ℕ) : Bytes := [UInt8.ofNat (n/256),UInt8.ofNat n]

def putU32 (n : ℕ) : Bytes :=
  [UInt8.ofNat (n/16777216),UInt8.ofNat (n/65536),UInt8.ofNat (n/256),UInt8.ofNat n]

/-- The big-endian value of a byte string of any length. -/
def beValue (bs : Bytes) : ℕ := bs.foldl (fun v b => 256*v+b.toNat) 0

@[simp] theorem putU16_length (n : ℕ) : (putU16 n).length = 2 := rfl

@[simp] theorem putU32_length (n : ℕ) : (putU32 n).length = 4 := rfl

/-- Writing keeps the low 16 bits only. -/
theorem beValue_putU16 (n : ℕ) : beValue (putU16 n) = n%65536 := by
  simp only [beValue,putU16,List.foldl_cons,List.foldl_nil,UInt8.toNat_ofNat']
  omega

theorem beValue_putU32 (n : ℕ) : beValue (putU32 n) = n%4294967296 := by
  simp only [beValue,putU32,List.foldl_cons,List.foldl_nil,UInt8.toNat_ofNat']
  omega

/-! ### Receiving -/

/-- What the reads of a stream return, in order, and how the stream ends:
`none` is a clean end, `some` a transport error. -/
structure Reads where
  chunks : List Bytes
  nonempty : ∀ c ∈ chunks, c ≠ []
  failure : Option String

/-- Everything the stream will ever deliver. -/
def Reads.bytes (r : Reads) : Bytes := r.chunks.flatten

/-- The stream that delivers a byte string in one piece and then ends. -/
def Reads.whole (bs : Bytes) : Reads :=
  ⟨if bs = [] then [] else [bs],by intro c hc; split_ifs at hc <;> simp_all,none⟩

@[simp] theorem Reads.whole_bytes (bs : Bytes) : (Reads.whole bs).bytes = bs := by
  unfold Reads.whole Reads.bytes
  split_ifs with h <;> simp [h]

/-- One read into a buffer of `room` bytes. An empty result means the stream
has ended (or that there was no room). -/
def Reads.read (room : ℕ) : Reads → Except String (Bytes × Reads)
  | ⟨[],h,none⟩ => .ok ([],⟨[],h,none⟩)
  | ⟨[],_,some e⟩ => .error e
  | ⟨c::cs,h,f⟩ =>
      if hc : c.length ≤ room then
        .ok (c,⟨cs,fun d hd => h d (List.mem_cons_of_mem _ hd),f⟩)
      else
        .ok (c.take room,⟨c.drop room::cs,by
          intro d hd
          rcases List.mem_cons.mp hd with rfl | hd
          · simpa using hc
          · exact h d (List.mem_cons_of_mem _ hd),f⟩)

/-- While bytes remain, a read with room takes a nonempty piece of them. -/
theorem Reads.read_some (r : Reads) {room : ℕ} (hr : 0 < room) (hb : r.bytes ≠ []) :
    ∃ bs r', r.read room = .ok (bs,r') ∧ bs ≠ [] ∧ bs.length ≤ room ∧
      r.bytes = bs++r'.bytes ∧ r'.failure = r.failure := by
  obtain ⟨chunks,h,f⟩ := r
  cases chunks with
  | nil => exact (hb rfl).elim
  | cons c cs =>
      have hc := h c List.mem_cons_self
      by_cases hl : c.length ≤ room
      · refine ⟨c,⟨cs,fun d hd => h d (List.mem_cons_of_mem _ hd),f⟩,?_,hc,hl,?_,rfl⟩
        · rw [Reads.read,dif_pos hl]
        · simp [Reads.bytes]
      · have hd : ∀ d ∈ c.drop room::cs, d ≠ [] := by
          intro d hd
          rcases List.mem_cons.mp hd with rfl | hd
          · simpa using hl
          · exact h d (List.mem_cons_of_mem _ hd)
        refine ⟨c.take room,⟨c.drop room::cs,hd,f⟩,?_,?_,by simp,?_,rfl⟩
        · rw [Reads.read,dif_neg hl]
        · intro he
          rcases List.take_eq_nil_iff.mp he with h0 | h0
          · omega
          · exact hc h0
        · simp [Reads.bytes,← List.append_assoc]

theorem Reads.read_none (r : Reads) (room : ℕ) (hb : r.bytes = []) :
    r.read room = match r.failure with
      | none => .ok ([],r)
      | some e => .error e := by
  obtain ⟨chunks,h,f⟩ := r
  cases chunks with
  | nil => cases f <;> rfl
  | cons c cs =>
      have hc := h c List.mem_cons_self
      simp [Reads.bytes,hc] at hb

/-- Why a read of a fixed number of bytes did not complete. -/
inductive ExactError where
  | unexpectedEof
  | failed (e : String)
  deriving DecidableEq, Repr

/-- Reads until `missing` further bytes have arrived. -/
def Reads.readExact (missing : ℕ) (acc : Bytes) (r : Reads) :
    Except ExactError (Bytes × Reads) :=
  if missing = 0 then .ok (acc,r) else
    match r.read missing with
    | .error e => .error (.failed e)
    | .ok (bs,r') =>
        if bs = [] then .error .unexpectedEof
        else readExact (missing-bs.length) (acc++bs) r'
termination_by missing
decreasing_by
  have := List.length_pos_iff.mpr ‹bs ≠ []›
  omega

/-- How a stream that is out of bytes answers a read that still wants some. -/
def Reads.shortfall (r : Reads) : ExactError :=
  match r.failure with
  | none => .unexpectedEof
  | some e => .failed e

/-- An exact read takes the next bytes of the stream, however they were split. -/
theorem Reads.readExact_enough (missing : ℕ) (acc : Bytes) (r : Reads)
    (h : missing ≤ r.bytes.length) :
    ∃ r', r.readExact missing acc = .ok (acc++r.bytes.take missing,r') ∧
      r'.bytes = r.bytes.drop missing ∧ r'.failure = r.failure := by
  induction missing using Nat.strong_induction_on generalizing acc r with
  | _ missing ih =>
    by_cases hm : missing = 0
    · subst hm
      exact ⟨r,by rw [Reads.readExact]; simp,by simp,rfl⟩
    · have hne : r.bytes ≠ [] := by
        intro he
        simp [he] at h
        exact hm h
      obtain ⟨bs,r₁,hread,hbs,hle,hsplit,hf⟩ := r.read_some (Nat.pos_of_ne_zero hm) hne
      have hpos := List.length_pos_iff.mpr hbs
      obtain ⟨r₂,hgo,hrest,hf₂⟩ := ih (missing-bs.length) (by omega) (acc++bs) r₁
        (by rw [hsplit,List.length_append] at h; omega)
      refine ⟨r₂,?_,?_,hf₂.trans hf⟩
      · rw [Reads.readExact,if_neg hm,hread]
        simp only [if_neg hbs,hgo,hsplit,List.take_append,List.take_of_length_le hle,
          List.append_assoc]
      · rw [hrest,hsplit,List.drop_append,List.drop_of_length_le hle,List.nil_append]

theorem Reads.readExact_short (missing : ℕ) (acc : Bytes) (r : Reads)
    (h : r.bytes.length < missing) : r.readExact missing acc = .error r.shortfall := by
  induction missing using Nat.strong_induction_on generalizing acc r with
  | _ missing ih =>
    have hm : missing ≠ 0 := by omega
    by_cases hb : r.bytes = []
    · rw [Reads.readExact,if_neg hm,r.read_none missing hb,Reads.shortfall]
      cases r.failure <;> simp
    · obtain ⟨bs,r₁,hread,hbs,hle,hsplit,hf⟩ := r.read_some (Nat.pos_of_ne_zero hm) hb
      have hpos := List.length_pos_iff.mpr hbs
      have hs : r.shortfall = r₁.shortfall := by rw [Reads.shortfall,Reads.shortfall,hf]
      rw [Reads.readExact,if_neg hm,hread]
      simp only [if_neg hbs,hs]
      exact ih _ (by omega) _ _ (by rw [hsplit,List.length_append] at h; omega)

/-! ### Sending -/

/-- Drops the first `n` bytes of a list of chunks, in place. -/
def advance : ℕ → List Bytes → List Bytes
  | _,[] => []
  | n,c::cs => if c.length ≤ n then advance (n-c.length) cs else c.drop n::cs

theorem flatten_advance (n : ℕ) (cs : List Bytes) :
    (advance n cs).flatten = cs.flatten.drop n := by
  induction cs generalizing n with
  | nil => simp [advance]
  | cons c cs ih =>
      simp only [advance]
      split_ifs with h
      · rw [ih,List.flatten_cons,List.drop_append,List.drop_of_length_le h,List.nil_append]
      · simp [List.drop_append_of_le_length (by omega : n ≤ c.length)]

/-- One write call: how many further bytes than the first it took, or that it
failed. -/
inductive WriteOutcome where
  | took (extra : ℕ)
  | closed
  | stalled
  deriving DecidableEq, Repr

/-- A plan under which every write call makes progress. -/
def Flowing (plan : ℕ → WriteOutcome) : Prop := ∀ i, ∃ n, plan i = .took n

end KeepTalkingSfu.ByteTransport
