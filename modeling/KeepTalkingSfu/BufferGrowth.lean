import KeepTalkingSfu.BufferReads
import KeepTalkingSfu.FrameReader

/-!
# The buffer of a frame body

The body loop once more, turn by turn and as the source writes it: every
subtraction can underflow, and nothing bounds the number of turns. A turn doubles
a full buffer, works out how much the next read may add, and reads. Whatever the
transport returns, the loop ends, no subtraction underflows, every read has room
for a byte and none for more than is missing, and the buffer is never larger than
the frame, nor than a step or twice what has arrived.
-/
namespace KeepTalkingSfu.BufferGrowth
open ByteTransport BufferReads WireFormat FrameReader

def checkedSub (a b : ℕ) : Except Fault ℕ := if b ≤ a then .ok (a-b) else .error .panicked

theorem checkedSub_of_le {a b : ℕ} (h : b ≤ a) : checkedSub a b = .ok (a-b) := if_pos h

/-- A full buffer is grown to its target. -/
def reserve (len : ℕ) (b : Buffer) : Except Fault Buffer :=
  if b.data.length = b.capacity then do
    let target := min (max (b.capacity*2) readStep) len
    let additional ← checkedSub target b.data.length
    pure { b with capacity := b.data.length+additional }
  else pure b

/-- What the next read is asked for. -/
def roomFor (len : ℕ) (b : Buffer) : Except Fault ℕ := do
  let missing ← checkedSub len b.data.length
  let free ← checkedSub b.capacity b.data.length
  pure (min missing free)

/-- One turn of the loop: the buffer it found, the buffer it read into, what it
asked for and how many bytes came. -/
structure Turn where
  found : Buffer
  grown : Buffer
  room : ℕ
  came : ℕ

inductive Ending where
  | full (b : Buffer) (r : Reads)
  | failed (e : FrameError)
  | panicked

/-- The loop from a buffer and a stream, with the turns it takes. -/
inductive Loop (len : ℕ) : Buffer → Reads → List Turn → Ending → Prop
  | done (b : Buffer) (r : Reads) : ¬b.data.length < len → Loop len b r [] (.full b r)
  | growPanic (b : Buffer) (r : Reads) : b.data.length < len → reserve len b = .error .panicked →
      Loop len b r [] .panicked
  | roomPanic (b b' : Buffer) (r : Reads) : b.data.length < len → reserve len b = .ok b' →
      roomFor len b' = .error .panicked → Loop len b r [] .panicked
  | readFailed (b b' : Buffer) (room : ℕ) (r : Reads) (e : String) : b.data.length < len →
      reserve len b = .ok b' → roomFor len b' = .ok room → r.read room = .error e →
      Loop len b r [⟨b,b',room,0⟩] (.failed (.other ("reading frame body: "++e)))
  | truncated (b b' : Buffer) (room : ℕ) (r r' : Reads) : b.data.length < len →
      reserve len b = .ok b' → roomFor len b' = .ok room → r.read room = .ok ([],r') →
      Loop len b r [⟨b,b',room,0⟩] (.failed (.other "truncated frame"))
  | turn (b b' : Buffer) (room : ℕ) (r r' : Reads) (bs : Bytes) (turns : List Turn) (out : Ending) :
      b.data.length < len → reserve len b = .ok b' → roomFor len b' = .ok room →
      r.read room = .ok (bs,r') → bs ≠ [] → Loop len { b' with data := b'.data++bs } r' turns out →
      Loop len b r (⟨b,b',room,bs.length⟩::turns) out

/-! ### The buffer -/

/-- The buffer is within the frame, and within a step or twice what it holds. -/
structure Modest (len : ℕ) (b : Buffer) : Prop extends Filling len b where
  doubled : b.capacity ≤ max readStep (2*b.data.length)

theorem modest_start (len : ℕ) : Modest len ⟨[],min len readStep⟩ where
  held := Nat.zero_le _
  capped := Nat.min_le_left _ _
  doubled := (Nat.min_le_right _ _).trans (Nat.le_max_left _ _)

theorem Modest.capacity_le {len : ℕ} {b : Buffer} (h : Modest len b) :
    b.capacity ≤ min len (max readStep (2*b.data.length)) := Nat.le_min.mpr ⟨h.capped,h.doubled⟩

/-- A turn that has bytes to read gets to its read, with room for one. -/
theorem Modest.prepared {len : ℕ} {b : Buffer} (h : Modest len b) (hlt : b.data.length < len) :
    reserve len b = .ok (b.grow len) ∧ roomFor len (b.grow len) = .ok ((b.grow len).room len) ∧
      Modest len (b.grow len) ∧ (b.grow len).data = b.data ∧
      1 ≤ (b.grow len).room len ∧ (b.grow len).room len ≤ len-b.data.length := by
  obtain ⟨hfilling,hdata,hroom⟩ := h.toFilling.grow hlt
  have hreserve : reserve len b = .ok (b.grow len) := by
    unfold reserve Buffer.grow
    split_ifs with hfull
    · have hle : b.data.length ≤ min (max (b.capacity*2) readStep) len := by
        have := h.held
        omega
      simp only [checkedSub_of_le hle]
      rfl
    · rfl
  have hroomFor : roomFor len (b.grow len) = .ok ((b.grow len).room len) := by
    have hlen : (b.grow len).data.length ≤ len := by
      rw [hdata]
      exact hlt.le
    simp only [roomFor,checkedSub_of_le hlen,checkedSub_of_le hfilling.held]
    rfl
  have hdoubled : (b.grow len).capacity ≤ max readStep (2*(b.grow len).data.length) := by
    rw [hdata]
    unfold Buffer.grow
    split_ifs with hfull
    · simp only
      omega
    · exact h.doubled
  refine ⟨hreserve,hroomFor,⟨hfilling,hdoubled⟩,hdata,hroom,?_⟩
  rw [← hdata]
  exact Nat.min_le_left _ _

theorem Modest.extend {len : ℕ} {b : Buffer} (h : Modest len b) {bs : Bytes}
    (hbs : bs.length ≤ b.room len) : Modest len { b with data := b.data++bs } where
  toFilling := h.toFilling.extend hbs
  doubled := by
    have := h.doubled
    simp only [List.length_append]
    omega

/-! ### The loop -/

/-- What every turn satisfies. -/
structure Turn.Sound (len : ℕ) (t : Turn) : Prop where
  asks : 1 ≤ t.room
  missing : t.room ≤ len-t.found.data.length
  within : t.came ≤ t.room
  same : t.grown.data = t.found.data
  found : t.found.capacity ≤ min len (max readStep (2*t.found.data.length))
  grown : t.grown.capacity ≤ min len (max readStep (2*t.found.data.length))

theorem read_length_le {r r' : Reads} {room : ℕ} {bs : Bytes} (h : r.read room = .ok (bs,r')) :
    bs.length ≤ room := by
  obtain ⟨chunks,hne,failure⟩ := r
  cases chunks with
  | nil =>
      cases failure with
      | none =>
          cases h
          exact Nat.zero_le _
      | some e => cases h
  | cons c cs =>
      rw [Reads.read] at h
      split_ifs at h with hc
      · cases h
        exact hc
      · cases h
        exact List.length_take_le _ _

/-- What is known of a turn that got to its read. -/
theorem turn_sound {len room : ℕ} {b b' : Buffer} (h : Modest len b) (hlt : b.data.length < len)
    (hreserve : reserve len b = .ok b') (hroom : roomFor len b' = .ok room) (came : ℕ)
    (hcame : came ≤ room) :
    b' = b.grow len ∧ room = (b.grow len).room len ∧ Turn.Sound len ⟨b,b',room,came⟩ := by
  obtain ⟨hreserve',hroom',hmodest,hdata,hone,hmissing⟩ := h.prepared hlt
  rw [hreserve'] at hreserve
  cases hreserve
  rw [hroom'] at hroom
  cases hroom
  refine ⟨rfl,rfl,⟨hone,hmissing,hcame,hdata,h.capacity_le,?_⟩⟩
  rw [← hdata]
  exact hmodest.capacity_le

theorem Modest.turned {len : ℕ} {b : Buffer} (h : Modest len b) (hlt : b.data.length < len) {bs : Bytes}
    (hbs : bs.length ≤ (b.grow len).room len) :
    Modest len { b.grow len with data := (b.grow len).data++bs } ∧
      ({ b.grow len with data := (b.grow len).data++bs } : Buffer).data.length =
        b.data.length+bs.length := by
  obtain ⟨-,-,hmodest,hdata,-,-⟩ := h.prepared hlt
  exact ⟨hmodest.extend hbs,by rw [List.length_append,hdata]⟩

/-- What every run of the loop satisfies. -/
structure Sound (len received : ℕ) (turns : List Turn) (out : Ending) : Prop where
  each : ∀ t ∈ turns, t.Sound len
  safe : out ≠ .panicked
  reads : (turns.filter fun t => 0 < t.came).length+received ≤ len
  exact : ∀ b r, out = .full b r → b.data.length = len ∧ b.capacity = len

theorem Loop.sound {len : ℕ} {b : Buffer} {r : Reads} {turns : List Turn} {out : Ending}
    (h : Loop len b r turns out) (hb : Modest len b) : Sound len b.data.length turns out := by
  have hle : b.data.length ≤ len := hb.held.trans hb.capped
  induction h with
  | done b r hdone =>
      refine ⟨nofun,nofun,by simpa using hle,?_⟩
      intro b' r' hfull
      cases hfull
      have := hb.held
      have := hb.capped
      omega
  | growPanic b r hlt hpanic =>
      rw [(hb.prepared hlt).1] at hpanic
      cases hpanic
  | roomPanic b b' r hlt hreserve hpanic =>
      obtain ⟨hreserve',hroom',-⟩ := hb.prepared hlt
      rw [hreserve'] at hreserve
      cases hreserve
      rw [hroom'] at hpanic
      cases hpanic
  | readFailed b b' room r e hlt hreserve hroom hread | truncated b b' room r r' hlt hreserve hroom hread =>
      obtain ⟨-,-,hsound⟩ := turn_sound hb hlt hreserve hroom 0 (Nat.zero_le _)
      refine ⟨?_,nofun,by simpa using hle,nofun⟩
      intro t ht
      rwa [List.mem_singleton.mp ht]
  | turn b b' room r r' bs turns out hlt hreserve hroom hread hbs _ ih =>
      obtain ⟨rfl,rfl,hsound⟩ := turn_sound hb hlt hreserve hroom bs.length (read_length_le hread)
      obtain ⟨hmodest,hlen⟩ := hb.turned hlt (read_length_le hread)
      have hrest := ih hmodest (hmodest.held.trans hmodest.capped)
      have hpos := List.length_pos_iff.mpr hbs
      refine ⟨?_,hrest.safe,?_,hrest.exact⟩
      · intro t ht
        rcases List.mem_cons.mp ht with rfl | ht
        · exact hsound
        · exact hrest.each t ht
      · have hreads := hrest.reads
        rw [hlen] at hreads
        rw [List.filter_cons_of_pos (by simpa using hpos),List.length_cons]
        omega

/-- The loop ends, whatever the reads return. -/
theorem loop_ends {len : ℕ} {b : Buffer} (hb : Modest len b) (r : Reads) :
    ∃ turns out, Loop len b r turns out := by
  induction hn : len-b.data.length using Nat.strong_induction_on generalizing b r with
  | _ n ih =>
    by_cases hlt : b.data.length < len
    · obtain ⟨hreserve,hroom,hmodest,hdata,hone,hmissing⟩ := hb.prepared hlt
      cases hread : r.read ((b.grow len).room len) with
      | error e => exact ⟨_,_,.readFailed b _ _ r e hlt hreserve hroom hread⟩
      | ok x =>
          obtain ⟨bs,r'⟩ := x
          by_cases hbs : bs = []
          · subst hbs
            exact ⟨_,_,.truncated b _ _ r r' hlt hreserve hroom hread⟩
          · obtain ⟨hmodest,hlen⟩ := hb.turned hlt (read_length_le hread)
            have hpos := List.length_pos_iff.mpr hbs
            obtain ⟨turns,out,hloop⟩ := ih _ (by rw [hlen]; omega) hmodest r' rfl
            exact ⟨_,out,.turn b _ _ r r' bs turns out hlt hreserve hroom hread hbs hloop⟩
    · exact ⟨[],_,.done b r hlt⟩

def Ending.result : Ending → Except FrameError (Buffer × Reads)
  | .full b r => .ok (b,r)
  | .failed e => .error e
  | .panicked => .error (.other "")

theorem Loop.fillBody {len fuel : ℕ} {b : Buffer} {r : Reads} {turns : List Turn} {out : Ending}
    (h : Loop len b r turns out) (hb : Modest len b) (hfuel : len-b.data.length ≤ fuel) :
    FrameReader.fillBody len fuel b r = out.result := by
  induction h generalizing fuel with
  | done b r hdone =>
      cases fuel with
      | zero => rfl
      | succ fuel => simp only [FrameReader.fillBody,if_neg hdone,Ending.result]
  | growPanic b r hlt hpanic => exact absurd rfl ((Loop.growPanic b r hlt hpanic).sound hb).safe
  | roomPanic b b' r hlt hreserve hpanic =>
      exact absurd rfl ((Loop.roomPanic b b' r hlt hreserve hpanic).sound hb).safe
  | readFailed b b' room r e hlt hreserve hroom hread | truncated b b' room r r' hlt hreserve hroom hread =>
      obtain ⟨rfl,rfl,-⟩ := turn_sound hb hlt hreserve hroom 0 (Nat.zero_le _)
      obtain ⟨fuel,rfl⟩ : ∃ k, fuel = k+1 := ⟨fuel-1,by omega⟩
      simp only [FrameReader.fillBody,if_pos hlt,hread,if_true,Ending.result]
  | turn b b' room r r' bs turns out hlt hreserve hroom hread hbs _ ih =>
      obtain ⟨rfl,rfl,-⟩ := turn_sound hb hlt hreserve hroom bs.length (read_length_le hread)
      obtain ⟨hmodest,hlen⟩ := hb.turned hlt (read_length_le hread)
      have hpos := List.length_pos_iff.mpr hbs
      obtain ⟨fuel,rfl⟩ : ∃ k, fuel = k+1 := ⟨fuel-1,by omega⟩
      simp only [FrameReader.fillBody,if_pos hlt,hread,if_neg hbs]
      exact ih hmodest (by rw [hlen]; omega)

/-- **The buffer of a frame body** grows as bytes arrive: the loop ends within as many
reads as the frame has bytes, without an underflow, every read has room for a byte
and for no more than is missing, the capacity stays within the frame and within a
step or twice what has arrived, and a complete frame fills its buffer exactly. -/
theorem frame_buffer_growth (len : ℕ) (r : Reads) :
    (∃ turns out, Loop len ⟨[],min len readStep⟩ r turns out) ∧
    ∀ turns out, Loop len ⟨[],min len readStep⟩ r turns out →
      Sound len 0 turns out ∧ fillBody len len ⟨[],min len readStep⟩ r = out.result := by
  have hstart := modest_start len
  refine ⟨loop_ends hstart r,?_⟩
  intro turns out hloop
  exact ⟨hloop.sound hstart,hloop.fillBody hstart (by simp)⟩

/-- Three bytes in two reads. -/
def twoReads : Reads := ⟨[[0x21],[1,2]],by decide,none⟩

theorem frame_buffer_growth_two_reads : ∃ turns b r', Loop 3 ⟨[],3⟩ twoReads turns (.full b r') ∧
    turns.map Turn.room = [3,2] ∧ b.data = [0x21,1,2] ∧ b.capacity = 3 := by
  have hloop : Loop 3 ⟨[],3⟩ twoReads [⟨⟨[],3⟩,⟨[],3⟩,3,1⟩,⟨⟨[0x21],3⟩,⟨[0x21],3⟩,2,2⟩]
      (.full ⟨[0x21,1,2],3⟩ ⟨[],nofun,none⟩) :=
    .turn _ _ _ _ _ [0x21] _ _ (by decide) rfl rfl rfl (by decide)
      (.turn _ _ _ _ _ [1,2] _ _ (by decide) rfl rfl rfl (by decide) (.done _ _ (by decide)))
  have hsound := ((frame_buffer_growth 3 twoReads).2 _ _ hloop).1
  exact ⟨_,_,_,hloop,rfl,rfl,(hsound.exact _ _ rfl).2⟩

end KeepTalkingSfu.BufferGrowth
