import KeepTalkingSfu.MalformedFrames
import KeepTalkingSfu.StreamCuts

/-!
# Lanes whose writes fail

A write on a long-lived lane can fail half-way. Both ends then give the stream up and
open another for the next frame, so a stream that has a part of a frame on it never gets
another byte. Every frame is whole on one stream, or is the one its stream was given up
at, or found no stream to be opened; and whoever reads a stream, however much of it
arrives, reads the first of its whole frames, in order, and nothing it has to skip or
that ends the connection.
-/
namespace KeepTalkingSfu.LaneCuts
open ByteTransport WireFormat FrameCodec FrameReader FrameSequence StreamWriters LaneStream
  MalformedFrames StreamCuts

/-! ### Streams and what is on them -/

/-- What one stream was given: the frames that are whole on it, the one it was given up
at, and its bytes, if it could be opened. -/
structure Stretch (A : Type) where
  whole : List A
  lost : Option A
  stream : Option Bytes

section
variable {A : Type} (enc : A → Bytes) (lane : Lane)

def Stretch.frames (x : Stretch A) : List A := x.whole++x.lost.toList

/-- The bytes are the lane byte, the whole frames, and at most a part of the lost one. -/
inductive OnStream : Stretch A → Prop
  | whole (fs : List A) : OnStream ⟨fs,none,some (lane.byte::fs.flatMap enc)⟩
  | torn (fs : List A) (f : A) (cut : Bytes) : cut <+: enc f → cut.length < (enc f).length →
      OnStream ⟨fs,some f,some (lane.byte::fs.flatMap enc++cut)⟩
  | bare (f : A) : OnStream ⟨[],some f,some []⟩
  | unopened (f : A) : OnStream ⟨[],some f,none⟩

/-- The streams of a lane, opened one after the other, account for all its frames but
those behind the last. -/
structure Laid (xs : List (Stretch A)) (streams : List Bytes) (frames rest : List A) : Prop where
  stretches : ∀ x ∈ xs, OnStream enc lane x
  streams : xs.filterMap Stretch.stream = streams
  frames : frames = xs.flatMap Stretch.frames++rest

variable {enc lane}

theorem Laid.cons {x : Stretch A} {xs : List (Stretch A)} {streams : List Bytes}
    {frames rest : List A} (hx : OnStream enc lane x) (h : Laid enc lane xs streams frames rest) :
    Laid enc lane (x::xs) (x.stream.toList++streams) (x.frames++frames) rest := by
  refine ⟨?_,?_,?_⟩
  · intro y hy
    rcases List.mem_cons.mp hy with rfl | hy
    · exact hx
    · exact h.stretches y hy
  · rw [← h.streams]
    cases hs : x.stream <;> simp [hs]
  · rw [h.frames,List.flatMap_cons,List.append_assoc]

theorem Laid.mem {x : Stretch A} {xs : List (Stretch A)} {streams : List Bytes}
    {frames rest : List A} (h : Laid enc lane xs streams frames rest) (hx : x ∈ xs) :
    ∀ f ∈ x.frames, f ∈ frames := by
  intro f hf
  rw [h.frames]
  exact List.mem_append_left _ (List.mem_flatMap.mpr ⟨x,hx,hf⟩)

theorem Laid.one {x : Stretch A} (hx : OnStream enc lane x) (rest : List A) :
    Laid enc lane [x] x.stream.toList (x.frames++rest) rest := by
  have hnil : Laid enc lane [] [] rest rest := ⟨List.forall_mem_nil _,rfl,rfl⟩
  simpa using Laid.cons hx hnil

theorem onStream_first {f : A} {written : Bytes} (hpre : written <+: lane.byte::enc f)
    (hlt : written.length < (lane.byte::enc f).length) : OnStream enc lane ⟨[],some f,some written⟩ := by
  cases written with
  | nil => exact .bare f
  | cons b cut =>
      obtain ⟨rfl,hcut⟩ := List.cons_prefix_cons.mp hpre
      exact .torn [] f cut hcut (by simpa using hlt)

end

/-! ### The writers -/

/-- The DELIVER of a topic and a payload. -/
def delivering (x : Topic × Bytes) : Deliver := Deliver.new x.1.bytes x.2

def deliverBytes (x : Topic × Bytes) : Bytes := (delivering x).chunks.flatten

theorem laneWriter_laid (plan : ℕ → WriteOutcome) (lost : ℕ → Bool) (lane : Lane) (k : ℕ)
    (g : Option (List (Topic × Bytes))) (ds : List (Topic × Bytes)) :
    ∃ xs rest, Laid deliverBytes lane xs
        (laneWriter plan lost lane k (g.map fun g => lane.byte::g.flatMap deliverBytes)
          (ds.map delivering)).1 (g.getD []++ds) rest ∧
      ((laneWriter plan lost lane k (g.map fun g => lane.byte::g.flatMap deliverBytes)
        (ds.map delivering)).2 = .finished → rest = []) := by
  induction ds generalizing k g with
  | nil =>
      cases g with
      | none => exact ⟨[],[],⟨List.forall_mem_nil _,rfl,rfl⟩,fun _ => rfl⟩
      | some g =>
          have hx : OnStream deliverBytes lane ⟨g,none,some (lane.byte::g.flatMap deliverBytes)⟩ :=
            .whole g
          refine ⟨[⟨g,none,some (lane.byte::g.flatMap deliverBytes)⟩],[],?_,fun _ => rfl⟩
          simpa [Stretch.frames,laneWriter] using Laid.one hx []
  | cons d ds ih =>
      cases g with
      | none =>
          simp only [Option.map_none,Option.getD_none,List.nil_append,List.map_cons,laneWriter]
          have hopen := ih (k+1) none
          cases plan k with
          | stalled => exact ⟨_,ds,Laid.one (.unopened d) ds,fun h => by cases h⟩
          | closed =>
              simp only
              split_ifs
              · exact ⟨_,ds,Laid.one (.unopened d) ds,fun h => by cases h⟩
              · obtain ⟨xs,rest,hlaid,hrest⟩ := hopen
                exact ⟨_,rest,Laid.cons (.unopened d) hlaid,hrest⟩
          | took n =>
              have hwritten := writeChunks_written plan (k+1) (lane.prefixBytes::(delivering d).chunks)
              have hflat : (lane.prefixBytes::(delivering d).chunks).flatten =
                  lane.byte::deliverBytes d := by
                simp [Lane.prefixBytes,deliverBytes]
              rw [hflat] at hwritten
              simp only
              split <;> rename_i written k₁ heq <;> rw [heq] at hwritten
              · obtain ⟨-,hall⟩ := hwritten
                simp only at hall
                obtain ⟨xs,rest,hlaid,hrest⟩ := ih k₁ (some [d])
                simp only [Option.map_some,List.flatMap_singleton,← hall,Option.getD_some] at hlaid hrest
                exact ⟨xs,rest,hlaid,hrest⟩
              · have hx := onStream_first hwritten.1 hwritten.2
                split_ifs
                · exact ⟨_,ds,Laid.one hx ds,fun h => by cases h⟩
                · obtain ⟨xs,rest,hlaid,hrest⟩ := ih k₁ none
                  exact ⟨_,rest,Laid.cons hx hlaid,hrest⟩
              · exact ⟨_,ds,Laid.one (onStream_first hwritten.1 hwritten.2) ds,fun h => by cases h⟩
      | some g =>
          simp only [Option.map_some,Option.getD_some,List.map_cons,laneWriter]
          have hwritten := writeChunks_written plan k (delivering d).chunks
          split <;> rename_i written k₁ heq <;> rw [heq] at hwritten
          · obtain ⟨-,hall⟩ := hwritten
            simp only at hall
            obtain ⟨xs,rest,hlaid,hrest⟩ := ih k₁ (some (g++[d]))
            have hsent : lane.byte::(g++[d]).flatMap deliverBytes =
                lane.byte::g.flatMap deliverBytes++written := by
              simp [hall,deliverBytes]
            simp only [Option.map_some,hsent,Option.getD_some,List.append_assoc,
              List.singleton_append] at hlaid hrest
            exact ⟨xs,rest,hlaid,hrest⟩
          · have hx : OnStream deliverBytes lane
                ⟨g,some d,some (lane.byte::g.flatMap deliverBytes++written)⟩ :=
              .torn g d written hwritten.1 hwritten.2
            split_ifs
            · refine ⟨[⟨g,some d,some (lane.byte::g.flatMap deliverBytes++written)⟩],ds,?_,fun h => by cases h⟩
              simpa [Stretch.frames] using Laid.one hx ds
            · obtain ⟨xs,rest,hlaid,hrest⟩ := ih k₁ none
              refine ⟨⟨g,some d,some (lane.byte::g.flatMap deliverBytes++written)⟩::xs,rest,?_,hrest⟩
              simpa [Stretch.frames] using Laid.cons hx hlaid
          · have hx : OnStream deliverBytes lane
                ⟨g,some d,some (lane.byte::g.flatMap deliverBytes++written)⟩ :=
              .torn g d written hwritten.1 hwritten.2
            refine ⟨[⟨g,some d,some (lane.byte::g.flatMap deliverBytes++written)⟩],ds,?_,fun h => by cases h⟩
            simpa [Stretch.frames] using Laid.one hx ds

section
variable {Id : Type} [EndpointKey Id]

theorem sendLongLived_laid (plan : ℕ → WriteOutcome) (lane : Lane) (k : ℕ)
    (g : Option (List (ClientFrame Id))) (fs : List (ClientFrame Id)) :
    ∃ xs, Laid ClientFrame.encode lane xs
      (sendLongLived plan lane k (g.map fun g => lane.byte::g.flatMap ClientFrame.encode) fs)
      (g.getD []++fs) [] := by
  induction fs generalizing k g with
  | nil =>
      cases g with
      | none => exact ⟨[],List.forall_mem_nil _,rfl,rfl⟩
      | some g =>
          have hx : OnStream ClientFrame.encode lane
              ⟨g,none,some (lane.byte::g.flatMap ClientFrame.encode)⟩ := .whole g
          refine ⟨[⟨g,none,some (lane.byte::g.flatMap ClientFrame.encode)⟩],?_⟩
          simpa [Stretch.frames,sendLongLived] using Laid.one hx []
  | cons f fs ih =>
      cases g with
      | none =>
          simp only [Option.map_none,Option.getD_none,List.nil_append,sendLongLived]
          have hopen := ih (k+1) none
          cases plan k with
          | closed | stalled =>
              obtain ⟨xs,hlaid⟩ := hopen
              exact ⟨_,Laid.cons (.unopened f) hlaid⟩
          | took n =>
              have hwritten := writeChunks_written plan (k+1) [lane.prefixBytes,f.encode]
              have hflat : [lane.prefixBytes,f.encode].flatten = lane.byte::f.encode := by
                simp [Lane.prefixBytes]
              rw [hflat] at hwritten
              simp only
              split <;> rename_i heq <;> rw [heq] at hwritten
              · obtain ⟨-,hall⟩ := hwritten
                simp only at hall
                obtain ⟨xs,hlaid⟩ := ih _ (some [f])
                simp only [Option.map_some,List.flatMap_singleton,← hall,Option.getD_some] at hlaid
                exact ⟨xs,hlaid⟩
              · obtain ⟨xs,hlaid⟩ := ih _ none
                exact ⟨_,Laid.cons (onStream_first hwritten.1 hwritten.2) hlaid⟩
      | some g =>
          simp only [Option.map_some,Option.getD_some,sendLongLived]
          have hwritten := writeChunks_written plan k [f.encode]
          rw [List.flatten_singleton] at hwritten
          split <;> rename_i heq <;> rw [heq] at hwritten
          · next written k₁ =>
            obtain ⟨-,hall⟩ := hwritten
            simp only at hall
            obtain ⟨xs,hlaid⟩ := ih k₁ (some (g++[f]))
            have hsent : lane.byte::(g++[f]).flatMap ClientFrame.encode =
                lane.byte::g.flatMap ClientFrame.encode++written := by
              simp [hall]
            simp only [Option.map_some,hsent,Option.getD_some,List.append_assoc,
              List.singleton_append] at hlaid
            exact ⟨xs,hlaid⟩
          · next written k₁ failure =>
            have hx : OnStream ClientFrame.encode lane
                ⟨g,some f,some (lane.byte::g.flatMap ClientFrame.encode++written)⟩ :=
              .torn g f written hwritten.1 hwritten.2
            obtain ⟨xs,hlaid⟩ := ih k₁ none
            refine ⟨⟨g,some f,some (lane.byte::g.flatMap ClientFrame.encode++written)⟩::xs,?_⟩
            simpa [Stretch.frames] using Laid.cons hx hlaid

end

/-! ### The readers -/

section
variable {A : Type} {enc : A → Bytes} {lane : Lane} {raw : A → UInt8 × Bytes}

/-- What a reader finds of the frames on a stream: nothing, or the lane byte and the first
of them, and no length out of range. `all` says that everything has arrived. -/
def Finds (lane : Lane) (frames : List (UInt8 × Bytes)) (all : Prop) (r : Reads) : Prop :=
  (r.bytes = [] ∧ (all → frames = [])) ∨
  ∃ r', readLaneByte r = .ok (some lane.byte,r') ∧ (readFrames r').1 <+: frames ∧
    (∀ len, (readFrames r').2 ≠ .failed (.length len)) ∧ (all → (readFrames r').1 = frames)

/-- The frames a reader of a lane stream reads never end at a length out of range. -/
def LengthsFine (r : Reads) : Prop :=
  ∀ byte r', readLaneByte r = .ok (byte,r') → ∀ len, (readFrames r').2 ≠ .failed (.length len)

theorem Finds.lengthsFine {frames : List (UInt8 × Bytes)} {all : Prop} {r : Reads}
    (h : Finds lane frames all r) : LengthsFine r := by
  intro byte r' hread
  rcases h with ⟨hempty,-⟩ | ⟨u,hbyte,-,hend,-⟩
  · have hshort := r.readExact_short 1 [] (by rw [hempty]; decide)
    unfold readLaneByte at hread
    rw [hshort] at hread
    unfold Reads.shortfall at hread
    cases hf : r.failure with
    | some e => simp [hf] at hread
    | none =>
        simp only [hf,Except.ok.injEq,Prod.mk.injEq] at hread
        obtain ⟨-,rfl⟩ := hread
        exact (readFrames_torn (f := (0,[])) (r := ⟨[],by simp,none⟩) (by decide) List.nil_prefix
          (by decide)).2
  · rw [hbyte] at hread
    cases hread
    exact hend

/-- Frames whose encoding is a raw frame within the limit. -/
def Encodes (enc : A → Bytes) (raw : A → UInt8 × Bytes) (f : A) : Prop :=
  enc f = rawFrame (raw f).1 (raw f).2 ∧ 1+(raw f).2.length ≤ maxFrameLen

theorem flatMap_encodes {fs : List A} (h : ∀ f ∈ fs, Encodes enc raw f) :
    fs.flatMap enc = rawFrames (fs.map raw) := by
  rw [rawFrames,List.flatMap_map]
  exact List.flatMap_congr fun f hf => (h f hf).1

theorem lengths_encodes {fs : List A} (h : ∀ f ∈ fs, Encodes enc raw f) :
    ∀ g ∈ fs.map raw, 1+g.2.length ≤ maxFrameLen := by
  intro g hg
  obtain ⟨f,hf,rfl⟩ := List.mem_map.mp hg
  exact (h f hf).2

theorem finds_cut {fs : List (UInt8 × Bytes)} {f : UInt8 × Bytes} {cut : Bytes} {r : Reads}
    (hfs : ∀ g ∈ fs, 1+g.2.length ≤ maxFrameLen) (hf : 1+f.2.length ≤ maxFrameLen)
    (hcut : cut <+: rawFrame f.1 f.2) (hlt : cut.length < (rawFrame f.1 f.2).length)
    (hr : r.bytes <+: lane.byte::rawFrames fs++cut) :
    Finds lane fs (r.bytes = lane.byte::rawFrames fs++cut) r := by
  cases hb : r.bytes with
  | nil => exact .inl ⟨hb,nofun⟩
  | cons b bs =>
      rw [hb] at hr
      obtain ⟨rfl,hbs⟩ := List.cons_prefix_cons.mp hr
      obtain ⟨r',hbyte,hr',-⟩ := readLaneByte_cons r lane.byte bs hb
      refine .inr ⟨r',hbyte,?_⟩
      have hpre : r'.bytes <+: (Reads.whole (rawFrames fs++cut)).bytes := by
        rw [hr',Reads.whole_bytes]
        exact hbs
      have hfirst := readFrames_longer hpre
      rw [(readFrames_cut hfs hf hcut hlt (Reads.whole_bytes _)).1] at hfirst
      have harrived : r'.bytes <+: rawFrames (fs++[f]) := by
        rw [rawFrames,List.flatMap_append,List.flatMap_singleton,hr']
        exact hbs.trans (List.prefix_append_right_inj _ |>.mpr hcut)
      have hlen : ∀ g ∈ fs++[f], 1+g.2.length ≤ maxFrameLen := by
        intro g hg
        rcases List.mem_append.mp hg with hg | hg
        · exact hfs g hg
        · rwa [List.mem_singleton.mp hg]
      refine ⟨hfirst,(readFrames_arrived hlen harrived).2,fun hall => ?_⟩
      refine (readFrames_cut hfs hf hcut hlt ?_).1
      rw [hr']
      exact (List.cons_eq_cons.mp hall).2

/-- A reader of any part of a stream finds the first of the frames that are whole on it. -/
theorem OnStream.finds {x : Stretch A} {bytes : Bytes} {r : Reads} (hx : OnStream enc lane x)
    (hs : x.stream = some bytes) (henc : ∀ f ∈ x.frames, Encodes enc raw f)
    (hr : r.bytes <+: bytes) : Finds lane (x.whole.map raw) (r.bytes = bytes) r := by
  cases hx with
  | unopened f => cases hs
  | bare f =>
      cases hs
      exact .inl ⟨List.prefix_nil.mp hr,fun _ => rfl⟩
  | torn fs f cut hcut hlt =>
      cases hs
      have hf := henc f (List.mem_append_right _ (by simp))
      have hfs : ∀ g ∈ fs, Encodes enc raw g := fun g hg => henc g (List.mem_append_left _ hg)
      rw [hf.1] at hcut hlt
      rw [flatMap_encodes hfs] at hr ⊢
      exact finds_cut (lengths_encodes hfs) hf.2 hcut hlt hr
  | whole fs =>
      cases hs
      have hfs : ∀ g ∈ fs, Encodes enc raw g := fun g hg => henc g (List.mem_append_left _ hg)
      rw [flatMap_encodes hfs,← List.append_nil (lane.byte::rawFrames _)] at hr ⊢
      exact finds_cut (f := (0,[])) (lengths_encodes hfs) (by decide) List.nil_prefix (by decide) hr

/-- A reader of a bulk stream that has not got all of it finds nothing; one that has finds
its frame. -/
theorem finds_bulk {f : A} {r : Reads} (henc : Encodes enc raw f)
    (hr : r.bytes <+: Lane.bulk.byte::enc f) :
    (r.bytes ≠ Lane.bulk.byte::enc f → Finds .bulk [] True r) ∧
      (r.bytes = Lane.bulk.byte::enc f → Finds .bulk [raw f] True r) := by
  constructor
  · intro hcut
    have hlt : r.bytes.length < (Lane.bulk.byte::enc f).length := by
      refine lt_of_le_of_ne hr.length_le ?_
      intro hlen
      exact hcut (hr.eq_of_length hlen)
    have hon : OnStream enc .bulk ⟨[],some f,some r.bytes⟩ := onStream_first hr hlt
    have hframes : ∀ g ∈ (⟨[],some f,some r.bytes⟩ : Stretch A).frames, Encodes enc raw g := by
      simpa [Stretch.frames] using henc
    have hfinds := hon.finds rfl hframes List.prefix_rfl
    simpa only [List.map_nil,eq_self_iff_true] using hfinds
  · intro hall
    have hon : OnStream enc .bulk ⟨[f],none,some (Lane.bulk.byte::[f].flatMap enc)⟩ := .whole [f]
    rw [List.flatMap_singleton,← hall] at hon
    have hframes : ∀ g ∈ (⟨[f],none,some r.bytes⟩ : Stretch A).frames, Encodes enc raw g := by
      simpa [Stretch.frames] using henc
    have hfinds := hon.finds rfl hframes List.prefix_rfl
    simpa only [List.map_cons,List.map_nil,eq_self_iff_true] using hfinds

end

section
variable {Id : Type} [EndpointKey Id]

/-- The client's loop over the frames of a lane stream. -/
def laneTurns (Id : Type) [EndpointKey Id] (alive : ℕ → Bool) (lane : Lane) :
    List (UInt8 × Bytes) → ℕ → List Delivery × ℕ
  | [],_ => ([],0)
  | f::fs,n =>
      match laneDelivery Id lane f.1 f.2 with
      | some d =>
          if alive n then
            let rest := if lane = .bulk then ([],0) else laneTurns Id alive lane fs (n+1)
            (d::rest.1,rest.2)
          else ([],0)
      | none =>
          let rest := if lane = .bulk then ([],0) else laneTurns Id alive lane fs n
          (rest.1,rest.2+1)

theorem pumpLaneFrames_eq (alive : ℕ → Bool) (lane : Lane) (r : Reads) (n : ℕ) :
    pumpLaneFrames Id alive lane r n = laneTurns Id alive lane (readFrames r).1 n := by
  fun_induction pumpLaneFrames Id alive lane r n with
  | case1 r n tag body r' hread d hd halive rest ih =>
      rw [readFrames_some hread]
      simp only [laneTurns,hd,if_pos halive,rest]
      split_ifs
      · rfl
      · rw [ih]
  | case2 r n tag body r' hread d hd halive =>
      rw [readFrames_some hread]
      simp only [laneTurns,hd,if_neg halive]
  | case3 r n tag body r' hread hd rest ih =>
      rw [readFrames_some hread]
      simp only [laneTurns,hd,rest]
      split_ifs
      · rfl
      · rw [ih]
  | case4 r n hread =>
      rw [readFrames]
      split
      · next f r' h => exact absurd h (hread f.1 f.2 r')
      · rfl
      · rfl

/-- Frames that are all DELIVERs give the first of their deliveries; all of them while the
receiver is there, if a bulk stream has but one. -/
theorem laneTurns_delivers (alive : ℕ → Bool) {lane : Lane} {fs : List (UInt8 × Bytes)}
    {ds : List Delivery} (h : fs.map (fun f => laneDelivery Id lane f.1 f.2) = ds.map some) (n : ℕ) :
    (laneTurns Id alive lane fs n).1 <+: ds ∧ (laneTurns Id alive lane fs n).2 = 0 ∧
      ((lane = .bulk → ds.length ≤ 1) → (∀ m, alive m = true) →
        (laneTurns Id alive lane fs n).1 = ds) := by
  induction fs generalizing ds n with
  | nil =>
      cases ds with
      | nil => exact ⟨List.prefix_rfl,rfl,fun _ _ => rfl⟩
      | cons d ds => cases h
  | cons f fs ih =>
      cases ds with
      | nil => cases h
      | cons d ds =>
          obtain ⟨hd,hrest⟩ := List.cons_eq_cons.mp h
          obtain ⟨hpre,hzero,hall⟩ := ih hrest (n+1)
          simp only [laneTurns,hd]
          split_ifs with halive hbulk
          · refine ⟨List.prefix_cons_inj d |>.mpr List.nil_prefix,rfl,?_⟩
            intro hone _
            have hds : ds = [] := List.eq_nil_of_length_eq_zero (Nat.le_zero.mp
              (Nat.le_of_succ_le_succ (hone hbulk)))
            rw [hds]
          · refine ⟨List.prefix_cons_inj d |>.mpr hpre,hzero,?_⟩
            intro _ halive
            rw [hall (fun h => absurd h hbulk) halive]
          · exact ⟨List.nil_prefix,rfl,fun _ h => absurd (h n) halive⟩

/-- A DELIVER as a raw frame. -/
def deliverRaw (x : Topic × Bytes) : UInt8 × Bytes := (Tag.deliver,x.1.bytes++x.2)

theorem deliver_encodes {x : Topic × Bytes} (h : x.2.length ≤ maxPublishLen) :
    Encodes deliverBytes deliverRaw x := by
  have hpayload : lanePayload (.publish x.1 x.2 : ClientFrame RawId) = x.2 := rfl
  have hpub : Publishable (.publish x.1 x.2 : ClientFrame RawId) := ⟨rfl,by rw [hpayload]; exact h⟩
  have hraw := deliver_rawFrame hpub
  rw [hpayload] at hraw
  exact hraw

theorem publish_encodes {f : ClientFrame Id} (h : Publishable f) :
    Encodes ClientFrame.encode (fun f => (clientTag f,clientBody f)) f := ⟨h.encode,h.body_length.1⟩

variable (Id) in
theorem pumpLane_finds {lane : Lane} {whole : List (Topic × Bytes)} {all : Prop} {r : Reads}
    (alive : ℕ → Bool) (h : Finds lane (whole.map deliverRaw) all r) :
    (pumpLane Id alive r).1 <+: whole.map (fun x => ⟨lane,x.1,x.2⟩) ∧ (pumpLane Id alive r).2 = 0 ∧
      ((lane = .bulk → whole.length ≤ 1) → (∀ m, alive m = true) → all →
        (pumpLane Id alive r).1 = whole.map fun x => ⟨lane,x.1,x.2⟩) := by
  rcases h with ⟨hempty,hnone⟩ | ⟨r',hbyte,hpre,-,hall⟩
  · have hpump : pumpLane Id alive r = ([],0) := by
      have hread := r.readExact_short 1 [] (by rw [hempty]; decide)
      unfold pumpLane readLaneByte
      rw [hread]
      unfold Reads.shortfall
      cases r.failure <;> rfl
    rw [hpump]
    refine ⟨List.nil_prefix,rfl,fun _ _ h => ?_⟩
    rw [List.map_eq_nil_iff.mp (hnone h)]
    rfl
  · simp only [pumpLane,hbyte,Lane.fromByte_byte,pumpLaneFrames_eq]
    have hmap : ∀ xs : List (Topic × Bytes),
        (xs.map deliverRaw).map (fun f => laneDelivery Id lane f.1 f.2) =
          (xs.map fun x => (⟨lane,x.1,x.2⟩ : Delivery)).map some := by
      intro xs
      rw [List.map_map,List.map_map]
      exact List.map_congr_left fun x _ => laneDelivery_deliver lane x.1 x.2
    obtain ⟨n,hn⟩ : ∃ n, (readFrames r').1 = (whole.take n).map deliverRaw := by
      refine ⟨(readFrames r').1.length,?_⟩
      rw [List.map_take]
      exact List.prefix_iff_eq_take.mp hpre
    rw [hn]
    obtain ⟨hturns,hzero,hfull⟩ := laneTurns_delivers alive (hmap (whole.take n)) 0
    refine ⟨hturns.trans ?_,hzero,?_⟩
    · rw [List.map_take]
      exact List.take_prefix _ _
    · intro hone halive h
      rw [← hn,hall h]
      refine (laneTurns_delivers alive (hmap whole) 0).2.2 ?_ halive
      rwa [List.length_map]

theorem readLane_finds {lane : Lane} {whole : List (ClientFrame Id)} {all : Prop} {r : Reads}
    (hlane : lane ≠ .bulk) (hfs : ∀ f ∈ whole, Publishable f)
    (h : Finds lane (whole.map fun f => (clientTag f,clientBody f)) all r) :
    (readLane r).1 <+: whole.map (laneEvent lane) ∧
      (∀ len, (readLane r : List (LaneEvent Id) × _).2 ≠ .error (.length len)) ∧
      (all → (readLane r).1 = whole.map (laneEvent lane)) := by
  rcases h with ⟨hempty,hnone⟩ | ⟨r',hbyte,hpre,hend,hall⟩
  · have hread := r.readExact_short 1 [] (by rw [hempty]; decide)
    have hlane : (readLane r : List (LaneEvent Id) × _).1 = [] ∧
        ∀ len, (readLane r : List (LaneEvent Id) × _).2 ≠ .error (.length len) := by
      unfold readLane readLaneByte
      rw [hread]
      unfold Reads.shortfall
      cases r.failure <;> exact ⟨rfl,nofun⟩
    rw [hlane.1]
    refine ⟨List.nil_prefix,hlane.2,fun h => ?_⟩
    rw [List.map_eq_nil_iff.mp (hnone h)]
    rfl
  · have hread : (readLane r : List (LaneEvent Id) × _) =
        ((readFrames r').1.map (rawEvent lane),laneEnded (readFrames r').2) := by
      simp only [readLane,hbyte,Lane.fromByte_byte,if_neg hlane,readLaneFrames_eq]
    have hmap : ∀ fs : List (ClientFrame Id), (∀ f ∈ fs, Publishable f) →
        (fs.map fun f => (clientTag f,clientBody f)).map (rawEvent lane) =
          fs.map (laneEvent lane) := by
      intro fs hpub
      rw [List.map_map]
      apply List.map_congr_left
      intro f hf
      simp only [Function.comp_apply,rawEvent,(hpub f hf).decode,laneEvent,(hpub f hf).encode,
        rawFrame_length]
    rw [hread,← hmap whole hfs]
    refine ⟨hpre.map _,?_,fun h => by rw [hall h]⟩
    intro len h
    cases hending : (readFrames r').2 with
    | ended =>
        rw [hending] at h
        cases h
    | failed e =>
        rw [hending] at h
        cases h
        exact hend len hending

theorem readLane_bulk_finds {whole : List (ClientFrame Id)} {r : Reads}
    (hone : whole.length ≤ 1) (hfs : ∀ f ∈ whole, Publishable f)
    (h : Finds .bulk (whole.map fun f => (clientTag f,clientBody f)) True r) :
    (readLane r).1 = whole.map (laneEvent .bulk) ∧
      ∀ len, (readLane r : List (LaneEvent Id) × _).2 ≠ .error (.length len) := by
  rcases h with ⟨hempty,hnone⟩ | ⟨r',hbyte,-,hend,hall⟩
  · rw [List.map_eq_nil_iff.mp (hnone trivial)]
    have hread := r.readExact_short 1 [] (by rw [hempty]; decide)
    unfold readLane readLaneByte
    rw [hread]
    unfold Reads.shortfall
    cases r.failure <;> exact ⟨rfl,fun len heq => by cases heq⟩
  · have hframes := hall trivial
    have hread : (readLane r : List (LaneEvent Id) × _) = readBulkFrame r' := by
      simp only [readLane,hbyte,Lane.fromByte_byte,if_true]
    rw [hread,readBulkFrame]
    cases hnext : readFrame r' with
    | error e =>
        rw [readFrames_error hnext] at hframes hend
        rw [List.map_eq_nil_iff.mp hframes.symm]
        refine ⟨rfl,fun len heq => ?_⟩
        cases heq
        exact hend len rfl
    | ok x =>
        obtain ⟨_ | g,u⟩ := x
        · rw [readFrames_none hnext] at hframes
          rw [List.map_eq_nil_iff.mp hframes.symm]
          exact ⟨rfl,fun len heq => by cases heq⟩
        · rw [readFrames_some hnext] at hframes
          cases whole with
          | nil => cases hframes
          | cons f fs =>
              obtain ⟨rfl,-⟩ := List.cons_eq_cons.mp hframes
              have hfs' : fs = [] := List.eq_nil_of_length_eq_zero (Nat.le_zero.mp
                (Nat.le_of_succ_le_succ hone))
              have hpub := hfs f List.mem_cons_self
              subst hfs'
              simp only [hpub.decode]
              refine ⟨?_,fun len heq => by cases heq⟩
              simp only [List.map_cons,List.map_nil,laneEvent,hpub.encode,rawFrame_length]

/-- The bytes of a delivery's bulk stream. -/
def bulkBytes (x : Topic × Bytes) : Bytes := Lane.bulk.byte::deliverBytes x

/-- What a bulk delivery has on its stream: all of it, if it was acknowledged. -/
theorem sendBulk_bytes (plan : ℕ → WriteOutcome) (k : ℕ) (x : Topic × Bytes) {bytes : Bytes}
    (h : (sendBulk plan k (delivering x)).1 = some bytes) :
    bytes <+: bulkBytes x ∧ ((sendBulk plan k (delivering x)).2 = .acknowledged → bytes = bulkBytes x) := by
  have hwritten := writeChunks_written plan (k+1) (Lane.bulk.prefixBytes::(delivering x).chunks)
  have hflat : (Lane.bulk.prefixBytes::(delivering x).chunks).flatten = bulkBytes x := by
    simp [Lane.prefixBytes,bulkBytes,deliverBytes]
  rw [hflat] at hwritten
  unfold sendBulk at h ⊢
  cases hk : plan k with
  | closed | stalled => simp [hk] at h
  | took n =>
      simp only [hk] at h ⊢
      generalize writeChunks plan (k+1) (Lane.bulk.prefixBytes::(delivering x).chunks) = w at h hwritten ⊢
      obtain ⟨written,k₁,result⟩ := w
      cases result with
      | error failure =>
          cases failure with
          | closed | stalled =>
              cases h
              exact ⟨hwritten.1,fun hack => by cases hack⟩
      | ok u =>
          obtain ⟨hpre,hall⟩ := hwritten
          simp only at hpre hall
          have hbytes : written = bytes := by
            cases hk₁ : plan k₁ <;> simp only [hk₁] at h <;> exact Option.some.inj h
          rw [← hbytes]
          exact ⟨hpre,fun _ => hall⟩

/-- What a client has on its bulk streams: one of a frame's own, or none. -/
theorem sendEachBulk_bytes (plan : ℕ → WriteOutcome) (k : ℕ) (fs : List (ClientFrame Id)) :
    ∃ xs : List (Option Bytes), xs.filterMap id = sendEachBulk plan k fs ∧
      List.Forall₂ (fun f x => ∀ bytes, x = some bytes → bytes <+: Lane.bulk.byte::f.encode) fs xs := by
  induction fs generalizing k with
  | nil => exact ⟨[],rfl,.nil⟩
  | cons f fs ih =>
      cases hk : plan k with
      | closed | stalled =>
          obtain ⟨xs,hxs,hall⟩ := ih (k+1)
          refine ⟨none::xs,?_,.cons nofun hall⟩
          rw [List.filterMap_cons_none rfl,hxs,sendEachBulk,hk]
      | took n =>
          have hwritten := (writeChunks_written plan (k+1) [Lane.bulk.prefixBytes,f.encode]).1
          have hflat : [Lane.bulk.prefixBytes,f.encode].flatten = Lane.bulk.byte::f.encode := by
            simp [Lane.prefixBytes]
          rw [hflat] at hwritten
          obtain ⟨xs,hxs,hall⟩ := ih (writeChunks plan (k+1) [Lane.bulk.prefixBytes,f.encode]).2.1
          refine ⟨some (writeChunks plan (k+1) [Lane.bulk.prefixBytes,f.encode]).1::xs,?_,.cons ?_ hall⟩
          · rw [sendEachBulk,hk,List.filterMap_cons_some (id_eq _),hxs]
          · intro bytes hbytes
            cases hbytes
            exact hwritten

/-- **Failed writes stay on their stream.** Whatever fails when, on either side: the frames
of a long-lived lane are laid out on its streams in order, each whole on one of them, or
the one a stream was given up at, or without a stream. Whatever part of a stream arrives,
the other side reads the first of its whole frames, skips nothing, and finds no length
out of range; all of them if the whole stream arrives. A bulk stream of which not all
arrives gives nothing, the whole of it its frame, and one that was acknowledged is whole. -/
theorem lanes_survive_failed_writes (lane : Lane) (hlane : lane ≠ .bulk) (plan : ℕ → WriteOutcome)
    (k : ℕ) :
    (∀ (lost : ℕ → Bool) (ds : List (Topic × Bytes)), (∀ x ∈ ds, x.2.length ≤ maxPublishLen) →
      ∃ xs rest, Laid deliverBytes lane xs (laneWriter plan lost lane k none (ds.map delivering)).1
          ds rest ∧
        ((laneWriter plan lost lane k none (ds.map delivering)).2 = .finished → rest = []) ∧
        ∀ x ∈ xs, ∀ bytes, x.stream = some bytes → ∀ (alive : ℕ → Bool) (r : Reads),
          r.bytes <+: bytes →
          (pumpLane Id alive r).1 <+: x.whole.map (fun y => ⟨lane,y.1,y.2⟩) ∧
          (pumpLane Id alive r).2 = 0 ∧ LengthsFine r ∧
          ((∀ m, alive m = true) → r.bytes = bytes →
            (pumpLane Id alive r).1 = x.whole.map fun y => ⟨lane,y.1,y.2⟩)) ∧
    (∀ fs : List (ClientFrame Id), (∀ f ∈ fs, Publishable f) →
      ∃ xs, Laid ClientFrame.encode lane xs (sendLane plan lane k fs) fs [] ∧
        ∀ x ∈ xs, ∀ bytes, x.stream = some bytes → ∀ r : Reads, r.bytes <+: bytes →
          (readLane r).1 <+: x.whole.map (laneEvent lane) ∧
          (∀ len, (readLane r : List (LaneEvent Id) × _).2 ≠ .error (.length len)) ∧
          (r.bytes = bytes → (readLane r).1 = x.whole.map (laneEvent lane))) ∧
    (∀ (x : Topic × Bytes) (bytes : Bytes), x.2.length ≤ maxPublishLen →
      (sendBulk plan k (delivering x)).1 = some bytes →
      ((sendBulk plan k (delivering x)).2 = .acknowledged → bytes = bulkBytes x) ∧
      ∀ (alive : ℕ → Bool) (r : Reads), r.bytes <+: bytes →
        (pumpLane Id alive r).1 <+: [⟨.bulk,x.1,x.2⟩] ∧ (pumpLane Id alive r).2 = 0 ∧
        LengthsFine r ∧ (r.bytes ≠ bulkBytes x → (pumpLane Id alive r).1 = []) ∧
        ((∀ m, alive m = true) → r.bytes = bulkBytes x →
          (pumpLane Id alive r).1 = [⟨.bulk,x.1,x.2⟩])) ∧
    ∀ fs : List (ClientFrame Id), (∀ f ∈ fs, Publishable f) →
      ∃ xs : List (Option Bytes), xs.filterMap id = sendLane plan .bulk k fs ∧
        List.Forall₂ (fun f x => ∀ bytes, x = some bytes → ∀ r : Reads, r.bytes <+: bytes →
          (∀ len, (readLane r : List (LaneEvent Id) × _).2 ≠ .error (.length len)) ∧
          (r.bytes ≠ Lane.bulk.byte::f.encode → (readLane r : List (LaneEvent Id) × _).1 = []) ∧
          (r.bytes = Lane.bulk.byte::f.encode → (readLane r).1 = [laneEvent .bulk f])) fs xs := by
  refine ⟨?_,?_,?_,?_⟩
  · intro lost ds hds
    obtain ⟨xs,rest,hlaid,hrest⟩ := laneWriter_laid plan lost lane k none ds
    refine ⟨xs,rest,hlaid,hrest,?_⟩
    intro x hx bytes hbytes alive r hr
    have henc : ∀ y ∈ x.frames, Encodes deliverBytes deliverRaw y :=
      fun y hy => deliver_encodes (hds y (hlaid.mem hx y hy))
    have hfinds := (hlaid.stretches x hx).finds hbytes henc hr
    obtain ⟨hpre,hzero,hall⟩ := pumpLane_finds Id alive hfinds
    exact ⟨hpre,hzero,hfinds.lengthsFine,hall fun h => absurd h hlane⟩
  · intro fs hfs
    obtain ⟨xs,hlaid⟩ := sendLongLived_laid plan lane k none fs
    rw [sendLane,if_neg hlane]
    refine ⟨xs,hlaid,?_⟩
    intro x hx bytes hbytes r hr
    have hpub : ∀ f ∈ x.frames, Publishable f := fun f hf => hfs f (hlaid.mem hx f hf)
    exact readLane_finds hlane (fun f hf => hpub f (List.mem_append_left _ hf))
      ((hlaid.stretches x hx).finds hbytes (fun f hf => publish_encodes (hpub f hf)) hr)
  · intro x bytes hx hbytes
    obtain ⟨hpre,hack⟩ := sendBulk_bytes plan k x hbytes
    refine ⟨hack,?_⟩
    intro alive r hr
    obtain ⟨hcut,hall⟩ := finds_bulk (deliver_encodes hx) (hr.trans hpre)
    by_cases heq : r.bytes = bulkBytes x
    · have hfinds : Finds .bulk ([x].map deliverRaw) True r := hall heq
      obtain ⟨hfirst,hzero,hfull⟩ := pumpLane_finds Id alive hfinds
      exact ⟨hfirst,hzero,hfinds.lengthsFine,fun hne => absurd heq hne,
        fun halive _ => hfull (fun _ => le_rfl) halive trivial⟩
    · have hfinds : Finds .bulk (([] : List (Topic × Bytes)).map deliverRaw) True r := hcut heq
      obtain ⟨hfirst,hzero,-⟩ := pumpLane_finds Id alive hfinds
      exact ⟨hfirst.trans List.nil_prefix,hzero,hfinds.lengthsFine,
        fun _ => List.prefix_nil.mp hfirst,fun _ h => absurd h heq⟩
  · intro fs hfs
    obtain ⟨xs,hxs,hall⟩ := sendEachBulk_bytes plan k fs
    rw [sendLane,if_pos rfl]
    refine ⟨xs,hxs,?_⟩
    refine List.Forall₂.imp ?_ ((List.forall₂_and_left _ _).mpr ⟨hfs,hall⟩)
    rintro f x ⟨hf,hpre⟩ bytes hbytes r hr
    obtain ⟨hcut,hwhole⟩ := finds_bulk (publish_encodes hf) (hr.trans (hpre bytes hbytes))
    by_cases heq : r.bytes = Lane.bulk.byte::f.encode
    · have hfinds : Finds .bulk ([f].map fun g => (clientTag g,clientBody g)) True r := hwhole heq
      obtain ⟨hread,hlen⟩ := readLane_bulk_finds le_rfl (List.forall_mem_singleton.mpr hf) hfinds
      exact ⟨hlen,fun hne => absurd heq hne,fun _ => hread⟩
    · obtain ⟨hread,hlen⟩ := @readLane_bulk_finds Id _ [] r (Nat.zero_le 1) (List.forall_mem_nil _) (hcut heq)
      exact ⟨hlen,fun _ => hread,fun h => absurd h heq⟩

end

def threeDeliveries : List (Topic × Bytes) := [(Topic.zero,[1]),(Topic.zero,[2]),(Topic.zero,[3])]

def threePublishes : List (ClientFrame RawId) :=
  [.publish Topic.zero [1],.publishTo Topic.zero .base [2],.publish Topic.zero [3]]

/-- The stream is found closed at the second write behind opening it. -/
def closedAtTwo : ℕ → WriteOutcome := fun i => if i = 2 then .closed else .took 100

theorem lanes_survive_failed_writes_three :
    (∃ xs rest, Laid deliverBytes .control xs
        (laneWriter closedAtTwo (fun _ => false) .control 0 none (threeDeliveries.map delivering)).1
        threeDeliveries rest ∧
      ∀ x ∈ xs, ∀ bytes, x.stream = some bytes →
        (pumpLane RawId (fun _ => true) (Reads.whole bytes)).1 =
          x.whole.map fun y => ⟨.control,y.1,y.2⟩) ∧
    (∃ xs, Laid ClientFrame.encode .control xs (sendLane closedAtTwo .control 0 threePublishes)
        threePublishes [] ∧
      ∀ x ∈ xs, ∀ bytes, x.stream = some bytes →
        (readLane (Reads.whole bytes)).1 = x.whole.map (laneEvent .control)) ∧
    (pumpLane RawId (fun _ => true) (Reads.whole ((bulkBytes (Topic.zero,[1])).take 20))).1 = [] ∧
    (pumpLane RawId (fun _ => true) (Reads.whole (bulkBytes (Topic.zero,[1])))).1 =
      [⟨.bulk,Topic.zero,[1]⟩] ∧
    ∃ xs : List (Option Bytes), xs.filterMap id = sendLane closedAtTwo .bulk 0 threePublishes ∧
      xs.length = 3 := by
  obtain ⟨hdown,hup,-,hbulkUp⟩ :=
    @lanes_survive_failed_writes RawId _ .control (by decide) closedAtTwo 0
  have hsent : (sendBulk (fun _ => .took 0) 0 (delivering (Topic.zero,[1]))).1 =
      some (bulkBytes (Topic.zero,[1])) := by
    rw [sendBulk_flowing fun _ => ⟨0,rfl⟩]
    rfl
  have hbulk := ((@lanes_survive_failed_writes RawId _ .control (by decide) (fun _ => .took 0) 0).2.2.1
    (Topic.zero,[1]) _ (by decide) hsent).2 (fun _ => true)
  refine ⟨?_,?_,?_,?_,?_⟩
  · obtain ⟨xs,rest,hlaid,-,hread⟩ := hdown (fun _ => false) threeDeliveries (by decide)
    refine ⟨xs,rest,hlaid,fun x hx bytes hbytes => ?_⟩
    have hwhole : (Reads.whole bytes).bytes = bytes := Reads.whole_bytes bytes
    exact (hread x hx bytes hbytes _ _ (by rw [hwhole])).2.2.2 (fun _ => rfl) hwhole
  · obtain ⟨xs,hlaid,hread⟩ := hup threePublishes (by decide)
    refine ⟨xs,hlaid,fun x hx bytes hbytes => ?_⟩
    have hwhole : (Reads.whole bytes).bytes = bytes := Reads.whole_bytes bytes
    exact (hread x hx bytes hbytes _ (by rw [hwhole])).2.2 hwhole
  · have hcut : (Reads.whole ((bulkBytes (Topic.zero,[1])).take 20)).bytes =
        (bulkBytes (Topic.zero,[1])).take 20 := Reads.whole_bytes _
    refine (hbulk _ ?_).2.2.2.1 ?_
    · rw [hcut]
      exact List.take_prefix _ _
    · rw [hcut]
      decide
  · have hwhole : (Reads.whole (bulkBytes (Topic.zero,[1]))).bytes = bulkBytes (Topic.zero,[1]) :=
      Reads.whole_bytes _
    exact (hbulk _ (by rw [hwhole])).2.2.2.2 (fun _ => rfl) hwhole
  · obtain ⟨xs,hxs,hall⟩ := hbulkUp threePublishes (by decide)
    exact ⟨xs,hxs,hall.length_eq.symm⟩

end KeepTalkingSfu.LaneCuts
