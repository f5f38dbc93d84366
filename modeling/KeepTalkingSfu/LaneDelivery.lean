import KeepTalkingSfu.LaneOrigins
import Mathlib.Data.List.Perm.Subperm

/-!
# A long-lived lane from application to application

The applications publish, their clients write the frames to streams, which may be given up
and replaced; the server reads of each what arrives, checks and charges every frame, and
carries it out under the room's lock in between everything else it does; what is queued to
a client is written to streams, which may be given up too, and read of each as much as
arrives. Put together: what an application is handed of a lane, stream by stream, is among
what was carried out for it, in that order and each once; and what was carried out of one
stream of a client is among what its application published, in that order and each once.
-/
namespace KeepTalkingSfu.LaneDelivery
open ByteTransport WireFormat FrameCodec FrameReader FrameSequence StreamWriters LaneStream
  MemberQueues RoomTable TokenBucket Server StepCases RoomInvariant TaskSteps InterleavedRuns
  MalformedFrames StreamCuts LaneCuts DeliveryOrder LaneOrigins

theorem longLane_ne_bulk (i : Fin 2) : longLane i ≠ .bulk := by
  match i with
  | 0 => decide
  | 1 => decide

/-! ### What a client put on its streams -/

theorem readFrames_whole {fs : List (UInt8 × Bytes)} (hlen : ∀ f ∈ fs, 1+f.2.length < 4294967296)
    {r : Reads} (hr : r.bytes = rawFrames fs) (hf : r.failure = none) : (readFrames r).1 <+: fs := by
  induction fs generalizing r with
  | nil => rw [tail_readFrames .clean hr fun _ => hf]
  | cons f fs ih =>
      by_cases hfits : 1+f.2.length ≤ maxFrameLen
      · obtain ⟨r',hread,hr',hf'⟩ := readFrame_rawFrame r f.1 f.2 _ hfits hr
        rw [readFrames_some hread,List.cons_prefix_cons]
        exact ⟨rfl,ih (fun g hg => hlen g (List.mem_cons_of_mem _ hg)) hr' (hf'.trans hf)⟩
      · have htail : Tail r.bytes (some (1+f.2.length)) := by
          rw [hr,rawFrames,List.flatMap_cons,rawFrame,List.append_assoc]
          exact .bad _ _ (hlen f List.mem_cons_self) fun h => hfits h.2
        have hbad : some (1+f.2.length) = none → r.failure = none := by
          intro h
          cases h
        rw [tail_readFrames htail rfl hbad]
        exact List.nil_prefix

/-- Of frames whose lengths can be told, a reader gets the first, whatever part of them
arrives: up to one that is too large, if there is one. -/
theorem readFrames_told {fs : List (UInt8 × Bytes)} (hlen : ∀ f ∈ fs, 1+f.2.length < 4294967296)
    {r : Reads} (hr : r.bytes <+: rawFrames fs) : (readFrames r).1 <+: fs := by
  have hbytes := Reads.whole_bytes (rawFrames fs)
  rw [← hbytes] at hr
  exact (readFrames_longer hr).trans (readFrames_whole hlen hbytes rfl)

section
variable {Id : Type} [EndpointKey Id]

/-- A frame as it is read. -/
def rawOf (f : ClientFrame Id) : UInt8 × Bytes := (clientTag f,clientBody f)

/-- A PUBLISH or PUBLISH_TO whose length can be told in its prefix. -/
def Sendable (f : ClientFrame Id) : Prop :=
  f.isLaneFrame = true ∧ 1+(clientBody f).length < 4294967296

instance (f : ClientFrame Id) : Decidable (Sendable f) := inferInstanceAs (Decidable (_ ∧ _))

/-- The frame of a publication. -/
def frameOf (p : Publish Id) : ClientFrame Id :=
  match p.recipient with
  | none => .publish p.topic p.deliver.payload
  | some recipient => .publishTo p.topic recipient p.deliver.payload

theorem publication_rawOf {f : ClientFrame Id} {p : Publish Id}
    (h : publication (rawOf f).1 (rawOf f).2 = some p) : frameOf p = f := by
  have hdecode := clientFrame_decode f
  unfold publication decodeLaneFrame at h
  simp only [rawOf,hdecode] at h
  split at h
  · cases h
  · next g topicBytes hd =>
    split_ifs at hd with hlane
    cases hd
    cases f with
    | publish topic payload | publishTo topic recipient payload =>
        simp only [publishParts,Option.bind_some] at h
        split_ifs at h
        cases h
        rfl
    | subscribe _ | unsubscribe _ | announce _ _ => cases hlane

theorem publications_sublist (fs : List (ClientFrame Id)) :
    (((fs.map rawOf).filterMap fun f => publication f.1 f.2).map frameOf).Sublist fs := by
  induction fs with
  | nil => exact List.Sublist.refl _
  | cons f fs ih =>
      rw [List.map_cons]
      cases hp : (publication (rawOf f).1 (rawOf f).2 : Option (Publish Id)) with
      | none =>
          simp only [List.filterMap_cons,hp]
          exact ih.cons f
      | some p =>
          simp only [List.filterMap_cons,hp,List.map_cons,publication_rawOf hp]
          exact ih.cons_cons f

theorem sendable_encode {f : ClientFrame Id} (h : Sendable f) :
    f.encode = rawFrame (rawOf f).1 (rawOf f).2 :=
  clientFrame_encode f (by have := h.2; omega)

theorem onStream_within {A : Type} {enc : A → Bytes} {lane : Lane} {x : Stretch A} {bytes : Bytes}
    (hx : OnStream enc lane x) (hs : x.stream = some bytes) :
    bytes <+: lane.byte::x.frames.flatMap enc := by
  cases hx with
  | unopened f => cases hs
  | bare f =>
      cases hs
      exact List.nil_prefix
  | whole fs =>
      cases hs
      simp [Stretch.frames]
  | torn fs f cut hcut =>
      cases hs
      simpa [Stretch.frames] using hcut

theorem readLaneByte_some {r r' : Reads} {b : UInt8} (h : readLaneByte r = .ok (some b,r')) :
    r.bytes = b::r'.bytes := by
  cases hb : r.bytes with
  | nil =>
      have hread := r.readExact_short 1 [] (by rw [hb]; decide)
      unfold readLaneByte at h
      rw [hread] at h
      unfold Reads.shortfall at h
      cases hf : r.failure <;> rw [hf] at h <;> cases h
  | cons b' bs =>
      obtain ⟨r'',hread,hr,-⟩ := readLaneByte_cons r b' bs hb
      rw [h] at hread
      cases hread
      rw [hr]

/-- Whoever reads a stream of a client, however much of it arrives, reads the first of the
frames it was given. -/
theorem stretch_read {lane : Lane} {x : Stretch (ClientFrame Id)} {bytes : Bytes} {r r' : Reads}
    (hx : OnStream ClientFrame.encode lane x) (hs : x.stream = some bytes)
    (hsend : ∀ f ∈ x.frames, Sendable f) (hr : r.bytes <+: bytes)
    (hbyte : readLaneByte r = .ok (some lane.byte,r')) : (readFrames r').1 <+: x.frames.map rawOf := by
  have hwithin := hr.trans (onStream_within hx hs)
  rw [readLaneByte_some hbyte] at hwithin
  have hframes : x.frames.flatMap ClientFrame.encode = rawFrames (x.frames.map rawOf) := by
    rw [rawFrames,List.flatMap_map]
    exact List.flatMap_congr fun f hf => sendable_encode (hsend f hf)
  rw [hframes] at hwithin
  refine readFrames_told ?_ (List.cons_prefix_cons.mp hwithin).2
  intro g hg
  obtain ⟨f,hf,rfl⟩ := List.mem_map.mp hg
  exact (hsend f hf).2

/-! ### From one application's frames -/

/-- How the frames an application gave to its client on a lane get to the server: every
stream the server reads is another one that the client wrote, as far as it arrives. -/
structure Feeds (lane : Lane) (c : ℕ) (fs : List (ClientFrame Id)) (as : List (Action Id)) where
  plan : ℕ → WriteOutcome
  start : ℕ
  source : ℕ → ℕ
  distinct : ∀ stream stream', .act c (.openLane stream lane) ∈ as →
    .act c (.openLane stream' lane) ∈ as → source stream = source stream' → stream = stream'
  arrives : ∀ stream, .act c (.openLane stream lane) ∈ as → ∃ bytes r r',
    (sendLane plan lane start fs)[source stream]? = some bytes ∧ r.bytes <+: bytes ∧
    readLaneByte r = .ok (some lane.byte,r') ∧ as.filterMap (rawOn c stream) <+: (readFrames r').1

/-- What each stream of a lane was given. -/
def given {A : Type} (xs : List (Stretch A)) : List (List A) :=
  xs.filterMap fun x => x.stream.map fun _ => x.frames

theorem given_flatten {A : Type} (xs : List (Stretch A)) :
    (given xs).flatten.Sublist (xs.flatMap Stretch.frames) := by
  unfold given
  induction xs with
  | nil => exact List.Sublist.refl _
  | cons x xs ih =>
      rw [List.flatMap_cons]
      cases hs : x.stream with
      | none =>
          rw [List.filterMap_cons_none (by rw [hs]; rfl)]
          exact ih.trans (List.sublist_append_right _ _)
      | some bytes =>
          rw [List.filterMap_cons_some (by rw [hs]; rfl),List.flatten_cons]
          exact ih.append_left _

theorem given_stream {A : Type} {xs : List (Stretch A)} {j : ℕ} {bytes : Bytes}
    (h : (xs.filterMap Stretch.stream)[j]? = some bytes) :
    ∃ x ∈ xs, x.stream = some bytes ∧ (given xs)[j]? = some x.frames := by
  unfold given
  induction xs generalizing j with
  | nil => cases h
  | cons x xs ih =>
      cases hs : x.stream with
      | none =>
          rw [List.filterMap_cons_none hs] at h
          rw [List.filterMap_cons_none (by rw [hs]; rfl)]
          obtain ⟨y,hy,hrest⟩ := ih h
          exact ⟨y,List.mem_cons_of_mem _ hy,hrest⟩
      | some bytes' =>
          rw [List.filterMap_cons_some hs] at h
          rw [List.filterMap_cons_some (by rw [hs]; rfl)]
          cases j with
          | zero =>
              cases h
              exact ⟨x,List.mem_cons_self,hs,rfl⟩
          | succ j =>
              obtain ⟨y,hy,hrest⟩ := ih h
              exact ⟨y,List.mem_cons_of_mem _ hy,hrest⟩

theorem subperm_flatten {A B : Type} (key : A → ℕ) (f : A → B) {xs : List A}
    {parts : List (List B)}
    (h : ∀ j, ((xs.filter fun x => key x = j).map f).Subperm (parts[j]?.getD [])) :
    (xs.map f).Subperm parts.flatten := by
  induction parts generalizing xs key with
  | nil =>
      have hnone : xs = [] := by
        rw [List.eq_nil_iff_forall_not_mem]
        intro x hx
        have hclass := (h (key x)).subset (List.mem_map_of_mem (f := f) (List.mem_filter.mpr ⟨hx,by simp⟩))
        simp at hclass
      rw [hnone]
      exact List.Subperm.refl _
  | cons p parts ih =>
      have hsplit := (List.filter_append_perm (fun x => decide (key x = 0)) xs).map f
      rw [List.map_append] at hsplit
      refine hsplit.symm.subperm.trans ?_
      rw [List.flatten_cons]
      refine List.Subperm.append (by simpa using h 0) (ih (fun x => key x-1) ?_)
      intro j
      have hclass := h (j+1)
      rw [List.getElem?_cons_succ] at hclass
      have hsame : (xs.filter fun x => !decide (key x = 0)).filter (fun x => decide (key x-1 = j)) =
          xs.filter fun x => decide (key x = j+1) := by
        rw [List.filter_filter]
        apply List.filter_congr
        intro x _
        rw [Bool.eq_iff_iff]
        simp only [Bool.and_eq_true,Bool.not_eq_true',decide_eq_true_eq,decide_eq_false_iff_not]
        omega
      rw [hsame]
      exact hclass

variable {F : Type} [DecidableEq Id] [Scalar F] {limits : Limits F} {s : State Id F} {c d : ℕ}
  {i : Fin 2} {as : List (Action Id)} {fs : List (ClientFrame Id)}

/-- What an application published, as it was carried out for somebody. -/
def frames (xs : List (Forwarded Id)) : List (ClientFrame Id) :=
  xs.map fun x => frameOf x.published.frame

theorem due_stream (h : exec (step limits) (State.init limits) as = some s) {stream : ℕ}
    {x : Stretch (ClientFrame Id)} {whole : List (UInt8 × Bytes)} (hread : whole <+: x.frames.map rawOf)
    (hrun : as.filterMap (rawOn c stream) <+: whole) :
    (frames ((due limits i d as).filter (Forwarded.isFrom c stream))).Sublist x.frames := by
  have hraw : (as.filterMap (rawOn c stream)).Sublist (x.frames.map rawOf) :=
    (hrun.trans hread).sublist
  have hdue := ((due_read (i := i) (d := d) h).trans (hraw.filterMap _)).map frameOf
  rw [List.map_map] at hdue
  exact hdue.trans (publications_sublist x.frames)

/-- Stream by stream, what is carried out is among what the stream was given, and the
streams were given the application's frames one after the other. -/
theorem due_given (h : exec (step limits) (State.init limits) as = some s)
    (hfed : Feeds (longLane i) c fs as) (hsend : ∀ f ∈ fs, Sendable f) :
    ∃ parts : List (List (ClientFrame Id)), parts.flatten.Sublist fs ∧
      ∀ stream, .act c (.openLane stream (longLane i)) ∈ as →
        ∃ part, parts[hfed.source stream]? = some part ∧
          (frames ((due limits i d as).filter (Forwarded.isFrom c stream))).Sublist part := by
  obtain ⟨xs,hlaid⟩ := sendLongLived_laid hfed.plan (longLane i) hfed.start none fs
  have hfs : fs = xs.flatMap Stretch.frames := by
    have hframes := hlaid.frames
    rwa [List.append_nil] at hframes
  refine ⟨given xs,?_,?_⟩
  · rw [hfs]
    exact given_flatten xs
  · intro stream hopen
    obtain ⟨bytes,r,r',hbytes,hr,hbyte,hrun⟩ := hfed.arrives stream hopen
    rw [sendLane,if_neg (longLane_ne_bulk i)] at hbytes
    have hstreams := hlaid.streams
    simp only [Option.map_none] at hstreams
    rw [← hstreams] at hbytes
    obtain ⟨x,hx,hs,hpart⟩ := given_stream hbytes
    have hsendx : ∀ f ∈ x.frames, Sendable f := by
      intro f hf
      apply hsend
      rw [hfs]
      exact List.mem_flatMap.mpr ⟨x,hx,hf⟩
    exact ⟨x.frames,hpart,
      due_stream h (stretch_read (hlaid.stretches x hx) hs hsendx hr hbyte) hrun⟩

theorem due_ordered (h : exec (step limits) (State.init limits) as = some s)
    (hfed : Feeds (longLane i) c fs as) (hsend : ∀ f ∈ fs, Sendable f) (stream : ℕ) :
    (frames ((due limits i d as).filter (Forwarded.isFrom c stream))).Sublist fs := by
  obtain ⟨parts,hparts,hstreams⟩ := due_given (d := d) h hfed hsend
  cases hxs : (due limits i d as).filter (Forwarded.isFrom c stream) with
  | nil => exact List.nil_sublist _
  | cons x xs =>
      rw [← hxs]
      obtain ⟨hx,hfrom⟩ := List.mem_filter.mp (hxs ▸ List.mem_cons_self)
      obtain ⟨rfl,rfl⟩ := of_decide_eq_true hfrom
      obtain ⟨part,hpart,hsub⟩ := hstreams x.stream (due_sourced hx).opened
      have hwhole : part.Sublist parts.flatten :=
        List.sublist_flatten_of_mem (List.mem_of_getElem? hpart)
      exact (hsub.trans hwhole).trans hparts

theorem due_once (h : exec (step limits) (State.init limits) as = some s)
    (hfed : Feeds (longLane i) c fs as) (hsend : ∀ f ∈ fs, Sendable f) :
    (frames ((due limits i d as).filter fun x => x.published.publisher = c)).Subperm fs := by
  obtain ⟨parts,hparts,hstreams⟩ := due_given (d := d) h hfed hsend
  refine (subperm_flatten (fun x => hfed.source x.stream) _ ?_).trans hparts.subperm
  intro j
  rw [List.filter_filter]
  -- All that has the number comes from one stream, if there is any.
  by_cases hany : ∃ x ∈ due limits i d as, x.published.publisher = c ∧ hfed.source x.stream = j
  · obtain ⟨y,hy,rfl,rfl⟩ := hany
    obtain ⟨part,hpart,hsub⟩ := hstreams y.stream (due_sourced hy).opened
    rw [hpart,Option.getD_some]
    refine List.Sublist.subperm ?_
    have hsame : (due limits i d as).filter (fun x =>
        decide (hfed.source x.stream = hfed.source y.stream) &&
          decide (x.published.publisher = y.published.publisher)) =
        (due limits i d as).filter (Forwarded.isFrom y.published.publisher y.stream) := by
      apply List.filter_congr
      intro x hx
      have hopened := (due_sourced hx).opened
      rw [Bool.eq_iff_iff]
      simp only [Bool.and_eq_true,decide_eq_true_eq,Forwarded.isFrom]
      constructor
      · rintro ⟨hsource,hpub⟩
        rw [hpub] at hopened
        exact ⟨hpub,hfed.distinct _ _ hopened (due_sourced hy).opened hsource⟩
      · rintro ⟨hpub,hstream⟩
        rw [hstream]
        exact ⟨rfl,hpub⟩
    rw [hsame]
    exact hsub
  · have hnone : (due limits i d as).filter (fun x =>
        decide (hfed.source x.stream = j) && decide (x.published.publisher = c)) = [] := by
      rw [List.filter_eq_nil_iff]
      intro x hx hcond
      simp only [Bool.and_eq_true,decide_eq_true_eq] at hcond
      exact hany ⟨x,hx,hcond.2,hcond.1⟩
    rw [hnone]
    exact List.nil_subperm

/-! ### What an application is handed -/

/-- What arrives of a stream, and how long its deliveries are still taken. -/
structure Arrival where
  reads : Reads
  alive : ℕ → Bool

variable (Id) in
def handed (arrivals : List Arrival) : List Delivery :=
  arrivals.flatMap fun x => (pumpLane Id x.alive x.reads).1

def deliveryOf (lane : Lane) (x : Topic × Bytes) : Delivery := ⟨lane,x.1,x.2⟩

variable (Id) in
omit [DecidableEq Id] in
theorem handed_first {lane : Lane} {xs : List (Stretch (Topic × Bytes))} {arrivals : List Arrival}
    (hxs : ∀ x ∈ xs, OnStream deliverBytes lane x)
    (hlen : ∀ x ∈ xs, ∀ y ∈ x.frames, y.2.length ≤ maxPublishLen)
    (harrived : List.Forall₂ (fun x bytes => x.reads.bytes <+: bytes) arrivals
      (xs.filterMap Stretch.stream)) :
    (∀ x ∈ arrivals, (pumpLane Id x.alive x.reads).2 = 0) ∧
      (handed Id arrivals).Sublist ((xs.flatMap Stretch.frames).map (deliveryOf lane)) := by
  induction xs generalizing arrivals with
  | nil =>
      cases harrived
      exact ⟨List.forall_mem_nil _,List.nil_sublist _⟩
  | cons x xs ih =>
      have hxs' : ∀ y ∈ xs, OnStream deliverBytes lane y :=
        fun y hy => hxs y (List.mem_cons_of_mem _ hy)
      have hlen' := fun y hy => hlen y (List.mem_cons_of_mem _ hy)
      rw [List.flatMap_cons,List.map_append]
      cases hs : x.stream with
      | none =>
          rw [List.filterMap_cons_none hs] at harrived
          obtain ⟨hskipped,hsub⟩ := ih hxs' hlen' harrived
          exact ⟨hskipped,hsub.trans (List.sublist_append_right _ _)⟩
      | some bytes =>
          rw [List.filterMap_cons_some hs] at harrived
          obtain ⟨y,arrivals',hy,harrived',rfl⟩ := List.forall₂_cons_right_iff.mp harrived
          obtain ⟨hskipped,hsub⟩ := ih hxs' hlen' harrived'
          have hfinds : Finds lane (x.whole.map deliverRaw) (y.reads.bytes = bytes) y.reads :=
            (hxs x List.mem_cons_self).finds hs
              (fun f hf => deliver_encodes (hlen x List.mem_cons_self f hf)) hy
          obtain ⟨hpre,hzero,-⟩ := pumpLane_finds Id y.alive hfinds
          refine ⟨List.forall_mem_cons.mpr ⟨hzero,hskipped⟩,?_⟩
          refine List.Sublist.append (hpre.sublist.trans ?_) hsub
          exact (List.sublist_append_left _ _).map _

variable (Id) in
omit [DecidableEq Id] in
/-- What is handed out of a writer's streams is among what it had to write, in that order. -/
theorem handed_written (plan : ℕ → WriteOutcome) (lost : ℕ → Bool) (lane : Lane) (k : ℕ)
    {ds : List (Topic × Bytes)} {arrivals : List Arrival}
    (hlen : ∀ y ∈ ds, y.2.length ≤ maxPublishLen)
    (harrived : List.Forall₂ (fun x bytes => x.reads.bytes <+: bytes) arrivals
      (laneWriter plan lost lane k none (ds.map delivering)).1) :
    (∀ x ∈ arrivals, (pumpLane Id x.alive x.reads).2 = 0) ∧
      (handed Id arrivals).Sublist (ds.map (deliveryOf lane)) := by
  obtain ⟨xs,rest,hlaid,-⟩ := laneWriter_laid plan lost lane k none ds
  have hframes : ds = xs.flatMap Stretch.frames++rest := hlaid.frames
  have hxs : ∀ x ∈ xs, ∀ y ∈ x.frames, y.2.length ≤ maxPublishLen :=
    fun x hx y hy => hlen y (hlaid.mem hx y hy)
  have hstreams := hlaid.streams
  simp only [Option.map_none] at hstreams
  rw [← hstreams] at harrived
  obtain ⟨hskipped,hfirst⟩ := handed_first Id hlaid.stretches hxs harrived
  refine ⟨hskipped,hfirst.trans ?_⟩
  rw [hframes]
  exact (List.sublist_append_left _ _).map _

variable (Id) in
omit [DecidableEq Id] in
theorem handed_all {plan : ℕ → WriteOutcome} (hplan : Flowing plan) (lost : ℕ → Bool) {lane : Lane}
    (hlane : lane ≠ .bulk) (k : ℕ) {ds : List (Topic × Bytes)} {arrivals : List Arrival}
    (hlen : ∀ y ∈ ds, y.2.length ≤ maxPublishLen) (halive : ∀ x ∈ arrivals, ∀ n, x.alive n = true)
    (harrived : arrivals.map (fun x => x.reads.bytes) =
      (laneWriter plan lost lane k none (ds.map delivering)).1) :
    handed Id arrivals = ds.map (deliveryOf lane) := by
  cases ds with
  | nil =>
      rw [List.map_eq_nil_iff.mp harrived]
      rfl
  | cons y ds =>
      have hbytes : lane.byte::(((y::ds).map delivering).flatMap Deliver.chunks).flatten =
          lane.byte::(y::ds).flatMap deliverBytes := by
        rw [List.flatMap_map,List.flatten_eq_flatMap,List.flatMap_assoc]
        simp only [← List.flatten_eq_flatMap]
        rfl
      rw [List.map_cons,laneWriter_flowing hplan,← List.map_cons,hbytes] at harrived
      obtain ⟨x,arrivals',rfl,hx,hrest⟩ := List.map_eq_cons_iff.mp harrived
      rw [List.map_eq_nil_iff.mp hrest] at halive ⊢
      have hwhole : OnStream deliverBytes lane
          ⟨y::ds,none,some (lane.byte::(y::ds).flatMap deliverBytes)⟩ := .whole (y::ds)
      have hfinds : Finds lane ((y::ds).map deliverRaw)
          (x.reads.bytes = lane.byte::(y::ds).flatMap deliverBytes) x.reads :=
        hwhole.finds rfl (fun f hf => deliver_encodes (hlen f (by simpa [Stretch.frames] using hf)))
          (List.prefix_iff_eq_take.mpr (by rw [hx,List.take_length]))
      have hpump := (pumpLane_finds Id x.alive hfinds).2.2 (fun h => absurd h hlane)
        (halive x List.mem_cons_self) hx
      rw [handed,List.flatMap_singleton,hpump]
      rfl

/-- What a connection's writer has put on the streams of a lane. -/
def written (plan : ℕ → WriteOutcome) (lost : ℕ → Bool) (k : ℕ) (i : Fin 2) (out : Outbound Id) :
    List Bytes :=
  (laneWriter plan lost (longLane i) k none ((out.lanes i).sent.map Queued.item)).1

/-- A publication as the application at the other end gets it. -/
def Forwarded.delivery (x : Forwarded Id) : Delivery :=
  ⟨x.published.lane,x.published.frame.topic,x.published.frame.deliver.payload⟩

def Forwarded.content (x : Forwarded Id) : Topic × Bytes :=
  (x.published.frame.topic,x.published.frame.deliver.payload)

omit [EndpointKey Id] [DecidableEq Id] in
theorem queued_items {xs : List (Forwarded Id)} (h : ∀ x ∈ xs, Sound x.published.frame) :
    (xs.map Forwarded.queued).map Queued.item = (xs.map Forwarded.content).map delivering := by
  rw [List.map_map,List.map_map]
  exact List.map_congr_left fun x hx => (h x hx).1

omit [EndpointKey Id] [DecidableEq Id] in
theorem content_deliveries {lane : Lane} {xs : List (Forwarded Id)}
    (h : ∀ x ∈ xs, x.published.lane = lane) :
    (xs.map Forwarded.content).map (deliveryOf lane) = xs.map Forwarded.delivery := by
  rw [List.map_map]
  apply List.map_congr_left
  intro x hx
  rw [Forwarded.delivery,h x hx]
  rfl

variable {dconn : Conn Id F}

theorem queue_contents (hrun : exec (step limits) (State.init limits) as = some s)
    (hd : s.conns d = some dconn) : ∃ xs, xs <+: due limits i d as ∧
      ((s.outs d).lanes i).sent.map Queued.item = (xs.map Forwarded.content).map delivering ∧
      (¬Refuses (s.outs d) i → xs = due limits i d as) := by
  obtain ⟨hpre,hall⟩ := queued_due (i := i) (init_invariant limits) hrun rfl hd
  obtain ⟨m,hm⟩ : ∃ m, ((s.outs d).lanes i).sent.length = m := ⟨_,rfl⟩
  have hsent : ((s.outs d).lanes i).sent = ((due limits i d as).take m).map Forwarded.queued := by
    rw [List.map_take,← hm]
    exact List.prefix_iff_eq_take.mp hpre
  refine ⟨(due limits i d as).take m,List.take_prefix _ _,?_,?_⟩
  · rw [hsent]
    exact queued_items fun x hx => (due_sourced (List.mem_of_mem_take hx)).sound
  · intro hrefuses
    apply List.take_of_length_le
    rw [← hm,hall hrefuses,List.length_map]
    exact le_rfl

/-- **From application to application**: in every run, whatever writes fail and however much
of each stream arrives, what an application is handed of a long-lived lane, stream by
stream, is among what was carried out for it, in that order and each once, and nothing is
skipped; it is all of it, if nothing was refused or failed. What was carried out of a
stream of another client is among what that client's application published, in the order
it did; and each frame it published was carried out at most once. -/
theorem lanes_end_to_end (hrun : exec (step limits) (State.init limits) as = some s)
    (hd : s.conns d = some dconn) (plan : ℕ → WriteOutcome) (lost : ℕ → Bool) (k : ℕ)
    {arrivals : List Arrival}
    (harrived : List.Forall₂ (fun x bytes => x.reads.bytes <+: bytes) arrivals
      (written plan lost k i (s.outs d))) :
    (∀ x ∈ arrivals, (pumpLane Id x.alive x.reads).2 = 0) ∧
    (handed Id arrivals).Sublist ((due limits i d as).map Forwarded.delivery) ∧
    (Flowing plan → ¬Refuses (s.outs d) i → (∀ x ∈ arrivals, ∀ n, x.alive n = true) →
      arrivals.map (fun x => x.reads.bytes) = written plan lost k i (s.outs d) →
      handed Id arrivals = (due limits i d as).map Forwarded.delivery) ∧
    ∀ c fs, Feeds (longLane i) c fs as → (∀ f ∈ fs, Sendable f) →
      (∀ stream, (frames ((due limits i d as).filter (Forwarded.isFrom c stream))).Sublist fs) ∧
      (frames ((due limits i d as).filter fun x => x.published.publisher = c)).Subperm fs := by
  obtain ⟨xs,hpre,hitems,hall⟩ := queue_contents (i := i) hrun hd
  have hlen : ∀ y ∈ xs.map Forwarded.content, y.2.length ≤ maxPublishLen := by
    intro y hy
    obtain ⟨x,hx,rfl⟩ := List.mem_map.mp hy
    exact (due_sourced (hpre.mem hx)).sound.2
  have hdeliveries := content_deliveries fun x hx => (due_sourced (hpre.mem hx)).lane
  unfold written at harrived ⊢
  rw [hitems] at harrived ⊢
  obtain ⟨hskipped,hfirst⟩ := handed_written Id plan lost (longLane i) k hlen harrived
  rw [hdeliveries] at hfirst
  refine ⟨hskipped,hfirst.trans (hpre.map _).sublist,?_,?_⟩
  · intro hplan hrefuses halive hwhole
    rw [handed_all Id hplan lost (longLane_ne_bulk i) k hlen halive hwhole,hdeliveries,hall hrefuses]
  · intro c fs hfed hsend
    exact ⟨due_ordered hrun hfed hsend,due_once hrun hfed hsend⟩

end

/-- Of the race, what the first publisher's application published. -/
def firstOfRace : List (ClientFrame RawId) := [.publish (topicOf 7) [1]]

theorem flowing_ones : Flowing fun _ => .took 0 := fun _ => ⟨0,rfl⟩

theorem firstOfRace_arrives (stream : ℕ)
    (hopen : .act 1 (.openLane stream .control) ∈ trio++race) : ∃ bytes r r',
    (sendLane (fun _ => .took 0) .control 0 firstOfRace)[id stream]? = some bytes ∧
    r.bytes <+: bytes ∧ readLaneByte r = .ok (some Lane.control.byte,r') ∧
    (trio++race).filterMap (rawOn 1 stream) <+: (readFrames r').1 := by
  have hstream : stream = 0 := by
    simpa [trio,race,sends,publishes] using hopen
  subst hstream
  obtain ⟨r',hbyte,hr,hf⟩ := readLaneByte_cons
    (Reads.whole (Lane.control.byte::firstOfRace.flatMap ClientFrame.encode)) _ _
    (Reads.whole_bytes _)
  refine ⟨_,_,r',?_,by rw [Reads.whole_bytes],hbyte,?_⟩
  · rw [sendLane,if_neg (by decide),firstOfRace,sendLongLived_flowing flowing_ones]
    rfl
  · have hstream : Stream [] (firstOfRace.map rawOf) none r' := by
      refine ⟨by decide,⟨[],?_,.clean⟩,fun _ => hf⟩
      rw [hr]
      rfl
    rw [hstream.readFrames]
    decide

/-- Its client wrote it to one stream, and all of it arrived. -/
def firstFeeds : Feeds .control 1 firstOfRace (trio++race) where
  plan _ := .took 0
  start := 0
  source := id
  distinct _ _ _ _ h := h
  arrives := firstOfRace_arrives

/-- Both payloads of the race reach the third application, the second publisher's first. -/
theorem lanes_end_to_end_race : ∃ s arrivals,
    exec (step .default) (State.init .default) (trio++race) = some s ∧
    handed RawId arrivals = [⟨.control,topicOf 7,[2]⟩,⟨.control,topicOf 7,[1]⟩] ∧
    (frames ((due .default 0 3 (trio++race)).filter fun x => x.published.publisher = 1)).Subperm
      firstOfRace := by
  have hrun : (exec (step .default) (State.init .default) (trio++race)).any (fun s =>
      (s.conns 3).any fun _ => decide ((s.outs 3).budget.overflowed = false ∧
        ((s.outs 3).lanes 0).isOpen = true ∧
        (due .default 0 3 (trio++race)).map Forwarded.delivery =
          [⟨.control,topicOf 7,[2]⟩,⟨.control,topicOf 7,[1]⟩])) = true := by
    decide +kernel
  obtain ⟨s,hs,hrun⟩ := (Option.any_eq_true _ _).mp hrun
  obtain ⟨dconn,hd,hrun⟩ := (Option.any_eq_true _ _).mp hrun
  obtain ⟨hbudget,hopen,hdue⟩ := of_decide_eq_true hrun
  have hrefuses : ¬Refuses (s.outs 3) 0 := by
    rintro (h | h)
    · rw [hbudget] at h
      cases h
    · rw [hopen] at h
      cases h
  let arrivals := (written (fun _ => .took 0) (fun _ => false) 0 0 (s.outs 3)).map fun bytes =>
    (⟨Reads.whole bytes,fun _ => true⟩ : Arrival)
  have hwhole : arrivals.map (fun x => x.reads.bytes) =
      written (fun _ => .took 0) (fun _ => false) 0 0 (s.outs 3) := by
    simp [arrivals,Function.comp_def]
  have harrived : List.Forall₂ (fun x bytes => x.reads.bytes <+: bytes) arrivals
      (written (fun _ => .took 0) (fun _ => false) 0 0 (s.outs 3)) := by
    rw [← hwhole,List.forall₂_map_right_iff,List.forall₂_same]
    exact fun _ _ => List.prefix_rfl
  obtain ⟨-,-,hall,hfeeds⟩ := lanes_end_to_end (i := 0) hs hd (fun _ => .took 0) (fun _ => false) 0
    harrived
  refine ⟨s,arrivals,hs,?_,(hfeeds 1 firstOfRace firstFeeds ?_).2⟩
  · rw [← hdue]
    refine hall flowing_ones hrefuses ?_ hwhole
    simp [arrivals]
  · decide

end KeepTalkingSfu.LaneDelivery
