import KeepTalkingSfu.FrameSequence
import KeepTalkingSfu.SessionStream
import Mathlib.Data.List.Induction

/-!
# Snapshots at the client

A client merges the chunks of a snapshot by topic and hands the members out when the
chunk without MORE is there. What it holds for a topic between two frames is bounded:
a chunk that would take it above the bound makes the client forget the topic. When
that is the last chunk the snapshot is dropped. When it has MORE the client forgets
that it dropped anything, and takes the chunks that follow for a snapshot of their
own. So snapshots are handed out whole exactly when, as long as the receiver is there,
no chunk follows in a snapshot that is above the bound already, unless the chunk alone
is above it.
-/
namespace KeepTalkingSfu.SnapshotAssembly
open ByteTransport WireFormat FrameCodec SnapshotChunks FrameReader FrameSequence SessionStream

section
variable {Id : Type} [EndpointKey Id]

/-! ### Frame by frame -/

/-- One turn of the loop. The second component says whether the loop is still on. -/
def turn (alive : ℕ → Bool) (s : Pump Id × Bool) (f : UInt8 × Bytes) : Pump Id × Bool :=
  if s.2 then Pump.handOut alive (s.1.merge f.1 f.2) else s

/-- The client after some frames. -/
def afterFrames (Id : Type) [EndpointKey Id] (alive : ℕ → Bool) (fs : List (UInt8 × Bytes)) :
    Pump Id × Bool :=
  fs.foldl (turn alive) (.start,true)

variable {alive : ℕ → Bool}

theorem afterFrames_snoc (fs : List (UInt8 × Bytes)) (f : UInt8 × Bytes) :
    afterFrames Id alive (fs++[f]) = turn alive (afterFrames Id alive fs) f := by
  simp [afterFrames]

theorem turn_stopped (p : Pump Id) (fs : List (UInt8 × Bytes)) :
    fs.foldl (turn alive) (p,false) = (p,false) := by
  induction fs with
  | nil => rfl
  | cons f fs ih => exact ih

/-- The client's reader is the loop over the frames of its stream. -/
theorem pumpFrames_eq (r : Reads) (p : Pump Id) :
    pumpFrames alive r p = ((readFrames r).1.foldl (turn alive) (p,true)).1 := by
  fun_induction pumpFrames alive r p with
  | case1 r p tag body r' hread q hnext ih =>
      have hturn : turn alive (p,true) (tag,body) = (q.1,true) := Prod.ext rfl hnext
      rw [readFrames_some hread,List.foldl_cons,hturn]
      exact ih
  | case2 r p tag body r' hread q hnext =>
      have hturn : turn alive (p,true) (tag,body) = (q.1,false) :=
        Prod.ext rfl (Bool.eq_false_of_not_eq_true hnext)
      rw [readFrames_some hread,List.foldl_cons,hturn,turn_stopped]
  | case3 r p hread =>
      rw [readFrames]
      split
      · next f r' h => exact absurd h (hread f.1 f.2 r')
      · rfl
      · rfl

/-! ### What a frame does -/

/-- A frame as a chunk of the topic's snapshot. -/
def chunkOf (Id : Type) [EndpointKey Id] (t : Topic) (f : UInt8 × Bytes) :
    Option (Bool × List (Member Id)) :=
  match (ServerFrame.decode f.1 f.2 : Except String (ServerFrame Id)) with
  | .ok (.snapshot topic more members) => if topic = t then some (more,members) else none
  | _ => none

/-- The members of a snapshot that is under way. -/
def got (p : Pump Id) (t : Topic) : List (Member Id) := (p.pending.lookup t).getD []

/-- What one frame does to the merge state, and what it hands out. -/
inductive Merged (p : Pump Id) (f : UInt8 × Bytes) : Pump Id × Option (ServerFrame Id) → Prop
  | skipped : (∀ t, chunkOf Id t f = none) → Merged p f (p.skip,none)
  | shown (frame : ServerFrame Id) : (∀ t, chunkOf Id t f = none) →
      (∀ t more members, frame ≠ .snapshot t more members) → Merged p f (p,some frame)
  | oversized (t : Topic) (more : Bool) (part : List (Member Id)) :
      (∀ u, chunkOf Id u f = if t = u then some (more,part) else none) →
      2*maxMembersPerTopic < (got p t++part).length →
      Merged p f ({ p with pending := p.pending.erase t }.skip,none)
  | more (t : Topic) (part : List (Member Id)) :
      (∀ u, chunkOf Id u f = if t = u then some (true,part) else none) →
      (got p t++part).length ≤ 2*maxMembersPerTopic →
      Merged p f ({ p with pending := p.pending.insert t (got p t++part) },none)
  | last (t : Topic) (part : List (Member Id)) :
      (∀ u, chunkOf Id u f = if t = u then some (false,part) else none) →
      (got p t++part).length ≤ 2*maxMembersPerTopic →
      Merged p f ({ p with pending := p.pending.erase t },some (.snapshot t false (got p t++part)))

theorem merge_merged (p : Pump Id) (f : UInt8 × Bytes) : Merged p f (p.merge f.1 f.2) := by
  cases hd : (ServerFrame.decode f.1 f.2 : Except String (ServerFrame Id)) with
  | error err =>
      simp only [Pump.merge,hd]
      exact .skipped fun t => by simp only [chunkOf,hd]
  | ok frame =>
      cases frame with
      | snapshot t more part =>
          have hchunk : ∀ u, chunkOf Id u f = if t = u then some (more,part) else none := by
            intro u
            simp only [chunkOf,hd]
          simp only [Pump.merge,hd]
          split_ifs with hsize hmore
          · exact .oversized t more part hchunk hsize
          · subst hmore
            exact .more t part hchunk (Nat.not_lt.mp hsize)
          · have hlast : more = false := Bool.eq_false_of_not_eq_true hmore
            subst hlast
            exact .last t part hchunk (Nat.not_lt.mp hsize)
      | deliver =>
          simp only [Pump.merge,hd]
          exact .skipped fun t => by simp only [chunkOf,hd]
      | joined | left | presence | error =>
          simp only [Pump.merge,hd]
          exact .shown _ (fun t => by simp only [chunkOf,hd]) (by simp)

/-! ### Whole snapshots -/

/-- What a frame adds to the topic's chunks since the last one without MORE. -/
def openedStep (t : Topic) (members : List (Member Id)) (f : UInt8 × Bytes) : List (Member Id) :=
  match chunkOf Id t f with
  | some (true,part) => members++part
  | some (false,_) => []
  | none => members

/-- The members of all chunks for the topic since the last one without MORE. -/
def opened (Id : Type) [EndpointKey Id] (t : Topic) (fs : List (UInt8 × Bytes)) : List (Member Id) :=
  fs.foldl (openedStep t) []

theorem opened_snoc (t : Topic) (fs : List (UInt8 × Bytes)) (f : UInt8 × Bytes) :
    opened Id t (fs++[f]) = openedStep t (opened Id t fs) f := by
  simp [opened]

/-- As long as the receiver is there, no chunk is read of a snapshot that is above the bound
already, unless the chunk alone is above it. -/
def NoneTakenUp (Id : Type) [EndpointKey Id] (alive : ℕ → Bool) (fs : List (UInt8 × Bytes)) : Prop :=
  ∀ done f rest, fs = done++f::rest → (afterFrames Id alive (done++[f])).2 = true →
    ∀ t more part, chunkOf Id t f = some (more,part) →
      (opened Id t done).length ≤ 2*maxMembersPerTopic ∨ 2*maxMembersPerTopic < part.length

/-- What the client should hold of a snapshot under way: nothing, once it is dropped. -/
def kept (members : List (Member Id)) : List (Member Id) :=
  if members.length ≤ 2*maxMembersPerTopic then members else []

omit [EndpointKey Id] in
theorem kept_of_le {members : List (Member Id)} (h : members.length ≤ 2*maxMembersPerTopic) :
    kept members = members := if_pos h

omit [EndpointKey Id] in
theorem kept_of_lt {members : List (Member Id)} (h : 2*maxMembersPerTopic < members.length) :
    kept members = [] := if_neg (Nat.not_le.mpr h)

omit [EndpointKey Id] in
/-- A chunk takes what is kept above the bound when it takes the whole snapshot there, if it
takes up nothing that was dropped. -/
theorem kept_append {members part : List (Member Id)}
    (h : members.length ≤ 2*maxMembersPerTopic ∨ 2*maxMembersPerTopic < part.length)
    (hfits : (kept members++part).length ≤ 2*maxMembersPerTopic) : kept members = members := by
  rcases h with hle | hlt
  · exact kept_of_le hle
  · rw [List.length_append] at hfits
    omega

omit [EndpointKey Id] in
theorem got_erase (p : Pump Id) (t u : Topic) :
    ((p.pending.erase t).lookup u).getD [] = if t = u then [] else got p u := by
  split_ifs with htu
  · subst htu
    rw [AList.lookup_erase]
    rfl
  · rw [AList.lookup_erase_ne (Ne.symm htu)]
    rfl

omit [EndpointKey Id] in
theorem got_insert (p : Pump Id) (t u : Topic) (members : List (Member Id)) :
    ((p.pending.insert t members).lookup u).getD [] = if t = u then members else got p u := by
  split_ifs with htu
  · subst htu
    rw [AList.lookup_insert]
    rfl
  · rw [AList.lookup_insert_ne (Ne.symm htu)]
    rfl

omit [EndpointKey Id] in
theorem handOut_pending (x : Pump Id × Option (ServerFrame Id)) :
    (Pump.handOut alive x).1.pending = x.1.pending := by
  obtain ⟨p,frame⟩ := x
  cases frame with
  | none => rfl
  | some frame =>
      simp only [Pump.handOut]
      split_ifs <;> rfl

omit [EndpointKey Id] in
theorem handOut_handed (x : Pump Id × Option (ServerFrame Id)) :
    (Pump.handOut alive x).1.handed = x.1.handed ∨
      ∃ frame, x.2 = some frame ∧ (Pump.handOut alive x).1.handed = x.1.handed++[frame] ∧
        (Pump.handOut alive x).2 = true := by
  obtain ⟨p,frame⟩ := x
  cases frame with
  | none => exact .inl rfl
  | some frame =>
      simp only [Pump.handOut]
      split_ifs
      · exact .inr ⟨frame,rfl,rfl,rfl⟩
      · exact .inl rfl

omit [EndpointKey Id] in
theorem handOut_taken {p : Pump Id} {x : ServerFrame Id}
    (h : (Pump.handOut alive (p,some x)).2 = true) :
    (Pump.handOut alive (p,some x)).1.handed = p.handed++[x] := by
  simp only [Pump.handOut] at h ⊢
  split_ifs at h ⊢
  rfl

theorem merge_handed (p : Pump Id) (f : UInt8 × Bytes) : (p.merge f.1 f.2).1.handed = p.handed := by
  have hmerged := merge_merged p f
  generalize p.merge f.1 f.2 = next at hmerged ⊢
  cases hmerged <;> rfl

theorem turn_on {s : Pump Id × Bool} {f : UInt8 × Bytes} (h : (turn alive s f).2 = true) :
    s.2 = true := by
  by_contra hoff
  rw [turn,if_neg hoff] at h
  exact hoff h

/-- A frame does to what the client holds what it does to the snapshot under way, if it
takes up nothing that was dropped. -/
theorem merge_got {p : Pump Id} {f : UInt8 × Bytes} {members : Topic → List (Member Id)}
    (hgot : ∀ t, got p t = kept (members t))
    (hnone : ∀ t more part, chunkOf Id t f = some (more,part) →
      (members t).length ≤ 2*maxMembersPerTopic ∨ 2*maxMembersPerTopic < part.length) (u : Topic) :
    got (p.merge f.1 f.2).1 u = kept (openedStep u (members u) f) := by
  have hmerged := merge_merged p f
  generalize p.merge f.1 f.2 = next at hmerged ⊢
  cases hmerged with
  | skipped hno | shown _ hno =>
      simp only [openedStep,hno]
      exact hgot u
  | oversized t more part hchunk hsize =>
      refine (got_erase p t u).trans ?_
      simp only [openedStep,hchunk]
      split_ifs with htu
      · subst htu
        cases more with
        | false => rfl
        | true =>
            refine (kept_of_lt ?_).symm
            rw [hgot] at hsize
            rcases hnone t true part (by rw [hchunk,if_pos rfl]) with hle | hlt
            · rwa [kept_of_le hle] at hsize
            · rw [List.length_append]
              omega
      · exact hgot u
  | more t part hchunk hsize =>
      refine (got_insert p t u _).trans ?_
      simp only [openedStep,hchunk]
      split_ifs with htu
      · subst htu
        rw [hgot] at hsize ⊢
        have hsame := kept_append (hnone t true part (by rw [hchunk,if_pos rfl])) hsize
        rw [hsame] at hsize ⊢
        exact (kept_of_le hsize).symm
      · exact hgot u
  | last t part hchunk hsize =>
      refine (got_erase p t u).trans ?_
      simp only [openedStep,hchunk]
      split_ifs
      · rfl
      · exact hgot u

theorem NoneTakenUp.init {fs done rest : List (UInt8 × Bytes)} (h : NoneTakenUp Id alive fs)
    (hfs : fs = done++rest) : NoneTakenUp Id alive done := by
  intro done' f rest' hdone
  refine h done' f (rest'++rest) ?_
  rw [hfs,hdone,List.append_assoc,List.cons_append]

/-- Then the client holds all of what is under way and not dropped. -/
theorem got_opened {fs : List (UInt8 × Bytes)} (h : NoneTakenUp Id alive fs)
    (hon : (afterFrames Id alive fs).2 = true) (t : Topic) :
    got (afterFrames Id alive fs).1 t = kept (opened Id t fs) := by
  induction fs using List.reverseRecOn generalizing t with
  | nil => rfl
  | append_singleton fs f ih =>
      have hlast := h fs f [] rfl hon
      rw [afterFrames_snoc] at hon ⊢
      have hbefore := turn_on hon
      rw [opened_snoc,turn,if_pos hbefore,got,handOut_pending]
      exact merge_got (ih (h.init rfl) hbefore) hlast t

/-- Every frame that was handed out was so at its place in the stream. -/
theorem handed_from {fs : List (UInt8 × Bytes)} {i : ℕ} {x : ServerFrame Id}
    (h : (afterFrames Id alive fs).1.handed[i]? = some x) :
    ∃ done f rest, fs = done++f::rest ∧ (afterFrames Id alive done).2 = true ∧
      (afterFrames Id alive done).1.handed.length = i ∧
      ((afterFrames Id alive done).1.merge f.1 f.2).2 = some x ∧
      (afterFrames Id alive (done++[f])).2 = true := by
  induction fs using List.reverseRecOn with
  | nil => cases h
  | append_singleton fs f ih =>
      have hearlier : (afterFrames Id alive fs).1.handed[i]? = some x →
          ∃ done g rest, fs++[f] = done++g::rest ∧ (afterFrames Id alive done).2 = true ∧
            (afterFrames Id alive done).1.handed.length = i ∧
            ((afterFrames Id alive done).1.merge g.1 g.2).2 = some x ∧
            (afterFrames Id alive (done++[g])).2 = true := by
        intro hold
        obtain ⟨done,g,rest,hfs,hrest⟩ := ih hold
        refine ⟨done,g,rest++[f],?_,hrest⟩
        rw [hfs,List.append_assoc,List.cons_append]
      rw [afterFrames_snoc,turn] at h
      split_ifs at h with hon
      · rcases @handOut_handed Id alive ((afterFrames Id alive fs).1.merge f.1 f.2) with
          hsame | ⟨frame,hframe,hnew,hstays⟩
        · rw [hsame,merge_handed] at h
          exact hearlier h
        · rw [hnew,merge_handed] at h
          by_cases hi : i < (afterFrames Id alive fs).1.handed.length
          · rw [List.getElem?_append_left hi] at h
            exact hearlier h
          · have hlen : i < ((afterFrames Id alive fs).1.handed++[frame]).length :=
              (List.getElem?_eq_some_iff.mp h).choose
            rw [List.length_append,List.length_singleton] at hlen
            have heq : (afterFrames Id alive fs).1.handed.length = i := by omega
            subst heq
            rw [List.getElem?_append_right le_rfl,Nat.sub_self] at h
            cases h
            refine ⟨fs,f,[],rfl,hon,rfl,hframe,?_⟩
            rw [afterFrames_snoc,turn,if_pos hon]
            exact hstays
      · exact hearlier h

/-- What the client holds for a topic between two frames is bounded, whatever it reads. -/
theorem retained_bounded (fs : List (UInt8 × Bytes)) (t : Topic) {members : List (Member Id)}
    (h : (afterFrames Id alive fs).1.pending.lookup t = some members) :
    members.length ≤ 2*maxMembersPerTopic := by
  induction fs using List.reverseRecOn generalizing members with
  | nil => cases h
  | append_singleton fs f ih =>
      rw [afterFrames_snoc,turn] at h
      split_ifs at h
      · rw [handOut_pending] at h
        have hmerged := merge_merged (afterFrames Id alive fs).1 f
        generalize (afterFrames Id alive fs).1.merge f.1 f.2 = next at h hmerged
        have herase : ∀ u, ((afterFrames Id alive fs).1.pending.erase u).lookup t = some members →
            members.length ≤ 2*maxMembersPerTopic := by
          intro u hu
          by_cases htu : t = u
          · rw [htu,AList.lookup_erase] at hu
            cases hu
          · rw [AList.lookup_erase_ne htu] at hu
            exact ih hu
        cases hmerged with
        | skipped | shown => exact ih h
        | oversized u | last u => exact herase u h
        | more u part _ hsize =>
            by_cases htu : t = u
            · subst htu
              rw [AList.lookup_insert] at h
              cases h
              exact hsize
            · rw [AList.lookup_insert_ne htu] at h
              exact ih h
      · exact ih h

/-- The client shows whole snapshots only: one that is handed out is all chunks since
the last one without MORE, and one that is too large is dropped with all it has. -/
structure WholeSnapshots (Id : Type) [EndpointKey Id] (alive : ℕ → Bool) (r : Reads) : Prop where
  whole : ∀ i t more members,
    (pumpFrames alive r .start : Pump Id).handed[i]? = some (.snapshot t more members) →
    more = false ∧ ∃ done f rest part, (readFrames r).1 = done++f::rest ∧
      (afterFrames Id alive done).1.handed.length = i ∧ chunkOf Id t f = some (false,part) ∧
      members = opened Id t done++part
  dropped : ∀ done f rest t more part, (readFrames r).1 = done++f::rest →
    (afterFrames Id alive done).2 = true → chunkOf Id t f = some (more,part) →
    2*maxMembersPerTopic < (opened Id t done++part).length →
    (afterFrames Id alive (done++[f])).1.handed = (afterFrames Id alive done).1.handed ∧
      (afterFrames Id alive (done++[f])).1.pending.lookup t = none

theorem NoneTakenUp.wholeSnapshots {r : Reads} (h : NoneTakenUp Id alive (readFrames r).1) :
    WholeSnapshots Id alive r := by
  constructor
  · intro i t more members hx
    rw [pumpFrames_eq] at hx
    obtain ⟨done,f,rest,hfs,hon,hi,hout,hstays⟩ := handed_from hx
    have hgot := got_opened (h.init hfs) hon
    have hmerged := merge_merged (afterFrames Id alive done).1 f
    generalize (afterFrames Id alive done).1.merge f.1 f.2 = next at hout hmerged
    cases hmerged with
    | skipped | oversized | more => cases hout
    | shown frame _ hno => exact absurd (Option.some.inj hout) (hno t more members)
    | last u part hchunk hsize =>
        cases hout
        have hpart : chunkOf Id t f = some (false,part) := by rw [hchunk,if_pos rfl]
        refine ⟨rfl,done,f,rest,part,hfs,hi,hpart,?_⟩
        rw [hgot] at hsize ⊢
        rw [kept_append (h done f rest hfs hstays t false part hpart) hsize]
  · intro done f rest t more part hfs hon hchunk hsize
    have hgot := got_opened (h.init hfs) hon
    have hnone := h done f rest hfs
    -- With the receiver there, what is held is above the bound just as the snapshot is.
    have hover : (afterFrames Id alive (done++[f])).2 = true →
        2*maxMembersPerTopic < (got (afterFrames Id alive done).1 t++part).length := by
      intro hstays
      by_contra hfits
      rw [hgot,Nat.not_lt] at hfits
      have hsame := kept_append (hnone hstays t more part hchunk) hfits
      rw [hsame] at hfits
      omega
    rw [afterFrames_snoc,turn,if_pos hon] at hover ⊢
    have hmerged := merge_merged (afterFrames Id alive done).1 f
    generalize (afterFrames Id alive done).1.merge f.1 f.2 = next at hmerged hover ⊢
    cases hmerged with
    | skipped hno | shown _ hno =>
        rw [hno] at hchunk
        cases hchunk
    | oversized u more' part' hchunk' =>
        rw [hchunk'] at hchunk
        split_ifs at hchunk with hut
        subst hut
        exact ⟨rfl,AList.lookup_erase _ _⟩
    | more u part' hchunk' hle =>
        rw [hchunk'] at hchunk
        split_ifs at hchunk with hut
        cases hchunk
        subst hut
        have hlt := hover rfl
        omega
    | last u part' hchunk' hle =>
        rw [hchunk'] at hchunk
        split_ifs at hchunk with hut
        cases hchunk
        subst hut
        simp only [Pump.handOut] at hover ⊢
        split_ifs at hover ⊢
        · have hlt := hover rfl
          omega
        · exact ⟨rfl,AList.lookup_erase _ _⟩

/-- A chunk that takes up what was dropped would be handed out alone, or kept. -/
theorem WholeSnapshots.chunk {r : Reads} (h : WholeSnapshots Id alive r)
    {done rest : List (UInt8 × Bytes)} {f : UInt8 × Bytes} (hfs : (readFrames r).1 = done++f::rest)
    (hdone : NoneTakenUp Id alive done) (hstays : (afterFrames Id alive (done++[f])).2 = true)
    {t : Topic} {more : Bool} {part : List (Member Id)} (hchunk : chunkOf Id t f = some (more,part)) :
    (opened Id t done).length ≤ 2*maxMembersPerTopic ∨ 2*maxMembersPerTopic < part.length := by
  by_contra htaken
  push Not at htaken
  obtain ⟨hover,hfits⟩ := htaken
  rw [afterFrames_snoc] at hstays
  have hon := turn_on hstays
  have hgot := got_opened hdone hon t
  rw [kept_of_lt hover] at hgot
  have hsize : 2*maxMembersPerTopic < (opened Id t done++part).length := by
    rw [List.length_append]
    omega
  have hdropped := h.dropped done f rest t more part hfs hon hchunk hsize
  rw [afterFrames_snoc] at hdropped
  rw [turn,if_pos hon] at hdropped hstays
  have hmerged := merge_merged (afterFrames Id alive done).1 f
  generalize (afterFrames Id alive done).1.merge f.1 f.2 = next at hmerged hdropped hstays
  cases hmerged with
  | skipped hno | shown _ hno =>
      rw [hno] at hchunk
      cases hchunk
  | oversized u more' part' hchunk' hbig =>
      rw [hchunk'] at hchunk
      split_ifs at hchunk with hut
      cases hchunk
      subst hut
      rw [hgot,List.nil_append] at hbig
      omega
  | more u part' hchunk' =>
      rw [hchunk'] at hchunk
      split_ifs at hchunk with hut
      subst hut
      have hpending := hdropped.2
      rw [handOut_pending,AList.lookup_insert] at hpending
      cases hpending
  | last u part' hchunk' =>
      have hlen := congrArg List.length hdropped.1
      rw [handOut_taken hstays,List.length_append,List.length_singleton] at hlen
      simp only at hlen
      omega

theorem WholeSnapshots.noneTakenUp {r : Reads} (h : WholeSnapshots Id alive r) :
    NoneTakenUp Id alive (readFrames r).1 := by
  suffices hall : ∀ done rest, (readFrames r).1 = done++rest → NoneTakenUp Id alive done from
    hall _ [] (List.append_nil _).symm
  intro done
  induction done using List.reverseRecOn with
  | nil =>
      intro rest _ done f rest' hnil
      simp at hnil
  | append_singleton done f ih =>
      intro rest hfs done' g rest' hsplit hstays t more part hchunk
      rw [List.append_assoc,List.singleton_append] at hfs
      have hbefore := ih (f::rest) hfs
      rcases List.eq_nil_or_concat rest' with rfl | ⟨rest'',f',rfl⟩
      · obtain ⟨rfl,heq⟩ := List.append_inj' hsplit rfl
        cases heq
        exact h.chunk hfs hbefore hstays hchunk
      · rw [List.concat_eq_append,← List.cons_append,← List.append_assoc] at hsplit
        obtain ⟨rfl,-⟩ := List.append_inj' hsplit rfl
        exact hbefore done' g rest'' rfl hstays t more part hchunk

/-- **Whole snapshots**: on every stream whatever the client holds no more than the bound for
a topic between two frames; and it hands out whole snapshots exactly when, as long as the
receiver is there, no chunk is read of a snapshot that is above the bound already, unless
the chunk alone is above it. -/
theorem snapshots_whole_iff (alive : ℕ → Bool) (r : Reads) :
    (∀ done rest, (readFrames r).1 = done++rest → ∀ t members,
      (afterFrames Id alive done).1.pending.lookup t = some members →
      members.length ≤ 2*maxMembersPerTopic) ∧
    (WholeSnapshots Id alive r ↔ NoneTakenUp Id alive (readFrames r).1) :=
  ⟨fun done _ _ t _ => retained_bounded done t,WholeSnapshots.noneTakenUp,NoneTakenUp.wholeSnapshots⟩

theorem readFrames_whole {fs : List (UInt8 × Bytes)} (h : ∀ f ∈ fs, 1+f.2.length ≤ maxFrameLen) :
    readFrames (Reads.whole (rawFrames fs)) = (fs,.ended) := by
  obtain ⟨r',hmany,hr',hf'⟩ := readMany_rawFrames fs [] (Reads.whole (rawFrames fs)) h (by simp)
  obtain ⟨r'',hread,-⟩ := readFrame_end r' hr' hf'
  rw [readFrames_of_many hmany,readFrames_none hread,List.append_nil]

end

/-! ### Dropped and taken up again -/

/-- A chunk of a snapshot with empty blobs. -/
def chunkFrame (more : Bool) (n : ℕ) : UInt8 × Bytes :=
  (Tag.snapshot,serverBody (.snapshot Topic.zero more (List.replicate n ⟨RawId.base,[]⟩)))

theorem chunkFrame_length (more : Bool) (n : ℕ) : (chunkFrame more n).2.length = 35+36*n := by
  rw [chunkFrame,snapshotBody_length,List.map_replicate,List.sum_replicate]
  rw [show snapshotEntryLen (⟨RawId.base,[]⟩ : Member RawId) = 36 from rfl,snapshotHeadLen]
  simp only [nsmul_eq_mul,Nat.cast_id]
  omega

theorem chunkFrame_decode (more : Bool) {n : ℕ} (hn : n ≤ 65535) :
    ServerFrame.decode (chunkFrame more n).1 (chunkFrame more n).2 =
      .ok (.snapshot Topic.zero more (List.replicate n (⟨RawId.base,[]⟩ : Member RawId))) := by
  have hlen : (serverBody (.snapshot Topic.zero more
      (List.replicate n (⟨RawId.base,[]⟩ : Member RawId)))).length = 35+36*n := chunkFrame_length more n
  have hcan : CanEncode (.snapshot Topic.zero more (List.replicate n (⟨RawId.base,[]⟩ : Member RawId))) := by
    refine ⟨by omega,?_⟩
    exact (List.length_replicate ..).le.trans hn
  exact serverFrame_decode _ hcan

theorem chunkFrame_chunk (more : Bool) {n : ℕ} (hn : n ≤ 65535) (u : Topic) :
    chunkOf RawId u (chunkFrame more n) =
      if Topic.zero = u then some (more,List.replicate n ⟨RawId.base,[]⟩) else none := by
  simp only [chunkOf,chunkFrame_decode more hn]

/-- The frames of a snapshot in two chunks. -/
def twoChunks (n : ℕ) : List (UInt8 × Bytes) := [chunkFrame true n,chunkFrame false 1]

theorem twoChunks_read {n : ℕ} (hn : n ≤ 4000) :
    readFrames (Reads.whole (rawFrames (twoChunks n))) = (twoChunks n,.ended) := by
  have hmax := maxFrameLen_eq
  apply readFrames_whole
  intro f hf
  rw [twoChunks,List.mem_cons,List.mem_singleton] at hf
  rcases hf with rfl | rfl
  · rw [chunkFrame_length]
    omega
  · rw [chunkFrame_length]
    omega

theorem twoChunks_split {n : ℕ} {done rest : List (UInt8 × Bytes)} {f : UInt8 × Bytes}
    (h : twoChunks n = done++f::rest) :
    (done = [] ∧ f = chunkFrame true n) ∨ (done = [chunkFrame true n] ∧ f = chunkFrame false 1) := by
  cases done with
  | nil =>
      cases h
      exact .inl ⟨rfl,rfl⟩
  | cons a done =>
      cases done with
      | nil =>
          cases h
          exact .inr ⟨rfl,rfl⟩
      | cons b done =>
          have hlen := congrArg List.length h
          simp only [twoChunks,List.length_cons,List.length_append,List.length_nil] at hlen
          omega

theorem opened_first {n : ℕ} (hn : n ≤ 4000) :
    opened RawId Topic.zero [chunkFrame true n] = List.replicate n ⟨RawId.base,[]⟩ := by
  simp only [opened,List.foldl_cons,List.foldl_nil,openedStep,
    chunkFrame_chunk true (by omega : n ≤ 65535),if_true,List.nil_append]

/-- A snapshot of two chunks is whole, and so is what is handed out when the stream ends behind
a chunk that is too much. -/
theorem snapshots_whole_iff_two :
    WholeSnapshots RawId (fun _ => true) (Reads.whole (rawFrames (twoChunks 1))) ∧
      WholeSnapshots RawId (fun _ => true) (Reads.whole (rawFrames [chunkFrame true 2049])) := by
  constructor
  · apply (snapshots_whole_iff _ _).2.mpr
    rw [twoChunks_read (by decide)]
    intro done f rest hfs _ t more part hchunk
    left
    rcases twoChunks_split hfs with ⟨rfl,rfl⟩ | ⟨rfl,rfl⟩
    · exact Nat.zero_le _
    · rw [chunkFrame_chunk false (by decide)] at hchunk
      split_ifs at hchunk with ht
      subst ht
      rw [opened_first (by decide),List.length_replicate]
      decide
  · apply (snapshots_whole_iff _ _).2.mpr
    rw [readFrames_whole (by simp [chunkFrame_length,maxFrameLen_eq])]
    intro done f rest hfs _ t more part hchunk
    left
    cases done with
    | nil => exact Nat.zero_le _
    | cons g done =>
        have hlen := congrArg List.length hfs
        simp only [List.length_cons,List.length_append,List.length_nil] at hlen
        omega

/-- When the first chunk is too much, the second is handed out alone. -/
theorem twoChunks_handed {n : ℕ} (hlow : 2*maxMembersPerTopic < n) (hn : n ≤ 4000) :
    (pumpFrames (fun _ => true) (Reads.whole (rawFrames (twoChunks n))) .start : Pump RawId).handed =
      [.snapshot Topic.zero false [⟨RawId.base,[]⟩]] := by
  have hsize : 2*maxMembersPerTopic < ([]++List.replicate n (⟨RawId.base,[]⟩ : Member RawId)).length := by
    rwa [List.nil_append,List.length_replicate]
  have hfirst : (Pump.start : Pump RawId).merge (chunkFrame true n).1 (chunkFrame true n).2 =
      ({ (Pump.start : Pump RawId) with pending := (∅ : AList _).erase Topic.zero }.skip,none) := by
    simp only [Pump.merge,chunkFrame_decode true (by omega : n ≤ 65535)]
    exact if_pos hsize
  rw [pumpFrames_eq,twoChunks_read hn,twoChunks,List.foldl_cons,List.foldl_cons,List.foldl_nil,turn,
    turn,if_pos rfl,hfirst]
  simp only [Pump.handOut,if_true,Pump.merge,chunkFrame_decode false (by decide : 1 ≤ 65535)]
  rfl

/-- A chunk with one member more than the bound and MORE, and one with a single member
behind it: that member is handed out as the room. -/
theorem snapshot_taken_up_again :
    (pumpFrames (fun _ => true) (Reads.whole (rawFrames (twoChunks 2049))) .start : Pump RawId).handed =
      [.snapshot Topic.zero false [⟨RawId.base,[]⟩]] ∧
    ¬WholeSnapshots RawId (fun _ => true) (Reads.whole (rawFrames (twoChunks 2049))) := by
  have hhanded := twoChunks_handed (n := 2049) (by decide) (by decide)
  refine ⟨hhanded,?_⟩
  intro h
  obtain ⟨-,done,f,rest,part,hfs,-,hchunk,hmembers⟩ :=
    h.whole 0 Topic.zero false [⟨RawId.base,[]⟩] (by rw [hhanded]; rfl)
  rw [twoChunks_read (by decide)] at hfs
  rcases twoChunks_split hfs with ⟨rfl,rfl⟩ | ⟨rfl,rfl⟩
  · rw [chunkFrame_chunk true (by decide)] at hchunk
    split_ifs at hchunk
    cases hchunk
  · have hlen := congrArg List.length hmembers
    rw [opened_first (by decide),List.length_append,List.length_replicate,List.length_singleton] at hlen
    omega

end KeepTalkingSfu.SnapshotAssembly
