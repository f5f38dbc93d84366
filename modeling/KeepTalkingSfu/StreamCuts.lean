import KeepTalkingSfu.SnapshotAssembly

/-!
# Streams cut anywhere

A connection can end between any two bytes, on the writing side by a write that fails
and on the reading side by whatever had arrived by then. A writer never puts anything
on its stream but the bytes of its items in order, so what is there is a prefix of
them; and a reader of a prefix of a stream reads a prefix of its frames. What a client
hands out of a cut stream is then the first part of what it would have handed out.
-/
namespace KeepTalkingSfu.StreamCuts
open ByteTransport WireFormat FrameCodec FrameReader FrameSequence StreamWriters SessionStream
  SnapshotAssembly

/-! ### Reading -/

theorem nextFrame_longer {failure : Option String} (failure' : Option String)
    {bs bs' rest : Bytes} {f : UInt8 × Bytes} (h : bs <+: bs') (hnext : nextFrame failure bs = .ok (some f,rest)) :
    ∃ rest', nextFrame failure' bs' = .ok (some f,rest') ∧ rest <+: rest' := by
  obtain ⟨tail,rfl⟩ := h
  unfold nextFrame at hnext ⊢
  by_cases hshort : bs.length < 4
  · rw [if_pos hshort] at hnext
    cases failure <;> cases hnext
  · have htake : (bs++tail).take 4 = bs.take 4 := List.take_append_of_le_length (by omega)
    have hlong : ¬(bs++tail).length < 4 := by
      rw [List.length_append]
      omega
    rw [if_neg hshort] at hnext
    rw [if_neg hlong,htake]
    simp only at hnext ⊢
    generalize beValue (bs.take 4) = len at hnext ⊢
    by_cases hrange : 1 ≤ len ∧ len ≤ maxFrameLen
    · rw [if_pos hrange] at hnext ⊢
      by_cases hthere : 4+len ≤ bs.length
      · rw [if_pos hthere] at hnext
        rw [if_pos (by rw [List.length_append]; omega)]
        have htag : (bs++tail).getD 4 0 = bs.getD 4 0 := by
          rw [List.getD_eq_getElem?_getD,List.getD_eq_getElem?_getD,
            List.getElem?_append_left (by omega)]
        have hbody : ((bs++tail).drop 5).take (len-1) = (bs.drop 5).take (len-1) := by
          rw [List.drop_append_of_le_length (by omega)]
          exact List.take_append_of_le_length (by rw [List.length_drop]; omega)
        cases hnext
        refine ⟨(bs++tail).drop (4+len),by rw [htag,hbody],?_⟩
        rw [List.drop_append_of_le_length hthere]
        exact List.prefix_append _ _
      · rw [if_neg hthere] at hnext
        cases hnext
    · rw [if_neg hrange] at hnext
      cases hnext

/-- A prefix of a stream has a prefix of its frames, however either ends. -/
theorem readFrames_longer {r r' : Reads} (h : r.bytes <+: r'.bytes) :
    (readFrames r).1 <+: (readFrames r').1 := by
  induction hn : r.bytes.length using Nat.strong_induction_on generalizing r r' with
  | _ n ih =>
    have hr := readFrame_next r
    cases hnext : nextFrame r.failure r.bytes with
    | error e =>
        simp only [hnext] at hr
        rw [readFrames_error hr]
        exact List.nil_prefix
    | ok x =>
        obtain ⟨f,rest⟩ := x
        simp only [hnext] at hr
        obtain ⟨u,hu,hub,-⟩ := hr
        cases f with
        | none =>
            rw [readFrames_none hu]
            exact List.nil_prefix
        | some f =>
            obtain ⟨rest',hnext',hrest⟩ := nextFrame_longer r'.failure h hnext
            have hr' := readFrame_next r'
            simp only [hnext'] at hr'
            obtain ⟨u',hu',hub',-⟩ := hr'
            have hlt : u.bytes.length < n := by
              rw [hub,← hn]
              exact nextFrame_shrinks hnext
            rw [readFrames_some hu,readFrames_some hu']
            apply List.prefix_cons_inj _ |>.mpr
            apply ih _ hlt _ rfl
            rw [hub,hub']
            exact hrest

theorem readFrames_torn {f : UInt8 × Bytes} {r : Reads} (hlen : 1+f.2.length ≤ maxFrameLen)
    (hcut : r.bytes <+: rawFrame f.1 f.2) (hshort : r.bytes.length < (rawFrame f.1 f.2).length) :
    (readFrames r).1 = [] ∧ ∀ len, (readFrames r).2 ≠ .failed (.length len) := by
  have hr := readFrame_next r
  by_cases hfour : r.bytes.length < 4
  · simp only [nextFrame,if_pos hfour] at hr
    cases hf : r.failure with
    | none =>
        simp only [hf] at hr
        obtain ⟨r',hread,-⟩ := hr
        rw [readFrames_none hread]
        exact ⟨rfl,fun _ h => by cases h⟩
    | some e =>
        simp only [hf] at hr
        rw [readFrames_error hr]
        exact ⟨rfl,fun _ h => by cases h⟩
  · have hhead : r.bytes.take 4 = putU32 (1+f.2.length) := by
      obtain ⟨tail,htail⟩ := hcut
      have htake : (rawFrame f.1 f.2).take 4 = putU32 (1+f.2.length) := List.take_left' (putU32_length _)
      rw [← htake,← htail,List.take_append_of_le_length (by omega)]
    have hlt : 1+f.2.length < 4294967296 := by
      rw [maxFrameLen_eq] at hlen
      omega
    rw [rawFrame_length] at hshort
    have hmissing : ¬4+(1+f.2.length) ≤ r.bytes.length := by omega
    simp only [nextFrame,if_neg hfour,hhead,beValue_putU32,Nat.mod_eq_of_lt hlt,
      if_pos (⟨Nat.le_add_right 1 _,hlen⟩ : 1 ≤ 1+f.2.length ∧ 1+f.2.length ≤ maxFrameLen),
      if_neg hmissing] at hr
    rw [readFrames_error hr]
    refine ⟨rfl,fun len h => ?_⟩
    cases hf : r.failure <;> rw [hf] at h <;> cases h

/-- Whole frames and a part of one more: the whole ones are read, and the end of the
stream is never a length out of range. -/
theorem readFrames_cut {fs : List (UInt8 × Bytes)} {f : UInt8 × Bytes} {cut : Bytes} {r : Reads}
    (hlen : ∀ g ∈ fs, 1+g.2.length ≤ maxFrameLen) (hlast : 1+f.2.length ≤ maxFrameLen)
    (hcut : cut <+: rawFrame f.1 f.2) (hshort : cut.length < (rawFrame f.1 f.2).length)
    (hr : r.bytes = rawFrames fs++cut) :
    (readFrames r).1 = fs ∧ ∀ len, (readFrames r).2 ≠ .failed (.length len) := by
  obtain ⟨r',hmany,hr',-⟩ := readMany_rawFrames fs cut r hlen hr
  rw [← hr'] at hcut hshort
  obtain ⟨hnone,hend⟩ := readFrames_torn hlast hcut hshort
  rw [readFrames_of_many hmany,hnone,List.append_nil]
  exact ⟨rfl,hend⟩

theorem exists_cut {fs : List (UInt8 × Bytes)} {bs : Bytes} (h : bs <+: rawFrames fs) :
    (bs = rawFrames fs) ∨ ∃ done f cut, done++[f] <+: fs ∧ cut <+: rawFrame f.1 f.2 ∧
      cut.length < (rawFrame f.1 f.2).length ∧ bs = rawFrames done++cut := by
  have hcons : ∀ f fs, rawFrames (f::fs) = rawFrame f.1 f.2++rawFrames fs :=
    fun _ _ => List.flatMap_cons
  induction fs generalizing bs with
  | nil => exact .inl (List.prefix_nil.mp h)
  | cons f fs ih =>
      rw [hcons] at h ⊢
      by_cases hshort : bs.length < (rawFrame f.1 f.2).length
      · refine .inr ⟨[],f,bs,?_,?_,hshort,rfl⟩
        · exact List.prefix_append [f] fs
        · exact List.prefix_of_prefix_length_le h (List.prefix_append _ _) hshort.le
      · obtain ⟨rest,rfl⟩ := List.prefix_of_prefix_length_le (List.prefix_append _ _) h
          (Nat.not_lt.mp hshort)
        rw [List.prefix_append_right_inj] at h
        rcases ih h with rfl | ⟨done,g,cut,hdone,hcut,hlt,rfl⟩
        · exact .inl rfl
        · refine .inr ⟨f::done,g,cut,?_,hcut,hlt,?_⟩
          · exact List.prefix_cons_inj f |>.mpr hdone
          · rw [hcons,List.append_assoc]

theorem readFrames_arrived {fs : List (UInt8 × Bytes)} {r : Reads}
    (hlen : ∀ g ∈ fs, 1+g.2.length ≤ maxFrameLen) (h : r.bytes <+: rawFrames fs) :
    (readFrames r).1 <+: fs ∧ ∀ len, (readFrames r).2 ≠ .failed (.length len) := by
  rcases exists_cut h with hall | ⟨done,f,cut,hdone,hcut,hlt,hr⟩
  · obtain ⟨r',hmany,hr',-⟩ := readMany_rawFrames fs [] r hlen (by rw [hall,List.append_nil])
    have hnil := readFrames_torn (f := (0,[])) (r := r') (by decide) (by rw [hr']; exact List.nil_prefix)
      (by rw [hr']; decide)
    rw [readFrames_of_many hmany,hnil.1,List.append_nil]
    exact ⟨List.prefix_rfl,hnil.2⟩
  · have hmem : ∀ g ∈ done++[f], 1+g.2.length ≤ maxFrameLen := fun g hg => hlen g (hdone.subset hg)
    obtain ⟨hread,hend⟩ := readFrames_cut
      (fun g hg => hmem g (List.mem_append_left _ hg)) (hmem f (by simp)) hcut hlt hr
    rw [hread]
    exact ⟨(List.prefix_append _ _).trans hdone,hend⟩

section
variable {Id : Type} [EndpointKey Id] (alive : ℕ → Bool)

theorem turn_grows (s : Pump Id × Bool) (f : UInt8 × Bytes) :
    s.1.handed <+: (turn alive s f).1.handed ∧ s.1.skipped ≤ (turn alive s f).1.skipped := by
  obtain ⟨p,on⟩ := s
  cases on with
  | false => exact ⟨List.prefix_rfl,le_rfl⟩
  | true =>
      have hmerged := merge_merged p f
      have hhanded := merge_handed p f
      change p.handed <+: (Pump.handOut alive (p.merge f.1 f.2)).1.handed ∧
        p.skipped ≤ (Pump.handOut alive (p.merge f.1 f.2)).1.skipped
      generalize p.merge f.1 f.2 = x at hmerged hhanded ⊢
      have hskip : p.skipped ≤ x.1.skipped := by
        cases hmerged with
        | skipped | oversized => exact Nat.le_succ _
        | shown | more | last => exact le_rfl
      obtain ⟨q,frame⟩ := x
      cases frame with
      | none => exact ⟨by rw [← hhanded]; exact List.prefix_rfl,hskip⟩
      | some frame =>
          simp only [Pump.handOut,← hhanded]
          split_ifs
          · exact ⟨List.prefix_append _ _,hskip⟩
          · exact ⟨List.prefix_rfl,hskip⟩

theorem turns_grow (s : Pump Id × Bool) (fs : List (UInt8 × Bytes)) :
    s.1.handed <+: (fs.foldl (turn alive) s).1.handed ∧
      s.1.skipped ≤ (fs.foldl (turn alive) s).1.skipped := by
  induction fs generalizing s with
  | nil => exact ⟨List.prefix_rfl,le_rfl⟩
  | cons f fs ih =>
      obtain ⟨h₁,h₁'⟩ := turn_grows alive s f
      obtain ⟨h₂,h₂'⟩ := ih (turn alive s f)
      exact ⟨h₁.trans h₂,h₁'.trans h₂'⟩

/-- A client that sees only the first part of its session stream hands out the first
part of what the stream shows. -/
theorem pumpFrames_longer {r r' : Reads} (h : r.bytes <+: r'.bytes) (p : Pump Id) :
    (pumpFrames alive r p).handed <+: (pumpFrames alive r' p).handed ∧
      (pumpFrames alive r p).skipped ≤ (pumpFrames alive r' p).skipped := by
  obtain ⟨rest,hrest⟩ := readFrames_longer h
  rw [pumpFrames_eq,pumpFrames_eq,← hrest,List.foldl_append]
  exact turns_grow alive _ rest

theorem turns_alive (p : Pump Id) (fs : List (UInt8 × Bytes)) :
    (fs.foldl (turn alive) (p,true)).1.handed <+: (fs.foldl (turn fun _ => true) (p,true)).1.handed ∧
      (fs.foldl (turn alive) (p,true)).1.skipped ≤
        (fs.foldl (turn fun _ => true) (p,true)).1.skipped := by
  induction fs generalizing p with
  | nil => exact ⟨List.prefix_rfl,le_rfl⟩
  | cons f fs ih =>
      have hmerged := merge_handed p f
      rw [List.foldl_cons,List.foldl_cons]
      change ((fs.foldl (turn alive) (Pump.handOut alive (p.merge f.1 f.2))).1.handed <+:
          (fs.foldl (turn fun _ => true) (Pump.handOut (fun _ => true) (p.merge f.1 f.2))).1.handed) ∧
        (fs.foldl (turn alive) (Pump.handOut alive (p.merge f.1 f.2))).1.skipped ≤
          (fs.foldl (turn fun _ => true) (Pump.handOut (fun _ => true) (p.merge f.1 f.2))).1.skipped
      obtain ⟨q,frame⟩ := p.merge f.1 f.2
      cases frame with
      | none => exact ih q
      | some frame =>
          simp only [Pump.handOut,if_true]
          split_ifs
          · exact ih _
          · rw [turn_stopped]
            obtain ⟨hhanded,hskipped⟩ := turns_grow (fun _ => true)
              ({ q with handed := q.handed++[frame] },true) fs
            exact ⟨(List.prefix_append _ _).trans hhanded,hskipped⟩

theorem pumpFrames_alive (r : Reads) (p : Pump Id) :
    (pumpFrames alive r p).handed <+: (pumpFrames (fun _ => true) r p).handed ∧
      (pumpFrames alive r p).skipped ≤ (pumpFrames (fun _ => true) r p).skipped := by
  rw [pumpFrames_eq,pumpFrames_eq]
  exact turns_alive alive p _

end

/-! ### Writing -/

theorem writeChunks_written (plan : ℕ → WriteOutcome) (k : ℕ) (chunks : List Bytes) :
    (writeChunks plan k chunks).1 <+: chunks.flatten ∧
      match (writeChunks plan k chunks).2.2 with
      | .ok () => (writeChunks plan k chunks).1 = chunks.flatten
      | .error _ => (writeChunks plan k chunks).1.length < chunks.flatten.length := by
  induction hn : chunks.flatten.length using Nat.strong_induction_on generalizing k chunks with
  | _ n ih =>
    rw [writeChunks]
    by_cases hrest : chunks.dropWhile List.isEmpty = []
    · have hflat : chunks.flatten = [] := by
        rw [← flatten_dropWhile_isEmpty,hrest]
        rfl
      simp only [if_pos hrest,hflat]
      exact ⟨List.prefix_rfl,trivial⟩
    · simp only [if_neg hrest]
      have hpos := List.length_pos_iff.mpr (dropWhile_isEmpty_flatten_ne chunks hrest)
      cases plan k with
      | closed => exact ⟨List.nil_prefix,hn ▸ hpos⟩
      | stalled => exact ⟨List.nil_prefix,hn ▸ hpos⟩
      | took extra =>
          have hadv : (advance (extra+1) (chunks.dropWhile List.isEmpty)).flatten =
              chunks.flatten.drop (extra+1) := by rw [flatten_advance,flatten_dropWhile_isEmpty]
          obtain ⟨hpre,hall⟩ := ih _ (by rw [hadv,List.length_drop]; omega) (k+1)
            (advance (extra+1) (chunks.dropWhile List.isEmpty)) rfl
          rw [hadv] at hpre hall
          simp only [flatten_dropWhile_isEmpty]
          generalize writeChunks plan (k+1) (advance (extra+1) (chunks.dropWhile List.isEmpty)) = x
            at hpre hall ⊢
          constructor
          · have h := List.prefix_append_right_inj (chunks.flatten.take (extra+1)) |>.mpr hpre
            rwa [List.take_append_drop] at h
          · split at hall
            · simp only [hall,List.take_append_drop]
            · simp only [List.length_append,List.length_take]
              rw [List.length_drop] at hall
              omega

section
variable {Id : Type} [EndpointKey Id]

/-- The session stream is at any time a first part of its items, back to back. -/
theorem sessionWriter_written (plan : ℕ → WriteOutcome) (chunkEntries chunkBytes k : ℕ)
    (items : List (SessionItem Id)) :
    (sessionWriter plan chunkEntries chunkBytes k items).1 <+:
      (items.flatMap (SessionItem.chunks chunkEntries chunkBytes)).flatten := by
  induction items generalizing k with
  | nil => exact List.prefix_rfl
  | cons item items ih =>
      obtain ⟨hpre,hall⟩ := writeChunks_written plan k (item.chunks chunkEntries chunkBytes)
      rw [List.flatMap_cons,List.flatten_append]
      unfold sessionWriter
      split <;> rename_i written k₁ heq <;> rw [heq] at hpre hall
      · rw [← hall]
        exact List.prefix_append_right_inj written |>.mpr (ih k₁)
      · exact hpre.trans (List.prefix_append _ _)
      · exact hpre.trans (List.prefix_append _ _)

end

end KeepTalkingSfu.StreamCuts
