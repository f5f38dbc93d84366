import KeepTalkingSfu.BucketRuns

/-!
# Rejected calls

Every call refills the bucket and moves its time, whether it is accepted or not. But
refilling twice is refilling once for as long, so a rejected call leaves nothing
behind: the bucket it leaves holds at every later time what the bucket it found
would hold. Without the rejected calls all others are decided alike, and the bucket
is the one of a clock that refills it in steps as small as one likes and is charged
for accepted frames only.
-/
namespace KeepTalkingSfu.RejectedCalls
open TokenBucket TokenWindow FloodBound BucketRuns

/-- A limit with exact numbers, or no limit. -/
inductive Plain : Level → Level → Prop
  | finite (perSecond burst : ℚ≥0) : Plain (.finite perSecond) (.finite burst)
  | unlimited (perSecond : Level) : Plain perSecond .infinite

structure PlainRate (rate : Rate Level) : Prop where
  bytes : Plain rate.bytesPerSecond rate.burstBytes
  frames : Plain rate.framesPerSecond rate.burstFrames

section
variable {F : Type} [Scalar F]
open Scalar

/-- What a bucket holds at a time, bytes and frames. -/
def levelsAt (b : Bucket F) (t : ℕ) : F × F :=
  (refill b.bytes b.rate.bytesPerSecond b.rate.burstBytes (seconds (t-b.last)),
    refill b.frames b.rate.framesPerSecond b.rate.burstFrames (seconds (t-b.last)))

/-- Whether the levels allow a frame, and what they are then. -/
def settle (rate : Rate F) (levels : F × F) (len : ℕ) : Bool × F × F :=
  if lt levels.2 (ofNat 1) || lt levels.1 (min (ofNat len) rate.burstBytes) then (false,levels)
  else (true,sub levels.1 (ofNat len),sub levels.2 (ofNat 1))

/-- A call looks at what the bucket holds and at nothing else. -/
theorem tryTake_eq (b : Bucket F) (len now : ℕ) :
    b.tryTake len now =
      ((settle b.rate (levelsAt b now) len).1,
        ⟨b.rate,(settle b.rate (levelsAt b now) len).2.1,(settle b.rate (levelsAt b now) len).2.2,now⟩) := by
  change (if (lt (levelsAt b now).2 (ofNat 1) ||
      lt (levelsAt b now).1 (min (ofNat len) b.rate.burstBytes)) = true then _ else _) = _
  unfold settle
  split_ifs <;> rfl

/-- Buckets that hold the same from a time on. -/
structure Agree (start : ℕ) (b b' : Bucket F) : Prop where
  rate : b.rate = b'.rate
  levels : ∀ t, start ≤ t → levelsAt b t = levelsAt b' t

theorem Agree.refl (start : ℕ) (b : Bucket F) : Agree start b b := ⟨rfl,fun _ _ => rfl⟩

theorem Agree.tryTake {start : ℕ} {b b' : Bucket F} (h : Agree start b b') (len : ℕ) {now : ℕ}
    (hnow : start ≤ now) : b.tryTake len now = b'.tryTake len now := by
  rw [tryTake_eq,tryTake_eq,h.rate,h.levels now hnow]

end

/-! ### A rejected call -/

section
variable {perSecond burst level : Level}

theorem Plain.refill_refill (h : Plain perSecond burst) (level : Level) (m n : ℕ) :
    refill (refill level perSecond burst (Scalar.seconds m)) perSecond burst (Scalar.seconds n) =
      refill level perSecond burst (Scalar.seconds (m+n)) := by
  cases h with
  | unlimited => rfl
  | finite p b =>
      cases level with
      | infinite =>
          -- a level without bound is cut to the burst, and stays there
          have hfull : ∀ k : ℕ, refill .infinite (.finite p) (.finite b) (Scalar.seconds k) =
              Level.finite b := fun _ => rfl
          have hflow : 0 ≤ (n : ℚ)*((p : ℚ)/ticks) :=
            mul_nonneg (Nat.cast_nonneg _) (perTick_nonneg p)
          rw [hfull,hfull,refill_exact,refilled,min_eq_right (le_add_of_nonneg_right hflow)]
      | finite x =>
          rw [refill_exact,refill_exact,refill_exact,refilled_refilled (perTick_nonneg p)]

/-- A rejected call leaves what it found. -/
theorem denied_agree {b : Bucket Level} (hrate : PlainRate b.rate) {len now : ℕ} (hclock : b.last ≤ now)
    (hdenied : (b.tryTake len now).1 = false) : Agree now (b.tryTake len now).2 b := by
  have hleft : (b.tryTake len now).2 = ⟨b.rate,(levelsAt b now).1,(levelsAt b now).2,now⟩ := by
    rw [tryTake_eq] at hdenied ⊢
    simp only [settle] at hdenied ⊢
    split_ifs at hdenied ⊢
    rfl
  rw [hleft]
  refine ⟨rfl,?_⟩
  intro t ht
  have hsplit : t-b.last = (now-b.last)+(t-now) := by omega
  simp only [levelsAt]
  rw [hrate.bytes.refill_refill,hrate.frames.refill_refill,hsplit]

/-- The calls that were accepted are accepted without the others too, and leave the
same behind. -/
theorem accepted_again {start : ℕ} {b b' : Bucket Level} (hrate : PlainRate b.rate)
    (hlast : b.last ≤ start) (h : Agree start b b') {cs : List Call} (hordered : Ordered start cs) :
    accepted b' (accepted b cs) = accepted b cs ∧
      ∀ t, start ≤ t → (∀ c ∈ cs, c.now ≤ t) → Agree t (after b cs) (after b' (accepted b cs)) := by
  induction cs generalizing start b b' with
  | nil => exact ⟨rfl,fun t ht _ => ⟨h.rate,fun u hu => h.levels u (ht.trans hu)⟩⟩
  | cons c cs ih =>
      obtain ⟨hclock,hrest⟩ := hordered.cons
      have hrate' : PlainRate (b.tryTake c.len c.now).2.rate := by
        rw [tryTake_eq]
        exact hrate
      have hlast' : (b.tryTake c.len c.now).2.last = c.now := by rw [tryTake_eq]
      cases hok : (b.tryTake c.len c.now).1 with
      | true =>
          obtain ⟨hagain,hagree⟩ := ih hrate' hlast'.le (.refl c.now _) hrest
          rw [accepted,if_pos hok,accepted,← h.tryTake c.len hclock,if_pos hok,hagain,after,after,
            ← h.tryTake c.len hclock]
          refine ⟨rfl,?_⟩
          intro t ht hall
          exact hagree t (hall c List.mem_cons_self) fun d hd => hall d (List.mem_cons_of_mem _ hd)
      | false =>
          have hleft := denied_agree hrate (hlast.trans hclock) hok
          have hskip : Agree c.now (b.tryTake c.len c.now).2 b' :=
            ⟨hleft.rate.trans h.rate,fun t ht => (hleft.levels t ht).trans (h.levels t (hclock.trans ht))⟩
          obtain ⟨hagain,hagree⟩ := ih hrate' hlast'.le hskip hrest
          have haccepted : accepted b (c::cs) = accepted (b.tryTake c.len c.now).2 cs := by
            rw [accepted,if_neg (by rw [hok]; decide)]
          rw [haccepted,after]
          refine ⟨hagain,?_⟩
          intro t ht hall
          exact hagree t (hall c List.mem_cons_self) fun d hd => hall d (List.mem_cons_of_mem _ hd)

end

/-! ### The reference -/

/-- A bucket that a clock refills, called or not. -/
structure Reference where
  levels : Level × Level
  time : ℕ

section
variable (rate : Rate Level) (parts : ℕ)

/-- One tick of the clock, of which a nanosecond has `parts`. -/
def tick : Level × Level → Level × Level :=
  Prod.map
    (refill · rate.bytesPerSecond rate.burstBytes (.finite (1/(parts*1000000000))))
    (refill · rate.framesPerSecond rate.burstFrames (.finite (1/(parts*1000000000))))

/-- The clock runs on to the time of a call. Only an accepted frame is charged. -/
def Reference.take (r : Reference) (c : Call) : Bool × Reference :=
  let levels := (tick rate parts)^[parts*(c.now-r.time)] r.levels
  ((settle rate levels c.len).1,⟨(settle rate levels c.len).2,c.now⟩)

def Reference.after : Reference → List Call → Reference
  | r,[] => r
  | r,c::cs => Reference.after (r.take rate parts c).2 cs

def Reference.accepted : Reference → List Call → List Call
  | _,[] => []
  | r,c::cs =>
      if (r.take rate parts c).1 then c::Reference.accepted (r.take rate parts c).2 cs
      else Reference.accepted (r.take rate parts c).2 cs

end

/-- The reference holds what the bucket holds. -/
structure Mirrors (r : Reference) (b : Bucket Level) : Prop where
  levels : r.levels = (b.bytes,b.frames)
  time : r.time = b.last

/-- A level that is at most full. -/
inductive Capped : Level → Level → Prop
  | finite (x burst : ℚ) : x ≤ burst → Capped (.finite x) (.finite burst)
  | unlimited : Capped .infinite .infinite

section
variable {perSecond burst level : Level}

theorem Plain.capped (h : Plain perSecond burst) : Capped burst burst := by
  cases h with
  | finite p b => exact .finite b b le_rfl
  | unlimited => exact .unlimited

theorem Plain.refill_capped (h : Plain perSecond burst) (hc : Capped level burst) (n : ℕ) :
    Capped (refill level perSecond burst (Scalar.seconds n)) burst := by
  cases h with
  | unlimited => exact .unlimited
  | finite p b =>
      cases hc with
      | finite x _ _ =>
          rw [refill_exact]
          exact .finite _ b (min_le_right _ _)

theorem Capped.sub (h : Capped level burst) (n : ℕ) :
    Capped (Scalar.sub level (Scalar.ofNat n)) burst := by
  cases h with
  | unlimited => exact .unlimited
  | finite x b hx =>
      have hn : (0 : ℚ) ≤ n := Nat.cast_nonneg n
      exact .finite (x-n) b (by linarith)

/-- Many small refills are one. -/
theorem Plain.refill_iterate (h : Plain perSecond burst) (hc : Capped level burst) {parts : ℕ}
    (hparts : 0 < parts) (n : ℕ) :
    (refill · perSecond burst (.finite (1/(parts*1000000000))))^[parts*n] level =
      refill level perSecond burst (Scalar.seconds n) := by
  cases h with
  | unlimited =>
      cases hc
      exact Function.iterate_fixed rfl _
  | finite p b =>
      cases hc with
      | finite x _ hx =>
          -- on exact levels a tick is a refill for a part of a nanosecond
          have hpart : Function.Semiconj Level.finite (refilled ((p : ℚ)/ticks/parts) b · 1)
              (refill · (.finite p) (.finite b) (.finite (1/(parts*1000000000)))) := by
            intro y
            have hmul : (1 : ℚ)/(parts*1000000000)*p = (1 : ℕ)*((p : ℚ)/ticks/parts) := by
              unfold ticks
              field_simp
              norm_num
            change _ = Level.finite (min (y+1/(parts*1000000000)*p) b)
            rw [hmul]
            rfl
          have hrate : 0 ≤ (p : ℚ)/ticks/parts := div_nonneg (perTick_nonneg p) (Nat.cast_nonneg _)
          rw [← hpart.iterate_right (parts*n) x,refilled_iterate hrate hx,refilled_parts hparts,
            refill_exact]

end

/-- The levels of a bucket are at most full. -/
structure Full (b : Bucket Level) : Prop where
  rate : PlainRate b.rate
  bytes : Capped b.bytes b.rate.burstBytes
  frames : Capped b.frames b.rate.burstFrames

theorem Full.tryTake {b : Bucket Level} (h : Full b) (len now : ℕ) : Full (b.tryTake len now).2 := by
  have hbytes := h.rate.bytes.refill_capped h.bytes (now-b.last)
  have hframes := h.rate.frames.refill_capped h.frames (now-b.last)
  rw [tryTake_eq,settle]
  split_ifs
  · exact ⟨h.rate,hbytes,hframes⟩
  · exact ⟨h.rate,hbytes.sub len,hframes.sub 1⟩

theorem Mirrors.take {r : Reference} {b : Bucket Level} (h : Mirrors r b) (hb : Full b) {parts : ℕ}
    (hparts : 0 < parts) (c : Call) :
    (r.take b.rate parts c).1 = (b.tryTake c.len c.now).1 ∧
      Mirrors (r.take b.rate parts c).2 (b.tryTake c.len c.now).2 := by
  have hlevels : (tick b.rate parts)^[parts*(c.now-r.time)] r.levels = levelsAt b c.now := by
    rw [tick,Prod.map_iterate,h.levels,h.time,Prod.map_apply,
      hb.rate.bytes.refill_iterate hb.bytes hparts,hb.rate.frames.refill_iterate hb.frames hparts]
    rfl
  rw [tryTake_eq,Reference.take,hlevels]
  exact ⟨rfl,rfl,rfl⟩

/-- The reference decides as the bucket does, call by call. -/
theorem Mirrors.run {r : Reference} {b : Bucket Level} (h : Mirrors r b) (hb : Full b) {parts : ℕ}
    (hparts : 0 < parts) (cs : List Call) :
    r.accepted b.rate parts cs = accepted b cs ∧
      Mirrors (r.after b.rate parts cs) (after b cs) := by
  induction cs generalizing r b with
  | nil => exact ⟨rfl,h⟩
  | cons c cs ih =>
      obtain ⟨hok,hmirrors⟩ := h.take hb hparts c
      obtain ⟨haccepted,hafter⟩ := ih hmirrors (hb.tryTake c.len c.now)
      have hrate : (b.tryTake c.len c.now).2.rate = b.rate := by rw [tryTake_eq]
      rw [hrate] at haccepted hafter
      rw [Reference.accepted,accepted,hok,haccepted]
      exact ⟨rfl,hafter⟩

/-- **Rejected calls are unobservable**: without them the others are accepted again,
and after every part of the calls the bucket holds at every later time what it would
hold without the rejected ones, so the next call is decided alike. And the bucket
agrees at every call with one that is refilled in steps as small as one likes and is
charged for accepted frames only. -/
theorem rejected_calls_unobservable {rate : Rate Level} (hrate : PlainRate rate) {start : ℕ}
    {calls : List Call} (h : Ordered start calls) :
    accepted (.new rate start) (accepted (.new rate start) calls) =
      accepted (.new rate start) calls ∧
    (∀ done rest, calls = done++rest →
      accepted (.new rate start) calls =
        accepted (.new rate start) done++accepted (after (.new rate start) done) rest ∧
      ∀ t, start ≤ t → (∀ c ∈ done, c.now ≤ t) →
        levelsAt (after (.new rate start) done) t =
          levelsAt (after (.new rate start) (accepted (.new rate start) done)) t ∧
        ∀ len, (after (.new rate start) done).tryTake len t =
          (after (.new rate start) (accepted (.new rate start) done)).tryTake len t) ∧
    ∀ parts, 0 < parts → ∀ done rest, calls = done++rest →
      Reference.accepted rate parts ⟨(rate.burstBytes,rate.burstFrames),start⟩ done =
        accepted (.new rate start) done ∧
      Mirrors (Reference.after rate parts ⟨(rate.burstBytes,rate.burstFrames),start⟩ done)
        (after (.new rate start) done) := by
  refine ⟨(accepted_again hrate le_rfl (.refl start _) h).1,?_,?_⟩
  · rintro done rest rfl
    refine ⟨accepted_append _ _ _,?_⟩
    intro t ht hall
    have hdone : Ordered start done := by
      refine h.sublist ?_
      rw [List.map_append]
      exact (List.sublist_append_left _ _).cons_cons start
    have hagree := (accepted_again (b := .new rate start) hrate (le_refl start) (.refl start _)
      hdone).2 t ht hall
    exact ⟨hagree.levels t le_rfl,fun len => hagree.tryTake len le_rfl⟩
  · rintro parts hparts done rest rfl
    have hfull : Full (.new rate start) := ⟨hrate,hrate.bytes.capped,hrate.frames.capped⟩
    have hmirrors : Mirrors ⟨(rate.burstBytes,rate.burstFrames),start⟩ (.new rate start) := ⟨rfl,rfl⟩
    exact hmirrors.run hfull hparts done

/-- A frame larger than the burst, calls while its debt is repaid, and one more frame:
the second and the third call are rejected. -/
def hammered : List Call := [⟨500,0⟩,⟨1,0⟩,⟨1,100000000⟩,⟨1,500000000⟩]

theorem rejected_calls_unobservable_hammered :
    accepted (.new (exact smallBurst) 0) hammered = [⟨500,0⟩,⟨1,500000000⟩] ∧
    accepted (.new (exact smallBurst) 0) [⟨500,0⟩,⟨1,500000000⟩] = [⟨500,0⟩,⟨1,500000000⟩] ∧
    levelsAt (after (.new (exact smallBurst) 0) [⟨500,0⟩,⟨1,0⟩]) 100000000 =
      levelsAt (after (.new (exact smallBurst) 0) [⟨500,0⟩]) 100000000 ∧
    Reference.accepted (exact smallBurst) 1000 ⟨(.finite 100,.finite 1000),0⟩ hammered =
      [⟨500,0⟩,⟨1,500000000⟩] := by
  have hrate : PlainRate (exact smallBurst) := ⟨.finite _ _,.finite _ _⟩
  have hordered : Ordered 0 hammered := by decide
  obtain ⟨hagain,hlevels,href⟩ := rejected_calls_unobservable hrate hordered
  have haccepted : accepted (.new (exact smallBurst) 0) hammered = [⟨500,0⟩,⟨1,500000000⟩] := by
    decide +kernel
  have hdone : accepted (.new (exact smallBurst) 0) [⟨500,0⟩,⟨1,0⟩] = [⟨500,0⟩] := by decide +kernel
  rw [haccepted] at hagain
  have hlevel := ((hlevels [⟨500,0⟩,⟨1,0⟩] [⟨1,100000000⟩,⟨1,500000000⟩] rfl).2 100000000
    (by decide) (by decide)).1
  rw [hdone] at hlevel
  refine ⟨haccepted,hagain,hlevel,?_⟩
  have hsame := (href 1000 (by decide) hammered [] (List.append_nil _).symm).1
  rwa [haccepted] at hsame

end KeepTalkingSfu.RejectedCalls
