import KeepTalkingSfu.TaskSteps

/-!
# Admitting connections

One task accepts handshakes. It counts each one first and compares then: a handshake that
finds the limit reached is uncounted again and refused, any other gets a task of its own,
which is counted until it ends, however it ends. The counting and the uncounting are
operations of their own, and tasks end in between. The limit is never exceeded all the
same, and a handshake is refused only when as many connections as allowed were held when
it was counted, never because of another one that was about to be refused.
-/
namespace KeepTalkingSfu.Admission
open ByteTransport WireFormat OutboxBudget MemberQueues RoomTable TokenBucket Server StepCases
  ServerEffects RoomInvariant InterleavedRuns

/-- Where the accept loop is: with a handshake it has counted, after `before` others, or with
one it still has to uncount. -/
inductive Accepting where
  | waiting
  | counted (before : ℕ)
  | refusing
  deriving DecidableEq, Repr

/-- What the task of a connection that was let in is at. Its session is open once the server
knows it by a number. -/
inductive Guest where
  | connecting
  | serving (c : ℕ)
  deriving DecidableEq, Repr

structure Hall (Id F : Type) where
  server : State Id F
  connections : ℕ
  accepting : Accepting
  guests : List Guest

inductive Move (Id : Type) where
  | incoming
  | compare
  | uncount
  | giveUp (i : ℕ)
  | opened (i : ℕ) (peer : Id) (now : ℕ)
  | serve (a : Action Id)
  | gone (i : ℕ)

section
variable {Id F : Type}

def Hall.init (limits : Limits F) : Hall Id F := ⟨State.init limits,0,.waiting,[]⟩

/-- Drops a slot. -/
def Hall.release (h : Hall Id F) (i : ℕ) : Hall Id F :=
  { h with connections := wrappingSub h.connections 1, guests := h.guests.eraseIdx i }

/-- The connection has left its rooms and its writers are done. -/
def hasEnded (s : State Id F) (c : ℕ) : Bool := (s.conns c).any fun conn => conn.phase = .ended

variable [DecidableEq Id] [EndpointKey Id] [Scalar F]

def move (limits : Limits F) (maxConnections : ℕ) (h : Hall Id F) : Move Id → Option (Hall Id F)
  | .incoming =>
      match h.accepting with
      | .waiting =>
          some { h with accepting := .counted h.connections, connections := h.connections+1 }
      | _ => none
  | .compare =>
      match h.accepting with
      | .counted before =>
          if maxConnections ≤ before then some { h with accepting := .refusing }
          else some { h with accepting := .waiting, guests := h.guests++[.connecting] }
      | _ => none
  | .uncount =>
      match h.accepting with
      | .refusing =>
          some { h with accepting := .waiting, connections := wrappingSub h.connections 1 }
      | _ => none
  | .giveUp i => if h.guests[i]? = some .connecting then some (h.release i) else none
  | .opened i peer now =>
      if h.guests[i]? = some .connecting then
        some { h with
          server := h.server.connect limits peer now
          guests := h.guests.set i (.serving h.server.next) }
      else none
  | .serve (.connect _ _) => none
  | .serve a => (step limits h.server a).map fun s => { h with server := s }
  | .gone i =>
      match h.guests[i]? with
      | some (.serving c) => if hasEnded h.server c then some (h.release i) else none
      | _ => none

variable {limits : Limits F} {maxConnections : ℕ} {h h' : Hall Id F} {m : Move Id}

/-! ### One move -/

/-- Handshakes that are counted and have no task. -/
def Accepting.pending : Accepting → ℕ
  | .waiting => 0
  | .counted _ | .refusing => 1

theorem perform_ended {r : Rooms Id} {c : ℕ} {conn : Conn Id F} {a : Act Id} {e : Effect Id F}
    (hp : perform limits r c conn a = some e) (hended : conn.phase = .ended) : e.conn.phase = .ended := by
  cases perform_ran hp with
  | endSession hidle => exact absurd (hidle.live.symm.trans hended) (by decide)
  | finish => rfl
  | _ => exact hended

/-- A connection that has ended stays so, and none comes up but by a session that opens. -/
theorem step_phase {s s' : State Id F} {a : Action Id} {c : ℕ} {conn' : Conn Id F}
    (hs : step limits s a = some s') (hnew : ∀ peer now, a ≠ .connect peer now)
    (hc' : s'.conns c = some conn') (hphase : conn'.phase ≠ .ended) :
    ∃ conn, s.conns c = some conn ∧ conn.phase ≠ .ended := by
  cases a with
  | connect peer now => exact absurd rfl (hnew peer now)
  | act d a =>
      obtain ⟨conn,e,hd,he,rfl⟩ := step_act hs
      by_cases hcd : c = d
      · subst hcd
        rw [State.apply_conns_self] at hc'
        cases hc'
        exact ⟨conn,hd,fun hended => hphase (perform_ended he hended)⟩
      · rw [State.apply_conns_of_ne _ _ _ hcd] at hc'
        exact ⟨conn',hc',hphase⟩
  | drain d w =>
      obtain ⟨out,-,rfl⟩ := step_drain hs
      exact ⟨conn',hc',hphase⟩
  | rehash t room =>
      obtain ⟨old,-,-,rfl⟩ := step_rehash hs
      exact ⟨conn',hc',hphase⟩

structure Counts (limits : Limits F) (maxConnections : ℕ) (h : Hall Id F) : Prop where
  server : Invariant limits h.server
  connections : h.connections = h.guests.length+h.accepting.pending
  before : ∀ n, h.accepting = .counted n → h.guests.length ≤ n
  within : h.guests.length ≤ maxConnections
  served : ∀ c conn, h.server.conns c = some conn → conn.phase ≠ .ended → .serving c ∈ h.guests

omit [EndpointKey Id] [Scalar F] in
theorem counts_init (limits : Limits F) (maxConnections : ℕ) :
    Counts limits maxConnections (Hall.init limits : Hall Id F) where
  server := init_invariant limits
  connections := rfl
  before := by rintro n ⟨⟩
  within := Nat.zero_le _
  served := by rintro c conn ⟨⟩

omit [DecidableEq Id] [EndpointKey Id] [Scalar F] in
theorem mem_eraseIdx_of_ne {gs : List Guest} {i : ℕ} {g g' : Guest} (hi : gs[i]? = some g)
    (hg : g' ∈ gs) (hne : g' ≠ g) : g' ∈ gs.eraseIdx i := by
  obtain ⟨j,hj⟩ := List.mem_iff_getElem?.mp hg
  refine List.mem_eraseIdx_iff_getElem?.mpr ⟨j,?_,hj⟩
  rintro rfl
  rw [hi] at hj
  exact hne (Option.some.inj hj).symm

omit [EndpointKey Id] [Scalar F] in
theorem counts_release (hi : Counts limits maxConnections h) {i : ℕ} {g : Guest}
    (hg : h.guests[i]? = some g)
    (hdone : ∀ c conn, h.server.conns c = some conn → conn.phase ≠ .ended → .serving c ≠ g) :
    1 ≤ h.connections ∧ Counts limits maxConnections (h.release i) := by
  have hlt : i < h.guests.length := (List.getElem?_eq_some_iff.mp hg).1
  have hlen : (h.guests.eraseIdx i).length+1 = h.guests.length := by
    rw [List.length_eraseIdx_of_lt hlt]
    omega
  have hcount := hi.connections
  have hone : 1 ≤ h.connections := by omega
  refine ⟨hone,hi.server,?_,?_,?_,?_⟩
  · change wrappingSub h.connections 1 = (h.guests.eraseIdx i).length+_
    rw [wrappingSub,if_pos hone]
    change _ = _+h.accepting.pending
    omega
  · intro n hn
    have := hi.before n hn
    change (h.guests.eraseIdx i).length ≤ n
    omega
  · have := hi.within
    change (h.guests.eraseIdx i).length ≤ _
    omega
  · intro c conn hc hphase
    exact mem_eraseIdx_of_ne hg (hi.served c conn hc hphase) (hdone c conn hc hphase)

/-- A move of the accept loop, or of a task that leaves the counting alone. -/
theorem counts_serve (hi : Counts limits maxConnections h) {a : Action Id} {s : State Id F}
    (hs : step limits h.server a = some s) (hnew : ∀ peer now, a ≠ .connect peer now) :
    Counts limits maxConnections { h with server := s } := by
  refine ⟨step_invariant hi.server hs,hi.connections,hi.before,hi.within,?_⟩
  intro c conn' hc' hphase'
  obtain ⟨conn,hc,hphase⟩ := step_phase hs hnew hc' hphase'
  exact hi.served c conn hc hphase

omit [EndpointKey Id] [Scalar F] in
theorem counts_opened (hi : Counts limits maxConnections h) {i : ℕ} (peer : Id) (now : ℕ)
    (hg : h.guests[i]? = some .connecting) :
    Counts limits maxConnections { h with
      server := h.server.connect limits peer now
      guests := h.guests.set i (.serving h.server.next) } := by
  have hlt : i < h.guests.length := (List.getElem?_eq_some_iff.mp hg).1
  refine ⟨connect_invariant hi.server peer now,?_,?_,?_,?_⟩
  · simp only [List.length_set]
    exact hi.connections
  · simp only [List.length_set]
    exact hi.before
  · simp only [List.length_set]
    exact hi.within
  · intro c conn hc hphase
    simp only at hc ⊢
    by_cases heq : c = h.server.next
    · rw [heq]
      exact List.mem_set hlt _
    · rw [State.connect_conns_of_ne _ _ _ _ heq] at hc
      obtain ⟨j,hj⟩ := List.mem_iff_getElem?.mp (hi.served c conn hc hphase)
      refine List.mem_iff_getElem?.mpr ⟨j,?_⟩
      rw [List.getElem?_set_ne,hj]
      rintro rfl
      rw [hg] at hj
      cases hj

/-- The move subtracts from the counter. -/
def Uncounts : Move Id → Prop
  | .uncount | .giveUp _ | .gone _ => True
  | _ => False

theorem move_counts (hi : Counts limits maxConnections h) (hm : move limits maxConnections h m = some h') :
    Counts limits maxConnections h' ∧ (Uncounts m → 1 ≤ h.connections) := by
  have hcount := hi.connections
  cases m with
  | incoming =>
      simp only [move] at hm
      cases haccepting : h.accepting with
      | waiting =>
          rw [haccepting] at hm hcount
          cases hm
          refine ⟨⟨hi.server,?_,?_,hi.within,hi.served⟩,False.elim⟩
          · simp only [Accepting.pending] at hcount ⊢
            omega
          · intro n hn
            simp only [Accepting.pending] at hcount
            cases hn
            simp only
            omega
      | _ =>
          rw [haccepting] at hm
          cases hm
  | compare =>
      simp only [move] at hm
      cases haccepting : h.accepting with
      | counted before =>
          rw [haccepting] at hm hcount
          have hbefore := hi.before before haccepting
          simp only at hm
          split_ifs at hm with hfull
          · cases hm
            exact ⟨⟨hi.server,hcount,by rintro n ⟨⟩,hi.within,hi.served⟩,False.elim⟩
          · cases hm
            refine ⟨⟨hi.server,?_,by rintro n ⟨⟩,?_,?_⟩,False.elim⟩
            · simp only [Accepting.pending,List.length_append,List.length_singleton] at hcount ⊢
              omega
            · simp only [List.length_append,List.length_singleton]
              omega
            · intro c conn hc hphase
              exact List.mem_append_left _ (hi.served c conn hc hphase)
      | _ =>
          rw [haccepting] at hm
          cases hm
  | uncount =>
      simp only [move] at hm
      cases haccepting : h.accepting with
      | refusing =>
          rw [haccepting] at hm hcount
          cases hm
          simp only [Accepting.pending] at hcount
          have hone : 1 ≤ h.connections := by omega
          refine ⟨⟨hi.server,?_,by rintro n ⟨⟩,hi.within,hi.served⟩,fun _ => hone⟩
          simp only [Accepting.pending,wrappingSub,if_pos hone]
          omega
      | _ =>
          rw [haccepting] at hm
          cases hm
  | giveUp i =>
      simp only [move] at hm
      split_ifs at hm with hg
      cases hm
      obtain ⟨hone,hcounts⟩ := counts_release hi hg (fun _ _ _ _ => by rintro ⟨⟩)
      exact ⟨hcounts,fun _ => hone⟩
  | opened i peer now =>
      simp only [move] at hm
      split_ifs at hm with hg
      cases hm
      exact ⟨counts_opened hi peer now hg,False.elim⟩
  | serve a =>
      cases a with
      | connect peer now => cases hm
      | _ =>
          obtain ⟨s,hs,rfl⟩ := Option.map_eq_some_iff.mp hm
          exact ⟨counts_serve hi hs (by rintro _ _ ⟨⟩),False.elim⟩
  | gone i =>
      simp only [move] at hm
      split at hm
      · next c hg =>
        split_ifs at hm with hended
        cases hm
        have hdone : ∀ d conn, h.server.conns d = some conn → conn.phase ≠ .ended →
            Guest.serving d ≠ .serving c := by
          rintro d conn hd hphase ⟨⟩
          rw [hasEnded,hd] at hended
          exact hphase (of_decide_eq_true hended)
        obtain ⟨hone,hcounts⟩ := counts_release hi hg hdone
        exact ⟨hcounts,fun _ => hone⟩
      · cases hm

theorem run_counts {ms : List (Move Id)}
    (hrun : exec (move limits maxConnections) (Hall.init limits) ms = some h) :
    Counts limits maxConnections h :=
  exec_invariant _ (fun _ _ _ hi hm => (move_counts hi hm).1) (counts_init limits maxConnections) hrun

theorem move_server (hm : move limits maxConnections h m = some h') :
    h'.server = h.server ∨ ∃ a, step limits h.server a = some h'.server := by
  cases m with
  | incoming | uncount =>
      simp only [move] at hm
      split at hm
      · cases hm
        exact .inl rfl
      · cases hm
  | compare =>
      simp only [move] at hm
      split at hm
      · split_ifs at hm <;> cases hm <;> exact .inl rfl
      · cases hm
  | giveUp i =>
      simp only [move] at hm
      split_ifs at hm
      cases hm
      exact .inl rfl
  | opened i peer now =>
      simp only [move] at hm
      split_ifs at hm
      cases hm
      exact .inr ⟨.connect peer now,rfl⟩
  | serve a =>
      cases a with
      | connect peer now => cases hm
      | _ =>
          obtain ⟨s,hs,rfl⟩ := Option.map_eq_some_iff.mp hm
          exact .inr ⟨_,hs⟩
  | gone i =>
      simp only [move] at hm
      split at hm
      · split_ifs at hm
        cases hm
        exact .inl rfl
      · cases hm

/-- Behind the accept loop, the server runs as it does without one. -/
theorem run_server {ms : List (Move Id)}
    (hrun : exec (move limits maxConnections) (Hall.init limits) ms = some h) :
    ∃ as, exec (step limits) (State.init limits) as = some h.server := by
  refine exec_invariant (I := fun h => ∃ as, exec (step limits) (State.init limits) as = some h.server)
    _ ?_ ⟨[],rfl⟩ hrun
  rintro u m u' ⟨as,has⟩ hm
  rcases move_server hm with hsame | ⟨a,ha⟩
  · rw [hsame]
    exact ⟨as,has⟩
  · exact ⟨as++[a],(exec_snoc_eq_some _).mpr ⟨u.server,has,ha⟩⟩

/-! ### Who is refused -/

theorem counted_kept {n : ℕ} (hn : h.accepting = .counted n) (hm : move limits maxConnections h m = some h')
    (hne : m ≠ .compare) : h'.accepting = .counted n := by
  cases m with
  | compare => exact absurd rfl hne
  | incoming | uncount =>
      simp only [move,hn] at hm
      cases hm
  | giveUp i | opened i peer now =>
      simp only [move] at hm
      split_ifs at hm
      cases hm
      exact hn
  | serve a =>
      cases a with
      | connect peer now => cases hm
      | _ =>
          obtain ⟨s,-,rfl⟩ := Option.map_eq_some_iff.mp hm
          exact hn
  | gone i =>
      simp only [move] at hm
      split at hm
      · split_ifs at hm
        cases hm
        exact hn
      · cases hm

theorem counted_run {n : ℕ} {ms : List (Move Id)} (hn : h.accepting = .counted n)
    (hrun : exec (move limits maxConnections) h ms = some h') (hne : .compare ∉ ms) :
    h'.accepting = .counted n := by
  induction ms generalizing h with
  | nil =>
      cases hrun
      exact hn
  | cons m ms ih =>
      obtain ⟨u,hm,hrest⟩ := (exec_cons_eq_some _).mp hrun
      have hu := counted_kept hn hm (fun heq => hne (heq ▸ List.mem_cons_self))
      exact ih hu hrest (fun hmem => hne (List.mem_cons_of_mem _ hmem))

/-- A handshake is refused exactly if the limit was reached when it was counted. -/
theorem refused_iff (hi : Counts limits maxConnections h) {mid : List (Move Id)} {h₁ h₂ h₃ : Hall Id F}
    (hin : move limits maxConnections h .incoming = some h₁)
    (hmid : exec (move limits maxConnections) h₁ mid = some h₂) (hne : .compare ∉ mid)
    (hcompare : move limits maxConnections h₂ .compare = some h₃) :
    h₃.accepting = .refusing ↔ maxConnections ≤ h.guests.length := by
  have hcounted : h₁.accepting = .counted h.guests.length := by
    have hcount := hi.connections
    simp only [move] at hin
    cases haccepting : h.accepting with
    | waiting =>
        rw [haccepting] at hin hcount
        cases hin
        rw [hcount]
        rfl
    | _ =>
        rw [haccepting] at hin
        cases hin
  simp only [move,counted_run hcounted hmid hne] at hcompare
  split_ifs at hcompare with hfull
  · cases hcompare
    exact iff_of_true rfl hfull
  · cases hcompare
    exact iff_of_false (by rintro ⟨⟩) hfull

omit [EndpointKey Id] [Scalar F] in
theorem live_card_le (hi : Counts limits maxConnections h) {cs : Finset ℕ}
    (hcs : ∀ c ∈ cs, ∃ conn, h.server.conns c = some conn ∧ conn.phase ≠ .ended) :
    cs.card ≤ h.guests.length := by
  have hsub : cs.image Guest.serving ⊆ h.guests.toFinset := by
    intro g hg
    obtain ⟨c,hc,rfl⟩ := Finset.mem_image.mp hg
    obtain ⟨conn,hconn,hphase⟩ := hcs c hc
    exact List.mem_toFinset.mpr (hi.served c conn hconn hphase)
  have hinj : Function.Injective Guest.serving := fun _ _ heq => Guest.serving.inj heq
  calc cs.card = (cs.image Guest.serving).card := (Finset.card_image_of_injective cs hinj).symm
    _ ≤ h.guests.toFinset.card := Finset.card_le_card hsub
    _ ≤ h.guests.length := h.guests.toFinset_card_le

/-- **Connections are admitted up to the limit**: after every run, for every order of the
accept loop's operations and the tasks', the counter is the tasks and the handshake under
way, the tasks are within the limit, and so are the connections that have not ended; no
subtraction underflows; a handshake is refused exactly if the limit was reached when it was
counted; and with nobody left the counter is back at zero. -/
theorem connections_admitted {ms : List (Move Id)}
    (hrun : exec (move limits maxConnections) (Hall.init limits) ms = some h) :
    (h.connections = h.guests.length+h.accepting.pending ∧ h.guests.length ≤ maxConnections) ∧
    (∀ cs : Finset ℕ, (∀ c ∈ cs, ∃ conn, h.server.conns c = some conn ∧ conn.phase ≠ .ended) →
      cs.card ≤ maxConnections) ∧
    (∀ m h', move limits maxConnections h m = some h' → Uncounts m → 1 ≤ h.connections) ∧
    (∀ mid h₁ h₂ h₃, move limits maxConnections h .incoming = some h₁ →
      exec (move limits maxConnections) h₁ mid = some h₂ → .compare ∉ mid →
      move limits maxConnections h₂ .compare = some h₃ →
      (h₃.accepting = .refusing ↔ maxConnections ≤ h.guests.length)) ∧
    (h.guests = [] → h.accepting = .waiting → h.connections = 0) := by
  have hi := run_counts hrun
  refine ⟨⟨hi.connections,hi.within⟩,?_,?_,?_,?_⟩
  · intro cs hcs
    exact (live_card_le hi hcs).trans hi.within
  · intro m h' hm
    exact (move_counts hi hm).2
  · intro mid h₁ h₂ h₃ hin hmid hne hcompare
    exact refused_iff hi hin hmid hne hcompare
  · intro hnobody hwaiting
    rw [hi.connections,hnobody,hwaiting]
    rfl

end

/-- One connection is let in and leaves. -/
def visit : List (Move RawId) :=
  [.incoming,.compare,.opened 0 .base 0,.serve (.act 1 .endSession),.serve (.act 1 .finish)]

/-- A handshake that is counted before the slot is free and compared after. -/
theorem connections_admitted_late : ∃ h h₁ h₂ h₃ : Hall RawId Level,
    exec (move .default 1) (Hall.init .default) visit = some h ∧ h.connections = 1 ∧
    move .default 1 h .incoming = some h₁ ∧ move .default 1 h₁ (.gone 0) = some h₂ ∧
    move .default 1 h₂ .compare = some h₃ ∧ h₃.accepting = .refusing := by
  have hrun : (exec (move .default 1) (Hall.init .default) visit).any (fun h =>
      (move .default 1 h .incoming).any fun h₁ => (move .default 1 h₁ (.gone 0)).any fun h₂ =>
        (move .default 1 h₂ .compare).any fun _ =>
          decide (h.guests.length = 1 ∧ h.accepting = .waiting)) = true := by
    decide +kernel
  obtain ⟨h,hh,hrun⟩ := (Option.any_eq_true _ _).mp hrun
  obtain ⟨h₁,hin,hrun⟩ := (Option.any_eq_true _ _).mp hrun
  obtain ⟨h₂,hover,hrun⟩ := (Option.any_eq_true _ _).mp hrun
  obtain ⟨h₃,hcompare,hrun⟩ := (Option.any_eq_true _ _).mp hrun
  obtain ⟨hlen,hwaiting⟩ := of_decide_eq_true hrun
  obtain ⟨⟨hcount,-⟩,-,-,hrefused,-⟩ := connections_admitted hh
  refine ⟨h,h₁,h₂,h₃,hh,?_,hin,hover,hcompare,?_⟩
  · rw [hcount,hlen,hwaiting]
    rfl
  · have hmid : exec (move .default 1) h₁ [.gone 0] = some h₂ :=
      (exec_cons_eq_some _).mpr ⟨h₂,hover,rfl⟩
    refine (hrefused [.gone 0] h₁ h₂ h₃ hin hmid ?_ hcompare).mpr hlen.ge
    intro hmem
    cases List.mem_singleton.mp hmem

end KeepTalkingSfu.Admission
