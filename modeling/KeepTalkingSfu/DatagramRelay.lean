import KeepTalkingSfu.TaskSteps

/-!
# Datagrams from client to client

The datagram reader of a connection looks its targets up under the shard lock and then
sends to them one by one, with the lock released: steps of every other task come in
between, and a target may have left by then. Here the sends are steps of their own, so
every such interleaving is a run.

From one client to another, whatever happens meanwhile, datagrams go through unchanged,
in order and at most once, only while both own a slot of the datagram's topic and only to
another endpoint.
-/
namespace KeepTalkingSfu.DatagramRelay
open ByteTransport WireFormat FrameCodec MemberQueues RoomTable TokenBucket Server StepCases
  ServerEffects RoomInvariant TaskSteps InterleavedRuns

/-! ### The client -/

/-- Builds an SFU datagram. -/
def datagram (topic : Topic) (payload : Bytes) : Bytes := topic.bytes++payload

/-- The next datagram that is one, and what is left after it. -/
def readDatagram : List Bytes → Option ((Topic × Bytes) × List Bytes)
  | [] => none
  | raw::rest =>
      match splitDatagram raw with
      | some split => some (split,rest)
      | none => readDatagram rest

theorem splitDatagram_datagram (topic : Topic) (payload : Bytes) :
    splitDatagram (datagram topic payload) = some (topic,payload) := by
  rw [splitDatagram,datagram,takeTopic_append]
  rfl

/-- Only a datagram splits, into what it was built from. -/
theorem splitDatagram_eq_some {raw : Bytes} {topic : Topic} {payload : Bytes}
    (h : splitDatagram raw = some (topic,payload)) : raw = datagram topic payload := by
  unfold splitDatagram takeTopic at h
  split_ifs at h with hlen
  · cases h
    exact (List.take_append_drop 32 raw).symm
  · cases h

/-! ### The loop, one send at a time -/

section
variable {Id F : Type}

/-- The server, and the sends each datagram reader has still to make. -/
structure Relay (Id F : Type) where
  server : State Id F
  sending : ℕ → List (ℕ × Bytes)

inductive Move (Id : Type) where
  | task (a : Action Id)
  | collect (c : ℕ)
  | send (c : ℕ) (ok : Bool)

/-- A reader that is still sending does not read the next datagram. -/
def idle (r : Relay Id F) : Action Id → Bool
  | .act c (.datagramIn _ _) => (r.sending c).isEmpty
  | .act _ (.datagramRoom _) => false
  | _ => true

variable [DecidableEq Id]

/-- The connections a datagram goes to. -/
def targets (r : Rooms Id) (h : Handle Id) (raw : Bytes) : List ℕ :=
  ((splitDatagram raw).bind fun (topic,_) => r.datagramTargets topic h).getD []

variable [EndpointKey Id] [Scalar F] (limits : Limits F)

def Relay.step (r : Relay Id F) : Move Id → Option (Relay Id F)
  | .task a =>
      if idle r a then (Server.step limits r.server a).map fun s => { r with server := s } else none
  | .collect c =>
      if (r.sending c).isEmpty then
        (r.server.conns c).bind fun conn => conn.datagram.map fun raw =>
          { server := { r.server with
              conns := Function.update r.server.conns c (some { conn with datagram := none }) }
            sending := Function.update r.sending c
              ((targets r.server.rooms ⟨conn.peer,c⟩ raw).map fun d => (d,raw)) }
      else none
  | .send c ok =>
      match r.sending c with
      | [] => none
      | (d,raw)::rest =>
          some
            { server := { r.server with
                outs := if ok then sendAll r.server.outs [⟨d,.datagram raw⟩] else r.server.outs }
              sending := Function.update r.sending c rest }

def Relay.init : Relay Id F := ⟨State.init limits,fun _ => []⟩

/-! ### What is seen of a run -/

/-- The datagram a connection's reader has read and not looked targets up for. -/
def inHand (c : ℕ) (r : Relay Id F) : List Bytes :=
  ((r.server.conns c).bind Conn.datagram).toList

/-- What one connection's reader has still to send to another connection. -/
def pending (c d : ℕ) (r : Relay Id F) : List Bytes :=
  ((r.sending c).filter fun x => x.1 = d).map Prod.snd

/-- The datagram a step reads from a client. -/
def reads (c : ℕ) (_ : Relay Id F) : Move Id → List Bytes
  | .task (.act c' (.datagramIn raw _)) => if c' = c then [raw] else []
  | _ => []

/-- The datagram a step looks targets up for. -/
def collects (c : ℕ) (r : Relay Id F) : Move Id → List Bytes
  | .collect c' => if c' = c then inHand c r else []
  | _ => []

/-- The sender owns a slot of the datagram's topic, and the recipient does under another
endpoint. -/
def meant (s : State Id F) (c d : ℕ) (raw : Bytes) : Bool :=
  (splitDatagram raw).any fun (topic,_) =>
    (s.conns c).any fun conn => (s.conns d).any fun dconn =>
      s.rooms.isMember topic ⟨conn.peer,c⟩ &&
        decide (dconn.peer ≠ conn.peer ∧ s.rooms.owner topic dconn.peer = some d)

/-- The datagram a step looks targets up for, if it is meant for the recipient then. -/
def collectsFor (c d : ℕ) (r : Relay Id F) (m : Move Id) : List Bytes :=
  (collects c r m).filter (meant r.server c d)

/-- The datagram a step hands to a connection, with who it is from. -/
def handsTo (d : ℕ) (r : Relay Id F) : Move Id → List (ℕ × Bytes)
  | .send c true => ((r.sending c).head?.toList.filter fun x => x.1 = d).map fun x => (c,x.2)
  | _ => []

/-- The datagrams of one sender. -/
def sentBy (c : ℕ) (xs : List (ℕ × Bytes)) : List Bytes :=
  (xs.filter fun x => x.1 = c).map Prod.snd

/-- The send a step makes from one connection to another, and whether it was taken. -/
def attempts (c d : ℕ) (r : Relay Id F) : Move Id → List (Bytes × Bool)
  | .send c' ok =>
      if c' = c then ((r.sending c).head?.toList.filter fun x => x.1 = d).map fun x => (x.2,ok) else []
  | _ => []

/-- The datagrams of the sends that were taken. -/
def accepted (xs : List (Bytes × Bool)) : List Bytes := (xs.filter Prod.snd).map Prod.fst

/-! ### What the server's other steps leave alone -/

variable {limits} {s s' : State Id F} {a : Action Id} {c d : ℕ} {conn : Conn Id F}

/-- A message that is no datagram. -/
def NotDatagram (msg : Msg Id) : Prop := ∀ raw, msg ≠ .datagram raw

omit [DecidableEq Id] [EndpointKey Id] in
theorem acceptAll_notDatagram (out : Outbound Id) {msgs : List (Msg Id)}
    (h : ∀ msg ∈ msgs, NotDatagram msg) : (acceptAll out msgs).datagrams = out.datagrams := by
  have hlong : ∀ (out : Outbound Id) (i : Fin 2) (frame : StreamWriters.Deliver),
      (out.deliverLong i frame).datagrams = out.datagrams := by
    intro out i frame
    simp only [Outbound.deliverLong]
    split
    · split <;> rfl
    · rfl
  induction msgs generalizing out with
  | nil => rfl
  | cons msg msgs ih =>
      rw [acceptAll_cons,ih _ fun m hm => h m (List.mem_cons_of_mem _ hm)]
      cases msg with
      | datagram raw => exact absurd rfl (h _ List.mem_cons_self raw)
      | session item size =>
          simp only [Outbound.accept,Outbound.pushSession]
          split
          · split <;> rfl
          · rfl
      | deliver lane frame =>
          cases lane with
          | control => exact hlong out 0 frame
          | interactive => exact hlong out 1 frame
          | bulk => rfl

theorem perform_notDatagram {r : Rooms Id} {act : Act Id} {e : Effect Id F}
    (h : perform limits r c conn act = some e) (hact : ∀ failed, act ≠ .datagramRoom failed) :
    ∀ m ∈ e.sends, NotDatagram m.msg := by
  intro m hm raw heq
  have hsends := perform_sends h m hm
  rw [heq] at hsends
  cases hsends with
  | datagram failed _ hroom => exact hact failed hroom

/-- Nothing is ever handed to a connection id that is not taken yet. -/
def FreshQuiet (s : State Id F) : Prop := ∀ d, s.next ≤ d → (s.outs d).datagrams = []

theorem step_datagrams (hf : FreshQuiet s) (hs : Server.step limits s a = some s')
    (ha : ∀ c failed, a ≠ .act c (.datagramRoom failed)) (d : ℕ) :
    (s'.outs d).datagrams = (s.outs d).datagrams := by
  cases a with
  | connect peer now =>
      cases hs
      by_cases hd : d = s.next
      · subst hd
        rw [hf _ le_rfl]
        simp only [State.connect,Function.update_self]
        rfl
      · rw [State.connect_outs_of_ne _ _ _ _ hd]
  | act c act =>
      obtain ⟨conn,e,hc,he,rfl⟩ := step_act hs
      rw [State.apply_outs]
      apply acceptAll_notDatagram
      intro msg hmsg
      obtain ⟨m,hm,rfl⟩ := List.mem_map.mp hmsg
      refine perform_notDatagram he ?_ m (List.mem_of_mem_filter hm)
      rintro failed rfl
      exact ha c failed rfl
  | drain c w =>
      obtain ⟨out,hout,rfl⟩ := step_drain hs
      by_cases hd : d = c
      · subst hd
        simpa using (drain_spec hout).2.2.2
      · simp [hd]
  | rehash topic room =>
      obtain ⟨old,-,-,rfl⟩ := step_rehash hs
      rfl

theorem step_inHand (hi : Invariant limits s) (hs : Server.step limits s a = some s')
    (ha : ofTask c .datagram a = false) :
    (s'.conns c).bind Conn.datagram = (s.conns c).bind Conn.datagram := by
  cases hc : s.conns c with
  | some conn =>
      obtain ⟨conn',hc',-,hkept⟩ := step_kept hi hs hc
      obtain ⟨τ,hne,hkept⟩ := hkept .datagram ha
      rw [hc',Option.bind_some,Option.bind_some,hkept.datagram hne]
  | none =>
      cases a with
      | connect peer now =>
          cases hs
          by_cases hcn : c = s.next
          · subst hcn
            rw [State.connect_conns_self]
            rfl
          · rw [State.connect_conns_of_ne _ _ _ _ hcn,hc]
      | act c' act =>
          obtain ⟨conn,e,hc',he,rfl⟩ := step_act hs
          have hne : c ≠ c' := by
            rintro rfl
            rw [hc] at hc'
            cases hc'
          rw [State.apply_conns_of_ne _ _ _ hne,hc]
      | drain c' w =>
          obtain ⟨out,-,rfl⟩ := step_drain hs
          simp only [hc]
      | rehash topic room =>
          obtain ⟨old,-,-,rfl⟩ := step_rehash hs
          simp only [hc]

/-! ### The steps of a relay -/

variable {r r' : Relay Id F} {m : Move Id}

/-- The server once a reader has looked its targets up. -/
def lookedUp (s : State Id F) (c : ℕ) (conn : Conn Id F) : State Id F :=
  { s with conns := Function.update s.conns c (some { conn with datagram := none }) }

inductive Relayed (limits : Limits F) (r : Relay Id F) : Move Id → Relay Id F → Prop
  | task (a : Action Id) (s' : State Id F) : idle r a = true →
      Server.step limits r.server a = some s' → Relayed limits r (.task a) ⟨s',r.sending⟩
  | collect (c : ℕ) (conn : Conn Id F) (raw : Bytes) : r.sending c = [] →
      r.server.conns c = some conn → conn.datagram = some raw →
      Relayed limits r (.collect c) ⟨lookedUp r.server c conn,Function.update r.sending c
        ((targets r.server.rooms ⟨conn.peer,c⟩ raw).map fun d => (d,raw))⟩
  | taken (c d : ℕ) (raw : Bytes) (rest : List (ℕ × Bytes)) : r.sending c = (d,raw)::rest →
      Relayed limits r (.send c true)
        ⟨{ r.server with outs := sendAll r.server.outs [⟨d,.datagram raw⟩] },
          Function.update r.sending c rest⟩
  | failed (c d : ℕ) (raw : Bytes) (rest : List (ℕ × Bytes)) : r.sending c = (d,raw)::rest →
      Relayed limits r (.send c false) ⟨r.server,Function.update r.sending c rest⟩

theorem step_relayed (h : Relay.step limits r m = some r') : Relayed limits r m r' := by
  cases m with
  | task a =>
      simp only [Relay.step] at h
      split_ifs at h with hidle
      obtain ⟨s',hs,rfl⟩ := Option.map_eq_some_iff.mp h
      exact .task a s' hidle hs
  | collect c =>
      simp only [Relay.step] at h
      split_ifs at h with hempty
      obtain ⟨conn,hc,h⟩ := Option.bind_eq_some_iff.mp h
      obtain ⟨raw,hraw,rfl⟩ := Option.map_eq_some_iff.mp h
      exact .collect c conn raw (List.isEmpty_iff.mp hempty) hc hraw
  | send c ok =>
      simp only [Relay.step] at h
      split at h
      · cases h
      · next d raw rest hsending =>
        cases h
        cases ok with
        | true => exact .taken c d raw rest hsending
        | false => exact .failed c d raw rest hsending

omit [EndpointKey Id] [Scalar F] in
theorem targets_to (hi : Invariant limits s) (hc : s.conns c = some conn) (raw : Bytes) (d : ℕ) :
    (targets s.rooms ⟨conn.peer,c⟩ raw).filter (fun x => x = d) =
      if meant s c d raw then [d] else [] := by
  unfold targets meant
  cases hsplit : splitDatagram raw with
  | none => rfl
  | some split =>
      obtain ⟨t,payload⟩ := split
      simp only [Option.bind_some,Option.any_some,hc]
      cases hm : s.rooms.isMember t ⟨conn.peer,c⟩ with
      | false =>
          rw [Rooms.datagramTargets_other _ _ _ hm]
          cases s.conns d <;> rfl
      | true =>
          obtain ⟨room,hroom,hfilter⟩ := Rooms.filter_member s.rooms t _ hm
          have howns : ownsSlot room ⟨conn.peer,c⟩ = true := by
            rw [hroom] at hfilter
            exact (Option.filter_eq_some_iff.mp hfilter).2
          have hsame := fun q (_ : q ≠ conn.peer) => (Rooms.slot_of_room s.rooms t hroom q).symm
          simp only [Rooms.datagramTargets,hroom,howns,if_true,Option.getD_some,Bool.true_and]
          -- Every target is one message of a broadcast, and a broadcast has at most one.
          have hcount : (((others room conn.peer).map fun e => e.2.handle.connId).filter
              fun x => x = d).length =
                (sendsTo d (toOthers room conn.peer (.datagram raw))).length := by
            simp [sendsTo,toOthers,List.filter_map,Function.comp_def]
          have hall : ∀ x ∈ ((others room conn.peer).map fun e => e.2.handle.connId).filter
              (fun x => x = d), x = d := fun x hx => of_decide_eq_true (List.mem_filter.mp hx).2
          rw [List.eq_replicate_of_mem hall,hcount]
          cases hd : s.conns d with
          | none => rw [sendsTo_nobody hi.slots hd hsame]; rfl
          | some dconn =>
              rw [sendsTo_others hi.slots hd hsame,Option.any_some]
              by_cases hto : dconn.peer ≠ conn.peer ∧ s.rooms.owner t dconn.peer = some d
              · rw [if_pos hto,decide_eq_true hto]
                rfl
              · rw [if_neg hto,decide_eq_false hto]
                rfl

variable (limits) in
/-- Looking targets up is the server's own step with nobody taking the datagram. -/
theorem lookedUp_step (hc : s.conns c = some conn) {raw : Bytes} (hraw : conn.datagram = some raw) :
    Server.step limits s (.act c (.datagramRoom (targets s.rooms ⟨conn.peer,c⟩ raw))) =
      some (lookedUp s c conn) := by
  have hnone : ((targets s.rooms ⟨conn.peer,c⟩ raw).filter fun d =>
      d ∉ targets s.rooms ⟨conn.peer,c⟩ raw) = [] := by
    rw [List.filter_eq_nil_iff]
    intro d hd
    simp [hd]
  have hsends : (datagramRoom s.rooms c conn raw
      (targets s.rooms ⟨conn.peer,c⟩ raw)).sends = [] := congrArg (List.map _) hnone
  simp only [Server.step,hc,Option.bind_some,perform,hraw,Option.map_some,Option.some.injEq]
  rw [State.apply,hsends]
  rfl

theorem step_next (hs : Server.step limits s a = some s') : s.next ≤ s'.next := by
  cases a with
  | connect peer now =>
      cases hs
      exact Nat.le_succ _
  | act c act =>
      obtain ⟨conn,e,-,-,rfl⟩ := step_act hs
      exact le_rfl
  | drain c w =>
      obtain ⟨out,-,rfl⟩ := step_drain hs
      exact le_rfl
  | rehash topic room =>
      obtain ⟨old,-,-,rfl⟩ := step_rehash hs
      exact le_rfl

/-- The server is sound, every send goes to a connection, and nothing has been handed to
an id that is not taken. -/
structure RelayOk (limits : Limits F) (r : Relay Id F) : Prop where
  server : Invariant limits r.server
  connected : ∀ c x, x ∈ r.sending c → r.server.conns x.1 ≠ none
  quiet : FreshQuiet r.server

omit [DecidableEq Id] [EndpointKey Id] [Scalar F] in
theorem idle_notRoom (h : idle r a = true) : ∀ c failed, a ≠ .act c (.datagramRoom failed) := by
  rintro c failed rfl
  cases h

theorem conns_kept (hi : Invariant limits s) (hs : Server.step limits s a = some s')
    (hd : s.conns d ≠ none) : s'.conns d ≠ none := by
  obtain ⟨dconn,hdconn⟩ := Option.ne_none_iff_exists'.mp hd
  obtain ⟨dconn',hd',-⟩ := step_kept hi hs hdconn
  rw [hd']
  exact Option.some_ne_none _

omit [EndpointKey Id] [Scalar F] in
theorem connected_rest (hok : RelayOk limits r) {x : ℕ × Bytes} {rest : List (ℕ × Bytes)}
    (hsending : r.sending c = x::rest) : ∀ c' y, y ∈ Function.update r.sending c rest c' →
      r.server.conns y.1 ≠ none := by
  intro c' y hy
  by_cases hcc : c' = c
  · subst hcc
    rw [Function.update_self] at hy
    exact hok.connected c' y (hsending ▸ List.mem_cons_of_mem _ hy)
  · rw [Function.update_of_ne hcc] at hy
    exact hok.connected c' y hy

theorem relay_ok (hok : RelayOk limits r) (h : Relay.step limits r m = some r') :
    RelayOk limits r' := by
  cases step_relayed h with
  | task a s' hidle hs =>
      refine ⟨step_invariant hok.server hs,?_,?_⟩
      · intro c x hx
        exact conns_kept hok.server hs (hok.connected c x hx)
      · intro d hd
        rw [step_datagrams hok.quiet hs (idle_notRoom hidle)]
        exact hok.quiet d ((step_next hs).trans hd)
  | collect c conn raw hempty hc hraw =>
      have hs := lookedUp_step limits hc hraw
      refine ⟨step_invariant hok.server hs,?_,hok.quiet⟩
      intro c' x hx
      apply conns_kept hok.server hs
      by_cases hcc : c' = c
      · subst hcc
        simp only [Function.update_self] at hx
        obtain ⟨d,hd,rfl⟩ := List.mem_map.mp hx
        have hto := targets_to hok.server hc raw d
        intro hnone
        have hmeant : meant r.server c' d raw = false := by
          simp only [meant,hc,Option.any_some]
          rw [hnone]
          simp
        rw [hmeant] at hto
        exact absurd (List.filter_eq_nil_iff.mp hto d hd) (by simp)
      · simp only [Function.update_of_ne hcc] at hx
        exact hok.connected c' x hx
  | taken c d raw rest hsending =>
      have hd : r.server.conns d ≠ none := hok.connected c (d,raw) (hsending ▸ List.mem_cons_self)
      refine ⟨⟨hok.server.rooms,hok.server.maxMembers,hok.server.slots,hok.server.conns,
        hok.server.fresh⟩,connected_rest hok hsending,?_⟩
      intro d' hd'
      have hne : d' ≠ d := by
        rintro rfl
        exact hd (hok.server.fresh d' hd')
      simp only [sendAll,Function.update_of_ne hne]
      exact hok.quiet d' hd'
  | failed c d raw rest hsending =>
      exact ⟨hok.server,connected_rest hok hsending,hok.quiet⟩

omit [EndpointKey Id] [Scalar F] in
theorem init_ok : RelayOk limits (Relay.init limits : Relay Id F) := by
  refine ⟨init_invariant limits,?_,fun _ _ => rfl⟩
  rintro c x ⟨⟩

/-! ### What goes in and comes out -/

/-- What a step looks targets up for came in, and what came in is looked up or dropped. -/
theorem collects_flow (hok : RelayOk limits r) (h : Relay.step limits r m = some r') (c : ℕ) :
    (collects c r m++inHand c r').Sublist (inHand c r++reads c r m) := by
  cases step_relayed h with
  | task a s' hidle hs =>
      by_cases ha : ofTask c .datagram a = true
      · cases a with
        | act c' act =>
            obtain ⟨rfl,hτ⟩ := of_decide_eq_true ha
            cases act with
            | datagramIn raw now =>
                obtain ⟨conn,e,hc,he,rfl⟩ := step_act hs
                cases perform_ran he with
                | datagramIn _ _ hnone =>
                    have hold : inHand c' r = [] := by
                      rw [inHand,hc,Option.bind_some,hnone]
                      rfl
                    have hread : reads c' r (.task (.act c' (.datagramIn raw now))) = [raw] :=
                      if_pos rfl
                    rw [hold,hread,inHand,State.apply_conns_self,Option.bind_some]
                    simp only [collects,datagramIn,List.nil_append]
                    split_ifs
                    · exact List.Sublist.refl _
                    · exact List.nil_sublist _
            | datagramRoom failed => cases hidle
            | _ => cases hτ
        | _ => cases ha
      · have hsame : inHand c ⟨s',r.sending⟩ = inHand c r := by
          rw [inHand,inHand,step_inHand hok.server hs (by simpa using ha)]
        rw [hsame]
        exact List.sublist_append_left _ _
  | collect c' conn raw hempty hc hraw =>
      simp only [collects,reads,List.append_nil]
      by_cases hcc : c' = c
      · subst hcc
        have hnew : inHand c' ⟨lookedUp r.server c' conn,Function.update r.sending c'
            ((targets r.server.rooms ⟨conn.peer,c'⟩ raw).map fun d => (d,raw))⟩ = [] := by
          simp [inHand,lookedUp]
        rw [hnew,if_pos rfl,List.append_nil]
      · rw [if_neg hcc]
        simp [inHand,lookedUp,Function.update_of_ne (Ne.symm hcc)]
  | taken c' d raw rest hsending =>
      simp only [collects,reads,List.append_nil]
      exact List.Sublist.refl _
  | failed c' d raw rest hsending =>
      simp only [collects,reads,List.append_nil]
      exact List.Sublist.refl _

omit [DecidableEq Id] [EndpointKey Id] [Scalar F] in
theorem pending_of_sending {d' : ℕ} {raw : Bytes} {rest : List (ℕ × Bytes)}
    (h : r.sending c = (d',raw)::rest) (s' : State Id F) : pending c d r =
      (if d' = d then [raw] else [])++pending c d ⟨s',Function.update r.sending c rest⟩ := by
  simp only [pending,h,Function.update_self,List.filter_cons]
  split_ifs with hd <;> simp_all

omit [DecidableEq Id] [EndpointKey Id] [Scalar F] in
theorem pending_of_ne {c' : ℕ} (h : c ≠ c') (s' : State Id F) (xs : List (ℕ × Bytes)) :
    pending c d ⟨s',Function.update r.sending c' xs⟩ = pending c d r := by
  simp only [pending,Function.update_of_ne h]

omit [DecidableEq Id] [EndpointKey Id] [Scalar F] in
theorem sentBy_handsTo (c d : ℕ) (r : Relay Id F) (m : Move Id) :
    sentBy c (handsTo d r m) = accepted (attempts c d r m) := by
  cases m with
  | task a => rfl
  | collect c' => rfl
  | send c' ok =>
      by_cases hcc : c' = c
      · subst hcc
        cases ok <;> simp [sentBy,handsTo,accepted,attempts,List.filter_map,Function.comp_def]
      · cases ok <;> simp [sentBy,handsTo,accepted,attempts,hcc]

omit [DecidableEq Id] [EndpointKey Id] [Scalar F] in
theorem attempts_sending {c' d' : ℕ} {raw : Bytes} {rest : List (ℕ × Bytes)} {ok : Bool}
    (h : r.sending c' = (d',raw)::rest) : (attempts c d r (.send c' ok)).map Prod.fst =
      if c' = c ∧ d' = d then [raw] else [] := by
  by_cases hcc : c' = c
  · subst hcc
    by_cases hd : d' = d <;> simp [attempts,h,hd]
  · simp [attempts,hcc]

omit [DecidableEq Id] [EndpointKey Id] [Scalar F] in
theorem send_flow {c' d' : ℕ} {raw : Bytes} {rest : List (ℕ × Bytes)} {ok : Bool}
    (h : r.sending c' = (d',raw)::rest) (s' : State Id F) :
    (attempts c d r (.send c' ok)).map Prod.fst++
      pending c d ⟨s',Function.update r.sending c' rest⟩ = pending c d r := by
  rw [attempts_sending h]
  by_cases hcc : c = c'
  · subst hcc
    simp only [true_and]
    exact (pending_of_sending h s').symm
  · rw [pending_of_ne hcc,if_neg fun h => hcc h.1.symm,List.nil_append]

/-- What was pending from one connection to another or is looked up as meant for it is
attempted or pending still. -/
theorem sends_flow (hok : RelayOk limits r) (h : Relay.step limits r m = some r') (c d : ℕ) :
    (attempts c d r m).map Prod.fst++pending c d r' = pending c d r++collectsFor c d r m := by
  cases step_relayed h with
  | task a s' hidle hs => exact (List.append_nil _).symm
  | collect c' conn raw hempty hc hraw =>
      by_cases hcc : c = c'
      · subst hcc
        have hold : pending c d r = [] := by
          rw [pending,hempty]
          rfl
        have hfor : collectsFor c d r (.collect c) =
            if meant r.server c d raw then [raw] else [] := by
          simp only [collectsFor,collects,if_true,inHand,hc,Option.bind_some,hraw,
            Option.toList_some,List.filter_cons,List.filter_nil]
        have hnew : ((((targets r.server.rooms ⟨conn.peer,c⟩ raw).map fun d => (d,raw)).filter
            fun x => x.1 = d).map Prod.snd) =
              ((targets r.server.rooms ⟨conn.peer,c⟩ raw).filter fun x => x = d).map fun _ => raw := by
          rw [List.filter_map,List.map_map]
          rfl
        rw [hold,hfor]
        simp only [pending,Function.update_self]
        rw [hnew,targets_to hok.server hc]
        simp only [attempts,List.map_nil]
        split_ifs <;> rfl
      · rw [pending_of_ne hcc,collectsFor,collects,if_neg (Ne.symm hcc)]
        exact (List.append_nil _).symm
  | taken c' d' raw rest hsending =>
      rw [send_flow hsending]
      exact (List.append_nil _).symm
  | failed c' d' raw rest hsending =>
      rw [send_flow hsending]
      exact (List.append_nil _).symm

theorem datagrams_flow (hok : RelayOk limits r) (h : Relay.step limits r m = some r') (d : ℕ) :
    (r'.server.outs d).datagrams = (r.server.outs d).datagrams++(handsTo d r m).map Prod.snd := by
  cases step_relayed h with
  | task a s' hidle hs =>
      rw [step_datagrams hok.quiet hs (idle_notRoom hidle)]
      exact (List.append_nil _).symm
  | collect c' conn raw hempty hc hraw => exact (List.append_nil _).symm
  | failed c' d' raw rest hsending => exact (List.append_nil _).symm
  | taken c' d' raw rest hsending =>
      simp only [handsTo,hsending,List.head?_cons,Option.toList_some,sendAll]
      by_cases hd : d = d'
      · subst hd
        simp [Outbound.accept]
      · simp [Function.update_of_ne hd,Ne.symm hd]

omit [EndpointKey Id] [Scalar F] in
/-- A datagram meant for somebody is one, and its reader gets what it was built from. -/
theorem meant_reads {raw : Bytes} (h : meant s c d raw = true) :
    ∃ topic payload, raw = datagram topic payload ∧
      ∀ rest, readDatagram (raw::rest) = some ((topic,payload),rest) := by
  obtain ⟨⟨topic,payload⟩,hsplit,-⟩ := (Option.any_eq_true _ _).mp h
  refine ⟨topic,payload,splitDatagram_eq_some hsplit,?_⟩
  intro rest
  simp only [readDatagram,hsplit]

section
variable (limits)

/-- What a run hands to a connection, with who each datagram is from. -/
def handed (ms : List (Move Id)) (d : ℕ) : List (ℕ × Bytes) :=
  observed (Relay.step limits) (handsTo d) (Relay.init limits) ms

/-- The sends a run makes from one connection to another, in order. -/
def attempted (ms : List (Move Id)) (c d : ℕ) : List (Bytes × Bool) :=
  observed (Relay.step limits) (attempts c d) (Relay.init limits) ms

/-- The datagrams of one connection that a run finds to be meant for another. -/
def meantFor (ms : List (Move Id)) (c d : ℕ) : List Bytes :=
  observed (Relay.step limits) (collectsFor c d) (Relay.init limits) ms

/-- The datagrams a run reads from a connection. -/
def received (ms : List (Move Id)) (c : ℕ) : List Bytes :=
  observed (Relay.step limits) (reads c) (Relay.init limits) ms

end

theorem meantFor_of_mem {ms : List (Move Id)} {raw : Bytes}
    (h : raw ∈ meantFor limits ms c d) : ∃ s : State Id F, meant s c d raw = true := by
  obtain ⟨x,-,hx⟩ := List.mem_flatMap.mp h
  exact ⟨x.before.server,(List.mem_filter.mp hx).2⟩

theorem handed_eq {ms : List (Move Id)}
    (hrun : exec (Relay.step limits) (Relay.init limits) ms = some r) (d : ℕ) :
    (r.server.outs d).datagrams = (handed limits ms d).map Prod.snd := by
  have hflow := observed_all (Relay.step limits) (fun u => (u.server.outs d).datagrams)
    (fun u m => (handsTo d u m).map Prod.snd) (fun _ _ => []) (P := fun _ _ => True)
    (fun _ _ _ => relay_ok) (fun _ _ _ hu _ hs => datagrams_flow hu hs d) init_ok
    (along_of_forall _ (fun _ _ _ => trivial) _) hrun
  have hnone : observed (Relay.step limits) (fun _ _ => ([] : List Bytes)) (Relay.init limits) ms =
      [] := List.flatMap_eq_nil_iff.mpr fun _ _ => rfl
  rw [hnone,observed_part (Relay.step limits) rfl (fun _ _ => List.map_append)] at hflow
  exact hflow

/-- What is meant for somebody was read from its sender, in the same order. -/
theorem meantFor_received {ms : List (Move Id)}
    (hrun : exec (Relay.step limits) (Relay.init limits) ms = some r) (c d : ℕ) :
    (meantFor limits ms c d).Sublist (received limits ms c) := by
  have hall := observed_sublist (Relay.step limits) (inHand c) (reads c) (collects c)
    (fun _ _ _ => relay_ok) (fun _ _ _ hu hs => collects_flow hu hs c) init_ok hrun
  have hfor : (meantFor limits ms c d).Sublist
      (observed (Relay.step limits) (collects c) (Relay.init limits) ms) :=
    observed_mono _ (fun _ _ => List.filter_sublist) _ _
  exact hfor.trans ((List.sublist_append_left _ _).trans hall)

omit [EndpointKey Id] [Scalar F] in
theorem accepted_append (xs ys : List (Bytes × Bool)) :
    accepted (xs++ys) = accepted xs++accepted ys := by
  simp [accepted]

theorem sentBy_handed (ms : List (Move Id)) (c d : ℕ) :
    sentBy c (handed limits ms d) = accepted (attempted limits ms c d) := by
  rw [handed,attempted,← observed_part (Relay.step limits) (f := sentBy c) rfl
    (fun _ _ => by simp [sentBy]),← observed_part (Relay.step limits) rfl accepted_append]
  simp only [sentBy_handsTo]

/-- **Datagrams from client to client**: in every run, whatever comes between the lookup
and the sends, what has been handed to a connection is what its senders' readers handed
it. The datagrams that one sender's client sent and that were meant for the recipient when
their targets were looked up are, in order and each exactly once, attempted or still to be
sent, and each that was attempted has been handed over unless the recipient's connection
refused just that one. Each is read as the topic and payload it was built from. -/
theorem datagrams_relayed {ms : List (Move Id)}
    (hrun : exec (Relay.step limits) (Relay.init limits) ms = some r) (c d : ℕ) :
    (r.server.outs d).datagrams = (handed limits ms d).map Prod.snd ∧
    sentBy c (handed limits ms d) = accepted (attempted limits ms c d) ∧
    (attempted limits ms c d).map Prod.fst++pending c d r = meantFor limits ms c d ∧
    (meantFor limits ms c d).Sublist (received limits ms c) ∧
    ∀ raw ∈ sentBy c (handed limits ms d), ∃ topic payload, raw = datagram topic payload ∧
      ∀ rest, readDatagram (raw::rest) = some ((topic,payload),rest) := by
  have htried : (attempted limits ms c d).map Prod.fst++pending c d r = meantFor limits ms c d := by
    rw [attempted,← observed_part (Relay.step limits) rfl (fun _ _ => List.map_append)]
    exact observed_all _ (pending c d) (collectsFor c d) _ (P := fun _ _ => True)
      (fun _ _ _ => relay_ok) (fun _ _ _ hu _ hs => sends_flow hu hs c d) init_ok
      (along_of_forall _ (fun _ _ _ => trivial) _) hrun
  refine ⟨handed_eq hrun d,sentBy_handed ms c d,htried,meantFor_received hrun c d,?_⟩
  intro raw hraw
  rw [sentBy_handed] at hraw
  obtain ⟨x,hx,rfl⟩ := List.mem_map.mp hraw
  have hmem : x.1 ∈ meantFor limits ms c d := by
    rw [← htried]
    exact List.mem_append_left _ (List.mem_map_of_mem (List.mem_of_mem_filter hx))
  obtain ⟨s,hmeant⟩ := meantFor_of_mem hmem
  exact meant_reads hmeant

end

/-- Two members. The first datagram of one is refused; the other leaves before the second is
handed over, a third comes too late, and a fourth is for a topic nobody has joined. -/
def farewell : List (Move RawId) :=
  [.task (.connect .base 0),.task (.connect .identity 0),.task (sends 1 (.subscribe (topicOf 7)) 0),
    .task (sends 2 (.subscribe (topicOf 7)) 0),
    .task (.act 1 (.datagramIn (datagram (topicOf 7) [1,2]) 1)),.collect 1,.send 1 false,
    .task (.act 1 (.datagramIn (datagram (topicOf 7) [5]) 1)),.collect 1,
    .task (sends 2 (.unsubscribe (topicOf 7)) 1),.send 1 true,
    .task (.act 1 (.datagramIn (datagram (topicOf 7) [3]) 2)),.collect 1,
    .task (.act 1 (.datagramIn (datagram (topicOf 8) [4]) 3)),.collect 1]

theorem datagrams_relayed_farewell : ∃ r,
    exec (Relay.step .default) (Relay.init .default) farewell = some r ∧
    received .default farewell 1 = [datagram (topicOf 7) [1,2],datagram (topicOf 7) [5],
      datagram (topicOf 7) [3],datagram (topicOf 8) [4]] ∧
    meantFor .default farewell 1 2 = [datagram (topicOf 7) [1,2],datagram (topicOf 7) [5]] ∧
    (r.server.outs 2).datagrams = [datagram (topicOf 7) [5]] ∧
    (r.server.outs 2).datagrams = (handed .default farewell 2).map Prod.snd ∧
    sentBy 1 (handed .default farewell 2) = accepted (attempted .default farewell 1 2) ∧
    (attempted .default farewell 1 2).map Prod.fst++pending 1 2 r = meantFor .default farewell 1 2 := by
  have hrun : (exec (Relay.step .default) (Relay.init .default) farewell).any (fun r =>
      decide (received .default farewell 1 = [datagram (topicOf 7) [1,2],datagram (topicOf 7) [5],
          datagram (topicOf 7) [3],datagram (topicOf 8) [4]] ∧
        meantFor .default farewell 1 2 = [datagram (topicOf 7) [1,2],datagram (topicOf 7) [5]] ∧
        (r.server.outs 2).datagrams = [datagram (topicOf 7) [5]])) = true := by
    decide +kernel
  obtain ⟨r,hr,hrun⟩ := (Option.any_eq_true _ _).mp hrun
  obtain ⟨hreceived,hmeant,hone⟩ := of_decide_eq_true hrun
  obtain ⟨hhanded,htaken,htried,-,-⟩ := datagrams_relayed hr 1 2
  exact ⟨r,hr,hreceived,hmeant,hone,hhanded,htaken,htried⟩

end KeepTalkingSfu.DatagramRelay
