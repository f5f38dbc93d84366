import KeepTalkingSfu.ServerEffects

/-!
# The rooms and the subscriptions agree

What a connection believes it is subscribed to is its own; who is in a room is
shared. In every reachable state a slot belongs to a connection of its own
endpoint that still has the topic in its set, rooms are never empty, never over
the limit and in the shard of their topic. So when every connection is gone
nothing is left behind.
-/
namespace KeepTalkingSfu.RoomInvariant
open WireFormat MemberQueues RoomTable TokenBucket Server ServerEffects InterleavedRuns

/-! ### Sizes and shards -/

section
variable {Id : Type}

theorem length_keys (room : Room Id) : room.entries.length = room.keys.length :=
  (List.length_map _).symm

variable [DecidableEq Id]

theorem length_insert (room : Room Id) (p : Id) (slot : Slot Id) :
    (room.insert p slot).entries.length =
      if p ∈ room then room.entries.length else room.entries.length+1 := by
  rw [length_keys,AList.keys_insert,List.length_cons,length_keys]
  split_ifs with hp
  · rw [List.length_erase_of_mem (AList.mem_keys.mp hp)]
    exact Nat.sub_add_cancel (List.length_pos_of_mem (AList.mem_keys.mp hp))
  · rw [List.erase_of_not_mem fun h => hp (AList.mem_keys.mpr h)]

theorem length_erase_le (room : Room Id) (p : Id) :
    (room.erase p).entries.length ≤ room.entries.length := by
  rw [length_keys,AList.keys_erase,length_keys]
  exact List.length_erase_le

/-- Every room is in the shard of its topic. -/
def Sharded (r : Rooms Id) : Prop := ∀ i t, t ∈ r.shards i → shardIndex t = i

variable {r : Rooms Id} (t : Topic)

omit [DecidableEq Id] in
theorem Sharded.setShard (h : Sharded r) {s : Shard Id}
    (hs : ∀ t' ∈ s, t' = t ∨ t' ∈ r.shard t) : Sharded (r.setShard t s) := by
  intro i t' hmem
  by_cases hi : i = shardIndex t
  · subst hi
    simp only [Rooms.setShard,Function.update_self] at hmem
    rcases hs t' hmem with rfl | hold
    · rfl
    · exact h _ _ hold
  · simp only [Rooms.setShard,Function.update_of_ne hi] at hmem
    exact h i t' hmem

omit [DecidableEq Id] in
theorem Sharded.insertRoom (h : Sharded r) (room : Room Id) : Sharded (r.insertRoom t room) := by
  apply h.setShard
  intro t' hmem
  exact (AList.mem_insert _).mp hmem

omit [DecidableEq Id] in
theorem Sharded.setRoom (h : Sharded r) (room : Room Id) : Sharded (r.setRoom t room) := by
  unfold Rooms.setRoom
  split_ifs
  · apply h.setShard
    intro t' hmem
    exact .inr (AList.mem_erase.mp hmem).2
  · exact h.insertRoom t room

/-- A room that is there has someone in it, is not the reserved one, and is
within the limit. -/
structure RoomOk (r : Rooms Id) (t : Topic) (room : Room Id) : Prop where
  occupied : 0 < room.entries.length
  notReserved : t.isZero = false
  within : room.entries.length ≤ r.maxMembers

structure RoomsOk (r : Rooms Id) : Prop where
  sharded : Sharded r
  rooms : ∀ t room, r.room t = some room → RoomOk r t room

omit [DecidableEq Id] in
theorem RoomsOk.insertRoom (h : RoomsOk r) {room : Room Id} (hroom : RoomOk r t room) :
    RoomsOk (r.insertRoom t room) := by
  constructor
  · exact h.sharded.insertRoom t room
  · intro t' room' hr
    rw [Rooms.room_insertRoom] at hr
    split_ifs at hr with ht
    · cases hr
      subst ht
      exact ⟨hroom.occupied,hroom.notReserved,hroom.within⟩
    · have hok := h.rooms t' room' hr
      exact ⟨hok.occupied,hok.notReserved,hok.within⟩

omit [DecidableEq Id] in
theorem RoomsOk.setRoom (h : RoomsOk r) {room : Room Id} (hz : t.isZero = false)
    (hle : room.entries.length ≤ r.maxMembers) : RoomsOk (r.setRoom t room) := by
  by_cases hempty : room.entries.length = 0
  · constructor
    · exact h.sharded.setRoom t room
    · intro t' room' hr
      rw [Rooms.setRoom,if_pos hempty] at hr ⊢
      rw [Rooms.room_removeRoom] at hr
      split_ifs at hr
      have hok := h.rooms t' room' hr
      exact ⟨hok.occupied,hok.notReserved,hok.within⟩
  · rw [Rooms.setRoom,if_neg hempty]
    exact h.insertRoom t ⟨Nat.pos_of_ne_zero hempty,hz,hle⟩

variable {F : Type} [EndpointKey Id] {limits : Limits F} {h : Handle Id} {subs subs' : Finset Topic}
  {r' : Rooms Id} {sends : List (Send Id)}

omit [EndpointKey Id] in
theorem joined_length (hf : r.isFull t h.peer = false) (hok : RoomsOk r) :
    0 < (r.joined t h).entries.length ∧ (r.joined t h).entries.length ≤ r.maxMembers := by
  unfold Rooms.joined
  unfold Rooms.isFull at hf
  rw [length_insert]
  cases hr : r.room t with
  | none => simpa using r.maxMembers_pos
  | some room =>
      have hroom := hok.rooms t room hr
      simp only [hr,Option.any_some,decide_eq_false_iff_not,not_and,Nat.not_le] at hf
      simp only [Option.getD_some]
      split_ifs with hp
      · exact ⟨hroom.occupied,hroom.within⟩
      · exact ⟨Nat.succ_pos _,hf hp⟩

theorem performed_roomsOk (hp : Performed limits r h subs r' subs' sends) (hok : RoomsOk r) :
    RoomsOk r' ∧ r'.maxMembers = r.maxMembers := by
  cases hp with
  | quiet => exact ⟨hok,rfl⟩
  | drop => exact ⟨hok,rfl⟩
  | join t ht hz hcard hf =>
      obtain ⟨hpos,hle⟩ := joined_length t hf hok
      exact ⟨hok.insertRoom t ⟨hpos,hz,hle⟩,rfl⟩
  | leave t room ht hroom hm =>
      have hold := hok.rooms t room hroom
      refine ⟨hok.setRoom t hold.notReserved ((length_erase_le room h.peer).trans hold.within),?_⟩
      unfold Rooms.setRoom
      split_ifs <;> rfl
  | announce t room slot blob hroom hslot hid hblob =>
      have hold := hok.rooms t room hroom
      have hmem : h.peer ∈ room := AList.lookup_isSome.mp (by rw [hslot]; rfl)
      have hlen := length_insert room h.peer { slot with blob := blob }
      rw [if_pos hmem] at hlen
      exact ⟨hok.insertRoom t ⟨hlen ▸ hold.occupied,hold.notReserved,hlen ▸ hold.within⟩,rfl⟩

/-! ### Slots and their connections -/

/-- A slot is under its own endpoint, with a blob that was checked, and its
connection has that endpoint and the topic. -/
structure SlotOk (conns : ℕ → Option (Conn Id F)) (t : Topic) (p : Id) (slot : Slot Id) : Prop where
  peer : slot.handle.peer = p
  blob : slot.blob.length ≤ maxAnnounceLen
  conn : ∃ conn, conns slot.handle.connId = some conn ∧ conn.peer = p ∧ t ∈ conn.subscribed

def SlotsOk (r : Rooms Id) (conns : ℕ → Option (Conn Id F)) : Prop :=
  ∀ t p slot, r.slot t p = some slot → SlotOk conns t p slot

omit [DecidableEq Id] [EndpointKey Id] in
/-- A connection's slot is under its own endpoint. -/
theorem SlotOk.own {conns : ℕ → Option (Conn Id F)} {t : Topic} {p : Id} {slot : Slot Id}
    (hok : SlotOk conns t p slot) {c : ℕ} {conn : Conn Id F} (hc : conns c = some conn)
    (hid : slot.handle.connId = c) : p = conn.peer := by
  obtain ⟨d,hd,hdp,-⟩ := hok.conn
  rw [hid,hc] at hd
  cases hd
  exact hdp.symm

omit [DecidableEq Id] [EndpointKey Id] in
/-- A slot survives a change of one connection that keeps the topic, if it is
that connection's. -/
theorem SlotOk.update {conns : ℕ → Option (Conn Id F)} {t : Topic} {p : Id} {slot : Slot Id}
    (hok : SlotOk conns t p slot) {c : ℕ} {conn conn' : Conn Id F} (hc : conns c = some conn)
    (hpeer : conn'.peer = conn.peer)
    (hkeep : slot.handle.connId = c → t ∈ conn.subscribed → t ∈ conn'.subscribed) :
    SlotOk (Function.update conns c (some conn')) t p slot := by
  refine ⟨hok.peer,hok.blob,?_⟩
  obtain ⟨d,hd,hdp,hdt⟩ := hok.conn
  by_cases heq : slot.handle.connId = c
  · rw [heq,hc] at hd
    cases hd
    exact ⟨conn',by rw [heq,Function.update_self],hpeer.trans hdp,hkeep heq hdt⟩
  · exact ⟨d,by rw [Function.update_of_ne heq,hd],hdp,hdt⟩

omit [DecidableEq Id] [EndpointKey Id] in
/-- A slot survives that its connection leaves another topic. -/
theorem SlotOk.update_erase {conns : ℕ → Option (Conn Id F)} {t t' : Topic} {p : Id} {slot : Slot Id}
    (hok : SlotOk conns t' p slot) {c : ℕ} {conn conn' : Conn Id F} (hc : conns c = some conn)
    (hpeer : conn'.peer = conn.peer) (hsubs : conn'.subscribed = conn.subscribed.erase t)
    (hother : slot.handle.connId = c → t' ≠ t) :
    SlotOk (Function.update conns c (some conn')) t' p slot := by
  apply hok.update hc hpeer
  intro heq ht'
  rw [hsubs]
  exact Finset.mem_erase_of_ne_of_mem (hother heq) ht'

theorem performed_slotsOk {conns : ℕ → Option (Conn Id F)} {c : ℕ} {conn conn' : Conn Id F}
    (hp : Performed limits r ⟨conn.peer,c⟩ conn.subscribed r' conn'.subscribed sends)
    (hok : SlotsOk r conns) (hc : conns c = some conn) (hpeer : conn'.peer = conn.peer) :
    SlotsOk r' (Function.update conns c (some conn')) := by
  intro t' p slot hslot
  generalize hsubs : conn'.subscribed = subs' at hp
  cases hp with
  | quiet =>
      apply (hok t' p slot hslot).update hc hpeer
      intro _ ht
      rwa [hsubs]
  | join t ht hz hcard hf =>
      rw [Rooms.slot_joined] at hslot
      split_ifs at hslot with hnew
      · cases hslot
        exact ⟨hnew.2.symm,Nat.zero_le _,conn',by simp,hpeer.trans hnew.2.symm,
          by rw [hsubs,hnew.1]; exact Finset.mem_insert_self _ _⟩
      · apply (hok t' p slot hslot).update hc hpeer
        intro _ ht'
        rw [hsubs]
        exact Finset.mem_insert_of_mem ht'
  | leave t room ht hroom hm =>
      rw [Rooms.slot_left _ _ hroom] at hslot
      split_ifs at hslot with hgone
      have hold := hok t' p slot hslot
      apply hold.update_erase hc hpeer hsubs
      intro heq htt
      -- the connection's own slot in this room is the one that was removed
      exact hgone ⟨htt,hold.own hc heq⟩
  | drop t ht hm =>
      have hold := hok t' p slot hslot
      apply hold.update_erase hc hpeer hsubs
      intro heq htt
      have hpeer' := hold.own hc heq
      subst htt hpeer'
      have howner : r.isMember t' ⟨conn.peer,c⟩ = true := by
        rw [Rooms.isMember_iff,Rooms.owner,hslot]
        exact congrArg some heq
      rw [hm] at howner
      cases howner
  | announce t room slot₀ blob hroom hslot₀ hid hblob =>
      rw [Rooms.slot_stored _ _ (Rooms.slot_of_room _ _ hroom)] at hslot
      split_ifs at hslot with hnew
      · cases hslot
        have hold := hok t conn.peer slot₀ (by rw [Rooms.slot_of_room _ _ hroom,hslot₀])
        obtain ⟨rfl,rfl⟩ := hnew
        have hnewOk : SlotOk conns t' conn.peer { slot₀ with blob := blob } :=
          ⟨hold.peer,hblob,hold.conn⟩
        exact hnewOk.update hc hpeer fun _ ht' => by rwa [hsubs]
      · apply (hok t' p slot hslot).update hc hpeer
        intro _ ht'
        rwa [hsubs]

omit [EndpointKey Id] in
/-- Nothing goes to a connection that is not there. -/
theorem sendsTo_nobody {conns : ℕ → Option (Conn Id F)} (hok : SlotsOk r conns) {d : ℕ}
    (hd : conns d = none) {t : Topic} {room : Room Id} {p : Id}
    (hroom : ∀ q, q ≠ p → room.lookup q = r.slot t q) (msg : Msg Id) :
    sendsTo d (toOthers room p msg) = [] := by
  rw [sendsTo_toOthers (p := p),if_neg fun h => h.1 rfl]
  intro q slot hq hslot hid
  rw [hroom q hq] at hslot
  obtain ⟨qconn,hqconn,-,-⟩ := (hok t q slot hslot).conn
  rw [hid,hd] at hqconn
  cases hqconn

omit [EndpointKey Id] in
/-- Whoever owns a slot of the room, other than the one the message is about,
hears it once. -/
theorem sendsTo_others {conns : ℕ → Option (Conn Id F)} (hok : SlotsOk r conns) {c : ℕ}
    {conn : Conn Id F} (hc : conns c = some conn) {t : Topic} {room : Room Id} {p : Id}
    (hroom : ∀ q, q ≠ p → room.lookup q = r.slot t q) (msg : Msg Id) :
    sendsTo c (toOthers room p msg) =
      if conn.peer ≠ p ∧ r.owner t conn.peer = some c then [msg] else [] := by
  have hone : ∀ q slot, q ≠ p → room.lookup q = some slot → slot.handle.connId = c →
      q = conn.peer := by
    intro q slot hq hslot hid
    rw [hroom q hq] at hslot
    exact (hok t q slot hslot).own hc hid
  rw [sendsTo_toOthers msg hone]
  by_cases hp : conn.peer = p
  · simp [hp]
  · rw [hroom _ hp,Rooms.owner]

/-! ### Every reachable state -/

structure Invariant (limits : Limits F) (s : State Id F) : Prop where
  rooms : RoomsOk s.rooms
  maxMembers : s.rooms.maxMembers = max limits.maxMembersPerTopic 1
  slots : SlotsOk s.rooms s.conns
  conns : ∀ c conn, s.conns c = some conn → ConnOk limits conn
  fresh : ∀ c, s.next ≤ c → s.conns c = none

omit [EndpointKey Id] in
theorem init_invariant (limits : Limits F) :
    Invariant limits (State.init limits : State Id F) where
  rooms := ⟨nofun,nofun⟩
  maxMembers := rfl
  slots := nofun
  conns := nofun
  fresh _ _ := rfl

omit [EndpointKey Id] in
theorem connect_invariant {s : State Id F} (hi : Invariant limits s) (peer : Id) (now : ℕ) :
    Invariant limits (s.connect limits peer now) := by
  constructor
  · exact hi.rooms
  · exact hi.maxMembers
  · intro t p slot hslot
    have hok := hi.slots t p slot hslot
    refine ⟨hok.peer,hok.blob,?_⟩
    obtain ⟨conn,hc,hrest⟩ := hok.conn
    have hne : slot.handle.connId ≠ s.next := by
      intro heq
      rw [heq,hi.fresh _ le_rfl] at hc
      cases hc
    exact ⟨conn,by rw [State.connect_conns_of_ne _ _ _ _ hne,hc],hrest⟩
  · intro c conn hc
    by_cases heq : c = s.next
    · rw [heq,State.connect_conns_self] at hc
      cases hc
      exact ⟨Nat.zero_le _,nofun,trivial⟩
    · rw [State.connect_conns_of_ne _ _ _ _ heq] at hc
      exact hi.conns c conn hc
  · intro c hc
    change s.next+1 ≤ c at hc
    rw [State.connect_conns_of_ne _ _ _ _ (by omega)]
    exact hi.fresh c (by omega)

omit [EndpointKey Id] in
theorem rehash_slot {t : Topic} {room old : Room Id} (hold : r.room t = some old)
    (hperm : room.entries.Perm old.entries) (t' : Topic) (p : Id) :
    (r.insertRoom t room).slot t' p = r.slot t' p := by
  rw [Rooms.slot_insertRoom]
  split_ifs with ht
  · subst ht
    rw [Rooms.slot_of_room _ _ hold]
    exact AList.perm_lookup hperm
  · rfl

theorem step_invariant [Scalar F] {s s' : State Id F} {a : Action Id} (hi : Invariant limits s)
    (h : step limits s a = some s') : Invariant limits s' := by
  cases a with
  | connect peer now =>
      cases h
      exact connect_invariant hi peer now
  | act c a =>
      obtain ⟨conn,e,hc,he,rfl⟩ := step_act h
      have hok := hi.conns c conn hc
      have hspec := perform_spec hok.blob he
      obtain ⟨hrooms,hmax⟩ := performed_roomsOk hspec hi.rooms
      constructor
      · exact hrooms
      · exact hmax.trans hi.maxMembers
      · exact performed_slotsOk hspec hi.slots hc (perform_private hok he).1
      · intro d dconn hd
        by_cases heq : d = c
        · rw [heq,State.apply_conns_self] at hd
          cases hd
          exact perform_connOk hok he
        · rw [State.apply_conns_of_ne _ _ _ heq] at hd
          exact hi.conns d dconn hd
      · intro d hd
        have hne : d ≠ c := by
          intro heq
          rw [← heq,hi.fresh d hd] at hc
          cases hc
        rw [State.apply_conns_of_ne _ _ _ hne]
        exact hi.fresh d hd
  | drain c d =>
      obtain ⟨out,-,rfl⟩ := step_drain h
      exact ⟨hi.rooms,hi.maxMembers,hi.slots,hi.conns,hi.fresh⟩
  | rehash topic room =>
      obtain ⟨old,hold,hperm,rfl⟩ := step_rehash h
      have hok := hi.rooms.rooms topic old hold
      have hlen := hperm.length_eq
      constructor
      · exact hi.rooms.insertRoom topic
          ⟨hlen ▸ hok.occupied,hok.notReserved,hlen ▸ hok.within⟩
      · exact hi.maxMembers
      · intro t p slot hslot
        apply hi.slots t p slot
        rwa [rehash_slot hold hperm] at hslot
      · exact hi.conns
      · exact hi.fresh

/-- What a step that is not a connection's keeps: every slot, every connection and
what has been sent to it. -/
structure Passive (s s' : State Id F) : Prop where
  slots : ∀ t p, s'.rooms.slot t p = s.rooms.slot t p
  conns : ∀ c conn, s.conns c = some conn → s'.conns c = some conn
  later : ∀ c conn, s.conns c = some conn → Later (s.outs c) (s'.outs c)
  session : ∀ c conn, s.conns c = some conn → (s'.outs c).session.sent = (s.outs c).session.sent
  lanes : ∀ c conn, s.conns c = some conn →
    ∀ i, ((s'.outs c).lanes i).sent = ((s.outs c).lanes i).sent

/-- A step keeps all there is, or is one of a connection's tasks. -/
theorem step_cases [Scalar F] {s s' : State Id F} {a : Action Id} (hi : Invariant limits s)
    (hs : step limits s a = some s') :
    Passive s s' ∨ ∃ c act conn e, a = .act c act ∧ s.conns c = some conn ∧
      perform limits s.rooms c conn act = some e ∧ s' = s.apply c e := by
  cases a with
  | act c act =>
      obtain ⟨conn,e,hc,he,hs'⟩ := step_act hs
      exact .inr ⟨c,act,conn,e,rfl,hc,he,hs'⟩
  | connect peer now =>
      cases hs
      have hne : ∀ c conn, s.conns c = some conn → c ≠ s.next := by
        rintro c conn hc rfl
        rw [hi.fresh _ le_rfl] at hc
        cases hc
      have hout := fun c conn hc => State.connect_outs_of_ne limits s peer now (hne c conn hc)
      refine .inl ⟨fun _ _ => rfl,?_,?_,?_,?_⟩
      · intro c conn hc
        rw [State.connect_conns_of_ne _ _ _ _ (hne c conn hc),hc]
      · intro c conn hc
        rw [hout c conn hc]
        exact .refl _
      · intro c conn hc
        rw [hout c conn hc]
      · intro c conn hc i
        rw [hout c conn hc]
  | drain d w =>
      obtain ⟨out,hout,rfl⟩ := step_drain hs
      obtain ⟨hlater,hsession,hlanes,-⟩ := drain_spec hout
      refine .inl ⟨fun _ _ => rfl,fun _ _ hc => hc,?_,?_,?_⟩
      · intro c _ _
        by_cases hcd : c = d
        · subst hcd
          simpa using hlater
        · simpa [hcd] using .refl _
      · intro c _ _
        by_cases hcd : c = d
        · subst hcd
          simpa using hsession
        · simp [hcd]
      · intro c _ _ i
        by_cases hcd : c = d
        · subst hcd
          simpa using hlanes i
        · simp [hcd]
  | rehash topic room =>
      obtain ⟨old,hold,hperm,rfl⟩ := step_rehash hs
      exact .inl ⟨rehash_slot hold hperm,fun _ _ hc => hc,fun _ _ _ => .refl _,fun _ _ _ => rfl,
        fun _ _ _ _ => rfl⟩

theorem run_invariant [Scalar F] {as : List (Action Id)} {s : State Id F}
    (h : exec (step limits) (State.init limits) as = some s) : Invariant limits s :=
  exec_invariant (step limits) (fun _ _ _ hi hs => step_invariant hi hs) (init_invariant limits) h

omit [DecidableEq Id] [EndpointKey Id] in
theorem occupancy_of_empty (hempty : ∀ i, (r.shards i).entries = []) : r.occupancy = (0,0) := by
  unfold Rooms.occupancy
  simp [hempty]

omit [EndpointKey Id] in
theorem Invariant.room_in_shard {s : State Id F} (hi : Invariant limits s)
    {i : Fin RoomTable.shards} {t : Topic} {room : Room Id}
    (hroom : (s.rooms.shards i).lookup t = some room) :
    shardIndex t = i ∧ s.rooms.room t = some room := by
  have hmem : t ∈ s.rooms.shards i := AList.lookup_isSome.mp (by rw [hroom]; rfl)
  have hindex := hi.rooms.sharded i t hmem
  refine ⟨hindex,?_⟩
  rw [Rooms.room,Rooms.shard,hindex,hroom]

/-- Every room in a shard is occupied, in the right shard, not the reserved one
and within the limit; every slot belongs to a connection of its endpoint that
has not left yet and has the topic; no connection has too many topics. Once
every connection has ended there is no room and no member. -/
theorem rooms_and_subscriptions_agree [Scalar F] {as : List (Action Id)} {s : State Id F}
    (h : exec (step limits) (State.init limits) as = some s) :
    (∀ i t room, (s.rooms.shards i).lookup t = some room →
      shardIndex t = i ∧ 0 < room.entries.length ∧ t ≠ Topic.zero ∧
      room.entries.length ≤ max 1 limits.maxMembersPerTopic ∧
      ∀ p slot, room.lookup p = some slot →
        slot.handle.peer = p ∧ slot.blob.length ≤ maxAnnounceLen ∧
        ∃ conn, s.conns slot.handle.connId = some conn ∧ conn.peer = p ∧
          conn.phase ≠ .ended ∧ t ∈ conn.subscribed) ∧
    (∀ c conn, s.conns c = some conn →
      conn.subscribed.card ≤ limits.maxTopicsPerConnection) ∧
    ((∀ c conn, s.conns c = some conn → conn.phase = .ended) → s.rooms.occupancy = (0,0)) := by
  have hi := run_invariant h
  have hslots : ∀ t room p slot, s.rooms.room t = some room → room.lookup p = some slot →
      ∃ conn, s.conns slot.handle.connId = some conn ∧ conn.peer = p ∧ conn.phase ≠ .ended ∧
        t ∈ conn.subscribed := by
    intro t room p slot hroom hslot
    obtain ⟨conn,hc,hpeer,ht⟩ := (hi.slots t p slot
      ((Rooms.slot_of_room _ _ hroom p).trans hslot)).conn
    refine ⟨conn,hc,hpeer,?_,ht⟩
    intro hended
    rw [(hi.conns _ conn hc).ended hended] at ht
    cases ht
  refine ⟨?_,fun c conn hc => (hi.conns c conn hc).topics,?_⟩
  · intro i t room hroom
    obtain ⟨hindex,hroom⟩ := hi.room_in_shard hroom
    have hok := hi.rooms.rooms t room hroom
    refine ⟨hindex,hok.occupied,of_decide_eq_false hok.notReserved,?_,?_⟩
    · have hle := hok.within
      rw [hi.maxMembers] at hle
      omega
    · intro p slot hslot
      have hslotOk := hi.slots t p slot ((Rooms.slot_of_room _ _ hroom p).trans hslot)
      exact ⟨hslotOk.peer,hslotOk.blob,hslots t room p slot hroom hslot⟩
  · intro hended
    apply occupancy_of_empty
    intro i
    by_contra hne
    obtain ⟨e,he⟩ := List.exists_mem_of_ne_nil _ hne
    obtain ⟨-,hroom⟩ := hi.room_in_shard (AList.mem_lookup_iff.mpr he : _ ∈ _)
    -- an occupied room has a slot, and its connection has not ended
    obtain ⟨m,hm⟩ := List.exists_mem_of_length_pos (hi.rooms.rooms e.1 e.2 hroom).occupied
    obtain ⟨conn,hc,-,hlive,-⟩ := hslots e.1 e.2 m.1 m.2 hroom (AList.mem_lookup_iff.mpr hm)
    exact hlive (hended _ conn hc)

end

/-- An endpoint's second connection takes its slot over and announces. -/
def takeover : List (Action RawId) :=
  [.connect .base 0,.connect .base 0,sends 1 (.subscribe (topicOf 7)) 0,
    sends 2 (.subscribe (topicOf 7)) 5,sends 2 (.announce (topicOf 7) [1,2]) 7,
    .act 2 (.announceRate 8),.act 2 .announceRoom,.act 1 .endSession,
    .act 1 (.leaveNext (topicOf 7)),.act 1 .finish]

theorem rooms_and_subscriptions_agree_takeover : ∃ s room slot,
    exec (step .default) (State.init .default) takeover = some s ∧
    (s.rooms.shards (shardIndex (topicOf 7))).lookup (topicOf 7) = some room ∧
    room.lookup .base = some slot ∧ slot.handle.connId = 2 ∧ slot.blob = [1,2] ∧
    room.entries.length ≤ 1024 ∧ ∃ conn, s.conns 2 = some conn ∧ topicOf 7 ∈ conn.subscribed := by
  have hrun : (exec (step .default) (State.init .default) takeover).any (fun s =>
      ((s.rooms.shards (shardIndex (topicOf 7))).lookup (topicOf 7)).any fun room =>
        (room.lookup .base).any fun slot => slot = ⟨⟨.base,2⟩,[1,2]⟩) = true := by decide +kernel
  obtain ⟨s,hs,hroom⟩ := (Option.any_eq_true _ _).mp hrun
  obtain ⟨room,hroom,hslot⟩ := (Option.any_eq_true _ _).mp hroom
  obtain ⟨slot,hslot,heq⟩ := (Option.any_eq_true _ _).mp hslot
  have hslotEq := of_decide_eq_true heq
  obtain ⟨-,-,-,hle,hslots⟩ := (rooms_and_subscriptions_agree hs).1 _ _ room hroom
  obtain ⟨-,-,conn,hc,-,-,ht⟩ := hslots .base slot hslot
  subst hslotEq
  exact ⟨s,room,_,hs,hroom,hslot,rfl,rfl,hle,conn,hc,ht⟩

end KeepTalkingSfu.RoomInvariant
