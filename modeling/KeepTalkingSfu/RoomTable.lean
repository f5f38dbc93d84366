import KeepTalkingSfu.MemberQueues
import Mathlib.Data.List.AList
import Mathlib.Data.List.FinRange

/-!
# Rooms

Rooms keyed by topic, members keyed by endpoint id, sharded by topic. An
operation is what happens under the shard lock: it returns its result, the
rooms afterwards and the messages it queued, in order. Messages name the
connection whose handle the room holds, so an operation never has to look at
a queue.

A map is iterated in the order of its entries. The order of a hash map is
arbitrary; the server may reorder a room at any time between two operations.
-/
namespace KeepTalkingSfu.RoomTable
open ByteTransport WireFormat StreamWriters SnapshotChunks MemberQueues

/-- What a room knows of a connection. -/
structure Handle (Id : Type) where
  peer : Id
  connId : ℕ
  deriving DecidableEq

structure Slot (Id : Type) where
  handle : Handle Id
  blob : Bytes
  deriving DecidableEq

abbrev Room (Id : Type) := AList fun _ : Id => Slot Id

abbrev Shard (Id : Type) := AList fun _ : Topic => Room Id

def shards : ℕ := 64

structure Rooms (Id : Type) where
  shards : Fin RoomTable.shards → Shard Id
  maxMembers : ℕ
  chunkEntries : ℕ
  maxMembers_pos : 1 ≤ maxMembers

inductive Refusal where
  | notSubscribed
  | noSuchRecipient
  deriving DecidableEq, Repr

/-- The outcome of an operation under the shard lock. -/
structure Locked (Id R : Type) where
  result : R
  rooms : Rooms Id
  sends : List (Send Id)

/-- The first two bytes of the topic, the low one first. -/
def shardIndex (t : Topic) : Fin RoomTable.shards :=
  Fin.ofNat 64 ((t.bytes.getD 0 0).toNat+256*(t.bytes.getD 1 0).toNat)

def Rooms.new (Id : Type) (maxMembersPerTopic snapshotChunkEntries : ℕ) : Rooms Id where
  shards _ := ∅
  maxMembers := max maxMembersPerTopic 1
  chunkEntries := max snapshotChunkEntries 1
  maxMembers_pos := le_max_right _ _

section
variable {Id : Type} [DecidableEq Id]

namespace Rooms

def shard (r : Rooms Id) (t : Topic) : Shard Id := r.shards (shardIndex t)

def setShard (r : Rooms Id) (t : Topic) (s : Shard Id) : Rooms Id :=
  { r with shards := Function.update r.shards (shardIndex t) s }

def room (r : Rooms Id) (t : Topic) : Option (Room Id) := (r.shard t).lookup t

/-- The slot stored under an endpoint in a topic's room. -/
def slot (r : Rooms Id) (t : Topic) (p : Id) : Option (Slot Id) :=
  (r.room t).bind fun room => room.lookup p

def insertRoom (r : Rooms Id) (t : Topic) (room : Room Id) : Rooms Id :=
  r.setShard t ((r.shard t).insert t room)

def removeRoom (r : Rooms Id) (t : Topic) : Rooms Id := r.setShard t ((r.shard t).erase t)

end Rooms

/-! ### Who is told -/

def ownsSlot (room : Room Id) (h : Handle Id) : Bool :=
  (room.lookup h.peer).any fun slot => slot.handle.connId = h.connId

/-- The entries of everyone in the room but one endpoint. -/
def others (room : Room Id) (except : Id) : List (Σ _ : Id, Slot Id) :=
  room.entries.filter fun e => e.1 ≠ except

/-- One message to everyone in the room but `except`. -/
def toOthers (room : Room Id) (except : Id) (msg : Msg Id) : List (Send Id) :=
  (others room except).map fun e => ⟨e.2.handle.connId,msg⟩

def broadcast (room : Room Id) (except : Id) (frame : Bytes) : List (Send Id) :=
  toOthers room except (pushFrame frame)

theorem forall_toOthers {P : Msg Id → Prop} {msg : Msg Id} (h : P msg) (room : Room Id)
    (except : Id) : ∀ m ∈ toOthers room except msg, P m.msg := by
  intro m hm
  obtain ⟨e,-,rfl⟩ := List.mem_map.mp hm
  exact h

/-! ### The operations -/

namespace Rooms
variable [EndpointKey Id]

/-- A room that exists, or a new empty one. -/
def entry (r : Rooms Id) (t : Topic) : Rooms Id × Room Id :=
  match r.room t with
  | some room => (r,room)
  | none => (r.insertRoom t ∅,∅)

/-- Adds the connection to the room and queues its snapshot. `none` if the
room is full. -/
def join (r : Rooms Id) (t : Topic) (h : Handle Id) : Locked Id (Option ℕ) :=
  let (r,room) := r.entry t
  if h.peer ∉ room ∧ r.maxMembers ≤ room.entries.length then ⟨none,r,[]⟩
  else
    let room := room.insert h.peer ⟨h,[]⟩
    let members := (others room h.peer).map fun e => (⟨e.1,e.2.blob⟩ : Member Id)
    ⟨some room.entries.length,r.insertRoom t room,
      ⟨h.connId,.session (.snapshot t members) (snapshotWireLen members r.chunkEntries)⟩::
        broadcast room h.peer (ServerFrame.joined t h.peer).encode⟩

/-- Removes the connection's slot, if it still owns it, and tells the room. -/
def leave (r : Rooms Id) (t : Topic) (h : Handle Id) : Locked Id (Option ℕ) :=
  match r.room t with
  | none => ⟨none,r,[]⟩
  | some room =>
      if ownsSlot room h then
        let room := room.erase h.peer
        ⟨some room.entries.length,
          if room.entries.length = 0 then r.removeRoom t else r.insertRoom t room,
          broadcast room h.peer (ServerFrame.left t h.peer).encode⟩
      else ⟨none,r,[]⟩

/-- Stores the blob and relays it. False if the connection no longer owns its
slot. -/
def announce (r : Rooms Id) (t : Topic) (h : Handle Id) (blob : Bytes) : Locked Id Bool :=
  match r.room t with
  | none => ⟨false,r,[]⟩
  | some room =>
      match room.lookup h.peer with
      | some slot =>
          if slot.handle.connId = h.connId then
            let room := room.insert h.peer { slot with blob := blob }
            ⟨true,r.insertRoom t room,
              broadcast room h.peer (ServerFrame.presence t h.peer blob).encode⟩
          else ⟨false,r,[]⟩
      | none => ⟨false,r,[]⟩

/-- Whether the connection holds its slot in the topic's room. -/
def isMember (r : Rooms Id) (t : Topic) (h : Handle Id) : Bool :=
  (r.room t).any fun room => ownsSlot room h

/-- Queues the DELIVER for every other member. -/
def publish (r : Rooms Id) (t : Topic) (h : Handle Id) (lane : Lane) (frame : Deliver) :
    Locked Id (Except Refusal ℕ) :=
  match (r.room t).filter fun room => ownsSlot room h with
  | none => ⟨.error .notSubscribed,r,[]⟩
  | some room =>
      let sends := toOthers room h.peer (.deliver lane frame)
      ⟨.ok sends.length,r,sends⟩

/-- Queues the DELIVER for `recipient` alone, if it is another member. -/
def publishTo (r : Rooms Id) (t : Topic) (h : Handle Id) (recipient : Id) (lane : Lane)
    (frame : Deliver) : Locked Id (Except Refusal ℕ) :=
  match (r.room t).filter fun room => ownsSlot room h with
  | none => ⟨.error .notSubscribed,r,[]⟩
  | some room =>
      if recipient = h.peer then ⟨.error .noSuchRecipient,r,[]⟩
      else
        match room.lookup recipient with
        | none => ⟨.error .noSuchRecipient,r,[]⟩
        | some slot => ⟨.ok 1,r,[⟨slot.handle.connId,.deliver lane frame⟩]⟩

/-- Connections of the room's other members, if `h` is subscribed. -/
def datagramTargets (r : Rooms Id) (t : Topic) (h : Handle Id) : Option (List ℕ) :=
  match r.room t with
  | none => none
  | some room =>
      if ownsSlot room h then some ((others room h.peer).map fun e => e.2.handle.connId) else none

/-- How many rooms and how many members there are. -/
def occupancy (r : Rooms Id) : ℕ × ℕ :=
  (List.finRange RoomTable.shards).foldl
    (fun acc i => (acc.1+(r.shards i).entries.length,
      acc.2+((r.shards i).entries.map fun e => e.2.entries.length).sum)) (0,0)

end Rooms

/-! ### Looking rooms up afterwards -/

namespace Rooms
variable (r : Rooms Id) (t : Topic)

section
omit [DecidableEq Id]

theorem room_insertRoom (room : Room Id) (t' : Topic) :
    (r.insertRoom t room).room t' = if t' = t then some room else r.room t' := by
  unfold insertRoom setShard Rooms.room shard
  by_cases ht : t' = t
  · subst ht
    simp
  · by_cases hi : shardIndex t' = shardIndex t
    · simp only [hi,Function.update_self,AList.lookup_insert_ne ht,if_neg ht]
    · simp only [Function.update_of_ne hi,if_neg ht]

theorem room_removeRoom (t' : Topic) :
    (r.removeRoom t).room t' = if t' = t then none else r.room t' := by
  unfold removeRoom setShard Rooms.room shard
  by_cases ht : t' = t
  · subst ht
    simp
  · by_cases hi : shardIndex t' = shardIndex t
    · simp only [hi,Function.update_self,AList.lookup_erase_ne ht,if_neg ht]
    · simp only [Function.update_of_ne hi,if_neg ht]

theorem insertRoom_insertRoom (room room' : Room Id) :
    (r.insertRoom t room).insertRoom t room' = r.insertRoom t room' := by
  simp [insertRoom,setShard,shard]

end

/-- The room is full for an endpoint that is not in it. -/
def isFull (p : Id) : Bool :=
  (r.room t).any fun room => p ∉ room ∧ r.maxMembers ≤ room.entries.length

/-- The room with the connection's new slot in it. -/
def joined (h : Handle Id) : Room Id := ((r.room t).getD ∅).insert h.peer ⟨h,[]⟩

variable [EndpointKey Id] (h : Handle Id)

theorem join_full (hf : r.isFull t h.peer = true) : r.join t h = ⟨none,r,[]⟩ := by
  unfold isFull at hf
  cases hr : r.room t with
  | none => simp [hr] at hf
  | some room =>
      simp only [hr,Option.any_some,decide_eq_true_eq] at hf
      simp only [join,entry,hr,if_pos hf]

/-- The messages of a join: the snapshot, then one JOINED to every other member. -/
def joinSends : List (Send Id) :=
  let members := (others (r.joined t h) h.peer).map fun e => (⟨e.1,e.2.blob⟩ : Member Id)
  ⟨h.connId,.session (.snapshot t members) (snapshotWireLen members r.chunkEntries)⟩::
    broadcast (r.joined t h) h.peer (ServerFrame.joined t h.peer).encode

theorem join_ok (hf : r.isFull t h.peer = false) :
    r.join t h = ⟨some (r.joined t h).entries.length,r.insertRoom t (r.joined t h),
      r.joinSends t h⟩ := by
  unfold isFull at hf
  cases hr : r.room t with
  | none =>
      have hempty : ¬(h.peer ∉ (∅ : Room Id) ∧
          (r.insertRoom t ∅).maxMembers ≤ (∅ : Room Id).entries.length) := by
        rintro ⟨-,hle⟩
        exact absurd r.maxMembers_pos (Nat.not_le.mpr (Nat.lt_succ_of_le hle))
      simp only [join,entry,hr,if_neg hempty,joinSends,joined,Option.getD_none,
        insertRoom_insertRoom]
      rfl
  | some room =>
      simp only [hr,Option.any_some,decide_eq_false_iff_not] at hf
      simp only [join,entry,hr,if_neg hf,joinSends,joined,Option.getD_some]

/-- Puts a room back, or drops it if nobody is left. -/
def setRoom (room : Room Id) : Rooms Id :=
  if room.entries.length = 0 then r.removeRoom t else r.insertRoom t room

/-- The connection that holds an endpoint's slot. -/
def owner (p : Id) : Option ℕ := (r.slot t p).map fun slot => slot.handle.connId

section
omit [EndpointKey Id]

theorem slot_insertRoom (room : Room Id) (t' : Topic) (p : Id) :
    (r.insertRoom t room).slot t' p = if t' = t then room.lookup p else r.slot t' p := by
  unfold slot
  rw [room_insertRoom]
  split <;> rfl

theorem slot_setRoom (room : Room Id) (t' : Topic) (p : Id) :
    (r.setRoom t room).slot t' p = if t' = t then room.lookup p else r.slot t' p := by
  unfold setRoom
  split
  · next hempty =>
    have hnone : room.lookup p = none := by
      rw [List.length_eq_zero_iff] at hempty
      have h : room = ∅ := AList.ext hempty
      rw [h,AList.lookup_empty]
    unfold slot
    rw [room_removeRoom,hnone]
    split <;> rfl
  · exact r.slot_insertRoom t room t' p

theorem slot_of_room {room : Room Id} (hroom : r.room t = some room) (p : Id) :
    r.slot t p = room.lookup p := by
  rw [slot,hroom]
  rfl

/-- Storing a slot changes that slot only. -/
theorem slot_stored {room : Room Id} (hroom : ∀ p, r.slot t p = room.lookup p) (q : Id)
    (x : Slot Id) (t' : Topic) (p : Id) :
    (r.insertRoom t (room.insert q x)).slot t' p =
      if t' = t ∧ p = q then some x else r.slot t' p := by
  rw [slot_insertRoom]
  by_cases ht : t' = t
  · subst ht
    by_cases hp : p = q
    · subst hp
      simp
    · simp only [if_true,AList.lookup_insert_ne hp,hp,and_false,if_false,hroom]
  · simp [ht]

theorem slot_joined (t' : Topic) (p : Id) : (r.insertRoom t (r.joined t h)).slot t' p =
    if t' = t ∧ p = h.peer then some ⟨h,[]⟩ else r.slot t' p := by
  apply slot_stored
  intro q
  unfold slot
  cases r.room t <;> rfl

/-- Joining leaves the other slots of the room alone. -/
theorem lookup_joined_ne {q : Id} (hq : q ≠ h.peer) : (r.joined t h).lookup q = r.slot t q := by
  have hslot := slot_joined r t h t q
  rw [slot_insertRoom,if_pos rfl,if_neg fun h => hq h.2] at hslot
  exact hslot

theorem slot_left {room : Room Id} (hroom : r.room t = some room) (q : Id) (t' : Topic) (p : Id) :
    (r.setRoom t (room.erase q)).slot t' p =
      if t' = t ∧ p = q then none else r.slot t' p := by
  rw [slot_setRoom]
  by_cases ht : t' = t
  · subst ht
    by_cases hp : p = q
    · subst hp
      simp
    · simp only [if_true,AList.lookup_erase_ne hp,hp,and_false,if_false,slot,hroom,
        Option.bind_some]
  · simp [ht]

theorem isMember_iff : r.isMember t h = true ↔ r.owner t h.peer = some h.connId := by
  unfold isMember owner slot ownsSlot
  cases r.room t with
  | none => simp
  | some room => cases hs : room.lookup h.peer <;> simp [hs]

end

theorem leave_other (hn : r.isMember t h = false) : r.leave t h = ⟨none,r,[]⟩ := by
  unfold isMember at hn
  unfold leave
  cases hr : r.room t with
  | none => rfl
  | some room =>
      simp only [hr,Option.any_some] at hn
      simp [hn]

theorem leave_member (hm : r.isMember t h = true) : ∃ room, r.room t = some room ∧
    r.leave t h = ⟨some (room.erase h.peer).entries.length,r.setRoom t (room.erase h.peer),
      broadcast (room.erase h.peer) h.peer (ServerFrame.left t h.peer).encode⟩ := by
  unfold isMember at hm
  cases hr : r.room t with
  | none => simp [hr] at hm
  | some room =>
      simp only [hr,Option.any_some] at hm
      exact ⟨room,rfl,by simp only [leave,hr,hm,if_true,setRoom]⟩

theorem announce_other (blob : Bytes) (hn : r.isMember t h = false) :
    r.announce t h blob = ⟨false,r,[]⟩ := by
  unfold isMember ownsSlot at hn
  unfold announce
  cases hr : r.room t with
  | none => rfl
  | some room =>
      cases hs : room.lookup h.peer with
      | none => simp [hs]
      | some slot =>
          simp only [hr,hs,Option.any_some,decide_eq_false_iff_not] at hn
          simp [hs,hn]

theorem announce_member (blob : Bytes) (hm : r.isMember t h = true) : ∃ room slot,
    r.room t = some room ∧ room.lookup h.peer = some slot ∧ slot.handle.connId = h.connId ∧
    r.announce t h blob = ⟨true,r.insertRoom t (room.insert h.peer { slot with blob := blob }),
      broadcast (room.insert h.peer { slot with blob := blob }) h.peer
        (ServerFrame.presence t h.peer blob).encode⟩ := by
  unfold isMember ownsSlot at hm
  cases hr : r.room t with
  | none => simp [hr] at hm
  | some room =>
      cases hs : room.lookup h.peer with
      | none => simp [hr,hs] at hm
      | some slot =>
          simp only [hr,hs,Option.any_some,decide_eq_true_eq] at hm
          exact ⟨room,slot,rfl,hs,hm,by simp only [announce,hr,hs,hm,if_true]⟩

omit [EndpointKey Id] in
theorem filter_other (hn : r.isMember t h = false) :
    (r.room t).filter (fun room => ownsSlot room h) = none := by
  unfold isMember at hn
  cases hr : r.room t with
  | none => rfl
  | some room =>
      simp only [hr,Option.any_some] at hn
      simp [Option.filter,hn]

omit [EndpointKey Id] in
theorem filter_member (hm : r.isMember t h = true) : ∃ room, r.room t = some room ∧
    (r.room t).filter (fun room => ownsSlot room h) = some room := by
  unfold isMember at hm
  cases hr : r.room t with
  | none => simp [hr] at hm
  | some room =>
      simp only [hr,Option.any_some] at hm
      exact ⟨room,rfl,by simp [Option.filter,hm]⟩

/-! Published frames and datagrams reach nobody unless the sender has its slot. -/

section
omit [EndpointKey Id]
variable (lane : Lane) (frame : Deliver)

theorem publish_other (hn : r.isMember t h = false) :
    r.publish t h lane frame = ⟨.error .notSubscribed,r,[]⟩ := by
  rw [publish,r.filter_other t h hn]

theorem publish_member (hm : r.isMember t h = true) : ∃ room, r.room t = some room ∧
    r.publish t h lane frame = ⟨.ok (toOthers room h.peer (.deliver lane frame)).length,r,
      toOthers room h.peer (.deliver lane frame)⟩ := by
  obtain ⟨room,hroom,hfilter⟩ := r.filter_member t h hm
  exact ⟨room,hroom,by rw [publish,hfilter]⟩

theorem publishTo_other (recipient : Id) (hn : r.isMember t h = false) :
    r.publishTo t h recipient lane frame = ⟨.error .notSubscribed,r,[]⟩ := by
  rw [publishTo,r.filter_other t h hn]

theorem publishTo_absent {recipient : Id} (hm : r.isMember t h = true)
    (habsent : recipient = h.peer ∨ r.slot t recipient = none) :
    r.publishTo t h recipient lane frame = ⟨.error .noSuchRecipient,r,[]⟩ := by
  obtain ⟨room,hroom,hfilter⟩ := r.filter_member t h hm
  rw [slot_of_room r t hroom] at habsent
  rw [publishTo,hfilter]
  rcases habsent with hself | hnone
  · simp only [if_pos hself]
  · simp only [hnone]
    split_ifs <;> rfl

theorem publishTo_present {recipient : Id} {slot : Slot Id} (hm : r.isMember t h = true)
    (hne : recipient ≠ h.peer) (hslot : r.slot t recipient = some slot) :
    r.publishTo t h recipient lane frame =
      ⟨.ok 1,r,[⟨slot.handle.connId,.deliver lane frame⟩]⟩ := by
  obtain ⟨room,hroom,hfilter⟩ := r.filter_member t h hm
  rw [slot_of_room r t hroom] at hslot
  simp only [publishTo,hfilter,if_neg hne,hslot]

theorem datagramTargets_other (hn : r.isMember t h = false) : r.datagramTargets t h = none := by
  unfold isMember at hn
  unfold datagramTargets
  cases hr : r.room t with
  | none => rfl
  | some room =>
      simp only [hr,Option.any_some] at hn
      simp [hn]

end

end Rooms

/-! ### What one connection is sent -/

theorem filter_eq_of_nodupKeys {l : List (Σ _ : Id, Slot Id)} (hl : l.NodupKeys) {p : Id}
    {P : (Σ _ : Id, Slot Id) → Bool} (hp : ∀ e ∈ l, P e = true → e.1 = p) :
    l.filter P = ((l.dlookup p).toList.map fun s => ⟨p,s⟩).filter P := by
  induction l with
  | nil => rfl
  | cons e l ih =>
      obtain ⟨q,s⟩ := e
      rw [List.nodupKeys_cons] at hl
      by_cases hq : q = p
      · subst hq
        have hrest : l.filter P = [] := by
          rw [List.filter_eq_nil_iff]
          intro e he hP
          have hkey := List.mem_keys_of_mem he
          rw [hp e (List.mem_cons_of_mem _ he) hP] at hkey
          exact hl.1 hkey
        rw [List.dlookup_cons_eq,List.filter_cons,hrest,Option.toList_some,List.map_singleton,
          List.filter_singleton]
        cases P ⟨q,s⟩ <;> rfl
      · have hP : P ⟨q,s⟩ = false := by
          by_contra h
          exact hq (hp _ List.mem_cons_self (by simpa using h))
        rw [List.filter_cons,hP,List.dlookup_cons_ne _ _ (Ne.symm hq)]
        exact ih hl.2 fun e he => hp e (List.mem_cons_of_mem _ he)

/-- A connection that can only sit under one endpoint hears what is told to the
others exactly once, if it sits there. -/
theorem sendsTo_toOthers {room : Room Id} {except p : Id} {c : ℕ} (msg : Msg Id)
    (hp : ∀ q slot, q ≠ except → room.lookup q = some slot → slot.handle.connId = c → q = p) :
    sendsTo c (toOthers room except msg) =
      if p ≠ except ∧ (room.lookup p).map (fun slot => slot.handle.connId) = some c then [msg]
      else [] := by
  have hmap : sendsTo c (toOthers room except msg) =
      (room.entries.filter fun e => decide (e.1 ≠ except) && decide (e.2.handle.connId = c)).map
        fun _ => msg := by
    unfold sendsTo toOthers others
    rw [List.filter_map,List.map_map,List.filter_filter]
    congr 2
    funext e
    exact Bool.and_comm _ _
  rw [hmap,filter_eq_of_nodupKeys room.nodupKeys (p := p)]
  · change ((((room.lookup p).toList.map _).filter _).map _) = _
    cases hs : room.lookup p with
    | none => simp
    | some slot =>
        by_cases h₁ : p = except
        · simp [h₁]
        · by_cases h₂ : slot.handle.connId = c
          · simp [h₁,h₂]
          · simp [h₁,h₂]
  · intro e he hP
    rw [Bool.and_eq_true,decide_eq_true_eq,decide_eq_true_eq] at hP
    exact hp e.1 e.2 hP.1 (AList.mem_lookup_iff.mpr he) hP.2

end

end KeepTalkingSfu.RoomTable
