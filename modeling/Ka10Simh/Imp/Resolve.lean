import Ka10Simh.Lib.Reaches
import Ka10Simh.Imp.SendQueue

/-!
The output side of the interface, and the resolution of addresses.

The host gives a message word by word. With its last word `imp_send_packet` hands the packet to `imp_packet_out`,
which sends it at once or puts it into the send queue until there is an ARP reply; `imp_srv` takes no word while a
packet waits.

* `ImpData`: the interface; `step`: what it does with an event.
* `Ticket`: the history of a packet that has been queued, from the events alone.
* `send_queue_kept`: the buffers and the packets are as the tickets say, in every run.
-/

namespace Ka10Simh.Imp.SendQueue

open TransSys OnesComplement

/-- An entry of `arp_table`. -/
structure ArpEntry where
  ipaddr : ℕ
  ethaddr : List UInt8
  age : ℤ

/-- The interface: `imp_data` and `imp_buffer`, with the status of the unit and the bits of the message. -/
structure ImpData extends Queues where
  dev : ImpDevice
  mac : List UInt8
  ipMask : ℕ
  gwip : ℕ
  arpTable : Fin 64 → ArpEntry
  impob : Bool
  implhw : Bool
  impod : Bool
  obuf : List Bool
  sbuffer : List Bool

/-- `ETH_FRAME_SIZE`, `ARP_DONT_AGE`, `IMP_ARP_MAX_AGE`, `ARP_REQUEST` and `ARP_REPLY`. -/
abbrev ethFrameSize : ℕ := 1518
abbrev arpDontAge : ℤ := -1
abbrev impArpMaxAge : ℤ := 100
abbrev arpRequest : ℕ := 1
abbrev arpReply : ℕ := 2

/-! ### The table of addresses -/

section Table

variable (t : Fin 64 → ArpEntry)

/-- The entry of an address. -/
def findArp (ip : ℕ) : Option ArpEntry := ((List.finRange 64).find? fun i ↦ (t i).ipaddr = ip).map t

/-- The entry for an address that is not in the table: one that is free, or the oldest. -/
def arpSlot : Fin 64 :=
  match (List.finRange 64).find? fun i ↦ (t i).ipaddr = 0 with
  | some i => i
  | none =>
      ((List.finRange 64).foldl (fun (found : Fin 64 × ℤ) i ↦
        if (t i).age > found.2 then (i, (t i).age) else found) (0, 0)).1

/-- `imp_arp_update`. -/
def arpUpdate (ipaddr : ℕ) (ethaddr : List UInt8) (age : ℤ) : Fin 64 → ArpEntry :=
  match (List.finRange 64).find? fun i ↦ (t i).ipaddr ≠ 0 ∧ (t i).ipaddr = ipaddr with
  | some i =>
      Function.update t i { t i with ethaddr, age := if (t i).age ≠ arpDontAge then age else (t i).age }
  | none => Function.update t (arpSlot t) { ipaddr, ethaddr, age }

/-- `imp_arp_age`. -/
def arpAge (i : Fin 64) : ArpEntry :=
  if (t i).ipaddr ≠ 0 then
    let age := if (t i).age ≠ arpDontAge then (t i).age + 1 else (t i).age
    if age > impArpMaxAge then { ipaddr := 0, ethaddr := List.replicate 6 0, age := 0 } else { t i with age }
  else t i

end Table

/-! ### Packets to the network -/

section Output

variable (s : ImpData)

/-- The address that a packet is sent to: its destination on our subnet, and the gateway otherwise. -/
def nextHop (dst : ℕ) : ℕ := if s.dev.ip.toNat &&& s.ipMask ≠ dst &&& s.ipMask then s.gwip else dst

/-- `ip_dst` of a packet, and its frame, of 60 bytes at least. -/
def ipDst (buf : Buf) : ℕ := get32 buf (ethHdr + 16)
def frame (buf : Buf) : List UInt8 :=
  bytes buf 0 (ethHdr + ipLen buf ethHdr) ++ List.replicate (60 - (ethHdr + ipLen buf ethHdr)) 0

/-- `imp_arp_arpout`: the frame of a request. -/
def arpOut (ipaddr : ℕ) : List UInt8 :=
  List.replicate 6 0xff ++ s.mac ++ bytes16 0x0806 ++ bytes16 1 ++ bytes16 0x0800 ++ [6, 4] ++ bytes16 arpRequest
    ++ s.mac ++ bytes32 s.dev.ip.toNat ++ List.replicate 6 0 ++ bytes32 ipaddr ++ List.replicate 18 0

/-- `imp_packet_out`. -/
def impPacketOut (msg : Buf) : Except Fault ImpData :=
  let (m, buf) := packetOut s.dev msg ethHdr
  let s := { s with dev := { s.dev with portMap := m } }
  match findArp s.arpTable (nextHop s (ipDst buf)) with
  | some e =>
      .ok { s with
        sent := s.sent ++ [(.direct, address e.ethaddr s.mac (frame buf))], rfnmCount := s.rfnmCount + 1 }
  | none =>
      if (frame buf).length > ethFrameSize then .error .length
      else
        (queuePacket (frame buf) (ipDst buf) s.toQueues).map fun q ↦
          { s with
            toQueues := { q with sent := q.sent ++ [(.arp, arpOut s (nextHop s (ipDst buf)))] } }

/-- A byte of `sbuffer`. -/
def sbyte (bits : List Bool) (k : ℕ) : UInt8 :=
  UInt8.ofNat ((List.range 8).foldl (fun v j ↦ 2 * v + (bits.getD (8 * k + j) false).toNat) 0)

/-- What a message is: `mt`, `st` and `lk` of its leader, unless that is invalid. -/
def leader (bits : List Bool) : Option (ℕ × ℕ × ℕ) :=
  let b k := (sbyte bits k).toNat
  if b 0 % 16 = 0 then some (0, b 3 % 16, 0o233)
  else if b 0 % 16 = 4 then some (4, b 3 % 16, 0)
  else if b 0 % 16 = 15 then some (b 3, b 9 % 16, b 8)
  else none

/-- A regular packet. -/
def Regular (bits : List Bool) : Prop := leader bits = some (0, 0, 0o233) ∨ leader bits = some (0, 1, 0o233)

instance (bits : List Bool) : Decidable (Regular bits) := inferInstanceAs (Decidable (_ ∨ _))

/-- The packet of a message in `write_buffer`, which has what was on the stack before. -/
def writeBuffer (stack : Buf) (bits : List Bool) : Buf := fun j ↦
  if ethHdr ≤ j ∧ j < ethHdr + (bits.length / 8 - pad s.dev) then sbyte bits (pad s.dev + (j - ethHdr)) else stack j

/-- A NOP. -/
def nop (padding : ℕ) : ImpData :=
  { s with
    dev := { s.dev with initState := if s.dev.initState < 3 then s.dev.initState + 1 else s.dev.initState, padding } }

/-- `imp_send_packet`, and the buffer that is cleared after it. -/
def sendPacket (stack : Buf) : Except Fault ImpData :=
  let sent : Except Fault ImpData :=
    if Regular s.sbuffer then
      if s.sbuffer.length / 8 < pad s.dev then .error .length
      else impPacketOut s (writeBuffer s stack s.sbuffer)
    else
      match leader s.sbuffer with
      | some (0, 4, _) => .ok (nop s 0)
      | some (4, st, _) => .ok (nop s (st * 16))
      | _ => .ok s
  sent.map fun s ↦ { s with sbuffer := [] }

/-- A word put into `sbuffer`, and the message sent with the last one. -/
def putWord (bits : List Bool) (last : Bool) (stack : Buf) : Except Fault ImpData :=
  if s.sbuffer.length + bits.length > 8 * ethFrameSize then .error .length
  else
    let s := { s with sbuffer := s.sbuffer ++ bits }
    if last = true then sendPacket s stack else .ok s

end Output

/-! ### Events -/

section Events

variable (s : ImpData)

/-- `imp_srv`: the word that the host has given is put into the message, if no packet waits. -/
def impSrv (stack : Buf) : Except Fault ImpData :=
  if s.impob = true ∧ s.sendq = none then
    (putWord s s.obuf s.implhw stack).map fun s ↦ { s with implhw := false, impob := false, impod := true }
  else .ok s

/-- The first bits of a word. -/
def wordBits {w : ℕ} (word : BitVec w) (n : ℕ) : List Bool := (List.range n).map fun i ↦ word.getMsbD i

/-- `imp_srv` of a KS10, which reads the word from the memory: the bytes that are put, two for `TYPE_UNI` and four for
`TYPE_SIMP`. -/
def uniSrv (word : BitVec 32) (simp last : Bool) (stack : Buf) : Except Fault ImpData :=
  if s.sendq = none then putWord s (wordBits word (if simp = true then 32 else 16)) last stack else .ok s

/-- `CONO` of `imp_devio`, with the bits for the output of `TYPE_BBN` and of `TYPE_WAITS`, and of `TYPE_MIT`. -/
def impCono (odpien fino strout : Bool) (stack : Buf) : Except Fault ImpData :=
  let s := if odpien = true then { s with implhw := false, impod := false } else s
  let sent : Except Fault ImpData :=
    if fino = true then
      if s.impod = true then (sendPacket s stack).map fun s ↦ { s with implhw := false }
      else .ok { s with implhw := true }
    else .ok s
  sent.map fun s ↦ if strout = true then { s with impod := false, implhw := false } else s
def mitCono (odc ods lhw : Bool) : ImpData :=
  let s := if odc = true then { s with impod := false } else s
  let s := if ods = true then { s with impod := true } else s
  if lhw = true then { s with implhw := true } else s

/-- `DATAO`: a word of 32 bits, or of 36. -/
def impDatao (word : BitVec 36) (o32 : Bool) : ImpData :=
  { s with
    impob := true, impod := false, obuf := wordBits word (if o32 = true then 32 else 36) }

/-- The fields of `struct arp_hdr`. -/
def opcode (msg : Buf) : ℕ := get16 msg 20
def shwaddr (msg : Buf) : List UInt8 := bytes msg 22 6
def sipaddr (msg : Buf) : ℕ := get32 msg 28
def dipaddr (msg : Buf) : ℕ := get32 msg 38

/-- The answer to a request for our address. -/
def arpAnswer (msg : Buf) : List UInt8 :=
  shwaddr msg ++ s.mac ++ bytes16 0x0806 ++ bytes msg 14 6 ++ bytes16 arpReply ++ s.mac ++ bytes32 s.dev.ip.toNat
    ++ shwaddr msg ++ bytes32 (sipaddr msg) ++ bytes msg 42 18

/-- `imp_arp_arpin`. -/
def arpIn (msg : Buf) (len : ℕ) : Except Fault ImpData :=
  if len < 60 then .ok s
  else
    let s := { s with arpTable := arpUpdate s.arpTable (sipaddr msg) (shwaddr msg) 0 }
    if opcode msg = arpRequest ∧ dipaddr msg = s.dev.ip.toNat then
      .ok { s with sent := s.sent ++ [(.arp, arpAnswer s msg)] }
    else if opcode msg = arpReply ∧ dipaddr msg = s.dev.ip.toNat then
      (replyQueue (sipaddr msg) (shwaddr msg) s.mac s.toQueues).map fun q ↦ { s with toQueues := q }
    else .ok s

/-- An entry of `port_map` in `imp_timer_task`. -/
def agePort (e : PortMap) : PortMap :=
  if e.clsTim > 0 then
    if e.clsTim - 1 = 0 then { e with clsTim := 0, dport := 0, sport := 0, adj := 0 }
    else { e with clsTim := e.clsTim - 1 }
  else e

/-- `imp_timer_task`. -/
def timerTask : Except Fault ImpData :=
  let s := { s with dev := { s.dev with portMap := fun n ↦ if n < 64 then agePort (s.dev.portMap n) else s.dev.portMap n } }
  (timerQueue s.toQueues).map fun q ↦ { s with toQueues := q }

/-- `imp_reset`, but for what the first call does. -/
def impReset : ImpData := { s with toQueues := resetQueues s.toQueues, dev := { s.dev with initState := 0 } }

/-- What happens to the interface: the instructions of the host, the service of its unit, frames and ticks, updates of
the table by `imp_packet_in` and the console, and addresses that DHCP gives. -/
inductive Event
  | datao (word : BitVec 36) (o32 : Bool)
  | cono (odpien fino strout : Bool) (stack : Buf)
  | mit (odc ods lhw : Bool)
  | srv (stack : Buf)
  | uni (word : BitVec 32) (simp last : Bool) (stack : Buf)
  | arpin (msg : Buf) (len : ℕ)
  | update (ipaddr : ℕ) (ethaddr : List UInt8) (age : ℤ)
  | age
  | timer
  | configure (ip : UInt32) (ipMask gwip : ℕ)
  | reset

/-- The interface after an event. -/
def step : Event → Except Fault ImpData
  | .datao word o32 => .ok (impDatao s word o32)
  | .cono odpien fino strout stack => impCono s odpien fino strout stack
  | .mit odc ods lhw => .ok (mitCono s odc ods lhw)
  | .srv stack => impSrv s stack
  | .uni word simp last stack => uniSrv s word simp last stack
  | .arpin msg len => arpIn s msg len
  | .update ipaddr ethaddr age => .ok { s with arpTable := arpUpdate s.arpTable ipaddr ethaddr age }
  | .age => .ok { s with arpTable := arpAge s.arpTable }
  | .timer => timerTask s
  | .configure ip ipMask gwip => .ok { s with dev := { s.dev with ip }, ipMask, gwip }
  | .reset => .ok (impReset s)

end Events

/-! ### Tickets -/

section Tickets

/-- What has become of a packet: it waits for a number of ticks, it has been sent as a frame, or it is given up. -/
inductive Fate
  | waiting (life : ℤ)
  | sent (frame : List UInt8)
  | freed

/-- A packet that has been queued, with the address it is to be sent to. -/
structure Ticket where
  frame : List UInt8
  hop : ℕ
  fate : Fate

variable (s : ImpData)

/-- A reply to us, with the address that it is about and its hardware address. -/
def replied : Event → Option (ℕ × List UInt8)
  | .arpin msg len =>
      if 60 ≤ len ∧ opcode msg = arpReply ∧ dipaddr msg = s.dev.ip.toNat then some (sipaddr msg, shwaddr msg) else none
  | _ => none

/-- A ticket after an event: sent with a reply for its address, given up when its life runs out or with a reset. -/
def Ticket.next (e : Event) (t : Ticket) : Ticket :=
  match t.fate with
  | .waiting life =>
      match e with
      | .timer => { t with fate := if life - 1 = 0 then .freed else .waiting (life - 1) }
      | .reset => { t with fate := .freed }
      | e =>
          match replied s e with
          | some (ipaddr, ethaddr) =>
              if t.hop = ipaddr then { t with fate := .sent (address ethaddr s.mac t.frame) } else t
          | none => t
  | _ => t

/-- The message that is complete with an event. -/
def message : Event → Option (List Bool × Buf)
  | .srv stack =>
      if s.impob = true ∧ s.sendq = none ∧ s.implhw = true then some (s.sbuffer ++ s.obuf, stack) else none
  | .uni word simp last stack =>
      if s.sendq = none ∧ last = true then some (s.sbuffer ++ wordBits word (if simp = true then 32 else 16), stack)
      else none
  | .cono odpien fino _ stack =>
      if odpien = false ∧ fino = true ∧ s.impod = true then some (s.sbuffer, stack) else none
  | _ => none

/-- The packet of a message, when its address is not in the table. -/
def held (bits : List Bool) (stack : Buf) : Option Buf :=
  if Regular bits then
    let buf := (packetOut s.dev (writeBuffer s stack bits) ethHdr).2
    if findArp s.arpTable (nextHop s (ipDst buf)) = none then some buf else none
  else none

/-- The packet that is queued with an event. -/
def unresolved (e : Event) : Option Buf := (message s e).bind fun (bits, stack) ↦ held s bits stack

/-- The tickets after an event. -/
def tickets (e : Event) (ts : List Ticket) : List Ticket :=
  match unresolved s e with
  | some buf => ⟨frame buf, nextHop s (ipDst buf), .waiting 1000⟩ :: ts.map (Ticket.next s e)
  | none => ts.map (Ticket.next s e)

end Tickets

/-! ### One event -/

section Steps

variable {s : ImpData} {free wait : List (Fin 8)}

/-- The frames that have waited. -/
def log (q : Queues) : List (List UInt8) := (q.sent.filter (·.1 = .queued)).map (·.2)

lemma log_append (q : Queues) (sent : List (Cause × List UInt8)) :
    log { q with sent := q.sent ++ sent } = log q ++ (sent.filter (·.1 = .queued)).map (·.2) := by
  rw [log, List.filter_append, List.map_append, log]

/-- A packet that has been queued. -/
def letter (buf : Buf) : Letter := ⟨frame buf, ipDst buf, 1000⟩

/-- A result that has put `new` into the send queue; the message is empty while a packet waits. -/
def Puts (s : ImpData) (wait : List (Fin 8)) (new : Option Buf) (r : Except Fault ImpData) : Prop :=
  r = .error .length ∨ ∃ s' free' wait', r = .ok s' ∧ Lists s'.toQueues free' wait'
    ∧ letters s'.toQueues wait' = new.toList.map letter ++ letters s.toQueues wait ∧ log s'.toQueues = log s.toQueues
    ∧ (wait' ≠ [] → s'.sbuffer = [])

lemma impPacketOut_puts (h : Lists s.toQueues free []) (msg : Buf) :
    Puts s [] (if findArp s.arpTable (nextHop s (ipDst (packetOut s.dev msg ethHdr).2)) = none
      then some (packetOut s.dev msg ethHdr).2 else none) ((impPacketOut s msg).map fun s ↦ { s with sbuffer := [] }) := by
  rw [impPacketOut]
  obtain ⟨m, buf⟩ := packetOut s.dev msg ethHdr
  dsimp only
  have hhop : nextHop { s with dev := { s.dev with portMap := m } } (ipDst buf) = nextHop s (ipDst buf) := rfl
  rw [hhop]
  cases hfind : findArp s.arpTable (nextHop s (ipDst buf)) with
  | some e =>
      rw [if_neg nofun]
      refine Or.inr ⟨_, free, [], rfl, ⟨h.freed, h.queued, h.all⟩, rfl, ?_, fun _ ↦ rfl⟩
      exact (log_append s.toQueues _).trans (List.append_nil _)
  | none =>
      rw [if_pos rfl]
      dsimp only
      split_ifs with hlength
      · exact Or.inl rfl
      · have hfree : free ≠ [] := by
          rintro rfl
          exact absurd h.length (by decide)
        obtain ⟨q, p, free', hqueue, hlists, hletters, hsent, -⟩ := h.queue hfree (frame buf) (ipDst buf)
        rw [hqueue]
        refine Or.inr ⟨_, free', [p], rfl, ⟨hlists.freed, hlists.queued, hlists.all⟩, hletters, ?_, fun _ ↦ rfl⟩
        refine (log_append q _).trans ?_
        rw [log, hsent]
        exact List.append_nil _

/-- A step that leaves the lists alone. -/
lemma puts_none (s' : ImpData) (h : Lists s.toQueues free wait) (hsame : s'.toQueues = s.toQueues)
    (hempty : wait ≠ [] → s'.sbuffer = []) : Puts s wait none (.ok s') :=
  Or.inr ⟨s', free, wait, rfl, hsame ▸ h, by rw [hsame]; rfl, by rw [hsame], hempty⟩

lemma sendPacket_puts (h : Lists s.toQueues free wait) (hempty : wait ≠ [] → s.sbuffer = []) (stack : Buf) :
    Puts s wait (held s s.sbuffer stack) (sendPacket s stack) := by
  rw [sendPacket, held]
  by_cases hregular : Regular s.sbuffer
  · rw [if_pos hregular, if_pos hregular]
    by_cases hshort : s.sbuffer.length / 8 < pad s.dev
    · rw [if_pos hshort]
      exact Or.inl rfl
    · have hwait : wait = [] := by
        by_contra hne
        rw [hempty hne, List.length_nil, pad] at hshort
        omega
      subst hwait
      rw [if_neg hshort]
      exact impPacketOut_puts h (writeBuffer s stack s.sbuffer)
  · rw [if_neg hregular, if_neg hregular]
    split
    · exact puts_none _ h rfl fun _ ↦ rfl
    · exact puts_none _ h rfl fun _ ↦ rfl
    · exact puts_none _ h rfl fun _ ↦ rfl

lemma Puts.map {new : Option Buf} {r : Except Fault ImpData} {f : ImpData → ImpData} (h : Puts s wait new r)
    (hsame : ∀ s', (f s').toQueues = s'.toQueues ∧ (f s').sbuffer = s'.sbuffer) : Puts s wait new (r.map f) := by
  rcases h with rfl | ⟨s', free', wait', rfl, hlists, hletters, hlog, hempty⟩
  · exact Or.inl rfl
  · obtain ⟨hqueues, hbuffer⟩ := hsame s'
    exact Or.inr ⟨f s', free', wait', rfl, hqueues ▸ hlists, hqueues ▸ hletters, hqueues ▸ hlog, hbuffer ▸ hempty⟩

/-- A word that is put into the message while no packet waits. -/
lemma putWord_puts (h : Lists s.toQueues free []) (bits : List Bool) (last : Bool) (stack : Buf) :
    Puts s [] (if last = true then held s (s.sbuffer ++ bits) stack else none) (putWord s bits last stack) := by
  rw [putWord]
  by_cases hlong : s.sbuffer.length + bits.length > 8 * ethFrameSize
  · rw [if_pos hlong]
    exact Or.inl rfl
  · rw [if_neg hlong]
    cases last
    · exact puts_none _ h rfl fun hne ↦ absurd rfl hne
    · exact sendPacket_puts (s := { s with sbuffer := s.sbuffer ++ bits }) h (fun hne ↦ absurd rfl hne) stack

lemma Lists.wait_nil (h : Lists s.toQueues free wait) (hsend : s.sendq = none) : wait = [] := by
  have hqueued := h.queued
  rw [hsend] at hqueued
  exact Links.chain_none.mp hqueued

lemma impSrv_puts (h : Lists s.toQueues free wait) (hempty : wait ≠ [] → s.sbuffer = []) (stack : Buf) :
    Puts s wait (unresolved s (.srv stack)) (impSrv s stack) := by
  rw [impSrv, unresolved, message]
  by_cases htake : s.impob = true ∧ s.sendq = none
  · obtain rfl := h.wait_nil htake.2
    have hput := putWord_puts h s.obuf s.implhw stack
    rw [if_pos htake]
    refine Puts.map ?_ fun _ ↦ ⟨rfl, rfl⟩
    by_cases hlast : s.implhw = true
    · rw [if_pos hlast] at hput
      rw [if_pos ⟨htake.1, htake.2, hlast⟩]
      exact hput
    · rw [if_neg hlast] at hput
      rw [if_neg fun hall ↦ hlast hall.2.2]
      exact hput
  · rw [if_neg htake, if_neg fun hall ↦ htake ⟨hall.1, hall.2.1⟩]
    exact puts_none _ h rfl hempty

lemma uniSrv_puts (h : Lists s.toQueues free wait) (hempty : wait ≠ [] → s.sbuffer = []) (word : BitVec 32)
    (simp last : Bool) (stack : Buf) :
    Puts s wait (unresolved s (.uni word simp last stack)) (uniSrv s word simp last stack) := by
  rw [uniSrv, unresolved, message]
  by_cases htake : s.sendq = none
  · obtain rfl := h.wait_nil htake
    have hput := putWord_puts h (wordBits word (if simp = true then 32 else 16)) last stack
    rw [if_pos htake]
    by_cases hlast : last = true
    · rw [if_pos hlast] at hput
      rw [if_pos ⟨htake, hlast⟩]
      exact hput
    · rw [if_neg hlast] at hput
      rw [if_neg fun hall ↦ hlast hall.2]
      exact hput
  · rw [if_neg htake, if_neg fun hall ↦ htake hall.1]
    exact puts_none _ h rfl hempty

lemma impCono_puts (h : Lists s.toQueues free wait) (hempty : wait ≠ [] → s.sbuffer = []) (odpien fino strout : Bool)
    (stack : Buf) :
    Puts s wait (unresolved s (.cono odpien fino strout stack)) (impCono s odpien fino strout stack) := by
  rw [impCono, unresolved, message]
  refine Puts.map ?_ fun s' ↦ ?_
  · cases odpien
    · cases fino
      · exact puts_none _ h rfl hempty
      · by_cases hod : s.impod = true
        · rw [if_pos ⟨rfl, rfl, hod⟩, if_neg Bool.false_ne_true, if_pos rfl, if_pos hod]
          exact (sendPacket_puts h hempty stack).map fun _ ↦ ⟨rfl, rfl⟩
        · rw [if_neg fun hall ↦ hod hall.2.2, if_neg Bool.false_ne_true, if_pos rfl, if_neg hod]
          exact puts_none _ h rfl hempty
    · cases fino <;> exact puts_none _ h rfl hempty
  · split_ifs <;> exact ⟨rfl, rfl⟩

/-- What becomes of a packet in the send queue, which is known by its destination. -/
def Letter.next (s : ImpData) (e : Event) (l : Letter) : Option Letter :=
  match e with
  | .timer => (tick l).kept
  | .reset => none
  | e =>
      match replied s e with
      | some (ipaddr, _) => if l.dest = ipaddr then none else some l
      | none => some l

/-- The frame that is sent of a packet with a reply. -/
def Letter.answered (s : ImpData) (e : Event) (l : Letter) : Option (List UInt8) :=
  match replied s e with
  | some (ipaddr, ethaddr) => if l.dest = ipaddr then some (address ethaddr s.mac l.packet) else none
  | none => none

lemma filterMap_unanswered {e : Event} (h : replied s e = none) (ls : List Letter) :
    ls.filterMap (Letter.answered s e) = [] :=
  List.filterMap_eq_nil_iff.mpr fun l _ ↦ by rw [Letter.answered, h]

/-- The lists after an event. -/
def Effect (s : ImpData) (wait : List (Fin 8)) (e : Event) (r : Except Fault ImpData) : Prop :=
  r = .error .length ∨ ∃ s' free' wait', r = .ok s' ∧ Lists s'.toQueues free' wait'
    ∧ (letters s'.toQueues wait').Perm
      ((unresolved s e).toList.map letter ++ (letters s.toQueues wait).filterMap (Letter.next s e))
    ∧ log s'.toQueues = log s.toQueues ++ (letters s.toQueues wait).filterMap (Letter.answered s e) ∧ (wait' ≠ [] → s'.sbuffer = [])

lemma Puts.effect {e : Event} {r : Except Fault ImpData} (h : Puts s wait (unresolved s e) r)
    (hnext : ∀ l, Letter.next s e l = some l) (hreply : replied s e = none) : Effect s wait e r := by
  rcases h with rfl | ⟨s', free', wait', rfl, hlists, hletters, hlog, hempty⟩
  · exact Or.inl rfl
  · refine Or.inr ⟨s', free', wait', rfl, hlists, ?_, ?_, hempty⟩
    · rw [hletters, funext hnext, List.filterMap_some]
    · rw [hlog, filterMap_unanswered hreply, List.append_nil]

lemma effect_none (s' : ImpData) {e : Event} (h : Lists s.toQueues free wait) (hsame : s'.toQueues = s.toQueues)
    (hempty : wait ≠ [] → s'.sbuffer = []) (hnone : unresolved s e = none) (hnext : ∀ l, Letter.next s e l = some l)
    (hreply : replied s e = none) : Effect s wait e (.ok s') :=
  Puts.effect (hnone ▸ puts_none s' h hsame hempty) hnext hreply

lemma timerTask_effect (h : Lists s.toQueues free wait) (hempty : wait ≠ [] → s.sbuffer = []) :
    Effect s wait .timer (timerTask s) := by
  obtain ⟨q, free', wait', hscan, hlists, hletters, hsent⟩ := h.scan tick
  rw [timerTask, timerQueue, hscan]
  refine Or.inr ⟨_, free', wait', rfl, hlists, hletters, ?_, fun hne ↦ hempty ?_⟩
  · have hnone : ((letters s.toQueues wait).flatMap fun l ↦ (tick l).out.map (Prod.mk Cause.queued)) = [] :=
      List.flatMap_eq_nil_iff.mpr fun l _ ↦ rfl
    rw [hnone, List.append_nil] at hsent
    refine (congrArg (fun sent ↦ (sent.filter (·.1 = .queued)).map (·.2)) hsent).trans ?_
    rw [filterMap_unanswered rfl, List.append_nil]
    rfl
  · rintro rfl
    exact hne (List.map_eq_nil_iff.mp hletters.eq_nil)

lemma deliver_kept (ipaddr : ℕ) (ethaddr mac : List UInt8) (l : Letter) :
    (deliver ipaddr ethaddr mac l).kept = if l.dest = ipaddr then none else some l := by
  rw [deliver]
  split_ifs <;> rfl

/-- The frames of a loop with a reply. -/
lemma deliver_sent (ipaddr : ℕ) (ethaddr mac : List UInt8) (ls : List Letter) :
    ((ls.flatMap fun l ↦ (deliver ipaddr ethaddr mac l).out.map (Prod.mk Cause.queued)).filter (·.1 = .queued)).map (·.2)
      = ls.filterMap fun l ↦ if l.dest = ipaddr then some (address ethaddr mac l.packet) else none := by
  induction ls with
  | nil => rfl
  | cons l ls ih =>
      rw [List.flatMap_cons, List.filter_append, List.map_append, ih, deliver]
      by_cases hdest : l.dest = ipaddr
      · rw [if_pos hdest, List.filterMap_cons, if_pos hdest]
        rfl
      · rw [if_neg hdest, List.filterMap_cons, if_neg hdest]
        rfl

lemma arpIn_effect (h : Lists s.toQueues free wait) (hempty : wait ≠ [] → s.sbuffer = []) (msg : Buf) (len : ℕ) :
    Effect s wait (.arpin msg len) (arpIn s msg len) := by
  by_cases hreply : 60 ≤ len ∧ opcode msg = arpReply ∧ dipaddr msg = s.dev.ip.toNat
  · have hreplied : replied s (.arpin msg len) = some (sipaddr msg, shwaddr msg) := if_pos hreply
    obtain ⟨q, free', wait', hscan, hlists, hletters, hsent⟩ := h.scan (deliver (sipaddr msg) (shwaddr msg) s.mac)
    have hop : ¬ (opcode msg = arpRequest ∧ dipaddr msg = s.dev.ip.toNat) := fun hrequest ↦
      absurd (hrequest.1.symm.trans hreply.2.1) (by decide)
    rw [arpIn, if_neg (Nat.not_lt.mpr hreply.1)]
    dsimp only
    rw [if_neg hop, if_pos hreply.2, replyQueue, hscan]
    have hnext : Letter.next s (.arpin msg len)
        = fun l ↦ (deliver (sipaddr msg) (shwaddr msg) s.mac l).kept := by
      funext l
      rw [deliver_kept, Letter.next, hreplied] <;> nofun
    refine Or.inr ⟨_, free', wait', rfl, hlists, ?_, ?_, fun hne ↦ hempty ?_⟩
    · rw [hnext]
      exact hletters
    · have hanswered : Letter.answered s (.arpin msg len)
          = fun l ↦ if l.dest = sipaddr msg then some (address (shwaddr msg) s.mac l.packet) else none := by
        funext l
        rw [Letter.answered, hreplied]
      rw [log, hsent, List.filter_append, List.map_append, deliver_sent, hanswered]
      rfl
    · rintro rfl
      exact hne (List.map_eq_nil_iff.mp hletters.eq_nil)
  · have hreplied : replied s (.arpin msg len) = none := if_neg hreply
    have hnext : ∀ l, Letter.next s (.arpin msg len) l = some l := by
      intro l
      rw [Letter.next, hreplied] <;> nofun
    by_cases hlen : len < 60
    · rw [arpIn, if_pos hlen]
      exact effect_none _ h rfl hempty rfl hnext hreplied
    rw [arpIn, if_neg hlen]
    dsimp only
    by_cases hrequest : opcode msg = arpRequest ∧ dipaddr msg = s.dev.ip.toNat
    · rw [if_pos hrequest]
      refine Or.inr ⟨_, free, wait, rfl, ⟨h.freed, h.queued, h.all⟩, ?_, ?_, hempty⟩
      · rw [funext hnext, List.filterMap_some]
        exact List.Perm.refl _
      · rw [filterMap_unanswered hreplied]
        exact log_append s.toQueues _
    · rw [if_neg hrequest, if_neg fun hboth ↦ hreply ⟨Nat.not_lt.mp hlen, hboth⟩]
      exact effect_none _ h rfl hempty rfl hnext hreplied

lemma reset_effect (s : ImpData) (wait : List (Fin 8)) : Effect s wait .reset (.ok (impReset s)) := by
  refine Or.inr ⟨impReset s, _, [], rfl, reset_lists s.toQueues, ?_, ?_, fun hne ↦ absurd rfl hne⟩
  · have hnone : (letters s.toQueues wait).filterMap (Letter.next s .reset) = [] :=
      List.filterMap_eq_nil_iff.mpr fun l _ ↦ rfl
    rw [hnone]
    exact List.Perm.refl _
  · rw [filterMap_unanswered rfl, List.append_nil]
    rfl

/-- **Every event keeps the lists**, whatever is queued and whoever replies. -/
theorem step_effect (h : Lists s.toQueues free wait) (hempty : wait ≠ [] → s.sbuffer = []) (e : Event) :
    Effect s wait e (step s e) := by
  cases e with
  | datao word o32 => exact effect_none _ h rfl hempty rfl (fun _ ↦ rfl) rfl
  | cono odpien fino strout stack =>
      exact (impCono_puts h hempty odpien fino strout stack).effect (fun _ ↦ rfl) rfl
  | mit odc ods lhw =>
      cases odc <;> cases ods <;> cases lhw <;> exact effect_none _ h rfl hempty rfl (fun _ ↦ rfl) rfl
  | srv stack => exact (impSrv_puts h hempty stack).effect (fun _ ↦ rfl) rfl
  | uni word simp last stack => exact (uniSrv_puts h hempty word simp last stack).effect (fun _ ↦ rfl) rfl
  | arpin msg len => exact arpIn_effect h hempty msg len
  | update ipaddr ethaddr age => exact effect_none _ h rfl hempty rfl (fun _ ↦ rfl) rfl
  | age => exact effect_none _ h rfl hempty rfl (fun _ ↦ rfl) rfl
  | timer => exact timerTask_effect h hempty
  | configure ip ipMask gwip => exact effect_none _ h rfl hempty rfl (fun _ ↦ rfl) rfl
  | reset => exact reset_effect s wait

end Steps

/-! ### Runs -/

section Runs

variable {s s' : ImpData} {e : Event} {t : Ticket} {ts : List Ticket}

/-- A ticket that waits as a packet of the send queue, and the frame of one that has been sent. -/
def Ticket.letter (t : Ticket) : Option Letter :=
  match t.fate with
  | .waiting life => some ⟨t.frame, t.hop, life⟩
  | _ => none
def Ticket.out (t : Ticket) : Option (List UInt8) :=
  match t.fate with
  | .sent frame => some frame
  | _ => none

/-- A ticket and its packet go on alike. -/
lemma next_letter (s : ImpData) (e : Event) (t : Ticket) :
    (t.next s e).letter = t.letter.bind (Letter.next s e) := by
  obtain ⟨frame, hop, fate⟩ := t
  cases fate with
  | waiting life =>
      cases e with
      | arpin msg len =>
          show _ = Letter.next s (.arpin msg len) ⟨frame, hop, life⟩
          simp only [Ticket.next, Letter.next]
          cases replied s (.arpin msg len) with
          | none => rfl
          | some reply =>
              dsimp only
              split_ifs <;> rfl
      | timer =>
          show _ = (tick ⟨frame, hop, life⟩).kept
          simp only [Ticket.next, tick, Visit.kept, decide_eq_true_eq]
          split_ifs <;> rfl
      | _ => rfl
  | sent f => rfl
  | freed => rfl

lemma next_out (s : ImpData) (e : Event) (t : Ticket) :
    (t.next s e).out = t.out.or (t.letter.bind (Letter.answered s e)) := by
  obtain ⟨frame, hop, fate⟩ := t
  cases fate with
  | waiting life =>
      cases e with
      | arpin msg len =>
          show _ = Letter.answered s (.arpin msg len) ⟨frame, hop, life⟩
          simp only [Ticket.next, Letter.answered]
          cases replied s (.arpin msg len) with
          | none => rfl
          | some reply =>
              dsimp only
              split_ifs <;> rfl
      | timer =>
          simp only [Ticket.next]
          split_ifs <;> rfl
      | _ => rfl
  | sent f => rfl
  | freed => rfl

/-- The frames that have been sent before an event, and those that are sent with it. -/
lemma out_perm (s : ImpData) (e : Event) (ts : List Ticket) : ((ts.map (Ticket.next s e)).filterMap Ticket.out).Perm
    (ts.filterMap Ticket.out ++ (ts.filterMap Ticket.letter).filterMap (Letter.answered s e)) := by
  induction ts with
  | nil => exact List.Perm.refl _
  | cons t ts ih =>
      rw [List.map_cons, List.filterMap_cons, next_out]
      obtain ⟨frame, hop, fate⟩ := t
      cases fate with
      | waiting life =>
          have hout : Ticket.out ⟨frame, hop, .waiting life⟩ = none := rfl
          have hletter : Ticket.letter ⟨frame, hop, .waiting life⟩ = some ⟨frame, hop, life⟩ := rfl
          rw [hletter, hout, Option.none_or, Option.bind_some, List.filterMap_cons_none hout,
            List.filterMap_cons_some hletter, List.filterMap_cons]
          cases Letter.answered s e ⟨frame, hop, life⟩ with
          | none => exact ih
          | some f => exact (ih.cons f).trans List.perm_middle.symm
      | sent f => exact ih.cons f
      | freed => exact ih

/-- A packet that is queued waits for its own destination. -/
def Direct (s : ImpData) (e : Event) : Prop := ∀ buf, unresolved s e = some buf → nextHop s (ipDst buf) = ipDst buf

/-- The buffers are on the lists, once each; the packets of the send queue are those that wait, and those that have
been sent have been sent once. -/
def Told (s : ImpData) (ts : List Ticket) : Prop :=
  ∃ free wait, Lists s.toQueues free wait ∧ (letters s.toQueues wait).Perm (ts.filterMap Ticket.letter)
    ∧ (log s.toQueues).Perm (ts.filterMap Ticket.out) ∧ (wait ≠ [] → s.sbuffer = [])

lemma Told.step (h : Told s ts) (hok : Direct s e) (hstep : step s e = .ok s') : Told s' (tickets s e ts) := by
  obtain ⟨free, wait, hlists, hletters, hlog, hempty⟩ := h
  rcases step_effect hlists hempty e with hfault | ⟨s'', free', wait', hstep', hlists', hletters', hlog', hempty'⟩
  · rw [hstep] at hfault
    exact absurd hfault nofun
  · rw [hstep] at hstep'
    obtain rfl := Except.ok.inj hstep'
    have hold : ((letters s.toQueues wait).filterMap (Letter.next s e)).Perm
        ((ts.map (Ticket.next s e)).filterMap Ticket.letter) := by
      refine (hletters.filterMap _).trans (List.Perm.of_eq ?_)
      rw [List.filterMap_filterMap, List.filterMap_map]
      exact congrArg (List.filterMap · ts) (funext fun t ↦ (next_letter s e t).symm)
    have hsent : (log s'.toQueues).Perm ((ts.map (Ticket.next s e)).filterMap Ticket.out) := by
      rw [hlog']
      exact (hlog.append (hletters.filterMap _)).trans (out_perm s e ts).symm
    refine ⟨free', wait', hlists', hletters'.trans ?_, ?_, hempty'⟩
    · rw [tickets]
      cases hqueued : unresolved s e with
      | none => exact hold
      | some buf =>
          have hletter : letter buf = ⟨frame buf, nextHop s (ipDst buf), 1000⟩ := by rw [hok buf hqueued, letter]
          rw [Option.toList_some, List.map_singleton, List.singleton_append, hletter]
          exact hold.cons _
    · rw [tickets]
      cases unresolved s e with
      | none => exact hsent
      | some buf => exact hsent

/-- The interface and the tickets after an event. -/
def follow (x : ImpData × List Ticket) (e : Event) : Option (ImpData × List Ticket) :=
  (step x.1 e).toOption.map fun s ↦ (s, tickets x.1 e x.2)

lemma follow_some {x y : ImpData × List Ticket} (h : follow x e = some y) :
    step x.1 e = .ok y.1 ∧ y.2 = tickets x.1 e x.2 := by
  rw [follow] at h
  cases hstep : step x.1 e with
  | error fault =>
      rw [hstep] at h
      exact absurd h nofun
  | ok s =>
      rw [hstep] at h
      obtain rfl := Option.some.inj h
      exact ⟨rfl, rfl⟩

/-- The buffers are on the lists, once each, and no step finds a list empty or without an end. -/
theorem lists_kept {s₀ : ImpData} {x : ImpData × List Ticket}
    (h : Reaches (ofPartial follow) anyStep (impReset s₀, []) x) :
    ∃ free wait, Lists x.1.toQueues free wait ∧ (wait ≠ [] → x.1.sbuffer = []) := by
  refine h.invariant (I := fun x : ImpData × List Ticket ↦
    ∃ free wait, Lists x.1.toQueues free wait ∧ (wait ≠ [] → x.1.sbuffer = [])) ?_ ?_
  · exact ⟨_, [], reset_lists s₀.toQueues, fun hne ↦ absurd rfl hne⟩
  rintro x e y ⟨free, wait, hlists, hempty⟩ - hfollow
  rcases step_effect hlists hempty e with hfault | ⟨s', free', wait', hstep, hlists', -, -, hempty'⟩
  · exact absurd (hfault.symm.trans (follow_some hfollow).1) nofun
  · rw [Except.ok.inj ((follow_some hfollow).1.symm.trans hstep)]
    exact ⟨free', wait', hlists', hempty'⟩

/-- **The send queue.** In every run in which the packets that are queued are for a destination on our own subnet, or
for the gateway itself, the buffers are on the two lists, once each; the packets that wait are those of the send queue,
every one whose reply has come has been sent once, and the others are on the free list. No step takes a buffer that is
not there, or goes through a list without an end. -/
theorem send_queue_kept {s₀ : ImpData} (h₀ : log s₀.toQueues = []) {x : ImpData × List Ticket}
    (h : Reaches (ofPartial follow) (fun x e ↦ Direct x.1 e) (impReset s₀, []) x) :
    Told x.1 x.2 ∧ ∀ e, step x.1 e = .error .length ∨ ∃ s', step x.1 e = .ok s' := by
  have htold : Told x.1 x.2 := by
    refine h.invariant (I := fun x ↦ Told x.1 x.2) ?_ ?_
    · refine ⟨_, [], reset_lists s₀.toQueues, List.Perm.refl _, ?_, fun hne ↦ absurd rfl hne⟩
      exact List.Perm.of_eq h₀
    · intro x e y hx hok hfollow
      obtain ⟨hstep, hy⟩ := follow_some hfollow
      rw [hy]
      exact hx.step hok hstep
  refine ⟨htold, fun e ↦ ?_⟩
  obtain ⟨free, wait, hlists, -, -, hempty⟩ := htold
  exact (step_effect hlists hempty e).imp_right fun ⟨s', _, _, hstep, _⟩ ↦ ⟨s', hstep⟩

/-- An interface with the address 10.0.0.2 and the gateway 10.0.0.1. -/
def idle (ipMask : ℕ) : ImpData where
  buffer _ := { packet := [], dest := 0, life := 0, next := none }
  sendq := none
  freeq := none
  rfnmCount := 0
  sent := []
  dev := { ip := 0x0a000002, hostip := 0, portMap := fun _ ↦ ⟨0, 0, 0, 0, 0⟩, padding := 0, initState := 6, rbuffer := fun _ ↦ 0 }
  mac := [2, 0, 0, 0, 0, 1]
  ipMask := ipMask
  gwip := 0x0a000001
  arpTable _ := ⟨0, [], 0⟩
  impob := false
  implhw := false
  impod := false
  obuf := []
  sbuffer := []

/-- A packet to 8.8.8.8, word by word, and the last word. -/
def firstWords : List Event :=
  [0, 0, 0, 0x45000014, 0, 0, 0x0a000002].map fun word ↦ .uni word true false fun _ ↦ 0
def lastWord : Event := .uni 0x08080808 true true fun _ ↦ 0

/-- A reply of an address. -/
def reply (ipaddr : List UInt8) : Event :=
  .arpin (fun i ↦ (List.replicate 20 0 ++ [0, 2] ++ [2, 0, 0, 0, 0, 9] ++ ipaddr ++ List.replicate 6 0 ++ [10, 0, 0, 2]).getD i 0) 60

/-- A run of an interface from its reset on. -/
def replay (s : ImpData) (es : List Event) : Option (ImpData × List Ticket) := es.foldlM follow (impReset s, [])

lemma direct_first {e : Event} (he : e ∈ firstWords) (s : ImpData) : Direct s e := by
  obtain ⟨word, -, rfl⟩ := List.mem_map.mp he
  intro buf hbuf
  rw [unresolved, message, if_neg fun hall ↦ Bool.false_ne_true hall.2] at hbuf
  exact absurd hbuf nofun

lemma direct_mask (h : s.ipMask = 0) (e : Event) : Direct s e := by
  intro buf _
  rw [nextHop, h, Nat.and_zero, Nat.and_zero]
  exact if_neg fun hne ↦ hne rfl

lemma direct_arpin (s : ImpData) (msg : Buf) (len : ℕ) : Direct s (.arpin msg len) := fun _ hbuf ↦ absurd hbuf nofun

theorem one_sent : ∃ x : ImpData × List Ticket, Told x.1 x.2 ∧ log x.1.toQueues ≠ [] := by
  obtain ⟨x, hx⟩ := Option.isSome_iff_exists.mp
    (by decide +kernel : (replay (idle 0) (firstWords ++ [lastWord, reply [8, 8, 8, 8]])).isSome)
  have hlog : (replay (idle 0) (firstWords ++ [lastWord, reply [8, 8, 8, 8]])).map (fun x ↦ (log x.1.toQueues).length)
      = some 1 := by decide +kernel
  have hmask : (replay (idle 0) firstWords).map (fun x ↦ x.1.ipMask) = some 0 := by decide +kernel
  rw [hx, Option.map_some, Option.some.injEq] at hlog
  rw [replay, List.foldlM_append, Option.bind_eq_bind, Option.bind_eq_some_iff] at hx
  obtain ⟨y, hy, hx⟩ := hx
  rw [replay, hy, Option.map_some, Option.some.injEq] at hmask
  rw [List.foldlM_cons, Option.bind_eq_bind, Option.bind_eq_some_iff] at hx
  obtain ⟨z, hz, hx⟩ := hx
  rw [List.foldlM_cons, Option.bind_eq_bind, Option.bind_eq_some_iff] at hx
  obtain ⟨x', hx', hx⟩ := hx
  obtain rfl := Option.some.inj (hx : some x' = some x)
  have hfirst : Reaches (ofPartial follow) (fun x e ↦ Direct x.1 e) (impReset (idle 0), []) y :=
    Reaches.foldlM (fun e he x ↦ direct_first he x.1) hy
  have hlast := hfirst.next (direct_mask hmask lastWord) hz
  have hreply := hlast.next (direct_arpin z.1 _ _) hx'
  have hnone : log (idle 0).toQueues = [] := rfl
  refine ⟨x', (send_queue_kept hnone hreply).1, ?_⟩
  rw [← List.length_pos_iff, hlog]
  exact Nat.one_pos

/-- The gateway has replied, and the packet that waits for it is still in the send queue: it has not been sent. -/
theorem gateway_unheard : ∃ x, Reaches (ofPartial follow) anyStep (impReset (idle 0xffffff00), []) x
    ∧ x.2.filterMap Ticket.letter = [] ∧ (x.2.filterMap Ticket.out).length = 1
    ∧ log x.1.toQueues = [] ∧ x.1.sendq ≠ none := by
  obtain ⟨x, hx⟩ := Option.isSome_iff_exists.mp
    (by decide +kernel : (replay (idle 0xffffff00) (firstWords ++ [lastWord, reply [10, 0, 0, 1]])).isSome)
  have hfacts : (replay (idle 0xffffff00) (firstWords ++ [lastWord, reply [10, 0, 0, 1]])).map (fun x ↦
      ((x.2.filterMap Ticket.letter).length, (x.2.filterMap Ticket.out).length, log x.1.toQueues, x.1.sendq))
      = some (0, 1, [], some 7) := by decide +kernel
  rw [hx, Option.map_some, Option.some.injEq, Prod.mk.injEq, Prod.mk.injEq, Prod.mk.injEq] at hfacts
  obtain ⟨hletters, hout, hlog, hsendq⟩ := hfacts
  refine ⟨x, Reaches.foldlM (fun _ _ _ ↦ trivial) hx, List.length_eq_zero_iff.mp hletters, hout, hlog, ?_⟩
  rw [hsendq]
  exact nofun

end Runs

end Ka10Simh.Imp.SendQueue
