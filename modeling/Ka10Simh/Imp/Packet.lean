import Ka10Simh.Imp.Checksum

/-!
Packets between the host and the network.

The host has an address of its own, `hostip`, and the network knows it by another one, `ip`. `imp_packet_in`
replaces the destination and `imp_packet_out` the source, with the checksums; FTP commands with an address in
them are rewritten, and the table `port_map` has by how much the sequence numbers of a connection are moved by
that.

* `ImpDevice`, `PortMap`: the interface and the entries of the table.
* `packetIn`, `packetOut`: the two functions, but for the resolution of addresses.
-/

namespace Ka10Simh.Imp

open OnesComplement

/-- A buffer. -/
abbrev Buf := ℕ → UInt8

/-- A word of 32 bits at a place of a buffer. -/
def get32 (buf : Buf) (i : ℕ) : ℕ := get16 buf i * 65536 + get16 buf (i + 2)
def put32 (buf : Buf) (i v : ℕ) : Buf := put16 (put16 buf i (v / 65536)) (i + 2) (v % 65536)

/-- The bytes of a word of 16 and of 32 bits. -/
def bytes16 (v : ℕ) : List UInt8 := [UInt8.ofNat (v / 256), UInt8.ofNat v]
def bytes32 (v : ℕ) : List UInt8 := bytes16 (v / 65536) ++ bytes16 (v % 65536)

/-- A string copied into a buffer. -/
def putBytes (buf : Buf) (i : ℕ) (s : List UInt8) : Buf :=
  fun j => if i ≤ j ∧ j < i + s.length then s.getD (j - i) 0 else buf j

/-- An entry of `port_map`. -/
structure PortMap where
  sport : ℕ
  dport : ℕ
  clsTim : ℕ
  adj : ℕ
  lseq : ℕ
  deriving DecidableEq

/-- The interface. -/
structure ImpDevice where
  ip : UInt32
  hostip : UInt32
  portMap : ℕ → PortMap
  padding : ℕ
  initState : ℕ
  rbuffer : Buf

/-! ### Headers -/

section Headers

variable (buf : Buf) (b : ℕ)

/-- `hl`: the length of the IP header at a place. -/
def hl : ℕ := (buf b).toNat % 16 * 4

/-- `ip_len`, `ip_p`. -/
def ipLen : ℕ := get16 buf (b + 2)
def proto : ℕ := (buf (b + 9)).toNat

/-- `payload`, the place of the transport header. -/
def payload : ℕ := b + hl buf b

end Headers

/-- `TCP_PROTO`, `UDP_PROTO`, `ICMP_PROTO`. -/
abbrev tcpProto : ℕ := 6
abbrev udpProto : ℕ := 17
abbrev icmpProto : ℕ := 1
/-- `TCP_FL_FIN`, `TCP_FL_SYN`, `TCP_FL_ACK`. -/
abbrev tcpFin : ℕ := 0x01
abbrev tcpSyn : ℕ := 0x02
abbrev tcpAck : ℕ := 0x10
/-- `sizeof(struct imp_eth_hdr)`. -/
abbrev ethHdr : ℕ := 14

/-! ### Checksums in a packet -/

/-- A checksum in a buffer, adjusted. -/
def adjust (buf : Buf) (chksum : ℕ) (old new : List UInt8) : Buf :=
  put16 buf chksum (checksumadjust (get16 buf chksum) old new)

/-- A word of 32 bits replaced, with the checksum. -/
def replace (buf : Buf) (chksum i v : ℕ) : Buf := put32 (adjust buf chksum (bytes buf i 4) (bytes32 v)) i v

/-- The part for UDP of both directions, with the address that is put in. -/
def udpAdjust (buf : Buf) (b addr : ℕ) : Buf :=
  adjust buf (payload buf b + 6) (bytes buf (b + 12) 4) (bytes32 addr)

/-- The part for ICMP. -/
def icmpAdjust (buf : Buf) (b addr : ℕ) : Buf :=
  if buf (payload buf b) ≠ 0 ∧ buf (payload buf b) ≠ 8 then
    adjust buf (payload buf b + 2) (bytes buf (b + 12) 4) (bytes32 addr)
  else buf

/-! ### The table -/

/-- The entry of a pair of ports. -/
def findPort (m : ℕ → PortMap) (sport dport : ℕ) : Option ℕ :=
  (List.range 64).find? fun n => (m n).sport = sport ∧ (m n).dport = dport

/-- The loop that looks for the entry that is to be updated. -/
def slotLoop (m : ℕ → PortMap) (sport dport : ℕ) : List ℕ → Option ℕ → Option ℕ
  | [], n => n
  | i :: is, n =>
      if (m i).sport = sport ∧ (m i).dport = dport then some i
      else slotLoop m sport dport is (if n = none ∧ (m i).dport = 0 then some 0 else n)

/-- A change of the length of a segment put into the table. -/
def recordPort (m : ℕ → PortMap) (sport dport : ℕ) (change : ℤ) (seq : ℕ) : ℕ → PortMap :=
  match slotLoop m sport dport (List.range 64) none with
  | none => m
  | some n =>
      Function.update m n
        { dport, sport, adj := (((m n).adj + change) % 2 ^ 32).toNat, clsTim := 0, lseq := seq }

/-- The entry of the connection of a segment: cleared when the connection is set up, and otherwise used for the
sequence number at `i`; to be closed after the last segment. -/
def usePort (m : ℕ → PortMap) (buf : Buf) (tcp sport dport i : ℕ) (move : ℕ → ℕ → ℕ) : (ℕ → PortMap) × Buf :=
  match findPort m sport dport with
  | none => (m, buf)
  | some n =>
      let flags := get16 buf (tcp + 12)
      let (m, buf) :=
        if flags &&& tcpSyn ≠ 0 then (Function.update m n { m n with sport := 0, dport := 0, adj := 0 }, buf)
        else if get32 buf i > (m n).lseq then (m, replace buf (tcp + 16) i (move (get32 buf i) (m n).adj))
        else (m, buf)
      if flags &&& tcpFin ≠ 0 then (Function.update m n { m n with clsTim := 100 }, buf) else (m, buf)

/-! ### FTP commands -/

/-- `"PORT "`. -/
def portText : List UInt8 := [80, 79, 82, 84, 32]

/-- What `%d` prints. -/
def decimal (n : ℕ) : List UInt8 := (Nat.toDigits 10 n).map fun c => UInt8.ofNat c.toNat

/-- The number of characters up to the fourth comma. -/
def commas : List UInt8 → ℕ → ℕ
  | [], _ => 0
  | c :: l, n => if n < 4 then 1 + commas l (if c = 44 then n + 1 else n) else 0

/-- The command with another address. -/
def portCommand (nip : ℕ) (l : List UInt8) : List UInt8 :=
  portText ++ decimal (nip / 2 ^ 24 % 256) ++ [44] ++ decimal (nip / 2 ^ 16 % 256) ++ [44]
    ++ decimal (nip / 2 ^ 8 % 256) ++ [44] ++ decimal (nip % 256) ++ [44] ++ l.drop (commas l 0)

/-- A command rewritten: the text at `text`, the table, the length and both checksums. `l` is the length of the
text, and `addrs` has the addresses of the pseudo header. -/
def ftpPort (m : ℕ → PortMap) (buf : Buf) (b text thl sport dport : ℕ) (l : ℤ) (nip : ℕ)
    (addrs : Buf → List UInt8) : (ℕ → PortMap) × Buf :=
  let tcp := payload buf b
  let hl := hl buf b
  let cmd := portCommand nip (bytes buf text l.toNat)
  let nlen := cmd.length
  let buf := putBytes buf text cmd
  let m :=
    if (nlen : ℤ) ≠ l ∧ get16 buf (tcp + 12) &&& tcpSyn = 0 then
      recordPort m sport dport (nlen - l) (get32 buf (tcp + 4))
    else m
  let buf := put16 buf (tcp + 16) 0
  let buf := put16 buf (b + 2) (nlen + thl + hl)
  let buf := put16 buf (tcp + 16) (ipChecksum (bytes buf tcp (nlen + thl)))
  let buf := adjust buf (tcp + 16) [] (addrs buf ++ [0, 6] ++ bytes16 (nlen + thl))
  let buf := put16 buf (b + 10) 0
  (m, put16 buf (b + 10) (ipChecksum (bytes buf b 20)))

/-! ### To the host -/

/-- `thl`: the length of the TCP header. -/
def thl (buf : Buf) (b : ℕ) : ℕ := get16 buf (payload buf b + 12) / 2 ^ 12 % 16 * 4

/-- The part of `imp_packet_in` for TCP, up to the text. -/
def ackIn (imp : ImpDevice) (buf : Buf) (b : ℕ) : (ℕ → PortMap) × Buf :=
  let tcp := payload buf b
  let sport := get16 buf tcp
  let dport := get16 buf (tcp + 2)
  let buf := adjust buf (tcp + 16) (bytes buf (b + 16) 4) (bytes32 imp.hostip.toNat)
  if get16 buf (tcp + 12) &&& tcpAck ≠ 0 then
    usePort imp.portMap buf tcp sport dport (tcp + 8) fun ack adj => (ack + 2 ^ 32 - adj) % 2 ^ 32
  else (imp.portMap, buf)

/-- The place of the text, which is not counted from the packet. -/
def textIn (buf : Buf) (b : ℕ) : ℕ := ethHdr + hl buf b + thl buf b

/-- The text of a segment from the server is a command that is rewritten. -/
def FtpIn (imp : ImpDevice) (buf : Buf) (b : ℕ) : Prop :=
  get16 buf (payload buf b) = 21 ∧ bytes (ackIn imp buf b).2 (textIn buf b) 5 = portText

instance (imp : ImpDevice) (buf : Buf) (b : ℕ) : Decidable (FtpIn imp buf b) := inferInstanceAs (Decidable (_ ∧ _))

/-- The part of `imp_packet_in` for TCP. -/
def tcpIn (imp : ImpDevice) (buf : Buf) (b : ℕ) : (ℕ → PortMap) × Buf :=
  let (m, moved) := ackIn imp buf b
  if FtpIn imp buf b then
    let l : ℤ := ipLen moved b - thl buf b - hl buf b
    ftpPort m moved b (textIn buf b) (thl buf b) (get16 buf (payload buf b)) (get16 buf (payload buf b + 2))
      (if l > 1500 then 1500 else l) imp.hostip.toNat fun buf => bytes buf (b + 12) 4 ++ bytes32 imp.hostip.toNat
  else (m, moved)

/-- The part of `imp_packet_in` that replaces the destination, of the packet at `b`; none for DHCP. -/
def translateIn (imp : ImpDevice) (buf : Buf) (b : ℕ) : Option ((ℕ → PortMap) × Buf) :=
  let host := imp.hostip.toNat
  if get32 buf (b + 16) = imp.ip.toNat ∧ host ≠ 0 then
    let done (r : (ℕ → PortMap) × Buf) := some (r.1, replace r.2 (b + 10) (b + 16) host)
    if proto buf b = tcpProto then done (tcpIn imp buf b)
    else if proto buf b = udpProto then
      if get16 buf (payload buf b + 2) = 68 ∧ get16 buf (payload buf b) = 67 then none
      else done (imp.portMap, udpAdjust buf b host)
    else if proto buf b = icmpProto then done (imp.portMap, icmpAdjust buf b host)
    else done (imp.portMap, buf)
  else some (imp.portMap, buf)

/-- `pad`: the place of the packet in `rbuffer`. -/
def pad (imp : ImpDevice) : ℕ := 12 + imp.padding / 8

/-- `rbuffer` with a leader and the frame that has been read. -/
def received (imp : ImpDevice) (msg : Buf) (len : ℕ) : Buf :=
  let leader : Buf := fun i =>
    if i < 256 then
      if i = 0 then 0xf else if i = 7 then 14 else if i = 8 then 0x9b else if i = 19 then 0x80
      else if i = 21 then 0x30 else 0
    else imp.rbuffer i
  fun i => if pad imp ≤ i ∧ i < pad imp + len then msg (ethHdr + (i - pad imp)) else leader i

/-- The leader of a packet of `n` bytes that goes to the host. -/
def leaderFor (buf : Buf) (b n : ℕ) : Buf :=
  let src := get32 buf (b + 12)
  let buf := Function.update buf 1 0
  let buf := Function.update buf 5 (UInt8.ofNat src)
  let buf := Function.update buf 6 (UInt8.ofNat (src / 2 ^ 16))
  let buf := Function.update buf 7 (UInt8.ofNat (src / 2 ^ 8))
  put16 buf 10 n

/-- `imp_packet_in` with a frame that has an IP packet: the interface with the packet for the host in `rbuffer`,
and the number of bytes for the host, if there are any. `mine` says that the frame has been sent to the hardware
address of the interface. -/
def packetIn (imp : ImpDevice) (msg : Buf) (len : ℕ) (mine : Bool) : ImpDevice × Option ℕ :=
  let dst := get32 msg (ethHdr + 16)
  let udp := payload msg ethHdr
  if (dst = 0xffffffff ∨ mine = true) ∧ proto msg ethHdr = udpProto ∧ get16 msg (udp + 2) = 68 ∧ get16 msg udp = 67 then
    (imp, none)
  else if dst = imp.ip.toNat ∨ dst = 0 then
    match translateIn imp (received imp msg len) (pad imp) with
    | none => ({ imp with rbuffer := received imp msg len }, none)
    | some (m, buf) =>
        let n := pad imp + ipLen buf (pad imp)
        if imp.initState ≥ 6 then
          ({ imp with portMap := m, rbuffer := leaderFor buf (pad imp) n }, some n)
        else ({ imp with portMap := m, rbuffer := buf }, none)
  else (imp, none)

/-! ### From the host -/

/-- The part of `imp_packet_out` for TCP, up to the text. -/
def seqOut (imp : ImpDevice) (buf : Buf) (b : ℕ) : (ℕ → PortMap) × Buf :=
  let tcp := payload buf b
  let sport := get16 buf tcp
  let dport := get16 buf (tcp + 2)
  let buf := adjust buf (tcp + 16) (bytes buf (b + 12) 4) (bytes32 imp.ip.toNat)
  usePort imp.portMap buf tcp sport dport (tcp + 4) fun seq adj => (seq + adj) % 2 ^ 32

/-- The place of the text. -/
def textOut (buf : Buf) (b : ℕ) : ℕ := payload buf b + thl buf b

/-- The text of a segment to the server is a command that is rewritten. -/
def FtpOut (imp : ImpDevice) (buf : Buf) (b : ℕ) : Prop :=
  get16 buf (payload buf b + 2) = 21 ∧ bytes (seqOut imp buf b).2 (textOut buf b) 5 = portText

instance (imp : ImpDevice) (buf : Buf) (b : ℕ) : Decidable (FtpOut imp buf b) := inferInstanceAs (Decidable (_ ∧ _))

/-- The part of `imp_packet_out` for TCP. -/
def tcpOut (imp : ImpDevice) (buf : Buf) (b : ℕ) : (ℕ → PortMap) × Buf :=
  let (m, moved) := seqOut imp buf b
  if FtpOut imp buf b then
    ftpPort m moved b (textOut buf b) (thl buf b) (get16 buf (payload buf b)) (get16 buf (payload buf b + 2))
      (ipLen moved b - thl buf b - hl buf b) imp.ip.toNat fun buf => bytes32 imp.ip.toNat ++ bytes buf (b + 16) 4
  else (m, moved)

/-- `imp_packet_out`, up to the resolution of the address: the packet at `b` that is sent. -/
def packetOut (imp : ImpDevice) (buf : Buf) (b : ℕ) : (ℕ → PortMap) × Buf :=
  let ip := imp.ip.toNat
  if imp.hostip.toNat ≠ 0 then
    let (m, buf) :=
      if proto buf b = tcpProto then tcpOut imp buf b
      else if proto buf b = udpProto then (imp.portMap, udpAdjust buf b ip)
      else if proto buf b = icmpProto then (imp.portMap, icmpAdjust buf b ip)
      else (imp.portMap, buf)
    (m, replace buf (b + 10) (b + 12) ip)
  else (imp.portMap, buf)

end Ka10Simh.Imp
