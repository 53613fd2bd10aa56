import Ka10Simh.Imp.Packet

/-!
Checksums of the packets whose addresses are replaced.

* `Valid`: the checksums of a packet.
* `replace_total`: a word that is replaced with the checksum.
* `packetOut_valid_iff`, `packetIn_valid_iff`: where they are right after the replacement.
-/

namespace Ka10Simh.Imp

open OnesComplement

variable {buf : Buf} {b : ℕ}

/-! ### Valid packets -/

/-- The length of the transport part, and that in the header of UDP. -/
def segLen (buf : Buf) (b : ℕ) : ℕ := ipLen buf b - hl buf b
def udpLen (buf : Buf) (b : ℕ) : ℕ := get16 buf (payload buf b + 4)

/-- The pseudo header. -/
def pseudo (buf : Buf) (b n : ℕ) : List UInt8 := bytes buf (b + 12) 8 ++ [0, buf (b + 9)] ++ bytes16 n

/-- The transport checksum, by protocol. -/
def TransportValid (buf : Buf) (b : ℕ) : Prop :=
  if proto buf b = tcpProto then
    ipChecksum (pseudo buf b (segLen buf b) ++ bytes buf (payload buf b) (segLen buf b)) = 0
  else if proto buf b = udpProto then
    ipChecksum (pseudo buf b (udpLen buf b) ++ bytes buf (payload buf b) (udpLen buf b)) = 0
  else if proto buf b = icmpProto then ipChecksum (bytes buf (payload buf b) (segLen buf b)) = 0
  else True

/-- A packet with right checksums. -/
structure Valid (buf : Buf) (b : ℕ) : Prop where
  header : ipChecksum (bytes buf b (hl buf b)) = 0
  transport : TransportValid buf b

instance (l : List UInt8) : Decidable (ipChecksum l = 0) := decidable_of_iff _ (ipChecksum_eq_zero_iff l).symm

instance (buf : Buf) (b : ℕ) : Decidable (TransportValid buf b) :=
  inferInstanceAs (Decidable (if proto buf b = tcpProto then
      ipChecksum (pseudo buf b (segLen buf b) ++ bytes buf (payload buf b) (segLen buf b)) = 0
    else if proto buf b = udpProto then
      ipChecksum (pseudo buf b (udpLen buf b) ++ bytes buf (payload buf b) (udpLen buf b)) = 0
    else if proto buf b = icmpProto then ipChecksum (bytes buf (payload buf b) (segLen buf b)) = 0
    else True))

instance (buf : Buf) (b : ℕ) : Decidable (Valid buf b) :=
  decidable_of_iff (ipChecksum (bytes buf b (hl buf b)) = 0 ∧ TransportValid buf b)
    ⟨fun h => ⟨h.1, h.2⟩, fun h => ⟨h.header, h.transport⟩⟩

/-- A packet of version 4 that has its headers. -/
structure Ipv4 (buf : Buf) (b : ℕ) : Prop where
  version : (buf b).toNat / 16 = 4
  hl_ge : 20 ≤ hl buf b
  len : hl buf b ≤ ipLen buf b
  tcp : proto buf b = tcpProto → hl buf b + 20 ≤ ipLen buf b
  udp : proto buf b = udpProto → 8 ≤ udpLen buf b ∧ hl buf b + udpLen buf b ≤ ipLen buf b
  icmp : proto buf b = icmpProto → hl buf b + 8 ≤ ipLen buf b

/-! ### Words replaced -/

lemma adjust_of_ne {old new : List UInt8} {c j : ℕ} (h : j ≠ c) (h' : j ≠ c + 1) : adjust buf c old new j = buf j :=
  put16_of_ne buf _ h h'

lemma put32_of_disjoint {i v j : ℕ} (h : j < i ∨ i + 4 ≤ j) : put32 buf i v j = buf j := by
  rw [put32, put16_of_ne _ _ (by omega) (by omega), put16_of_ne _ _ (by omega) (by omega)]

lemma replace_of_disjoint {c i v j : ℕ} (hc : j < c ∨ c + 2 ≤ j) (hi : j < i ∨ i + 4 ≤ j) :
    replace buf c i v j = buf j := by
  rw [replace, put32_of_disjoint hi, adjust_of_ne (by omega) (by omega)]

lemma bytes_adjust_of_disjoint {old new : List UInt8} {c a n : ℕ} (h : c + 2 ≤ a ∨ a + n ≤ c) :
    bytes (adjust buf c old new) a n = bytes buf a n := bytes_put_of_disjoint buf h

/-- A checksum that is adjusted, in a part of the buffer. -/
lemma adjust_total (buf : Buf) (old new : List UInt8) {a k n : ℕ} (h : 2 * k + 2 ≤ n) :
    (total (bytes (adjust buf (a + 2 * k) old new) a n) + total new) % 65535
      = (total (bytes buf a n) + total old) % 65535 := by
  obtain ⟨hlt, hmod⟩ := checksumadjust_mod (get16_lt buf (a + 2 * k)) old new
  have hput := total_bytes_put buf (a := a) (k := k) h hlt
  rw [adjust]
  lia

lemma total_bytes32 {v : ℕ} (h : v < 2 ^ 32) : total (bytes32 v) = v / 65536 + v % 65536 := by
  rw [bytes32, bytes16, bytes16, total]
  simp only [List.cons_append, List.nil_append, words, List.sum_cons, List.sum_nil, UInt8.toNat_ofNat']
  lia

lemma total_bytes_four (buf : Buf) (i : ℕ) : total (bytes buf i 4) = get16 buf i + get16 buf (i + 2) := by
  have hsplit := total_bytes_split buf (a := i) (k := 0) (n := 4) (by norm_num)
  rw [hsplit]
  show total (bytes buf i 0) + get16 buf i + total (bytes buf (i + 2) 2) = _
  rw [total_bytes_two, show total (bytes buf i 0) = 0 from rfl, Nat.zero_add]

/-- A word that is written. -/
lemma put32_total (buf : Buf) {a k n v : ℕ} (h : 2 * k + 4 ≤ n) (hv : v < 2 ^ 32) :
    total (bytes (put32 buf (a + 2 * k) v) a n) + total (bytes buf (a + 2 * k) 4)
      = total (bytes buf a n) + total (bytes32 v) := by
  have hhigh := total_bytes_put buf (a := a) (k := k) (n := n) (v := v / 65536) (by omega) (by omega)
  have hlow := total_bytes_put (put16 buf (a + 2 * k) (v / 65536)) (a := a) (k := k + 1) (n := n)
    (v := v % 65536) (by omega) (by omega)
  have hkept : get16 (put16 buf (a + 2 * k) (v / 65536)) (a + 2 * (k + 1)) = get16 buf (a + 2 * (k + 1)) := by
    rw [get16, get16, put16_of_ne _ _ (by omega) (by omega), put16_of_ne _ _ (by omega) (by omega)]
  have hplace : a + 2 * k + 2 = a + 2 * (k + 1) := by ring
  rw [put32, total_bytes_four, total_bytes32 hv, hplace]
  lia

/-- **A word replaced with its checksum** keeps the sum. -/
theorem replace_total (buf : Buf) {a j k n v : ℕ} (hj : 2 * j + 2 ≤ n) (hk : 2 * k + 4 ≤ n) (hjk : j < k ∨ k + 2 ≤ j)
    (hv : v < 2 ^ 32) :
    total (bytes (replace buf (a + 2 * j) (a + 2 * k) v) a n) % 65535 = total (bytes buf a n) % 65535 := by
  have hadjust := adjust_total buf (bytes buf (a + 2 * k) 4) (bytes32 v) (a := a) hj
  have hput := put32_total (adjust buf (a + 2 * j) (bytes buf (a + 2 * k) 4) (bytes32 v)) (a := a) hk hv
  rw [bytes_adjust_of_disjoint (a := a + 2 * k) (by lia)] at hput
  rw [replace]
  lia

/-! ### An address replaced -/

/-- A packet whose transport part has been changed. -/
def SameHeader (buf buf' : Buf) (b : ℕ) : Prop := ∀ j, b ≤ j → j < payload buf b → buf' j = buf j

section Replaced

variable {buf' : Buf} {k v : ℕ}

lemma get16_congr {i : ℕ} (h : buf' i = buf i) (h' : buf' (i + 1) = buf (i + 1)) : get16 buf' i = get16 buf i := by
  rw [get16, get16, h, h']

/-- The fields of the header that the checks look at. -/
lemma fields_replaced (hsame : SameHeader buf buf' b) (hhl : 20 ≤ hl buf b) (hk : k = 6 ∨ k = 8) :
    hl (replace buf' (b + 10) (b + 2 * k) v) b = hl buf b
      ∧ proto (replace buf' (b + 10) (b + 2 * k) v) b = proto buf b
      ∧ ipLen (replace buf' (b + 10) (b + 2 * k) v) b = ipLen buf b := by
  have hat (j : ℕ) (hj : b ≤ j) (hj' : j < b + 10) : replace buf' (b + 10) (b + 2 * k) v j = buf j := by
    rw [replace_of_disjoint (by omega) (by omega), hsame j hj (by rw [payload]; omega)]
  refine ⟨by rw [hl, hl, hat b le_rfl (by omega)], by rw [proto, proto, hat (b + 9) (by omega) (by omega)], ?_⟩
  rw [ipLen, ipLen, get16_congr (hat _ (by omega) (by omega)) (hat _ (by omega) (by omega))]

/-- The header has its checksum as it had before. -/
lemma header_replaced (hsame : SameHeader buf buf' b) (hip : Ipv4 buf b) (hk : k = 6 ∨ k = 8) (hv : v < 2 ^ 32) :
    ipChecksum (bytes (replace buf' (b + 10) (b + 2 * k) v) b (hl buf b)) = 0
      ↔ ipChecksum (bytes buf b (hl buf b)) = 0 := by
  have hhl := hip.hl_ge
  have htotal := replace_total buf' (a := b) (j := 5) (k := k) (n := hl buf b) (by omega) (by omega) (by omega) hv
  have hbytes : bytes buf' b (hl buf b) = bytes buf b (hl buf b) :=
    bytes_congr fun j hj hj' => hsame j hj hj'
  have hpos (x : Buf) (hx : x b = buf b) : total (bytes x b (hl buf b)) ≠ 0 := by
    have hsplit := total_bytes_split x (a := b) (k := 0) (n := hl buf b) (by omega)
    have hversion := hip.version
    have hword : get16 x (b + 2 * 0) = (buf b).toNat * 256 + (x (b + 1)).toNat := by
      rw [Nat.mul_zero, Nat.add_zero, get16, hx]
    lia
  have hfirst : replace buf' (b + 10) (b + 2 * k) v b = buf b := by
    rw [replace_of_disjoint (by omega) (by lia), hsame b le_rfl (by rw [payload]; omega)]
  have hnew := hpos _ hfirst
  have hold := hpos buf rfl
  rw [hbytes] at htotal
  rw [ipChecksum_eq_zero_iff, ipChecksum_eq_zero_iff]
  rw [show b + 2 * 5 = b + 10 from rfl] at htotal
  lia

/-- The pseudo header changes by the address. -/
lemma pseudo_replaced (hsame : SameHeader buf buf' b) (hhl : 20 ≤ hl buf b) (hk : k = 6 ∨ k = 8)
    (hv : v < 2 ^ 32) (n : ℕ) :
    total (pseudo (replace buf' (b + 10) (b + 2 * k) v) b n) + total (bytes buf (b + 2 * k) 4)
      = total (pseudo buf b n) + total (bytes32 v) := by
  have hsplit (x : Buf) : total (pseudo x b n)
      = total (bytes x (b + 12) 8) + total ([0, x (b + 9)] ++ bytes16 n) := by
    rw [pseudo, List.append_assoc, total_append (by rw [length_bytes])]
  have hproto : replace buf' (b + 10) (b + 2 * k) v (b + 9) = buf (b + 9) := by
    rw [replace_of_disjoint (by omega) (by omega), hsame _ (by omega) (by rw [payload]; omega)]
  have hplace : b + 2 * k = b + 12 + 2 * (k - 6) := by lia
  have hput := put32_total (adjust buf' (b + 10) (bytes buf' (b + 2 * k) 4) (bytes32 v)) (a := b + 12) (k := k - 6)
    (n := 8) (by lia) hv
  rw [← hplace, bytes_adjust_of_disjoint (a := b + 2 * k) (by omega), bytes_adjust_of_disjoint (a := b + 12) (by omega),
    bytes_congr (a := b + 2 * k) (n := 4) fun j hj hj' => hsame j (by lia) (by rw [payload]; lia),
    bytes_congr (a := b + 12) (n := 8) fun j hj hj' => hsame j (by lia) (by rw [payload]; lia)] at hput
  rw [hsplit, hsplit, hproto, replace]
  rw [bytes_congr (a := b + 2 * k) (n := 4) fun j hj hj' => hsame j (by lia) (by rw [payload]; lia)]
  lia

/-- The transport part does not change. -/
lemma segment_replaced (hhl : 20 ≤ hl buf b) (hk : k = 6 ∨ k = 8) (n : ℕ) :
    bytes (replace buf' (b + 10) (b + 2 * k) v) (payload buf b) n = bytes buf' (payload buf b) n :=
  bytes_congr fun j hj _ => by
    rw [payload] at hj
    exact replace_of_disjoint (by omega) (by lia)

end Replaced

/-! ### The two directions -/

section Directions

variable {buf' : Buf} {k v x y : ℕ}

/-- **A transport part with a pseudo header**: what the code takes out of the checksum for the address, `x` for `y`,
must be what the pseudo header changes by. -/
theorem pseudo_valid_iff (hsame : SameHeader buf buf' b) (hhl : 20 ≤ hl buf b) (hk : k = 6 ∨ k = 8)
    (hv : v < 2 ^ 32) {n : ℕ} (hproto : proto buf b ≠ 0)
    (hseg : (total (bytes buf' (payload buf b) n) + x) % 65535 = (total (bytes buf (payload buf b) n) + y) % 65535)
    (hvalid : ipChecksum (pseudo buf b n ++ bytes buf (payload buf b) n) = 0) :
    ipChecksum (pseudo (replace buf' (b + 10) (b + 2 * k) v) b n
        ++ bytes (replace buf' (b + 10) (b + 2 * k) v) (payload buf b) n) = 0
      ↔ (y + total (bytes32 v)) % 65535 = (x + total (bytes buf (b + 2 * k) 4)) % 65535 := by
  have hlength (z : Buf) : (pseudo z b n).length % 2 = 0 := by
    rw [pseudo, List.length_append, List.length_append, length_bytes, bytes16]
    simp only [List.length_cons, List.length_nil]
  have hnonzero (z : Buf) (hz : proto z b = proto buf b) : total (pseudo z b n) ≠ 0 := by
    rw [pseudo, List.append_assoc, total_append (by rw [length_bytes]),
      total_append (by simp only [List.length_cons, List.length_nil])]
    have hword : total [0, z (b + 9)] = proto z b := by
      show (words [0, z (b + 9)]).sum = _
      rw [words, words, List.sum_singleton, proto]
      exact Nat.zero_add _
    lia
  have hpseudo := pseudo_replaced hsame hhl hk hv n
  have hproto' := (fields_replaced hsame hhl hk (v := v)).2.1
  have hnew := hnonzero _ hproto'
  rw [ipChecksum_eq_zero_iff, total_append (hlength _)] at hvalid ⊢
  rw [segment_replaced hhl hk]
  lia

/-- The length in the header of UDP. -/
lemma udpLen_replaced (hsame : SameHeader buf buf' b) (hhl : 20 ≤ hl buf b) (hk : k = 6 ∨ k = 8)
    (hlen : get16 buf' (payload buf b + 4) = get16 buf (payload buf b + 4)) :
    udpLen (replace buf' (b + 10) (b + 2 * k) v) b = udpLen buf b := by
  have hfields := fields_replaced hsame hhl hk (v := v)
  have hpayload : payload (replace buf' (b + 10) (b + 2 * k) v) b = payload buf b := by
    rw [payload, payload, hfields.1]
  have hat (j : ℕ) : replace buf' (b + 10) (b + 2 * k) v (payload buf b + j) = buf' (payload buf b + j) := by
    rw [payload]
    exact replace_of_disjoint (by lia) (by lia)
  rw [udpLen, udpLen, hpayload, get16_congr (hat 4) (hat 5), hlen]

/-- **A packet whose address is replaced** is valid when its transport part is. -/
theorem valid_replaced_iff (hsame : SameHeader buf buf' b) (hip : Ipv4 buf b) (hvalid : Valid buf b)
    (hk : k = 6 ∨ k = 8) (hv : v < 2 ^ 32) :
    Valid (replace buf' (b + 10) (b + 2 * k) v) b ↔ TransportValid (replace buf' (b + 10) (b + 2 * k) v) b := by
  refine ⟨Valid.transport, fun h => ⟨?_, h⟩⟩
  rw [(fields_replaced hsame hip.hl_ge hk).1]
  exact (header_replaced hsame hip hk hv).mpr hvalid.header

/-- The part for UDP takes the source address out. -/
lemma udp_valid_iff (hip : Ipv4 buf b) (hvalid : Valid buf b) (hproto : proto buf b = udpProto)
    (hk : k = 6 ∨ k = 8) (hv : v < 2 ^ 32) :
    Valid (replace (udpAdjust buf b v) (b + 10) (b + 2 * k) v) b
      ↔ total (bytes buf (b + 12) 4) % 65535 = total (bytes buf (b + 2 * k) 4) % 65535 := by
  have hhl := hip.hl_ge
  have hlen := hip.udp hproto
  have hsame : SameHeader buf (udpAdjust buf b v) b := fun j _ hj => adjust_of_ne (by omega) (by omega)
  have hseg := adjust_total buf (bytes buf (b + 12) 4) (bytes32 v) (a := payload buf b) (k := 3) (n := udpLen buf b)
    (by omega)
  have hold := hvalid.transport
  have hne : proto buf b ≠ tcpProto := by rw [hproto]; decide
  have hfields := fields_replaced hsame hhl hk (v := v)
  rw [valid_replaced_iff hsame hip hvalid hk hv]
  rw [TransportValid, if_neg hne, if_pos hproto] at hold
  rw [TransportValid, hfields.2.1, if_neg hne, if_pos hproto,
    udpLen_replaced hsame hhl hk (get16_congr (adjust_of_ne (by omega) (by lia)) (adjust_of_ne (by lia) (by lia))),
    payload, hfields.1, ← payload]
  rw [pseudo_valid_iff hsame hhl hk hv (by rw [hproto]; decide) hseg hold]
  lia

/-- The part for ICMP, whose checksum has no pseudo header. -/
lemma icmp_valid_iff (hip : Ipv4 buf b) (hvalid : Valid buf b) (hproto : proto buf b = icmpProto)
    (hk : k = 6 ∨ k = 8) (hv : v < 2 ^ 32) :
    Valid (replace (icmpAdjust buf b v) (b + 10) (b + 2 * k) v) b
      ↔ buf (payload buf b) = 0 ∨ buf (payload buf b) = 8
        ∨ total (bytes buf (b + 12) 4) % 65535 = total (bytes32 v) % 65535 := by
  have hhl := hip.hl_ge
  have hlen := hip.icmp hproto
  have hsame : SameHeader buf (icmpAdjust buf b v) b := fun j _ hj => by
    rw [icmpAdjust]
    split_ifs
    · exact adjust_of_ne (by omega) (by omega)
    · rfl
  have hold := hvalid.transport
  have hne : proto buf b ≠ tcpProto := by rw [hproto]; decide
  have hne' : proto buf b ≠ udpProto := by rw [hproto]; decide
  have hfields := fields_replaced hsame hhl hk (v := v)
  have hseglen : segLen (replace (icmpAdjust buf b v) (b + 10) (b + 2 * k) v) b = segLen buf b := by
    rw [segLen, segLen, hfields.1, hfields.2.2]
  rw [valid_replaced_iff hsame hip hvalid hk hv]
  rw [TransportValid, if_neg hne, if_neg hne', if_pos hproto] at hold
  rw [TransportValid, hfields.2.1, if_neg hne, if_neg hne', if_pos hproto, hseglen, payload, hfields.1, ← payload,
    segment_replaced hhl hk]
  rw [icmpAdjust]
  by_cases htype : buf (payload buf b) ≠ 0 ∧ buf (payload buf b) ≠ 8
  · rw [if_pos htype]
    have hseg := adjust_total buf (bytes buf (b + 12) 4) (bytes32 v) (a := payload buf b) (k := 1) (n := segLen buf b)
      (by rw [segLen]; lia)
    rw [show payload buf b + 2 * 1 = payload buf b + 2 from rfl] at hseg
    have hnonzero (z : Buf) (hz : z (payload buf b) = buf (payload buf b)) :
        total (bytes z (payload buf b) (segLen buf b)) ≠ 0 := by
      have hsplit := total_bytes_split z (a := payload buf b) (k := 0) (n := segLen buf b) (by rw [segLen]; lia)
      have hpos : (z (payload buf b)).toNat ≠ 0 := by
        rw [hz]
        exact fun hzero => htype.1 (UInt8.toNat_inj.mp hzero)
      rw [Nat.mul_zero, Nat.add_zero, get16] at hsplit
      lia
    have hnew := hnonzero (adjust buf (payload buf b + 2) (bytes buf (b + 12) 4) (bytes32 v))
      (adjust_of_ne (by omega) (by omega))
    rw [ipChecksum_eq_zero_iff] at hold ⊢
    have hout : ¬ (buf (payload buf b) = 0 ∨ buf (payload buf b) = 8) := not_or.mpr htype
    rw [← or_assoc, or_iff_right hout]
    lia
  · rw [if_neg htype]
    have hin : buf (payload buf b) = 0 ∨ buf (payload buf b) = 8 := by
      rw [not_and_or, not_not, not_not] at htype
      exact htype
    exact iff_of_true hold (hin.elim .inl fun h => .inr (.inl h))

/-- The part for TCP takes out the address that is replaced. -/
lemma tcp_valid (hip : Ipv4 buf b) (hvalid : Valid buf b) (hproto : proto buf b = tcpProto)
    (hk : k = 6 ∨ k = 8) (hv : v < 2 ^ 32) (hsame : SameHeader buf buf' b)
    (hseg : (total (bytes buf' (payload buf b) (segLen buf b)) + total (bytes32 v)) % 65535
      = (total (bytes buf (payload buf b) (segLen buf b)) + total (bytes buf (b + 2 * k) 4)) % 65535) :
    Valid (replace buf' (b + 10) (b + 2 * k) v) b := by
  have hhl := hip.hl_ge
  have hold := hvalid.transport
  have hfields := fields_replaced hsame hhl hk (v := v)
  have hseglen : segLen (replace buf' (b + 10) (b + 2 * k) v) b = segLen buf b := by
    rw [segLen, segLen, hfields.1, hfields.2.2]
  rw [TransportValid, if_pos hproto] at hold
  rw [valid_replaced_iff hsame hip hvalid hk hv, TransportValid, hfields.2.1, if_pos hproto, hseglen, payload,
    hfields.1, ← payload, pseudo_valid_iff hsame hhl hk hv (by rw [hproto]; decide) hseg hold]
  rw [Nat.add_comm]

/-- Other protocols. -/
lemma other_valid (hip : Ipv4 buf b) (hvalid : Valid buf b) (htcp : proto buf b ≠ tcpProto)
    (hudp : proto buf b ≠ udpProto) (hicmp : proto buf b ≠ icmpProto) (hk : k = 6 ∨ k = 8) (hv : v < 2 ^ 32) :
    Valid (replace buf (b + 10) (b + 2 * k) v) b := by
  have hsame : SameHeader buf buf b := fun _ _ _ => rfl
  rw [valid_replaced_iff hsame hip hvalid hk hv, TransportValid, (fields_replaced hsame hip.hl_ge hk).2.1, if_neg htcp,
    if_neg hudp, if_neg hicmp]
  trivial

/-- A sequence number that is moved is replaced with the checksum. -/
lemma usePort_buf (m : ℕ → PortMap) (buf : Buf) (tcp sport dport i : ℕ) {move : ℕ → ℕ → ℕ}
    (hmove : ∀ a c, move a c < 2 ^ 32) :
    (usePort m buf tcp sport dport i move).2 = buf
      ∨ ∃ w < 2 ^ 32, (usePort m buf tcp sport dport i move).2 = replace buf (tcp + 16) i w := by
  rw [usePort]
  cases findPort m sport dport with
  | none => exact .inl rfl
  | some n =>
      simp only
      split_ifs
      all_goals first
        | exact .inl rfl
        | exact .inr ⟨_, hmove _ _, rfl⟩

/-- Segments of TCP: the checksum adjusted for the address, and a sequence number that may be moved. -/
lemma tcp_moved (hip : Ipv4 buf b) (hproto : proto buf b = tcpProto) (old : List UInt8) {j : ℕ} (hj : j = 2 ∨ j = 4)
    (hbuf : buf' = adjust buf (payload buf b + 16) old (bytes32 v)
      ∨ ∃ w < 2 ^ 32, buf' = replace (adjust buf (payload buf b + 16) old (bytes32 v)) (payload buf b + 16)
        (payload buf b + 2 * j) w) :
    SameHeader buf buf' b
      ∧ (total (bytes buf' (payload buf b) (segLen buf b)) + total (bytes32 v)) % 65535
        = (total (bytes buf (payload buf b) (segLen buf b)) + total old) % 65535 := by
  have hlen := hip.tcp hproto
  have hadjust := adjust_total buf old (bytes32 v) (a := payload buf b) (k := 8) (n := segLen buf b)
    (by rw [segLen]; omega)
  rw [show payload buf b + 2 * 8 = payload buf b + 16 from rfl] at hadjust
  rcases hbuf with rfl | ⟨w, hw, rfl⟩
  · exact ⟨fun _ _ _ => adjust_of_ne (by omega) (by omega), hadjust⟩
  · have hreplace := replace_total (adjust buf (payload buf b + 16) old (bytes32 v)) (a := payload buf b) (j := 8)
      (k := j) (n := segLen buf b) (by rw [segLen]; lia) (by rw [segLen]; lia) (by lia) hw
    rw [show payload buf b + 2 * 8 = payload buf b + 16 from rfl] at hreplace
    refine ⟨fun _ _ _ => ?_, by lia⟩
    rw [replace_of_disjoint (by omega) (by lia), adjust_of_ne (by lia) (by lia)]

end Directions

/-- Where the checksums of a packet are right after the address at `b + field` is replaced by `addr`. -/
def ReplacedRight (buf : Buf) (b field addr : ℕ) : Prop :=
  (proto buf b = udpProto →
    total (bytes buf (b + 12) 4) % 65535 = total (bytes buf (b + field) 4) % 65535)
  ∧ (proto buf b = icmpProto → buf (payload buf b) = 0 ∨ buf (payload buf b) = 8
    ∨ total (bytes buf (b + 12) 4) % 65535 = total (bytes32 addr) % 65535)

lemma seqOut_buf (imp : ImpDevice) (buf : Buf) (b : ℕ) :
    (seqOut imp buf b).2 = adjust buf (payload buf b + 16) (bytes buf (b + 12) 4) (bytes32 imp.ip.toNat)
      ∨ ∃ w < 2 ^ 32, (seqOut imp buf b).2
        = replace (adjust buf (payload buf b + 16) (bytes buf (b + 12) 4) (bytes32 imp.ip.toNat))
          (payload buf b + 16) (payload buf b + 2 * 2) w := by
  rw [seqOut]
  exact usePort_buf _ _ _ _ _ _ fun _ _ => Nat.mod_lt _ (by norm_num)

lemma ackIn_buf (imp : ImpDevice) (buf : Buf) (b : ℕ) :
    (ackIn imp buf b).2 = adjust buf (payload buf b + 16) (bytes buf (b + 16) 4) (bytes32 imp.hostip.toNat)
      ∨ ∃ w < 2 ^ 32, (ackIn imp buf b).2
        = replace (adjust buf (payload buf b + 16) (bytes buf (b + 16) 4) (bytes32 imp.hostip.toNat))
          (payload buf b + 16) (payload buf b + 2 * 4) w := by
  rw [ackIn]
  split_ifs
  · exact usePort_buf _ _ _ _ _ _ fun _ _ => Nat.mod_lt _ (by norm_num)
  · exact .inl rfl

/-- **From the host**: a packet with another source. -/
theorem packetOut_valid_iff (imp : ImpDevice) (hhost : imp.hostip.toNat ≠ 0) (hip : Ipv4 buf b) (hvalid : Valid buf b)
    (hftp : proto buf b = tcpProto → ¬ FtpOut imp buf b) :
    Valid (packetOut imp buf b).2 b ↔ ReplacedRight buf b 12 imp.ip.toNat := by
  have hv : imp.ip.toNat < 2 ^ 32 := imp.ip.toNat_lt
  have hudp : proto buf b = udpProto → True := fun _ => trivial
  rw [packetOut, if_pos hhost, ReplacedRight]
  simp only
  by_cases htcp : proto buf b = tcpProto
  · rw [if_pos htcp, tcpOut]
    simp only [if_neg (hftp htcp)]
    obtain ⟨hsame, hseg⟩ := tcp_moved hip htcp (bytes buf (b + 12) 4) (.inl rfl) (seqOut_buf imp buf b)
    refine iff_of_true (tcp_valid (k := 6) hip hvalid htcp (.inl rfl) hv hsame hseg) ⟨hudp, fun hno => ?_⟩
    rw [htcp] at hno
    exact absurd hno (by decide)
  · rw [if_neg htcp]
    by_cases hudp' : proto buf b = udpProto
    · rw [if_pos hudp', udp_valid_iff (k := 6) hip hvalid hudp' (.inl rfl) hv]
      refine iff_of_true rfl ⟨hudp, fun hno => ?_⟩
      rw [hudp'] at hno
      exact absurd hno (by decide)
    · rw [if_neg hudp']
      by_cases hicmp : proto buf b = icmpProto
      · rw [if_pos hicmp, icmp_valid_iff (k := 6) hip hvalid hicmp (.inl rfl) hv]
        exact ⟨fun h => ⟨hudp, fun _ => h⟩, fun h => h.2 hicmp⟩
      · rw [if_neg hicmp]
        exact iff_of_true (other_valid (k := 6) hip hvalid htcp hudp' hicmp (.inl rfl) hv)
          ⟨hudp, fun hno => absurd hno hicmp⟩

/-- **To the host**: a packet with another destination. -/
theorem translateIn_valid_iff {imp : ImpDevice} {r : (ℕ → PortMap) × Buf} (hdst : get32 buf (b + 16) = imp.ip.toNat)
    (hhost : imp.hostip.toNat ≠ 0) (hip : Ipv4 buf b) (hvalid : Valid buf b)
    (hftp : proto buf b = tcpProto → ¬ FtpIn imp buf b) (hr : translateIn imp buf b = some r) :
    Valid r.2 b ↔ ReplacedRight buf b 16 imp.hostip.toNat := by
  have hv : imp.hostip.toNat < 2 ^ 32 := imp.hostip.toNat_lt
  rw [translateIn, if_pos ⟨hdst, hhost⟩] at hr
  rw [ReplacedRight]
  by_cases htcp : proto buf b = tcpProto
  · rw [if_pos htcp, tcpIn] at hr
    simp only [if_neg (hftp htcp)] at hr
    obtain rfl := Option.some.inj hr
    obtain ⟨hsame, hseg⟩ := tcp_moved hip htcp (bytes buf (b + 16) 4) (.inr rfl) (ackIn_buf imp buf b)
    have hother {p : ℕ} (hp : p ≠ tcpProto) : proto buf b ≠ p := fun hno => hp (hno.symm.trans htcp)
    exact iff_of_true (tcp_valid (k := 8) hip hvalid htcp (.inr rfl) hv hsame hseg)
      ⟨fun hno => absurd hno (hother (by decide)), fun hno => absurd hno (hother (by decide))⟩
  · rw [if_neg htcp] at hr
    by_cases hudp : proto buf b = udpProto
    · rw [if_pos hudp] at hr
      split_ifs at hr
      obtain rfl := Option.some.inj hr
      rw [udp_valid_iff (k := 8) hip hvalid hudp (.inr rfl) hv]
      refine ⟨fun h => ⟨fun _ => h, fun hno => ?_⟩, fun h => h.1 hudp⟩
      rw [hudp] at hno
      exact absurd hno (by decide)
    · rw [if_neg hudp] at hr
      by_cases hicmp : proto buf b = icmpProto
      · rw [if_pos hicmp] at hr
        obtain rfl := Option.some.inj hr
        rw [icmp_valid_iff (k := 8) hip hvalid hicmp (.inr rfl) hv]
        exact ⟨fun h => ⟨fun hno => absurd hno hudp, fun _ => h⟩, fun h => h.2 hicmp⟩
      · rw [if_neg hicmp] at hr
        obtain rfl := Option.some.inj hr
        exact iff_of_true (other_valid (k := 8) hip hvalid htcp hudp hicmp (.inr rfl) hv)
          ⟨fun hno => absurd hno hudp, fun hno => absurd hno hicmp⟩

/-! ### Packets copied -/

/-- A packet at another place. -/
def SamePacket (buf : Buf) (b : ℕ) (buf' : Buf) (b' : ℕ) : Prop :=
  ∀ j < ipLen buf b, buf' (b' + j) = buf (b + j)

section Copied

variable {buf' : Buf} {b' : ℕ}

lemma bytes_copied (h : SamePacket buf b buf' b') {i n : ℕ} (hn : i + n ≤ ipLen buf b) :
    bytes buf' (b' + i) n = bytes buf (b + i) n :=
  List.map_congr_left fun j hj => by
    have hj' := List.mem_range.mp hj
    rw [Nat.add_assoc, Nat.add_assoc]
    exact h _ (by omega)

lemma get16_copied (h : SamePacket buf b buf' b') {i : ℕ} (hi : i + 2 ≤ ipLen buf b) :
    get16 buf' (b' + i) = get16 buf (b + i) := by
  rw [get16, get16, h i (by omega), Nat.add_assoc, Nat.add_assoc, h (i + 1) (by omega)]

/-- Its fields. -/
lemma fields_copied (h : SamePacket buf b buf' b') (hlen : 20 ≤ ipLen buf b) :
    hl buf' b' = hl buf b ∧ proto buf' b' = proto buf b ∧ ipLen buf' b' = ipLen buf b := by
  have hzero : buf' b' = buf b := h 0 (by omega)
  exact ⟨by rw [hl, hl, hzero], by rw [proto, proto, h 9 (by omega)], get16_copied h (by omega)⟩

lemma udpLen_copied (h : SamePacket buf b buf' b') (hip : Ipv4 buf b) (hudp : proto buf b = udpProto) :
    udpLen buf' b' = udpLen buf b := by
  have hhl := hip.hl_ge
  have hlen := hip.len
  have hudp' := hip.udp hudp
  rw [udpLen, udpLen, payload, payload, (fields_copied h (by omega)).1, Nat.add_assoc, Nat.add_assoc,
    get16_copied h (by omega)]

lemma ipv4_copied (h : SamePacket buf b buf' b') (hip : Ipv4 buf b) : Ipv4 buf' b' := by
  have hhl := hip.hl_ge
  have hlen := hip.len
  obtain ⟨hhl', hproto', hlen'⟩ := fields_copied h (by omega)
  have hzero : buf' b' = buf b := h 0 (by lia)
  constructor
  · rw [hzero, hip.version]
  · rwa [hhl']
  · rwa [hhl', hlen']
  · rw [hproto', hhl', hlen']
    exact hip.tcp
  · rw [hproto', hhl', hlen']
    intro hudp
    rw [udpLen_copied h hip hudp]
    exact hip.udp hudp
  · rw [hproto', hhl', hlen']
    exact hip.icmp

/-- Its checksums. -/
lemma valid_copied (h : SamePacket buf b buf' b') (hip : Ipv4 buf b) : Valid buf' b' ↔ Valid buf b := by
  have hhl := hip.hl_ge
  have hlen := hip.len
  obtain ⟨hhl', hproto', hlen'⟩ := fields_copied h (by omega)
  have hheader : bytes buf' b' (hl buf b) = bytes buf b (hl buf b) := bytes_copied (i := 0) h (by omega)
  have hpseudo (n : ℕ) : pseudo buf' b' n = pseudo buf b n := by
    rw [pseudo, pseudo, bytes_copied h (by lia), h 9 (by lia)]
  have hseg {n : ℕ} (hn : hl buf b + n ≤ ipLen buf b) :
      bytes buf' (payload buf' b') n = bytes buf (payload buf b) n := by
    rw [payload, payload, hhl', bytes_copied h (by lia)]
  have hseglen : segLen buf' b' = segLen buf b := by rw [segLen, segLen, hhl', hlen']
  have htransport : TransportValid buf' b' ↔ TransportValid buf b := by
    rw [TransportValid, TransportValid, hproto', hseglen, hpseudo, hseg (by rw [segLen]; lia)]
    by_cases hudp : proto buf b = udpProto
    · rw [udpLen_copied h hip hudp, hpseudo, hseg (hip.udp hudp).2]
    · rw [if_neg hudp, if_neg hudp]
  exact ⟨fun hv => ⟨by rw [← hheader, ← hhl']; exact hv.header, htransport.mp hv.transport⟩,
    fun hv => ⟨by rw [hhl', hheader]; exact hv.header, htransport.mpr hv.transport⟩⟩

end Copied

/-- The packet of a frame, in `rbuffer`. -/
lemma received_same (imp : ImpDevice) {msg : Buf} {len : ℕ} (hlen : ethHdr + ipLen msg ethHdr ≤ len) :
    SamePacket msg ethHdr (received imp msg len) (pad imp) := fun j hj => by
  rw [received]
  simp only
  rw [if_pos ⟨Nat.le_add_right _ _, by omega⟩, Nat.add_sub_cancel_left]

/-- It comes after the leader. -/
lemma leaderFor_of_ge (buf : Buf) (b n : ℕ) {j : ℕ} (hj : 12 ≤ j) : leaderFor buf b n j = buf j := by
  rw [leaderFor, put16_of_ne _ _ (by omega) (by omega), Function.update_of_ne (by omega),
    Function.update_of_ne (by omega), Function.update_of_ne (by omega), Function.update_of_ne (by omega)]

/-- What is before a packet does not matter. -/
lemma valid_congr {buf' : Buf} (h : ∀ j, b ≤ j → buf' j = buf j) : Valid buf' b ↔ Valid buf b := by
  have hget {i : ℕ} (hi : b ≤ i) : get16 buf' i = get16 buf i := get16_congr (h i hi) (h _ (by omega))
  have hbytes {i : ℕ} (hi : b ≤ i) (n : ℕ) : bytes buf' i n = bytes buf i n := bytes_congr fun j hj _ => h j (by omega)
  have hhl : hl buf' b = hl buf b := by rw [hl, hl, h b le_rfl]
  have hpayload : payload buf' b = payload buf b := by rw [payload, payload, hhl]
  have hge : b ≤ payload buf b := Nat.le_add_right _ _
  have hpseudo (n : ℕ) : pseudo buf' b n = pseudo buf b n := by
    rw [pseudo, pseudo, hbytes (by omega), h _ (by omega)]
  have hlen : segLen buf' b = segLen buf b := by rw [segLen, segLen, ipLen, ipLen, hhl, hget (by omega)]
  have hudp : udpLen buf' b = udpLen buf b := by rw [udpLen, udpLen, hpayload, hget (by omega)]
  have htransport : TransportValid buf' b = TransportValid buf b := by
    rw [TransportValid, TransportValid, proto, proto, h _ (by omega), hlen, hudp, hpayload, hpseudo, hpseudo, hbytes hge,
      hbytes hge]
  exact ⟨fun hv => ⟨by rw [← hhl, ← hbytes le_rfl]; exact hv.header, htransport ▸ hv.transport⟩,
    fun hv => ⟨by rw [hhl, hbytes le_rfl]; exact hv.header, htransport ▸ hv.transport⟩⟩

lemma replacedRight_copied {buf' : Buf} {b' : ℕ} (h : SamePacket buf b buf' b') (hip : Ipv4 buf b) (addr : ℕ) :
    ReplacedRight buf' b' 16 addr ↔ ReplacedRight buf b 16 addr := by
  have hhl := hip.hl_ge
  have hlen := hip.len
  have hicmp := hip.icmp
  obtain ⟨hhl', hproto', -⟩ := fields_copied h (by omega)
  rw [ReplacedRight, ReplacedRight, hproto', bytes_copied h (by omega), bytes_copied h (by omega)]
  refine and_congr_right fun _ => imp_congr_right fun hp => ?_
  have hlong := hicmp hp
  rw [payload, payload, hhl', h _ (by omega)]

/-- What `imp_packet_in` delivers is what it has translated, after a leader. -/
lemma packetIn_eq_some {imp : ImpDevice} {msg : Buf} {len n : ℕ} {mine : Bool}
    (h : (packetIn imp msg len mine).2 = some n) :
    ∃ r, translateIn imp (received imp msg len) (pad imp) = some r
      ∧ packetIn imp msg len mine
        = ({ imp with portMap := r.1, rbuffer := leaderFor r.2 (pad imp) n }, some n) := by
  rw [packetIn] at h ⊢
  split_ifs at h ⊢ with hdhcp hdst hup
  · cases hr : translateIn imp (received imp msg len) (pad imp) with
    | none =>
        rw [hr] at h
        cases h
    | some r =>
        rw [hr] at h
        simp only at h ⊢
        obtain rfl := Option.some.inj h
        exact ⟨r, rfl, rfl⟩
  · cases hr : translateIn imp (received imp msg len) (pad imp) with
    | none =>
        rw [hr] at h
        cases h
    | some r =>
        rw [hr] at h
        cases h

/-- **Packets with another address**: for every packet with right checksums that is not a rewritten FTP command,
they are right after the destination or the source has been replaced exactly when, for UDP to the host, the
source, which is taken out of the checksum, has the sum of the destination, and, for ICMP other than an echo or
its reply, the source has the sum of the address that is put in. -/
theorem translated_valid_iff (imp : ImpDevice) (hhost : imp.hostip.toNat ≠ 0) :
    (∀ (msg : Buf) (len : ℕ) (mine : Bool) (n : ℕ), Ipv4 msg ethHdr →
      ethHdr + ipLen msg ethHdr ≤ len → Valid msg ethHdr → get32 msg (ethHdr + 16) = imp.ip.toNat →
      (proto msg ethHdr = tcpProto → ¬ FtpIn imp (received imp msg len) (pad imp)) →
      (packetIn imp msg len mine).2 = some n →
        (Valid (packetIn imp msg len mine).1.rbuffer (pad imp) ↔ ReplacedRight msg ethHdr 16 imp.hostip.toNat))
    ∧ ∀ (buf : Buf) (b : ℕ), Ipv4 buf b → Valid buf b → (proto buf b = tcpProto → ¬ FtpOut imp buf b) →
        (Valid (packetOut imp buf b).2 b ↔ ReplacedRight buf b 12 imp.ip.toNat) := by
  refine ⟨fun msg len mine n hip hlen hvalid hdst hftp hin => ?_,
    fun buf b hip hvalid hftp => packetOut_valid_iff imp hhost hip hvalid hftp⟩
  obtain ⟨r, hr, hpacket⟩ := packetIn_eq_some hin
  have hsame := received_same imp hlen
  have hhl := hip.hl_ge
  have hiplen := hip.len
  have hip' := ipv4_copied hsame hip
  have hvalid' := (valid_copied hsame hip).mpr hvalid
  have hproto := (fields_copied hsame (by omega)).2.1
  have hdst' : get32 (received imp msg len) (pad imp + 16) = imp.ip.toNat := by
    rw [← hdst, get32, get32, get16_copied hsame (by omega), Nat.add_assoc, Nat.add_assoc,
      get16_copied hsame (by omega)]
  have hpad : 12 ≤ pad imp := Nat.le_add_right _ _
  rw [hpacket]
  show Valid (leaderFor r.2 (pad imp) n) (pad imp) ↔ _
  rw [valid_congr fun j hj => leaderFor_of_ge r.2 (pad imp) n (by omega),
    translateIn_valid_iff hdst' hhost hip' hvalid' (by rwa [hproto]) hr, replacedRight_copied hsame hip]

/-- An interface whose host is 10.3.0.6, known as 10.0.0.2. -/
def device : ImpDevice := ⟨0xa000002, 0xa030006, fun _ => ⟨0, 0, 0, 0, 0⟩, 0, 6, fun _ => 0⟩

/-- A buffer with a frame or a packet in it. -/
def ofList (l : List UInt8) : Buf := fun i => l.getD i 0

/-- An echo that comes in, and a datagram that goes out. -/
def echoIn : Buf := ofList [0, 0, 0, 0, 0, 0, 0, 0, 0, 0, 0, 0, 0, 0, 69, 0, 0, 28, 0, 0, 0, 0, 64, 1, 108, 218, 1, 2,
  3, 4, 10, 0, 0, 2, 8, 0, 247, 252, 0, 1, 0, 2]
def udpOut : Buf := ofList [69, 0, 0, 30, 0, 0, 0, 0, 64, 17, 108, 193, 10, 3, 0, 6, 1, 2, 3, 4, 3, 232, 7, 208, 0, 10,
  58, 70, 171, 205]

theorem translated_valid_iff_packets :
    (Valid (packetIn device echoIn 42 false).1.rbuffer (pad device)
        ↔ ReplacedRight echoIn ethHdr 16 device.hostip.toNat)
      ∧ (Valid (packetOut device udpOut 0).2 0 ↔ ReplacedRight udpOut 0 12 device.ip.toNat) := by
  have hin : Ipv4 echoIn ethHdr := by constructor <;> decide
  have hout : Ipv4 udpOut 0 := by constructor <;> decide
  exact ⟨(translated_valid_iff device (by decide)).1 echoIn 42 false 40 hin (by decide) (by decide)
      (by decide) (by decide) (by decide),
    (translated_valid_iff device (by decide)).2 udpOut 0 hout (by decide) (by decide)⟩

/-- A datagram that comes in, and a message that a host cannot be reached that goes out. -/
def udpIn : Buf := ofList [0, 0, 0, 0, 0, 0, 0, 0, 0, 0, 0, 0, 0, 0, 69, 0, 0, 30, 0, 0, 0, 0, 64, 17, 108, 200, 1, 2,
  3, 4, 10, 0, 0, 2, 3, 232, 7, 208, 0, 10, 58, 77, 171, 205]
def unreachableOut : Buf := ofList [69, 0, 0, 28, 0, 0, 0, 0, 64, 1, 108, 211, 10, 3, 0, 6, 1, 2, 3, 4, 3, 0, 252, 252,
  0, 1, 0, 2]

/-- Both have right checksums, and wrong ones afterwards. -/
theorem checksums_broken :
    Valid udpIn ethHdr ∧ (packetIn device udpIn 44 false).2 = some 42
      ∧ ¬ Valid (packetIn device udpIn 44 false).1.rbuffer (pad device)
      ∧ Valid unreachableOut 0 ∧ ¬ Valid (packetOut device unreachableOut 0).2 0 := by
  decide

end Ka10Simh.Imp
