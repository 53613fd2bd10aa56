import Ka10Simh.Imp.Translate
import Ka10Simh.Lib.Reaches

/-!
The sequence numbers of FTP connections.

A command with an address in it may become longer or shorter when the address is replaced. What the host sends
after it on the connection is then moved by that, and what it is told has arrived is moved back.

* `FtpState`: the interface, with the commands of every connection that have changed their length.
* `SequenceKept`: what a segment must become.
* `Selected`: when the table has the right commands for a segment.
* `sequence_kept`: runs in which it has.
-/

namespace Ka10Simh.Imp

open OnesComplement TransSys

/-! ### Segments -/

/-- A segment of TCP in a frame. -/
structure Segment where
  buf : Buf
  tcp : proto buf ethHdr = tcpProto
  hl_ge : 20 ≤ hl buf ethHdr
  thl_ge : 20 ≤ thl buf ethHdr
  text_le : hl buf ethHdr + thl buf ethHdr ≤ ipLen buf ethHdr

/-- A frame that has been read, with all of its segment. -/
structure Frame extends Segment where
  len : ℕ
  len_ge : ethHdr + ipLen buf ethHdr ≤ len
  mine : Bool

/-- A connection: the port of the host and the other one. -/
abbrev Conn := ℕ × ℕ

namespace Segment

variable (g : Segment)

/-- The place of the TCP header, and its fields. -/
def head : ℕ := payload g.buf ethHdr
def sport : ℕ := get16 g.buf g.head
def dport : ℕ := get16 g.buf (g.head + 2)
def seq : ℕ := get32 g.buf (g.head + 4)
def ack : ℕ := get32 g.buf (g.head + 8)
def flags : ℕ := get16 g.buf (g.head + 12)

/-- It sets up a connection; it acknowledges what has arrived. -/
def Syn : Prop := g.flags &&& tcpSyn ≠ 0
def Ack : Prop := g.flags &&& tcpAck ≠ 0

instance : Decidable g.Syn := inferInstanceAs (Decidable (_ ≠ _))
instance : Decidable g.Ack := inferInstanceAs (Decidable (_ ≠ _))

/-- The connection of a segment from the host, and of one to it. -/
def connOut : Conn := (g.sport, g.dport)
def connIn : Conn := (g.dport, g.sport)

/-- The text. -/
def text : List UInt8 := bytes g.buf (textOut g.buf ethHdr) (ipLen g.buf ethHdr - thl g.buf ethHdr - hl g.buf ethHdr)

/-- The text is a command for the server that has an address in it. -/
def IsPort : Prop := g.dport = 21 ∧ bytes g.buf (textOut g.buf ethHdr) 5 = portText

instance : Decidable g.IsPort := inferInstanceAs (Decidable (_ ∧ _))

/-- By how much it becomes longer with the address `ip`. -/
def change (ip : ℕ) : ℤ := (portCommand ip g.text).length - g.text.length

end Segment

/-! ### Connections -/

/-- A command that has changed its length: its sequence number as the host has sent it and as it has gone out, and
the change. -/
structure Command where
  seq : ℕ
  sent : ℕ
  change : ℤ
  deriving DecidableEq

/-- The order of sequence numbers, which wrap around. -/
def Precedes (p s : ℕ) : Prop := p ≠ s ∧ (s + 2 ^ 32 - p) % 2 ^ 32 < 2 ^ 31

instance (p s : ℕ) : Decidable (Precedes p s) := inferInstanceAs (Decidable (_ ∧ _))

/-- The total change of some commands. -/
def shift (l : List Command) : ℤ := (l.map Command.change).sum

/-- The commands before a sequence number of the host, and those before one that has gone out. -/
def beforeSeq (l : List Command) (s : ℕ) : List Command := l.filter fun k => Precedes k.seq s
def beforeAck (l : List Command) (a : ℕ) : List Command := l.filter fun k => Precedes k.sent a

/-- The interface, and the commands of every connection that have changed their length since it was set up. -/
structure FtpState where
  imp : ImpDevice
  commands : Conn → List Command

/-- What happens: a packet from the host, one from the network, and the timer. -/
inductive Event where
  | out (g : Segment)
  | into (f : Frame)
  | timer

/-- The part of `imp_timer_task` for an entry of the table. -/
def PortMap.tick (e : PortMap) : PortMap :=
  if e.clsTim = 0 then e
  else if e.clsTim - 1 = 0 then { e with clsTim := 0, sport := 0, dport := 0, adj := 0 }
  else { e with clsTim := e.clsTim - 1 }

namespace FtpState

variable (s : FtpState)

/-- The commands of the connection of a segment from the host. -/
def earlier (g : Segment) : List Command := if g.Syn then [] else s.commands g.connOut

/-- The commands after it: a command that is sent again is the same one. -/
def noted (g : Segment) : List Command :=
  let l := s.earlier g
  if g.IsPort ∧ g.change s.imp.ip.toNat ≠ 0 ∧ ∀ k ∈ l, k.seq ≠ g.seq then
    l ++ [⟨g.seq, ((g.seq + shift (beforeSeq l g.seq)) % 2 ^ 32).toNat, g.change s.imp.ip.toNat⟩]
  else l

/-- A step. -/
def step : Event → FtpState
  | .out g => ⟨{ s.imp with portMap := (packetOut s.imp g.buf ethHdr).1 },
      Function.update s.commands g.connOut (s.noted g)⟩
  | .into f => ⟨(packetIn s.imp f.buf f.len f.mine).1, s.commands⟩
  | .timer => ⟨{ s.imp with portMap := fun n => (s.imp.portMap n).tick }, s.commands⟩

end FtpState

/-- The adjustment that the table has for a connection. -/
def adjOf (m : ℕ → PortMap) (c : Conn) : ℕ := (findPort m c.1 c.2).elim 0 fun n => (m n).adj

/-- **What a segment must become**: it goes out with its sequence number moved by the commands before it, it is
delivered with its acknowledgement moved back by the commands before that, and the adjustments of the other
connections stay. -/
def SequenceKept (s : FtpState) : Event → Prop
  | .out g =>
      (get32 (packetOut s.imp g.buf ethHdr).2 (g.head + 4) : ℤ)
          = (g.seq + shift (beforeSeq (s.earlier g) g.seq)) % 2 ^ 32
        ∧ ∀ c ≠ g.connOut, adjOf (s.step (.out g)).imp.portMap c = adjOf s.imp.portMap c
  | .into f =>
      (∀ n, (packetIn s.imp f.buf f.len f.mine).2 = some n → get32 f.buf (ethHdr + 16) = s.imp.ip.toNat → f.Ack →
        (get32 (packetIn s.imp f.buf f.len f.mine).1.rbuffer (pad s.imp + hl f.buf ethHdr + 8) : ℤ)
          = (f.ack - shift (beforeAck (s.commands f.connIn) f.ack)) % 2 ^ 32)
        ∧ ∀ c ≠ f.connIn, adjOf (s.step (.into f)).imp.portMap c = adjOf s.imp.portMap c
  | .timer => True

/-! ### When the table is right -/

/-- The commands whose change is used for a number: all of the connection that is looked up, when the number is
greater than that of the last. -/
def applied (s : FtpState) (c : Conn) (x : ℕ) : List Command :=
  match findPort s.imp.portMap c.1 c.2 with
  | some n => if (s.imp.portMap n).lseq < x then s.commands c else []
  | none => []

/-- **The table has the right commands** for a segment. From the host: the comparison selects the commands before
it, and a command whose length changes is not one sent again, and finds the entry of its connection or, when the
connection has had no command, the first entry free. From the network: the look up, with the ports of the segment
as they are, selects the commands before the acknowledgement; and there is no command from the server. -/
def Selected (s : FtpState) : Event → Prop
  | .out g =>
      (¬ g.Syn → applied s g.connOut g.seq = beforeSeq (s.commands g.connOut) g.seq)
        ∧ (g.IsPort → g.change s.imp.ip.toNat ≠ 0 → ¬ g.Syn →
          (∀ k ∈ s.commands g.connOut, k.seq ≠ g.seq)
            ∧ ((s.imp.portMap 0).sport = g.sport ∧ (s.imp.portMap 0).dport = g.dport
              ∨ (s.imp.portMap 0).dport = 0 ∧ s.commands g.connOut = []))
  | .into f =>
      get32 f.buf (ethHdr + 16) = s.imp.ip.toNat →
        ¬ FtpIn s.imp (received s.imp f.buf f.len) (pad s.imp)
          ∧ (f.Ack → f.Syn → beforeAck (s.commands f.connIn) f.ack = []
            ∧ (findPort s.imp.portMap f.sport f.dport ≠ none → s.commands f.connOut = []))
          ∧ (f.Ack → ¬ f.Syn → applied s f.connOut f.ack = beforeAck (s.commands f.connIn) f.ack)
  | .timer => True

/-! ### Words -/

lemma get32_lt (buf : Buf) (i : ℕ) : get32 buf i < 2 ^ 32 := by
  have hhigh := get16_lt buf i
  have hlow := get16_lt buf (i + 2)
  rw [get32]
  omega

lemma get32_congr {buf buf' : Buf} {i : ℕ} (h : ∀ j, i ≤ j → j < i + 4 → buf' j = buf j) : get32 buf' i = get32 buf i := by
  rw [get32, get32, get16_congr (h i (by omega) (by omega)) (h _ (by omega) (by omega)),
    get16_congr (h _ (by omega) (by omega)) (h _ (by omega) (by omega))]

/-- A word that has been replaced. -/
lemma get32_replace (buf : Buf) {c i v : ℕ} (hv : v < 2 ^ 32) : get32 (replace buf c i v) i = v := by
  rw [replace, put32, get32, get16_put16 _ (i + 2) (by omega),
    get16_congr (put16_of_ne _ _ (by omega) (by omega)) (put16_of_ne _ _ (by omega) (by omega)),
    get16_put16 _ i (by omega)]
  omega

/-! ### The entry of a connection -/

section Entry

variable (m : ℕ → PortMap) (buf : Buf) (tcp sport dport i : ℕ) (move : ℕ → ℕ → ℕ)

/-- The adjustment that is used for a number. -/
def adjFor (m : ℕ → PortMap) (c : Conn) (x : ℕ) : ℕ :=
  match findPort m c.1 c.2 with
  | some n => if (m n).lseq < x then (m n).adj else 0
  | none => 0

/-- The number is moved by it, but when the connection is set up. -/
lemma usePort_word {move : ℕ → ℕ → ℕ} (hlt : ∀ x a, move x a < 2 ^ 32) (hzero : ∀ x < 2 ^ 32, move x 0 = x) :
    get32 (usePort m buf tcp sport dport i move).2 i
      = if get16 buf (tcp + 12) &&& tcpSyn ≠ 0 then get32 buf i
        else move (get32 buf i) (adjFor m (sport, dport) (get32 buf i)) := by
  have hx := hzero _ (get32_lt buf i)
  rw [usePort, adjFor]
  cases findPort m sport dport with
  | none =>
      show get32 buf i = if _ then _ else move (get32 buf i) 0
      rw [hx, ite_self]
  | some n =>
      simp only
      by_cases hsyn : get16 buf (tcp + 12) &&& tcpSyn ≠ 0
      · rw [if_pos hsyn, if_pos hsyn]
        split_ifs <;> rfl
      · rw [if_neg hsyn, if_neg hsyn]
        by_cases hlast : (m n).lseq < get32 buf i
        · rw [if_pos hlast, if_pos hlast]
          split_ifs <;> exact get32_replace _ (hlt _ _)
        · rw [if_neg hlast, if_neg hlast, hx]
          split_ifs <;> rfl

/-- What becomes of the table: the entry of the connection is cleared when the connection is set up, and
otherwise only its time may change. -/
lemma usePort_table :
    (findPort m sport dport = none ∧ (usePort m buf tcp sport dport i move).1 = m)
      ∨ ∃ n t, findPort m sport dport = some n ∧ (usePort m buf tcp sport dport i move).1
        = Function.update m n (if get16 buf (tcp + 12) &&& tcpSyn ≠ 0 then ⟨0, 0, t, 0, (m n).lseq⟩
          else { m n with clsTim := t }) := by
  rw [usePort]
  cases findPort m sport dport with
  | none => exact .inl ⟨rfl, rfl⟩
  | some n =>
      refine .inr ⟨n, if get16 buf (tcp + 12) &&& tcpFin ≠ 0 then 100 else (m n).clsTim, rfl, ?_⟩
      simp only
      by_cases hsyn : get16 buf (tcp + 12) &&& tcpSyn ≠ 0
      · rw [if_pos hsyn, if_pos hsyn]
        by_cases hfin : get16 buf (tcp + 12) &&& tcpFin ≠ 0
        · rw [if_pos hfin, if_pos hfin]
          simp only [Function.update_idem, Function.update_self]
        · rw [if_neg hfin, if_neg hfin]
      · rw [if_neg hsyn, if_neg hsyn]
        have hsame : Function.update m n { m n with clsTim := (m n).clsTim } = m := Function.update_eq_self n m
        by_cases hlast : (m n).lseq < get32 buf i
        · rw [if_pos hlast]
          by_cases hfin : get16 buf (tcp + 12) &&& tcpFin ≠ 0
          · rw [if_pos hfin, if_pos hfin]
          · rw [if_neg hfin, if_neg hfin, hsame]
        · rw [if_neg hlast]
          by_cases hfin : get16 buf (tcp + 12) &&& tcpFin ≠ 0
          · rw [if_pos hfin, if_pos hfin]
          · rw [if_neg hfin, if_neg hfin, hsame]

end Entry

/-! ### The table -/

/-- An entry that is not in use. -/
def PortMap.Free (e : PortMap) : Prop := e.sport = 0 ∧ e.dport = 0 ∧ e.adj = 0

/-- **The table of a run**: only the first entry is ever in use, by a connection to a server, and it has the total
change of the commands of the connection. -/
structure Kept (m : ℕ → PortMap) (commands : Conn → List Command) : Prop where
  others : ∀ n, n ≠ 0 → n < 64 → (m n).Free
  first : (m 0).Free ∨ (m 0).dport = 21 ∧ ((m 0).adj : ℤ) = shift (commands ((m 0).sport, 21)) % 2 ^ 32
  own : ∀ c : Conn, c.2 ≠ 21 → commands c = []

lemma findPort_some {m : ℕ → PortMap} {sport dport n : ℕ} (h : findPort m sport dport = some n) :
    n < 64 ∧ (m n).sport = sport ∧ (m n).dport = dport := by
  have hp := List.find?_some h
  have hmem := List.mem_range.mp (List.mem_of_find?_eq_some h)
  exact ⟨hmem, of_decide_eq_true hp⟩

/-- The first entry is looked at first. -/
lemma findPort_zero {m : ℕ → PortMap} {sport dport : ℕ} (h : (m 0).sport = sport ∧ (m 0).dport = dport) :
    findPort m sport dport = some 0 :=
  List.find?_cons_of_pos (decide_eq_true h)

section Table

variable {m : ℕ → PortMap} {commands commands' : Conn → List Command} {c : Conn} {n : ℕ}

/-- With the other entries free, the first one has the adjustments. -/
lemma adjOf_eq (hothers : ∀ n, n ≠ 0 → n < 64 → (m n).Free) (c : Conn) :
    adjOf m c = if (m 0).sport = c.1 ∧ (m 0).dport = c.2 then (m 0).adj else 0 := by
  by_cases hfirst : (m 0).sport = c.1 ∧ (m 0).dport = c.2
  · rw [adjOf, findPort_zero hfirst, if_pos hfirst]
    rfl
  · rw [if_neg hfirst, adjOf]
    cases hfind : findPort m c.1 c.2 with
    | none => rfl
    | some n =>
        obtain ⟨hlt, hports⟩ := findPort_some hfind
        have hne : n ≠ 0 := fun hzero => hfirst (hzero ▸ hports)
        exact (hothers n hne hlt).2.2

namespace Kept

variable (hk : Kept m commands)

include hk

/-- The entry that is found for a connection has the total change of its commands. -/
lemma adj_find (h : findPort m c.1 c.2 = some n) : ((m n).adj : ℤ) = shift (commands c) % 2 ^ 32 := by
  obtain ⟨hlt, hsport, hdport⟩ := findPort_some h
  have hfree (hn : (m n).Free) : ((m n).adj : ℤ) = shift (commands c) % 2 ^ 32 := by
    have hzero : c.2 = 0 := hdport.symm.trans hn.2.1
    rw [hk.own c (by omega), hn.2.2]
    rfl
  by_cases hn : n = 0
  · subst hn
    rcases hk.first with hfirst | ⟨hserver, hadj⟩
    · exact hfree hfirst
    · have hc : c = ((m 0).sport, 21) := Prod.ext hsport.symm (hdport.symm.trans hserver)
      rw [hc, hadj]
  · exact hfree (hk.others n hn hlt)

/-- The connection is set up anew. -/
lemma clear (h : findPort m c.1 c.2 = some n) (t l : ℕ) (hsame : ∀ c' ≠ c, commands' c' = commands c')
    (hserver : c.2 ≠ 21 → commands' c = []) : Kept (Function.update m n ⟨0, 0, t, 0, l⟩) commands' := by
  have hfree : PortMap.Free ⟨0, 0, t, 0, l⟩ := ⟨rfl, rfl, rfl⟩
  obtain ⟨-, hsport, hdport⟩ := findPort_some h
  have hown : ∀ c' : Conn, c'.2 ≠ 21 → commands' c' = [] := fun c' hc' => by
    by_cases heq : c' = c
    · rw [heq]
      exact hserver (heq ▸ hc')
    · rw [hsame c' heq, hk.own c' hc']
  refine ⟨fun k hk0 hlt => ?_, ?_, hown⟩
  · rw [Function.update_apply]
    split_ifs
    · exact hfree
    · exact hk.others k hk0 hlt
  · by_cases hn : n = 0
    · rw [hn, Function.update_self]
      exact .inl hfree
    · rw [Function.update_of_ne (Ne.symm hn)]
      refine hk.first.imp_right fun hfirst => ⟨hfirst.1, ?_⟩
      rw [hfirst.2]
      by_cases heq : ((m 0).sport, 21) = c
      · -- the entry would have been found
        have hzero := findPort_zero (m := m) ⟨congrArg Prod.fst heq, hfirst.1.trans (congrArg Prod.snd heq)⟩
        exact absurd (Option.some.inj (h.symm.trans hzero)) hn
      · rw [hsame _ heq]

/-- Nothing else changes with it. -/
lemma reset (h : findPort m c.1 c.2 = none) {l : List Command} (hserver : c.2 ≠ 21 → l = []) :
    Kept m (Function.update commands c l) := by
  refine ⟨hk.others, hk.first.imp_right fun hfirst => ⟨hfirst.1, ?_⟩, fun c' hc' => ?_⟩
  · by_cases heq : ((m 0).sport, 21) = c
    · have hzero := findPort_zero (m := m) ⟨congrArg Prod.fst heq, hfirst.1.trans (congrArg Prod.snd heq)⟩
      rw [h] at hzero
      cases hzero
    · rw [Function.update_of_ne heq, hfirst.2]
  · rw [Function.update_apply]
    split_ifs with heq
    · exact hserver (heq ▸ hc')
    · exact hk.own c' hc'

omit hk in
/-- The time of an entry changes. -/
lemma time_fields (m : ℕ → PortMap) (n t k : ℕ) :
    (Function.update m n { m n with clsTim := t } k).sport = (m k).sport
      ∧ (Function.update m n { m n with clsTim := t } k).dport = (m k).dport
      ∧ (Function.update m n { m n with clsTim := t } k).adj = (m k).adj := by
  by_cases hkn : k = n
  · subst hkn
    rw [Function.update_self]
    exact ⟨rfl, rfl, rfl⟩
  · rw [Function.update_of_ne hkn]
    exact ⟨rfl, rfl, rfl⟩

lemma time (n t : ℕ) : Kept (Function.update m n { m n with clsTim := t }) commands := by
  obtain ⟨hsport, hdport, hadj⟩ := time_fields m n t 0
  refine ⟨fun k hk0 hlt => ?_, ?_, hk.own⟩
  · obtain ⟨hsport', hdport', hadj'⟩ := time_fields m n t k
    rw [PortMap.Free, hsport', hdport', hadj']
    exact hk.others k hk0 hlt
  · rw [PortMap.Free, hsport, hdport, hadj]
    exact hk.first

lemma adjOf_time (n t : ℕ) (c : Conn) : adjOf (Function.update m n { m n with clsTim := t }) c = adjOf m c := by
  obtain ⟨hsport, hdport, hadj⟩ := time_fields m n t 0
  rw [adjOf_eq (hk.time n t).others, adjOf_eq hk.others, hsport, hdport, hadj]

/-- An entry that is cleared has had the adjustment of one connection. -/
lemma adjOf_clear {c' : Conn} (h : findPort m c.1 c.2 = some n) (t l : ℕ) (hother : c' = c → commands c = []) :
    adjOf (Function.update m n ⟨0, 0, t, 0, l⟩) c' = adjOf m c' := by
  have hafter := hk.clear h t l
    (fun _ hne => Function.update_of_ne hne _ _) fun _ => Function.update_self c [] commands
  obtain ⟨-, hsport, hdport⟩ := findPort_some h
  rw [adjOf_eq hafter.others, adjOf_eq hk.others]
  by_cases hn : n = 0
  · subst hn
    rw [Function.update_self]
    by_cases hports : (m 0).sport = c'.1 ∧ (m 0).dport = c'.2
    · have hadj := hk.adj_find h
      rw [hother (Prod.ext (hports.1.symm.trans hsport) (hports.2.symm.trans hdport))] at hadj
      rw [if_pos hports, ite_self, Nat.cast_eq_zero.mp (hadj.trans (by decide))]
    · rw [if_neg hports, ite_self]
  · rw [Function.update_of_ne (Ne.symm hn)]

section Use

variable (buf : Buf) (tcp sport dport i : ℕ) (move : ℕ → ℕ → ℕ)

/-- A segment that does not set up a connection. -/
lemma use (hsyn : ¬ get16 buf (tcp + 12) &&& tcpSyn ≠ 0) :
    Kept (usePort m buf tcp sport dport i move).1 commands
      ∧ (∀ c, adjOf (usePort m buf tcp sport dport i move).1 c = adjOf m c)
      ∧ ((usePort m buf tcp sport dport i move).1 0).sport = (m 0).sport
      ∧ ((usePort m buf tcp sport dport i move).1 0).dport = (m 0).dport := by
  rcases usePort_table m buf tcp sport dport i move with ⟨-, htable⟩ | ⟨n, t, -, htable⟩
  · rw [htable]
    exact ⟨hk, fun _ => rfl, rfl, rfl⟩
  · rw [htable, if_neg hsyn]
    exact ⟨hk.time n t, hk.adjOf_time n t, (time_fields m n t 0).1, (time_fields m n t 0).2.1⟩

/-- A segment that sets up a connection. -/
lemma useSyn (hsyn : get16 buf (tcp + 12) &&& tcpSyn ≠ 0) {l : List Command} (hserver : dport ≠ 21 → l = []) :
    Kept (usePort m buf tcp sport dport i move).1 (Function.update commands (sport, dport) l)
      ∧ ∀ c, (c = (sport, dport) → findPort m sport dport ≠ none → commands (sport, dport) = []) →
        adjOf (usePort m buf tcp sport dport i move).1 c = adjOf m c := by
  rcases usePort_table m buf tcp sport dport i move with ⟨hfind, htable⟩ | ⟨n, t, hfind, htable⟩
  · rw [htable]
    exact ⟨hk.reset (c := (sport, dport)) hfind hserver, fun _ _ => rfl⟩
  · have hfound : findPort m sport dport ≠ none := by
      rw [hfind]
      exact Option.some_ne_none n
    rw [htable, if_pos hsyn]
    refine ⟨hk.clear (c := (sport, dport)) hfind t _ (fun _ hne => Function.update_of_ne hne _ _) fun hne => ?_,
      fun c hc => hk.adjOf_clear (c := (sport, dport)) hfind t _ fun heq => hc heq hfound⟩
    rw [Function.update_self, hserver hne]

end Use

/-- The timer. -/
lemma tick : Kept (fun n => (m n).tick) commands := by
  have hfree {e : PortMap} (he : e.Free) : e.tick.Free := by
    rw [PortMap.tick]
    split_ifs
    · exact he
    · exact ⟨rfl, rfl, rfl⟩
    · exact he
  refine ⟨fun n hn hlt => hfree (hk.others n hn hlt), ?_, hk.own⟩
  rcases hk.first with hfirst | hfirst
  · exact .inl (hfree hfirst)
  · rw [PortMap.tick]
    split_ifs
    · exact .inr hfirst
    · exact .inl ⟨rfl, rfl, rfl⟩
    · exact .inr hfirst

end Kept

/-! ### The slot of a command -/

/-- The search goes on with the first entry when that was free. -/
lemma slotLoop_of_ne {sport dport : ℕ} : ∀ {is : List ℕ}, (∀ i ∈ is, (m i).dport ≠ dport) →
    slotLoop m sport dport is (some 0) = some 0
  | [], _ => rfl
  | i :: is, h => by
      have hno : ¬ ((m i).sport = sport ∧ (m i).dport = dport) := fun hi => h i List.mem_cons_self hi.2
      have hnone : ¬ ((some 0 : Option ℕ) = none ∧ (m i).dport = 0) := fun hi => Option.some_ne_none 0 hi.1
      rw [slotLoop, if_neg hno, if_neg hnone]
      exact slotLoop_of_ne fun j hj => h j (List.mem_cons_of_mem _ hj)

namespace Kept

variable (hk : Kept m commands)

include hk

/-- The first entry is that of the connection, or it is free. -/
lemma slot {sport : ℕ}
    (h : (m 0).sport = sport ∧ (m 0).dport = 21 ∨ (m 0).dport = 0) :
    slotLoop m sport 21 (List.range 64) none = some 0 := by
  rw [List.range_succ_eq_map, slotLoop]
  by_cases hown : (m 0).sport = sport ∧ (m 0).dport = 21
  · rw [if_pos hown]
  · rw [if_neg hown, if_pos ⟨rfl, h.resolve_left hown⟩]
    refine slotLoop_of_ne fun i hi => ?_
    obtain ⟨j, hj, rfl⟩ := List.mem_map.mp hi
    have hlt := List.mem_range.mp hj
    rw [(hk.others (j + 1) (by omega) (by omega)).2.1]
    decide

/-- A command is put into the table. -/
lemma record {sport : ℕ} {change : ℤ} {seq : ℕ} {k : Command} (hchange : k.change = change)
    (h : (m 0).sport = sport ∧ (m 0).dport = 21 ∨ (m 0).dport = 0 ∧ commands (sport, 21) = []) :
    Kept (recordPort m sport 21 change seq)
        (Function.update commands (sport, 21) (commands (sport, 21) ++ [k]))
      ∧ ∀ c ≠ (sport, 21), adjOf (recordPort m sport 21 change seq) c = adjOf m c := by
  have hslot := hk.slot (h.imp_right And.left)
  have htotal : ((m 0).adj : ℤ) = shift (commands (sport, 21)) % 2 ^ 32 := by
    rcases h with hown | ⟨hfree, hnone⟩
    · exact hk.adj_find (c := (sport, 21)) (findPort_zero hown)
    · rcases hk.first with hfirst | hfirst
      · rw [hfirst.2.2, hnone]
        rfl
      · have hserver := hfirst.1
        omega
  rw [recordPort, hslot]
  simp only
  have hothers : ∀ n, n ≠ 0 → n < 64 → (Function.update m 0
      ⟨sport, 21, 0, (((m 0).adj + change) % 2 ^ 32).toNat, seq⟩ n).Free := fun n hn hlt => by
    rw [Function.update_of_ne hn]
    exact hk.others n hn hlt
  refine ⟨⟨hothers, .inr ?_, fun c hc => ?_⟩, fun c hc => ?_⟩
  · rw [Function.update_self]
    refine ⟨rfl, ?_⟩
    show ((((m 0).adj + change) % 2 ^ 32).toNat : ℤ)
      = shift (Function.update commands (sport, 21) _ (sport, 21)) % 2 ^ 32
    rw [Function.update_self, shift, List.map_append, List.sum_append, ← shift, List.map_singleton,
      List.sum_singleton, hchange, htotal]
    omega
  · have hne : c ≠ (sport, 21) := fun heq => hc (congrArg Prod.snd heq)
    rw [Function.update_of_ne hne, hk.own c hc]
  · have hne : ¬ (sport = c.1 ∧ 21 = c.2) := fun heq => hc (Prod.ext heq.1.symm heq.2.symm)
    rw [adjOf_eq hothers, adjOf_eq hk.others, Function.update_self, if_neg hne]
    rcases h with hown | ⟨hfree, -⟩
    · rw [hown.1, hown.2, if_neg hne]
    · rcases hk.first with hfirst | hfirst
      · rw [hfirst.2.2, ite_self]
      · have hserver := hfirst.1
        omega

end Kept

end Table

/-! ### Commands rewritten -/

section Rewritten

variable (m : ℕ → PortMap) (buf : Buf) (b text thl sport dport : ℕ) (l : ℤ) (nip : ℕ) (addrs : Buf → List UInt8)

/-- The sequence number and the acknowledgement stay. -/
lemma ftpPort_word {i : ℕ} (hi : payload buf b ≤ i) (hb : b + 12 ≤ i) (htext : i + 4 ≤ text)
    (hsum : i + 4 ≤ payload buf b + 16) :
    get32 (ftpPort m buf b text thl sport dport l nip addrs).2 i = get32 buf i := by
  have hbytes (j : ℕ) (hj : i ≤ j) (hj' : j < i + 4) (cmd : List UInt8) : putBytes buf text cmd j = buf j := by
    rw [putBytes, if_neg (by omega)]
  refine get32_congr fun j hj hj' => ?_
  rw [ftpPort]
  simp only
  rw [put16_of_ne _ _ (by omega) (by omega), put16_of_ne _ _ (by omega) (by omega),
    adjust_of_ne (by omega) (by omega), put16_of_ne _ _ (by omega) (by omega), put16_of_ne _ _ (by omega) (by omega),
    put16_of_ne _ _ (by omega) (by omega), hbytes j hj hj']

/-- What is put into the table. -/
lemma ftpPort_table (htext : payload buf b + 14 ≤ text) :
    (ftpPort m buf b text thl sport dport l nip addrs).1
      = let change : ℤ := (portCommand nip (bytes buf text l.toNat)).length - l
        if change ≠ 0 ∧ get16 buf (payload buf b + 12) &&& tcpSyn = 0 then
          recordPort m sport dport change (get32 buf (payload buf b + 4))
        else m := by
  have hkept (j : ℕ) (hj : j < text) (cmd : List UInt8) : putBytes buf text cmd j = buf j := by
    rw [putBytes, if_neg (by omega)]
  rw [ftpPort]
  simp only
  rw [get16_congr (hkept _ (by omega) _) (hkept _ (by omega) _),
    get32_congr (i := payload buf b + 4) fun j _ hj' => hkept j (by omega) _]
  exact if_congr (and_congr_left fun _ => sub_ne_zero.symm) rfl rfl

end Rewritten

/-! ### Segments from the host -/

namespace Segment

variable (g : Segment) (imp : ImpDevice)

lemma head_eq : g.head = ethHdr + hl g.buf ethHdr := rfl

lemma textOut_eq : textOut g.buf ethHdr = g.head + thl g.buf ethHdr := rfl

lemma seq_lt : g.seq < 2 ^ 32 := get32_lt _ _

/-- Apart from its checksum and its sequence number a segment stays as it is. -/
lemma seqOut_of_ne {j : ℕ} (hsum : j ≠ g.head + 16) (hsum' : j ≠ g.head + 17) (hseq : j < g.head + 4 ∨ g.head + 8 ≤ j) :
    (seqOut imp g.buf ethHdr).2 j = g.buf j := by
  rcases seqOut_buf imp g.buf ethHdr with hbuf | ⟨w, -, hbuf⟩
  · rw [hbuf]
    exact adjust_of_ne hsum hsum'
  · rw [hbuf, replace_of_disjoint (by rw [head] at hsum hsum'; omega) (by rw [head] at hseq; omega)]
    exact adjust_of_ne hsum hsum'

lemma ftpOut_iff : FtpOut imp g.buf ethHdr ↔ g.IsPort := by
  have hthl := g.thl_ge
  have htext : bytes (seqOut imp g.buf ethHdr).2 (textOut g.buf ethHdr) 5 = bytes g.buf (textOut g.buf ethHdr) 5 :=
    bytes_congr fun j hj _ => by
      rw [g.textOut_eq] at hj
      exact g.seqOut_of_ne imp (by omega) (by omega) (by omega)
  rw [FtpOut, htext]
  exact Iff.rfl

/-- The segment with the checksum that is used for the table. -/
def adjusted : Buf := adjust g.buf (g.head + 16) (bytes g.buf (ethHdr + 12) 4) (bytes32 imp.ip.toNat)

lemma adjusted_flags : get16 (g.adjusted imp) (g.head + 12) = g.flags :=
  get16_congr (adjust_of_ne (by omega) (by omega)) (adjust_of_ne (by omega) (by omega))

lemma adjusted_seq : get32 (g.adjusted imp) (g.head + 4) = g.seq :=
  get32_congr fun _ _ _ => adjust_of_ne (by omega) (by omega)

lemma seqOut_eq : seqOut imp g.buf ethHdr
    = usePort imp.portMap (g.adjusted imp) g.head g.sport g.dport (g.head + 4) fun seq adj => (seq + adj) % 2 ^ 32 :=
  rfl

/-- The sequence number is moved by the adjustment of the table. -/
lemma seqOut_word : get32 (seqOut imp g.buf ethHdr).2 (g.head + 4)
    = if g.Syn then g.seq else (g.seq + adjFor imp.portMap g.connOut g.seq) % 2 ^ 32 := by
  rw [g.seqOut_eq, usePort_word _ _ _ _ _ _ (fun _ _ => Nat.mod_lt _ (by norm_num))
    (fun x hx => by rw [Nat.add_zero, Nat.mod_eq_of_lt hx]), g.adjusted_flags, g.adjusted_seq]
  rfl

lemma seqOut_payload : payload (seqOut imp g.buf ethHdr).2 ethHdr = g.head := by
  have hhl := g.hl_ge
  have hhead := g.head_eq
  rw [payload, hl, g.seqOut_of_ne imp (by omega) (by omega) (by omega)]
  rfl

lemma seqOut_ipLen : ipLen (seqOut imp g.buf ethHdr).2 ethHdr = ipLen g.buf ethHdr := by
  have hhl := g.hl_ge
  have hhead := g.head_eq
  exact get16_congr (g.seqOut_of_ne imp (by omega) (by omega) (by omega))
    (g.seqOut_of_ne imp (by omega) (by omega) (by omega))

/-- Also when it is a command. -/
lemma packetOut_word (hhost : imp.hostip.toNat ≠ 0) :
    get32 (packetOut imp g.buf ethHdr).2 (g.head + 4) = get32 (seqOut imp g.buf ethHdr).2 (g.head + 4) := by
  have hhl := g.hl_ge
  have hhead := g.head_eq
  have hthl := g.thl_ge
  have hpayload := g.seqOut_payload imp
  rw [packetOut, if_pos hhost]
  simp only
  rw [if_pos g.tcp, get32_congr (fun j _ _ => replace_of_disjoint (by lia) (by lia)), tcpOut]
  simp only
  split_ifs with hftp
  · rw [ftpPort_word _ _ _ _ _ _ _ _ _ _ (by omega) (by omega) (by rw [g.textOut_eq]; omega) (by omega)]
  · rfl

/-- The table after a segment. -/
lemma packetOut_table (hhost : imp.hostip.toNat ≠ 0) :
    (packetOut imp g.buf ethHdr).1
      = if g.IsPort ∧ g.change imp.ip.toNat ≠ 0 ∧ ¬ g.Syn then
          recordPort (seqOut imp g.buf ethHdr).1 g.sport g.dport (g.change imp.ip.toNat)
            (get32 (seqOut imp g.buf ethHdr).2 (g.head + 4))
        else (seqOut imp g.buf ethHdr).1 := by
  have hhl := g.hl_ge
  have hhead := g.head_eq
  have hthl := g.thl_ge
  have hlen := g.text_le
  have hpayload := g.seqOut_payload imp
  have htext (n : ℕ) : bytes (seqOut imp g.buf ethHdr).2 (textOut g.buf ethHdr) n = bytes g.buf (textOut g.buf ethHdr) n :=
    bytes_congr fun j hj _ => by
      rw [g.textOut_eq] at hj
      exact g.seqOut_of_ne imp (by omega) (by omega) (by lia)
  have hflags : get16 (seqOut imp g.buf ethHdr).2 (g.head + 12) = g.flags :=
    get16_congr (g.seqOut_of_ne imp (by omega) (by omega) (by omega))
      (g.seqOut_of_ne imp (by omega) (by omega) (by omega))
  have hlength : (g.text.length : ℤ) = ipLen g.buf ethHdr - thl g.buf ethHdr - hl g.buf ethHdr := by
    rw [text, length_bytes]
    lia
  rw [packetOut, if_pos hhost]
  simp only
  rw [if_pos g.tcp, tcpOut]
  simp only
  by_cases hport : g.IsPort
  · rw [if_pos ((g.ftpOut_iff imp).mpr hport), ftpPort_table _ _ _ _ _ _ _ _ _ _ (by rw [g.textOut_eq]; omega)]
    simp only
    rw [g.seqOut_ipLen, ← hlength, Int.toNat_natCast, htext, hpayload, hflags]
    have htextLength : bytes g.buf (textOut g.buf ethHdr) g.text.length = g.text := by
      rw [text, length_bytes]
    rw [htextLength]
    by_cases hchange : g.change imp.ip.toNat ≠ 0 ∧ ¬ g.Syn
    · rw [if_pos ⟨hchange.1, not_not.mp hchange.2⟩, if_pos ⟨hport, hchange⟩]
      rfl
    · rw [if_neg fun h => hchange ⟨h.1, not_not.mpr h.2⟩, if_neg fun h => hchange h.2]
  · rw [if_neg fun h => hport ((g.ftpOut_iff imp).mp h), if_neg fun h => hport h.1]

end Segment

/-! ### Segments to the host -/

namespace Frame

variable (f : Frame) (imp : ImpDevice)

/-- The place of the TCP header in `rbuffer`. -/
def place : ℕ := pad imp + hl f.buf ethHdr

/-- The segment with the checksum that is used for the table. -/
def adjusted : Buf :=
  adjust (received imp f.buf f.len) (f.place imp + 16) (bytes (received imp f.buf f.len) (pad imp + 16) 4)
    (bytes32 imp.hostip.toNat)

lemma payload_eq : payload (received imp f.buf f.len) (pad imp) = f.place imp := by
  have hhl := f.hl_ge
  have hlen := f.text_le
  rw [payload, (fields_copied (received_same imp f.len_ge) (by omega)).1]
  rfl

/-- A field of the header. -/
lemma get16_received {i : ℕ} (hi : i + 2 ≤ 20) :
    get16 (received imp f.buf f.len) (f.place imp + i) = get16 f.buf (f.head + i) := by
  have hthl := f.thl_ge
  have hlen := f.text_le
  rw [place, Nat.add_assoc, get16_copied (received_same imp f.len_ge) (by omega), ← Nat.add_assoc]
  rfl

lemma adjusted_flags : get16 (f.adjusted imp) (f.place imp + 12) = f.flags :=
  (get16_congr (adjust_of_ne (by omega) (by omega)) (adjust_of_ne (by omega) (by omega))).trans
    (f.get16_received imp (by norm_num))

lemma adjusted_ack : get32 (f.adjusted imp) (f.place imp + 8) = f.ack := by
  have hsame : get32 (f.adjusted imp) (f.place imp + 8) = get32 (received imp f.buf f.len) (f.place imp + 8) :=
    get32_congr fun _ _ _ => adjust_of_ne (by omega) (by omega)
  rw [hsame, get32, f.get16_received imp (by norm_num), Nat.add_assoc, f.get16_received imp (by norm_num)]
  rfl

lemma ackIn_eq : ackIn imp (received imp f.buf f.len) (pad imp)
    = if f.Ack then usePort imp.portMap (f.adjusted imp) (f.place imp) f.sport f.dport (f.place imp + 8)
          fun ack adj => (ack + 2 ^ 32 - adj) % 2 ^ 32
      else (imp.portMap, f.adjusted imp) := by
  have hpayload := f.payload_eq imp
  have hsport : get16 (received imp f.buf f.len) (f.place imp) = f.sport := f.get16_received imp (i := 0) (by norm_num)
  have hdport : get16 (received imp f.buf f.len) (f.place imp + 2) = f.dport := f.get16_received imp (by norm_num)
  rw [ackIn, hpayload]
  rw [hsport, hdport, ← adjusted, f.adjusted_flags]
  rfl

lemma get32_dst : get32 (received imp f.buf f.len) (pad imp + 16) = get32 f.buf (ethHdr + 16) := by
  have hhl := f.hl_ge
  have hlen := f.text_le
  rw [get32, get32, get16_copied (received_same imp f.len_ge) (by omega), Nat.add_assoc, Nat.add_assoc,
    get16_copied (received_same imp f.len_ge) (by omega)]

/-- A frame for another address leaves the table alone. -/
lemma packetIn_other (hdst : get32 f.buf (ethHdr + 16) ≠ imp.ip.toNat) :
    (packetIn imp f.buf f.len f.mine).1.portMap = imp.portMap := by
  have hdst' : get32 (received imp f.buf f.len) (pad imp + 16) ≠ imp.ip.toNat := by rwa [f.get32_dst]
  have htranslate : translateIn imp (received imp f.buf f.len) (pad imp)
      = some (imp.portMap, received imp f.buf f.len) := by
    rw [translateIn]
    exact if_neg fun h => hdst' h.1
  rw [packetIn, htranslate]
  simp only
  split_ifs <;> rfl

/-- What is delivered, and the table after it. -/
lemma packetIn_eq (hhost : imp.hostip.toNat ≠ 0) (hdst : get32 f.buf (ethHdr + 16) = imp.ip.toNat)
    (hftp : ¬ FtpIn imp (received imp f.buf f.len) (pad imp)) :
    (packetIn imp f.buf f.len f.mine).1.portMap = (ackIn imp (received imp f.buf f.len) (pad imp)).1
      ∧ ∀ n, (packetIn imp f.buf f.len f.mine).2 = some n →
        get32 (packetIn imp f.buf f.len f.mine).1.rbuffer (f.place imp + 8)
          = get32 (ackIn imp (received imp f.buf f.len) (pad imp)).2 (f.place imp + 8) := by
  have hhl := f.hl_ge
  have hlen := f.text_le
  have hpad : 12 ≤ pad imp := Nat.le_add_right _ _
  have hplace : f.place imp = pad imp + hl f.buf ethHdr := rfl
  have htcp : proto (received imp f.buf f.len) (pad imp) = tcpProto :=
    (fields_copied (received_same imp f.len_ge) (by lia)).2.1.trans f.tcp
  have hudp : proto f.buf ethHdr ≠ udpProto := by
    rw [f.tcp]
    decide
  have htranslate : translateIn imp (received imp f.buf f.len) (pad imp)
      = some ((ackIn imp (received imp f.buf f.len) (pad imp)).1,
        replace (ackIn imp (received imp f.buf f.len) (pad imp)).2 (pad imp + 10) (pad imp + 16) imp.hostip.toNat) := by
    rw [translateIn, if_pos ⟨(f.get32_dst imp).trans hdst, hhost⟩]
    simp only
    rw [if_pos htcp, tcpIn]
    simp only
    rw [if_neg hftp]
  rw [packetIn, htranslate]
  simp only
  rw [if_neg fun h => hudp h.2.1, if_pos (.inl hdst)]
  split_ifs
  · refine ⟨rfl, fun n _ => get32_congr fun j _ _ => ?_⟩
    show leaderFor _ _ _ j = _
    rw [leaderFor_of_ge _ _ _ (by lia), replace_of_disjoint (by lia) (by lia)]
  · refine ⟨rfl, fun n h => ?_⟩
    cases h

/-- The acknowledgement is moved back by the adjustment of the table. -/
lemma ackIn_word (hack : f.Ack) : get32 (ackIn imp (received imp f.buf f.len) (pad imp)).2 (f.place imp + 8)
    = if f.Syn then f.ack else (f.ack + 2 ^ 32 - adjFor imp.portMap f.connOut f.ack) % 2 ^ 32 := by
  rw [f.ackIn_eq, if_pos hack, usePort_word _ _ _ _ _ _ (fun _ _ => Nat.mod_lt _ (by norm_num))
    (fun x hx => by rw [Nat.sub_zero, Nat.add_mod_right, Nat.mod_eq_of_lt hx]), f.adjusted_flags, f.adjusted_ack]
  rfl

end Frame

/-! ### Runs -/

section Runs

variable {s : FtpState}

lemma applied_shift (hk : Kept s.imp.portMap s.commands) (c : Conn) (x : ℕ) :
    (adjFor s.imp.portMap c x : ℤ) = shift (applied s c x) % 2 ^ 32 := by
  rw [adjFor, applied]
  cases hfind : findPort s.imp.portMap c.1 c.2 with
  | none => rfl
  | some n =>
      simp only
      split_ifs
      · exact hk.adj_find hfind
      · rfl

/-- A segment from the host keeps the table, and the adjustments of other connections. -/
lemma out_kept (hhost : s.imp.hostip.toNat ≠ 0) (hk : Kept s.imp.portMap s.commands) {g : Segment}
    (hok : Selected s (.out g)) :
    Kept (s.step (.out g)).imp.portMap (s.step (.out g)).commands
      ∧ ∀ c ≠ g.connOut, adjOf (s.step (.out g)).imp.portMap c = adjOf s.imp.portMap c := by
  show Kept (packetOut s.imp g.buf ethHdr).1 (Function.update s.commands g.connOut (s.noted g))
    ∧ ∀ c ≠ g.connOut, adjOf (packetOut s.imp g.buf ethHdr).1 c = adjOf s.imp.portMap c
  rw [g.packetOut_table _ hhost]
  have hflags := g.adjusted_flags s.imp
  by_cases hsyn : g.Syn
  · have hserver : g.dport ≠ 21 → s.noted g = [] := fun hne => by
      rw [FtpState.noted, FtpState.earlier, if_pos hsyn]
      exact if_neg fun h => hne h.1.1
    rw [if_neg fun h => h.2.2 hsyn, g.seqOut_eq]
    obtain ⟨hkept, hadj⟩ := hk.useSyn (g.adjusted s.imp) g.head g.sport g.dport (g.head + 4)
      (fun seq adj => (seq + adj) % 2 ^ 32) (by rw [hflags]; exact hsyn) hserver
    exact ⟨hkept, fun c hc => hadj c fun heq => absurd heq hc⟩
  · obtain ⟨hkept, hadj, hsport, hdport⟩ := hk.use (g.adjusted s.imp) g.head g.sport g.dport (g.head + 4)
      (fun seq adj => (seq + adj) % 2 ^ 32) (by rw [hflags]; exact hsyn)
    rw [← g.seqOut_eq] at hkept hadj hsport hdport
    have hearlier : s.earlier g = s.commands g.connOut := if_neg hsyn
    by_cases hport : g.IsPort ∧ g.change s.imp.ip.toNat ≠ 0
    · -- the command is new, and its slot is that of the connection
      obtain ⟨hnew, hslot⟩ := hok.2 hport.1 hport.2 hsyn
      have hconn : g.connOut = (g.sport, 21) := Prod.ext rfl hport.1.1
      rw [hport.1.1] at hslot
      rw [if_pos ⟨hport.1, hport.2, hsyn⟩, FtpState.noted, hearlier, if_pos ⟨hport.1, hport.2, hnew⟩, hconn, hport.1.1]
      rw [hconn] at hslot
      obtain ⟨hkept', hadj'⟩ := hkept.record
        (k := ⟨g.seq, ((g.seq + shift (beforeSeq (s.commands (g.sport, 21)) g.seq)) % 2 ^ 32).toNat, _⟩) rfl
        (by rwa [hsport, hdport])
      exact ⟨hkept', fun c hc => (hadj' c hc).trans (hadj c)⟩
    · rw [if_neg fun h => hport ⟨h.1, h.2.1⟩, FtpState.noted, hearlier, if_neg fun h => hport ⟨h.1, h.2.1⟩,
        Function.update_eq_self]
      exact ⟨hkept, fun c _ => hadj c⟩

/-- The parts of a state. -/
lemma parts_of {imp : ImpDevice} {commands : Conn → List Command} {s : FtpState} (h : s = ⟨imp, commands⟩) :
    s.imp = imp ∧ s.commands = commands := by
  subst h
  exact ⟨rfl, rfl⟩

/-- So does one to the host. -/
lemma into_kept (hhost : s.imp.hostip.toNat ≠ 0) (hk : Kept s.imp.portMap s.commands) {f : Frame}
    (hok : Selected s (.into f)) :
    Kept (s.step (.into f)).imp.portMap (s.step (.into f)).commands
      ∧ ∀ c ≠ f.connIn, adjOf (s.step (.into f)).imp.portMap c = adjOf s.imp.portMap c := by
  have hstep : s.step (.into f) = ⟨(packetIn s.imp f.buf f.len f.mine).1, s.commands⟩ := rfl
  obtain ⟨himp, hcommands⟩ := parts_of hstep
  rw [himp, hcommands]
  by_cases hdst : get32 f.buf (ethHdr + 16) = s.imp.ip.toNat
  · obtain ⟨hftp, hset, -⟩ := hok hdst
    have hflags := f.adjusted_flags s.imp
    rw [(f.packetIn_eq _ hhost hdst hftp).1, f.ackIn_eq]
    by_cases hack : f.Ack
    · rw [if_pos hack]
      by_cases hsyn : f.Syn
      · -- an entry that is cleared has no commands
        obtain ⟨-, hnone⟩ := hset hack hsyn
        have hlist : f.dport ≠ 21 → s.commands f.connOut = [] := fun hne => hk.own _ hne
        obtain ⟨hkept, hadj⟩ := hk.useSyn (f.adjusted s.imp) (f.place s.imp) f.sport f.dport (f.place s.imp + 8)
          (fun ack adj => (ack + 2 ^ 32 - adj) % 2 ^ 32) (by rw [hflags]; exact hsyn) hlist
        rw [show (f.sport, f.dport) = f.connOut from rfl, Function.update_eq_self] at hkept
        exact ⟨hkept, fun c _ => hadj c fun _ => hnone⟩
      · obtain ⟨hkept, hadj, -⟩ := hk.use (f.adjusted s.imp) (f.place s.imp) f.sport f.dport (f.place s.imp + 8)
          (fun ack adj => (ack + 2 ^ 32 - adj) % 2 ^ 32) (by rw [hflags]; exact hsyn)
        exact ⟨hkept, fun c _ => hadj c⟩
    · rw [if_neg hack]
      exact ⟨hk, fun _ _ => rfl⟩
  · rw [f.packetIn_other _ hdst]
    exact ⟨hk, fun _ _ => rfl⟩

/-- A step keeps the table. -/
lemma step_kept (hhost : s.imp.hostip.toNat ≠ 0) (hk : Kept s.imp.portMap s.commands) {e : Event}
    (hok : Selected s e) : Kept (s.step e).imp.portMap (s.step e).commands := by
  cases e with
  | out g => exact (out_kept hhost hk hok).1
  | into f => exact (into_kept hhost hk hok).1
  | timer => exact hk.tick

/-- What goes out has its sequence number moved by the commands before it. -/
lemma out_word (hhost : s.imp.hostip.toNat ≠ 0) (hk : Kept s.imp.portMap s.commands) {g : Segment}
    (hok : Selected s (.out g)) :
    (get32 (packetOut s.imp g.buf ethHdr).2 (g.head + 4) : ℤ)
      = (g.seq + shift (beforeSeq (s.earlier g) g.seq)) % 2 ^ 32 := by
  have hseq := g.seq_lt
  rw [g.packetOut_word _ hhost, g.seqOut_word, FtpState.earlier]
  by_cases hsyn : g.Syn
  · have hnone : shift (beforeSeq [] g.seq) = 0 := rfl
    rw [if_pos hsyn, if_pos hsyn, hnone]
    omega
  · have hshift := applied_shift hk g.connOut g.seq
    rw [hok.1 hsyn] at hshift
    rw [if_neg hsyn, if_neg hsyn]
    omega

/-- What is delivered has its acknowledgement moved back. -/
lemma into_word (hhost : s.imp.hostip.toNat ≠ 0) (hk : Kept s.imp.portMap s.commands) {f : Frame}
    (hok : Selected s (.into f)) {n : ℕ} (hin : (packetIn s.imp f.buf f.len f.mine).2 = some n)
    (hdst : get32 f.buf (ethHdr + 16) = s.imp.ip.toNat) (hack : f.Ack) :
    (get32 (packetIn s.imp f.buf f.len f.mine).1.rbuffer (f.place s.imp + 8) : ℤ)
      = (f.ack - shift (beforeAck (s.commands f.connIn) f.ack)) % 2 ^ 32 := by
  have hlt : f.ack < 2 ^ 32 := get32_lt _ _
  obtain ⟨hftp, hset, hmoved⟩ := hok hdst
  rw [(f.packetIn_eq _ hhost hdst hftp).2 n hin, f.ackIn_word _ hack]
  by_cases hsyn : f.Syn
  · rw [if_pos hsyn, (hset hack hsyn).1, show shift [] = 0 from rfl]
    omega
  · have hshift := applied_shift hk f.connOut f.ack
    rw [hmoved hack hsyn] at hshift
    rw [if_neg hsyn]
    omega

/-- The addresses stay. -/
lemma step_hostip (e : Event) : (s.step e).imp.hostip = s.imp.hostip := by
  cases e with
  | out g => rfl
  | timer => rfl
  | into f =>
      have hstep : s.step (.into f) = ⟨(packetIn s.imp f.buf f.len f.mine).1, s.commands⟩ := rfl
      rw [(parts_of hstep).1, packetIn]
      cases translateIn s.imp (received s.imp f.buf f.len) (pad s.imp) <;> simp only <;> split_ifs <;> rfl

end Runs

/-- **Sequence numbers of FTP connections**: in every run from an empty table in which the table has the right
commands for every segment, the segments go out and are delivered with the numbers they must have, and the
adjustments of other connections stay. -/
theorem sequence_kept {imp : ImpDevice} (hhost : imp.hostip.toNat ≠ 0)
    (hfresh : ∀ n < 64, imp.portMap n = ⟨0, 0, 0, 0, 0⟩) {s : FtpState}
    (h : Reaches (ofFun FtpState.step) Selected ⟨imp, fun _ => []⟩ s) {e : Event} (hok : Selected s e) :
    SequenceKept s e := by
  have hfree (n : ℕ) (hn : n < 64) : (imp.portMap n).Free := by
    rw [hfresh n hn]
    exact ⟨rfl, rfl, rfl⟩
  obtain ⟨hk, hhost'⟩ := h.invariant
    (I := fun s => Kept s.imp.portMap s.commands ∧ s.imp.hostip.toNat ≠ 0)
    ⟨⟨fun n _ hn => hfree n hn, .inl (hfree 0 (by norm_num)), fun _ _ => rfl⟩, hhost⟩
    fun s e s' hI hok hstep => by
      obtain rfl : s.step e = s' := hstep
      exact ⟨step_kept hI.2 hI.1 hok, by rw [step_hostip]; exact hI.2⟩
  cases e with
  | out g => exact ⟨out_word hhost' hk hok, (out_kept hhost' hk hok).2⟩
  | into f => exact ⟨fun n hin hdst hack => into_word hhost' hk hok hin hdst hack, (into_kept hhost' hk hok).2⟩
  | timer => trivial

/-! ### A command that becomes longer -/

/-- An interface whose host is 10.3.0.6, known as 10.0.0.12. -/
def ftpDevice : ImpDevice := ⟨0xa00000c, 0xa030006, fun _ => ⟨0, 0, 0, 0, 0⟩, 0, 6, fun _ => 0⟩

/-- The command `PORT 10,3,0,6,4,1` in a segment with the sequence number 100, a segment after it, and one that
acknowledges the command as it has gone out. -/
def portSegment : Segment where
  buf := ofList [0, 0, 0, 0, 0, 0, 0, 0, 0, 0, 0, 0, 0, 0, 69, 0, 0, 59, 0, 0, 0, 0, 64, 6, 108, 175, 10, 3, 0, 6, 1,
    2, 3, 4, 4, 1, 0, 21, 0, 0, 0, 100, 0, 0, 0, 1, 80, 24, 0, 0, 161, 113, 0, 0, 80, 79, 82, 84, 32, 49, 48, 44, 51,
    44, 48, 44, 54, 44, 52, 44, 49, 13, 10]
  tcp := by decide +kernel
  hl_ge := by decide +kernel
  thl_ge := by decide +kernel
  text_le := by decide +kernel

def nextSegment : Segment where
  buf := ofList [0, 0, 0, 0, 0, 0, 0, 0, 0, 0, 0, 0, 0, 0, 69, 0, 0, 40, 0, 0, 0, 0, 64, 6, 108, 194, 10, 3, 0, 6, 1,
    2, 3, 4, 4, 1, 0, 21, 0, 0, 0, 119, 0, 0, 0, 1, 80, 16, 0, 0, 157, 56, 0, 0]
  tcp := by decide +kernel
  hl_ge := by decide +kernel
  thl_ge := by decide +kernel
  text_le := by decide +kernel

def ackFrame : Frame where
  buf := ofList [0, 0, 0, 0, 0, 0, 0, 0, 0, 0, 0, 0, 0, 0, 69, 0, 0, 40, 0, 0, 0, 0, 64, 6, 108, 191, 1, 2, 3, 4, 10,
    0, 0, 12, 0, 21, 4, 1, 0, 0, 0, 1, 0, 0, 0, 120, 80, 16, 0, 0, 157, 52, 0, 0]
  tcp := by decide +kernel
  hl_ge := by decide +kernel
  thl_ge := by decide +kernel
  text_le := by decide +kernel
  len := 54
  len_ge := by decide +kernel
  mine := true

/-- The state before the command, and after it. -/
def ftpStart : FtpState := ⟨ftpDevice, fun _ => []⟩
def ftpSent : FtpState := ftpStart.step (.out portSegment)

theorem sequence_kept_port : SequenceKept ftpSent (.out nextSegment) := by
  have hport : Selected ftpStart (.out portSegment) := by
    constructor <;> decide
  have hnext : Selected ftpSent (.out nextSegment) := by
    constructor <;> decide +kernel
  exact sequence_kept (by decide) (fun _ _ => rfl) (.next .start hport rfl) hnext

/-- The acknowledgement of the command is not moved back. -/
theorem acknowledgement_not_moved : ¬ ∀ (imp : ImpDevice), imp.hostip.toNat ≠ 0 →
    (∀ n < 64, imp.portMap n = ⟨0, 0, 0, 0, 0⟩) → ∀ s, Reaches (ofFun FtpState.step) anyStep ⟨imp, fun _ => []⟩ s →
      ∀ e, SequenceKept s e := by
  intro h
  have hsent : Reaches (ofFun FtpState.step) anyStep ftpStart ftpSent := .next .start trivial rfl
  have hack := (h ftpDevice (by decide) (fun _ _ => rfl) ftpSent hsent (.into ackFrame)).1 52 (by decide +kernel)
    (by decide) (by decide)
  exact absurd hack (by decide +kernel)

end Ka10Simh.Imp
