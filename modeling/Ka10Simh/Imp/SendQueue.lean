import Ka10Simh.Lib.Links
import Ka10Simh.Imp.Packet

/-!
The packets that wait for an address.

A packet whose next hop has no known hardware address is put into one of the eight buffers of `imp_buffer`, which are
on the list `freeq` or on the list `sendq`. `imp_arp_arpin` and `imp_timer_task` go through the second list and put
what is left of it together again, the other way around.

* `Queues`: the buffers and the two lists.
* `scan`: the loop of both functions.
* `Lists`: every buffer is on one of the lists, once.
* `scan_lists`: what a loop leaves, and what it sends.
-/

namespace Ka10Simh.Imp.SendQueue

open Links

/-- The packet in a buffer: the bytes of its frame up to its length, its destination and the ticks it waits. -/
structure Letter where
  packet : List UInt8
  dest : ℕ
  life : ℤ

/-- A buffer: `struct imp_packet`. -/
structure ImpPacket extends Letter where
  next : Option (Fin 8)

/-- The calls of `imp_write`: a packet that goes out at once, one that has waited, and one of ARP. -/
inductive Cause
  | direct
  | queued
  | arp
  deriving DecidableEq

/-- `imp_buffer` with `sendq` and `freeq`, the number of pending RFNMs and the frames that have been written. -/
structure Queues where
  buffer : Fin 8 → ImpPacket
  sendq : Option (Fin 8)
  freeq : Option (Fin 8)
  rfnmCount : ℕ
  sent : List (Cause × List UInt8)

/-- What C leaves undefined: a pointer that is null, a number of bytes that a buffer does not have, and a list that
does not end. -/
inductive Fault
  | null
  | length
  | endless
  deriving DecidableEq

section Model

/-- `imp_get_packet`. -/
def getPacket (q : Queues) : Option (Fin 8) × Queues :=
  match q.freeq with
  | none => (none, q)
  | some p =>
      (some p, { q with
        freeq := (q.buffer p).next, buffer := Function.update q.buffer p { q.buffer p with next := none } })

/-- `imp_free_packet`. -/
def freePacket (q : Queues) (p : Fin 8) : Queues :=
  { q with buffer := Function.update q.buffer p { q.buffer p with next := q.freeq }, freeq := some p }

/-- The part of `imp_packet_out` that queues a packet. -/
def queuePacket (packet : List UInt8) (dest : ℕ) (q : Queues) : Except Fault Queues :=
  match getPacket q with
  | (none, _) => .error .null
  | (some p, q) =>
      .ok { q with
        buffer := Function.update q.buffer p { next := q.sendq, packet, dest, life := 1000 }, sendq := some p }

/-- What is done with a packet of the send queue: what becomes of it, the frames that are written, and whether its
buffer is freed. -/
structure Visit where
  letter : Letter
  out : List (List UInt8)
  done : Bool

/-- The loop through the send queue, with the new one `nq`. -/
def scan (visit : Letter → Visit) : ℕ → Option (Fin 8) → Queues → Except Fault Queues
  | 0, _, _ => .error .endless
  | fuel + 1, nq, q =>
      match q.sendq with
      | none => .ok { q with sendq := nq }
      | some p =>
          let v := visit (q.buffer p).toLetter
          let q := { q with
            sendq := (q.buffer p).next
            buffer := Function.update q.buffer p { v.letter with next := (q.buffer p).next }
            rfnmCount := q.rfnmCount + v.out.length
            sent := q.sent ++ v.out.map (Prod.mk .queued) }
          if v.done = true then scan visit fuel nq (freePacket q p)
          else
            scan visit fuel (some p)
              { q with buffer := Function.update q.buffer p { q.buffer p with next := nq } }

/-- A packet in `imp_timer_task`. -/
def tick (l : Letter) : Visit where
  letter := { l with life := l.life - 1 }
  out := []
  done := l.life - 1 = 0

/-- A frame with its addresses and its type. -/
def address (dest src frame : List UInt8) : List UInt8 := dest ++ src ++ bytes16 0x0800 ++ frame.drop 14

/-- A packet in `imp_arp_arpin`, with a reply of `sipaddr`. -/
def deliver (sipaddr : ℕ) (shwaddr mac : List UInt8) (l : Letter) : Visit :=
  if l.dest = sipaddr then
    { letter := { l with packet := address shwaddr mac l.packet }
      out := [address shwaddr mac l.packet]
      done := true }
  else { letter := l, out := [], done := false }

/-- The parts of `imp_timer_task` and of `imp_arp_arpin` with the send queue: nine rounds are enough for eight
buffers. -/
def timerQueue : Queues → Except Fault Queues := scan tick 9 none
def replyQueue (sipaddr : ℕ) (shwaddr mac : List UInt8) : Queues → Except Fault Queues :=
  scan (deliver sipaddr shwaddr mac) 9 none

/-- The part of `imp_reset` with the buffers. -/
def resetQueues (q : Queues) : Queues :=
  { q with
    buffer := fun p ↦ { q.buffer p with next := if p = 0 then none else some (p - 1) }, sendq := none, freeq := some 7 }

end Model

/-! ### Lists -/

section Lists

variable {q : Queues} {p : Fin 8} {free wait : List (Fin 8)}

/-- The links of the buffers, and the packets in some of them. -/
def links (q : Queues) (p : Fin 8) : Option (Fin 8) := (q.buffer p).next
def letters (q : Queues) (l : List (Fin 8)) : List Letter := l.map fun p ↦ (q.buffer p).toLetter

/-- The free list and the send queue, with every buffer on one of them, once. -/
structure Lists (q : Queues) (free wait : List (Fin 8)) : Prop where
  freed : Chain (links q) q.freeq free
  queued : Chain (links q) q.sendq wait
  all : (free ++ wait).Perm (List.finRange 8)

lemma links_update (f : Fin 8 → ImpPacket) (p : Fin 8) (b : ImpPacket) :
    (fun r ↦ (Function.update f p b r).next) = Function.update (fun r ↦ (f r).next) p b.next := by
  funext r
  rw [Function.update_apply, Function.update_apply]
  split_ifs <;> rfl

lemma letters_cons (q : Queues) (p : Fin 8) (l : List (Fin 8)) :
    letters q (p :: l) = (q.buffer p).toLetter :: letters q l := rfl

/-- A round of the loop with a packet whose buffer is freed, and one with a packet that is kept. -/
lemma scan_done {visit : Letter → Visit} (fuel : ℕ) (nq : Option (Fin 8)) (hsend : q.sendq = some p)
    (hdone : (visit (q.buffer p).toLetter).done = true) :
    ∃ q₁ b, scan visit (fuel + 1) nq q = scan visit fuel nq q₁ ∧ q₁.buffer = Function.update q.buffer p b
      ∧ b.next = q.freeq ∧ q₁.freeq = some p ∧ q₁.sendq = links q p
      ∧ q₁.sent = q.sent ++ (visit (q.buffer p).toLetter).out.map (Prod.mk .queued) := by
  rw [scan, hsend]
  dsimp only
  rw [if_pos hdone, freePacket]
  refine ⟨_, { (visit (q.buffer p).toLetter).letter with next := q.freeq }, rfl, ?_, rfl, rfl, rfl, rfl⟩
  dsimp only
  rw [Function.update_self, Function.update_idem]

lemma scan_kept {visit : Letter → Visit} (fuel : ℕ) (nq : Option (Fin 8)) (hsend : q.sendq = some p)
    (hdone : ¬ (visit (q.buffer p).toLetter).done = true) :
    ∃ q₁ b, scan visit (fuel + 1) nq q = scan visit fuel (some p) q₁ ∧ q₁.buffer = Function.update q.buffer p b
      ∧ b.toLetter = (visit (q.buffer p).toLetter).letter ∧ b.next = nq ∧ q₁.freeq = q.freeq ∧ q₁.sendq = links q p
      ∧ q₁.sent = q.sent ++ (visit (q.buffer p).toLetter).out.map (Prod.mk .queued) := by
  rw [scan, hsend]
  dsimp only
  rw [if_neg hdone]
  refine ⟨_, { (visit (q.buffer p).toLetter).letter with next := nq }, rfl, ?_, rfl, rfl, rfl, rfl, rfl⟩
  dsimp only
  rw [Function.update_self, Function.update_idem]

lemma links_set {l : List (Fin 8)} {head : Option (Fin 8)} {q' : Queues} {b : ImpPacket}
    (h : Chain (links q) head l) (hbuffer : q'.buffer = Function.update q.buffer p b) (hout : p ∉ l) :
    Chain (links q') head l := by
  refine h.congr fun r hr ↦ ?_
  rw [links, hbuffer, Function.update_of_ne (ne_of_mem_of_not_mem hr hout)]
  rfl

lemma links_push {l : List (Fin 8)} {q' : Queues} {b : ImpPacket}
    (h : Chain (links q) b.next l) (hbuffer : q'.buffer = Function.update q.buffer p b) (hout : p ∉ l) :
    Chain (links q') (some p) (p :: l) := by
  refine ⟨rfl, ?_⟩
  rw [links, hbuffer, Function.update_self]
  exact links_set h hbuffer hout

lemma letters_set {l : List (Fin 8)} {q' : Queues} {b : ImpPacket}
    (hbuffer : q'.buffer = Function.update q.buffer p b) (hout : p ∉ l) : letters q' l = letters q l := by
  refine List.map_congr_left fun r hr ↦ ?_
  rw [hbuffer, Function.update_of_ne (ne_of_mem_of_not_mem hr hout)]

/-- What is kept of a packet. -/
def Visit.kept (v : Visit) : Option Letter := if v.done = true then none else some v.letter

/-- The lists within the loop: what is freed, what has been kept and what is still to come. -/
structure Scanning (q : Queues) (nq : Option (Fin 8)) (free kept rest : List (Fin 8)) : Prop where
  freed : Chain (links q) q.freeq free
  held : Chain (links q) nq kept
  queued : Chain (links q) q.sendq rest
  all : (free ++ (kept ++ rest)).Perm (List.finRange 8)

/-- **A loop visits every packet of the send queue once.** It ends, every buffer is on one of the lists again, and the
send queue has the packets that are kept. -/
theorem scan_lists {visit : Letter → Visit} {fuel : ℕ} {nq : Option (Fin 8)} {kept rest : List (Fin 8)}
    (h : Scanning q nq free kept rest) (hfuel : rest.length < fuel) :
    ∃ q' free' wait', scan visit fuel nq q = .ok q' ∧ Lists q' free' wait'
      ∧ (letters q' wait').Perm (letters q kept ++ (letters q rest).filterMap fun l ↦ (visit l).kept)
      ∧ q'.sent = q.sent ++ (letters q rest).flatMap fun l ↦ (visit l).out.map (Prod.mk .queued) := by
  induction rest generalizing q nq free kept fuel with
  | nil =>
      obtain ⟨fuel, rfl⟩ := Nat.exists_eq_add_of_le' (show 1 ≤ fuel from hfuel)
      have hnone : q.sendq = none := h.queued
      refine ⟨{ q with sendq := nq }, free, kept, ?_, ⟨h.freed, h.held, ?_⟩, ?_, ?_⟩
      · rw [scan, hnone]
      · have hall := h.all
        rwa [List.append_nil] at hall
      · exact List.Perm.of_eq (List.append_nil _).symm
      · exact (List.append_nil _).symm
  | cons p rest ih =>
      obtain ⟨fuel, rfl⟩ := Nat.exists_eq_add_of_le' (show 1 ≤ fuel by omega)
      have hnodup : (p :: (free ++ (kept ++ rest))).Nodup := by
        refine (List.Perm.nodup_iff ?_).mpr (h.all.nodup_iff.mpr (List.nodup_finRange 8))
        rw [← List.append_assoc, ← List.append_assoc]
        exact List.perm_middle.symm
      have hout := (List.nodup_cons.mp hnodup).1
      simp only [List.mem_append, not_or] at hout
      obtain ⟨hfreep, hkeptp, hrestp⟩ := hout
      have hsend : q.sendq = some p := h.queued.1
      have hrest : Chain (links q) (links q p) rest := h.queued.2
      rw [letters_cons, List.filterMap_cons, List.flatMap_cons, ← List.append_assoc, Visit.kept]
      by_cases hdone : (visit (q.buffer p).toLetter).done = true
      · obtain ⟨q₁, b, hscan, hbuffer, hnext, hfreeq, hsendq, hsent⟩ :=
          scan_done fuel nq hsend hdone
        have hscanning : Scanning q₁ nq (p :: free) kept rest := by
          refine ⟨?_, links_set h.held hbuffer hkeptp, ?_, ?_⟩
          · rw [hfreeq]
            exact links_push (hnext ▸ h.freed) hbuffer hfreep
          · rw [hsendq]
            exact links_set hrest hbuffer hrestp
          · refine List.Perm.trans ?_ h.all
            rw [← List.append_assoc, ← List.append_assoc]
            exact List.perm_middle.symm
        obtain ⟨q', free', wait', hrun, hlists, hletters, hout⟩ := ih hscanning (by simpa using hfuel)
        rw [letters_set hbuffer hkeptp, letters_set hbuffer hrestp] at hletters
        rw [letters_set hbuffer hrestp, hsent] at hout
        rw [if_pos hdone]
        exact ⟨q', free', wait', hscan.trans hrun, hlists, hletters, hout⟩
      · obtain ⟨q₁, b, hscan, hbuffer, hletter, hnext, hfreeq, hsendq, hsent⟩ :=
          scan_kept fuel nq hsend hdone
        have hscanning : Scanning q₁ (some p) free (p :: kept) rest := by
          refine ⟨?_, links_push (hnext ▸ h.held) hbuffer hkeptp, ?_, ?_⟩
          · rw [hfreeq]
            exact links_set h.freed hbuffer hfreep
          · rw [hsendq]
            exact links_set hrest hbuffer hrestp
          · exact (List.Perm.append_left free List.perm_middle.symm).trans h.all
        obtain ⟨q', free', wait', hrun, hlists, hletters, hout⟩ := ih hscanning (by simpa using hfuel)
        rw [letters_cons, letters_set hbuffer hkeptp, letters_set hbuffer hrestp, hbuffer, Function.update_self,
          hletter] at hletters
        rw [letters_set hbuffer hrestp, hsent] at hout
        rw [if_neg hdone]
        exact ⟨q', free', wait', hscan.trans hrun, hlists, hletters.trans List.perm_middle.symm, hout⟩

lemma Lists.length (h : Lists q free wait) : free.length + wait.length = 8 := by
  rw [← List.length_append, h.all.length_eq, List.length_finRange]

lemma Lists.scan (h : Lists q free wait) (visit : Letter → Visit) :
    ∃ q' free' wait', scan visit 9 none q = .ok q' ∧ Lists q' free' wait'
      ∧ (letters q' wait').Perm ((letters q wait).filterMap fun l ↦ (visit l).kept)
      ∧ q'.sent = q.sent ++ (letters q wait).flatMap fun l ↦ (visit l).out.map (Prod.mk .queued) := by
  have hlength := h.length
  have hscanning : Scanning q none free [] wait := ⟨h.freed, rfl, h.queued, h.all⟩
  exact scan_lists hscanning (by omega)

/-- A packet that is queued while there is a free buffer. -/
lemma Lists.queue (h : Lists q free wait) (hfree : free ≠ []) (packet : List UInt8) (dest : ℕ) :
    ∃ q' p free', queuePacket packet dest q = .ok q' ∧ Lists q' free' (p :: wait)
      ∧ letters q' (p :: wait) = ⟨packet, dest, 1000⟩ :: letters q wait ∧ q'.sent = q.sent
      ∧ q'.rfnmCount = q.rfnmCount := by
  obtain ⟨p, free, rfl⟩ := List.exists_cons_of_ne_nil hfree
  have hnodup := h.all.nodup_iff.mpr (List.nodup_finRange 8)
  have hout : p ∉ free ++ wait := (List.nodup_cons.mp hnodup).1
  rw [List.mem_append, not_or] at hout
  have hhead : q.freeq = some p := h.freed.1
  have hrest : Chain (links q) (links q p) free := h.freed.2
  rw [queuePacket, getPacket, hhead]
  dsimp only
  rw [Function.update_idem]
  refine ⟨_, p, free, rfl, ⟨links_set hrest rfl hout.1, links_push h.queued rfl hout.2, ?_⟩, ?_, rfl, rfl⟩
  · exact List.perm_middle.trans h.all
  · rw [letters_cons, letters_set rfl hout.2]
    dsimp only
    rw [Function.update_self]

lemma reset_lists (q : Queues) : Lists (resetQueues q) [7, 6, 5, 4, 3, 2, 1, 0] [] :=
  ⟨⟨rfl, rfl, rfl, rfl, rfl, rfl, rfl, rfl, rfl⟩, rfl, by decide⟩

end Lists

end Ka10Simh.Imp.SendQueue
