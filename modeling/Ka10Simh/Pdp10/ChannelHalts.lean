import Ka10Simh.Lib.Fuel
import Ka10Simh.Lib.Reaches
import Ka10Simh.Pdp10.Rh20

/-!
When the data channels come to an end with a word.

* `DataChannel.jump`, `Rh20.jump`: from a control word to the one that it jumps to.
* `DataChannel.Settles`, `Rh20.Settles`: the control words that a call goes through do not jump in a circle.
* `channels_end`: a call ends exactly when it settles.
-/

namespace Ka10Simh.Pdp10

open Fuel (Ends EndsWith Settled Walk Has served served_ends)
open Iterate (Leads Acyclic)
open Relation (ReflTransGen)

namespace DataChannel

/-- The control word that a jump word leads to. -/
def jump (c : Config) (mem : ℕ → ℕ) (ccw : ℕ) : Option ℕ :=
  if ccw < c.memsize ∧ mem ccw &&& c.wmask <<< c.aBits = 0 ∧ ¬ (mem ccw &&& c.amask = 0 ∨ mem ccw &&& c.amask = ccw) ∧
    mem ccw &&& c.amask < c.memsize then some (mem ccw &&& c.amask) else none

/-- What is at hand when a word of data is moved: what there was, or the control word that the jumps lead to. -/
inductive HasWord (c : Config) (s : Df10) : Df10 → Prop
  | now : s.wcr ≠ 0 → HasWord c s s
  | fetched {e : ℕ} : s.wcr = 0 → ReflTransGen (Leads (jump c s.mem)) s.ccw e → e < c.memsize →
      s.mem e &&& c.wmask <<< c.aBits ≠ 0 → HasWord c s (take c (s.mem e) { s with ccw := e })

/-- The word of data has no address, or one inside the memory. -/
def Moves (c : Config) (t : Df10) : Prop := t.cda = 0 ∨ t.cda ≤ c.memsize ∧ next c t.cda < c.memsize

/-- The memory after the word. -/
def Dir.after (dir : Dir) (c : Config) (t : Df10) : ℕ → ℕ :=
  match dir with
  | .read => t.mem
  | .write => if t.cda = 0 then t.mem else Function.update t.mem (next c t.cda) t.buf

/-- The jumps do not go in a circle, neither those to the control word of this word of data nor, when it is the last one
of its area, those to the next control word. -/
def Settles (c : Config) (dir : Dir) (s : Df10) : Prop :=
  (s.wcr = 0 → Acyclic (jump c s.mem) s.ccw) ∧
    ∀ t, HasWord c s t → t.wcr + 1 &&& c.wmask = 0 → Moves c t → Acyclic (jump c (dir.after c t)) t.ccw

variable {c : Config} {s t : Df10} {dir : Dir} {n : ℕ}

lemma jump_lt {mem : ℕ → ℕ} {a b : ℕ} (h : jump c mem a = some b) : b < c.memsize := by
  rw [jump] at h
  obtain ⟨⟨-, -, -, hlt⟩, rfl⟩ := TransSys.of_guard h
  exact hlt

/-- There are finitely many control words to meet. -/
lemma jump_finite (c : Config) (mem : ℕ → ℕ) (a : ℕ) : {b | ReflTransGen (Leads (jump c mem)) a b}.Finite := by
  refine ((Set.finite_Iio c.memsize).insert a).subset fun b hb ↦ ?_
  rcases hb.cases_tail with rfl | ⟨d, -, hlead⟩
  · exact Set.mem_insert _ _
  · exact Set.mem_insert_of_mem _ (jump_lt hlead)

/-- What the loop ends with at a word that is no jump word. -/
def stopWord (c : Config) (s : Df10) : Bool × Df10 :=
  if s.mem s.ccw &&& c.wmask <<< c.aBits ≠ 0 then (true, take c (s.mem s.ccw) s)
  else if s.mem s.ccw &&& c.amask = 0 ∨ s.mem s.ccw &&& c.amask = s.ccw then (false, finishOp c 0 s)
  else (false, finishOp c c.nxm { s with ccw := s.mem s.ccw &&& c.amask })

/-- **The loop of a fetch follows the jump words.** -/
lemma fetchLoop_walk (c : Config) (mem : ℕ → ℕ) : Walk (fun n s ↦ fetchLoop c n (s.mem s.ccw) s) Df10.ccw (jump c mem)
    (fun s k ↦ { s with ccw := k }) (stopWord c) (fun s ↦ s.mem = mem ∧ s.ccw < c.memsize) where
  zero _ := rfl
  turn n s k hs hk := by
    obtain ⟨rfl, -⟩ := hs
    rw [jump] at hk
    obtain ⟨⟨-, hcount, hstop, hlt⟩, rfl⟩ := TransSys.of_guard hk
    refine ⟨⟨rfl, hlt⟩, ?_⟩
    dsimp only
    rw [fetchLoop, if_pos hcount]
    dsimp only
    rw [if_neg hstop, if_pos hlt]
  stop n s hs hk := by
    obtain ⟨rfl, hin⟩ := hs
    rw [jump] at hk
    rw [fetchLoop, stopWord]
    dsimp only
    by_cases hcount : s.mem s.ccw &&& c.wmask <<< c.aBits = 0
    · rw [if_pos hcount, if_neg (not_not.mpr hcount)]
      by_cases hstop : s.mem s.ccw &&& c.amask = 0 ∨ s.mem s.ccw &&& c.amask = s.ccw
      · rw [if_pos hstop, if_pos hstop]
      · by_cases hlt : s.mem s.ccw &&& c.amask < c.memsize
        · rw [if_pos ⟨hin, hcount, hstop, hlt⟩] at hk
          cases hk
        · rw [if_neg hstop, if_neg hlt, if_neg hstop]
    · rw [if_neg hcount, if_pos hcount]
  key_go _ _ := rfl
  go_go _ _ _ := rfl
  go_key _ := rfl

/-- **A fetch ends exactly when the jumps do not go in a circle.** -/
lemma fetch_ends (c : Config) (s : Df10) : Ends (fun n ↦ fetch c n s) ↔ Acyclic (jump c s.mem) s.ccw := by
  by_cases hin : s.ccw < c.memsize
  · have hends := (fetchLoop_walk c s.mem).ends_iff ⟨rfl, hin⟩ (jump_finite c s.mem s.ccw)
    rw [← hends]
    refine exists_congr fun n ↦ ?_
    dsimp only
    rw [fetch, if_pos hin]
  · have hnone : jump c s.mem s.ccw = none := if_neg fun h ↦ hin h.1
    refine iff_of_true ⟨0, ?_⟩ (Iterate.acyclic_of_none hnone)
    dsimp only
    rw [fetch, if_neg hin]
    exact Option.some_ne_none _

lemma fetch_settled (c : Config) (s : Df10) : Settled fun n ↦ fetch c n s := by
  intro n r h
  dsimp only at h ⊢
  rw [fetch] at h ⊢
  split_ifs at h ⊢ with hin
  · exact (fetchLoop_walk c s.mem).settled ⟨rfl, hin⟩ n r h
  · exact h

/-- What a fetch finds is a transfer word that the jumps lead to. -/
lemma fetch_finds (hwcr : s.wcr = 0) : EndsWith (fun n ↦ fetch c n s) (true, t) ↔ HasWord c s t := by
  by_cases hin : s.ccw < c.memsize
  · have hwalk := (fetchLoop_walk c s.mem).endsWith_iff (r := (true, t)) (s := s) ⟨rfl, hin⟩
    have hfetch : EndsWith (fun n ↦ fetch c n s) (true, t) ↔
        EndsWith (fun n ↦ fetchLoop c n (s.mem s.ccw) s) (true, t) := by
      refine exists_congr fun n ↦ ?_
      dsimp only
      rw [fetch, if_pos hin]
    rw [hfetch, hwalk]
    constructor
    · rintro ⟨e, hreach, -, hr⟩
      rw [stopWord] at hr
      split_ifs at hr with hcount
      · obtain rfl := (Prod.ext_iff.mp hr).2
        refine .fetched hwcr hreach ?_ hcount
        rcases hreach.cases_tail with rfl | ⟨d, -, hlead⟩
        · exact hin
        · exact jump_lt hlead
      · cases hr
      · cases hr
    · intro h
      cases h with
      | now hne => exact absurd hwcr hne
      | @fetched e _ hreach _ hcount =>
          refine ⟨e, hreach, if_neg fun h ↦ hcount h.2.1, ?_⟩
          rw [stopWord, if_pos hcount]
  · refine iff_of_false ?_ fun h ↦ ?_
    · rintro ⟨n, h⟩
      dsimp only at h
      rw [fetch, if_neg hin] at h
      cases h
    · cases h with
      | now hne => exact hne hwcr
      | @fetched e _ hreach he _ =>
          rcases hreach.cases_head with heq | ⟨b, hlead, -⟩
          · exact hin (heq ▸ he)
          · rw [Leads, jump] at hlead
            exact hin (TransSys.of_guard hlead).1.1

/-- What is done with a word of data. -/
def word (c : Config) (dir : Dir) (s : Df10) : Bool × Df10 :=
  let s := { s with wcr := s.wcr + 1 &&& c.wmask }
  if s.cda ≠ 0 then
    if s.cda > c.memsize then (false, finishOp c c.nxm s)
    else
      let s := { s with cda := next c s.cda }
      if s.cda < c.memsize then (true, dir.access s) else (false, finishOp c c.nxm s)
  else (true, dir.skip s)

lemma transfer_eq (c : Config) (dir : Dir) (n : ℕ) (s : Df10) : transfer c dir.access dir.skip n s
    = served (fetch c) (word c dir) (fun s ↦ s.wcr = 0) n s := rfl

/-- A word that moves. -/
lemma word_moves (dir : Dir) (h : Moves c t) : (word c dir t).1 = true ∧ (word c dir t).2.wcr = t.wcr + 1 &&& c.wmask ∧
    (word c dir t).2.ccw = t.ccw ∧ (word c dir t).2.mem = dir.after c t := by
  rw [word]
  rcases h with hzero | ⟨hle, hlt⟩
  · rw [if_neg (not_not.mpr hzero)]
    cases dir
    · exact ⟨rfl, rfl, rfl, rfl⟩
    · exact ⟨rfl, rfl, rfl, (if_pos hzero).symm⟩
  · by_cases hzero : t.cda = 0
    · rw [if_neg (not_not.mpr hzero)]
      cases dir
      · exact ⟨rfl, rfl, rfl, rfl⟩
      · exact ⟨rfl, rfl, rfl, (if_pos hzero).symm⟩
    · rw [if_pos hzero, if_neg (Nat.not_lt.mpr hle)]
      dsimp only
      rw [if_pos hlt]
      cases dir
      · exact ⟨rfl, rfl, rfl, rfl⟩
      · exact ⟨rfl, rfl, rfl, (if_neg hzero).symm⟩

lemma word_fails (h : ¬ Moves c t) : (word c dir t).1 = false := by
  rw [Moves, not_or] at h
  obtain ⟨hzero, hout⟩ := h
  rw [word, if_pos hzero]
  by_cases hgt : t.cda > c.memsize
  · rw [if_pos hgt]
  · rw [if_neg hgt]
    dsimp only
    rw [if_neg fun hlt ↦ hout ⟨Nat.not_lt.mp hgt, hlt⟩]

lemma hasWord_iff : Has (fetch c) (fun s ↦ s.wcr = 0) s t ↔ HasWord c s t := by
  constructor
  · intro h
    cases h with
    | now hne => exact .now hne
    | fetched hwcr h => exact (fetch_finds hwcr).mp h
  · intro h
    by_cases hwcr : s.wcr = 0
    · exact .fetched hwcr ((fetch_finds hwcr).mpr h)
    · cases h with
      | now hne => exact .now hne
      | fetched hzero => exact absurd hzero hwcr

/-- **A call ends exactly when it settles.** -/
lemma transfer_ends (c : Config) (dir : Dir) (s : Df10) :
    Ends (fun n ↦ transfer c dir.access dir.skip n s) ↔ Settles c dir s := by
  refine (served_ends (word c dir) (fun s ↦ s.wcr = 0) (fetch_settled c) s).trans ?_
  refine and_congr (imp_congr_right fun _ ↦ fetch_ends c s) (forall_congr' fun t ↦ imp_congr hasWord_iff ?_)
  rw [fetch_ends]
  by_cases hmoves : Moves c t
  · obtain ⟨hdone, hwcr, hccw, hmem⟩ := word_moves dir hmoves
    rw [hdone, hwcr, hccw, hmem, imp_iff_right rfl, imp_iff_right hmoves]
  · rw [word_fails hmoves]
    exact iff_of_true nofun fun _ h ↦ absurd h hmoves

end DataChannel

namespace Rh20

open DataChannel (Dir)

section

variable {δ : Type}

/-- The control word that a jump word leads to. -/
def jump (c : Config δ) (mem : ℕ → ℕ) (ccw : ℕ) : Option ℕ :=
  if ccw < c.memsize ∧ mem ccw &&& xfer = 0 ∧ mem ccw &&& (bit1 ||| bit2) ≠ 0 ∧ mem ccw &&& amask < c.memsize then
    some (mem ccw &&& amask)
  else none

/-- The registers with a transfer word. -/
def take (data : ℕ) (s : RhIf δ) : RhIf δ :=
  { s with
    wcr := (data >>> cshift &&& rh20Wmask ^^^ wmask) + 1, cda := data &&& amask, cop := data >>> 33 &&& 7
    ccw := s.ccw + 1 &&& amask }

/-- What is at hand when a word of data is moved: what there was, or the transfer word that the jumps lead to. -/
inductive HasWord (c : Config δ) (s : RhIf δ) : RhIf δ → Prop
  | now : s.wcr ≠ 0 → HasWord c s s
  | fetched {e : ℕ} : s.wcr = 0 → s.cop &&& 2 = 0 → ReflTransGen (Leads (jump c s.mem)) s.ccw e → e < c.memsize →
      s.mem e &&& xfer ≠ 0 → HasWord c s (take (s.mem e) { s with ccw := e })

/-- The word of data has no address, or one inside the memory. -/
def Moves (c : Config δ) (t : RhIf δ) : Prop := t.cda = 0 ∨ t.cda < c.memsize

/-- The memory after the word. -/
def after (dir : Dir) (t : RhIf δ) : ℕ → ℕ :=
  match dir with
  | .read => t.mem
  | .write => if t.cda = 0 then t.mem else Function.update t.mem t.cda t.buf

/-- The jumps do not go in a circle, neither those to the transfer word of this word of data nor, when it is the last one
and the transfer word not, those to the next transfer word. -/
def Settles (c : Config δ) (dir : Dir) (s : RhIf δ) : Prop :=
  (s.wcr = 0 → s.cop &&& 2 = 0 → Acyclic (jump c s.mem) s.ccw) ∧
    ∀ t, HasWord c s t → t.wcr + 1 &&& wmask = 0 → Moves c t → t.cop &&& 2 = 0 → Acyclic (jump c (after dir t)) t.ccw

variable {c : Config δ} {s t : RhIf δ} {dir : Dir} {n : ℕ}

lemma jump_lt {mem : ℕ → ℕ} {a b : ℕ} (h : jump c mem a = some b) : b < c.memsize := by
  rw [jump] at h
  obtain ⟨⟨-, -, -, hlt⟩, rfl⟩ := TransSys.of_guard h
  exact hlt

lemma jump_finite (c : Config δ) (mem : ℕ → ℕ) (a : ℕ) : {b | ReflTransGen (Leads (jump c mem)) a b}.Finite := by
  refine ((Set.finite_Iio c.memsize).insert a).subset fun b hb ↦ ?_
  rcases hb.cases_tail with rfl | ⟨d, -, hlead⟩
  · exact Set.mem_insert _ _
  · exact Set.mem_insert_of_mem _ (jump_lt hlead)

/-- What the loop ends with at a word that is no jump word. -/
def stopWord (c : Config δ) (s : RhIf δ) : Bool × RhIf δ :=
  if s.mem s.ccw &&& xfer ≠ 0 then (true, take (s.mem s.ccw) s)
  else if s.mem s.ccw &&& (bit1 ||| bit2) = 0 then (false, { s with ccw := s.mem s.ccw &&& amask })
  else (false, finishOp c true { s with ccw := s.mem s.ccw &&& amask })

/-- **The loop of a fetch follows the jump words.** -/
lemma fetchLoop_walk (c : Config δ) (mem : ℕ → ℕ) : Walk (fun n s ↦ fetchLoop c n (s.mem s.ccw) s) RhIf.ccw (jump c mem)
    (fun s k ↦ { s with ccw := k }) (stopWord c) (fun s ↦ s.mem = mem ∧ s.ccw < c.memsize) where
  zero _ := rfl
  turn n s k hs hk := by
    obtain ⟨rfl, -⟩ := hs
    rw [jump] at hk
    obtain ⟨⟨-, hxfer, hhalt, hlt⟩, rfl⟩ := TransSys.of_guard hk
    refine ⟨⟨rfl, hlt⟩, ?_⟩
    dsimp only
    rw [fetchLoop, if_pos hxfer]
    dsimp only
    rw [if_neg hhalt, if_pos hlt]
  stop n s hs hk := by
    obtain ⟨rfl, hin⟩ := hs
    rw [jump] at hk
    rw [fetchLoop, stopWord]
    dsimp only
    by_cases hxfer : s.mem s.ccw &&& xfer = 0
    · rw [if_pos hxfer, if_neg (not_not.mpr hxfer)]
      by_cases hhalt : s.mem s.ccw &&& (bit1 ||| bit2) = 0
      · rw [if_pos hhalt, if_pos hhalt]
      · by_cases hlt : s.mem s.ccw &&& amask < c.memsize
        · rw [if_pos ⟨hin, hxfer, hhalt, hlt⟩] at hk
          cases hk
        · rw [if_neg hhalt, if_neg hlt, if_neg hhalt]
    · rw [if_neg hxfer, if_pos hxfer]
      rfl
  key_go _ _ := rfl
  go_go _ _ _ := rfl
  go_key _ := rfl

/-- **A fetch ends exactly when the jumps do not go in a circle**, or when the transfer word was the last one. -/
lemma fetch_ends (c : Config δ) (s : RhIf δ) :
    Ends (fun n ↦ fetch c n s) ↔ (s.cop &&& 2 = 0 → Acyclic (jump c s.mem) s.ccw) := by
  by_cases hcop : s.cop &&& 2 = 0
  · rw [imp_iff_right hcop]
    by_cases hin : s.ccw < c.memsize
    · have hends := (fetchLoop_walk c s.mem).ends_iff ⟨rfl, hin⟩ (jump_finite c s.mem s.ccw)
      rw [← hends]
      refine exists_congr fun n ↦ ?_
      dsimp only
      rw [fetch, if_neg (not_not.mpr hcop), if_pos hin]
    · have hnone : jump c s.mem s.ccw = none := if_neg fun h ↦ hin h.1
      refine iff_of_true ⟨0, ?_⟩ (Iterate.acyclic_of_none hnone)
      dsimp only
      rw [fetch, if_neg (not_not.mpr hcop), if_neg hin]
      exact Option.some_ne_none _
  · refine iff_of_true ⟨0, ?_⟩ fun h ↦ absurd h hcop
    dsimp only
    rw [fetch, if_pos hcop]
    exact Option.some_ne_none _

lemma fetch_settled (c : Config δ) (s : RhIf δ) : Settled fun n ↦ fetch c n s := by
  intro n r h
  dsimp only at h ⊢
  rw [fetch] at h ⊢
  split_ifs at h ⊢ with hcop hin
  · exact h
  · exact (fetchLoop_walk c s.mem).settled ⟨rfl, hin⟩ n r h
  · exact h

/-- What a fetch finds is a transfer word that the jumps lead to. -/
lemma fetch_finds (hwcr : s.wcr = 0) : EndsWith (fun n ↦ fetch c n s) (true, t) ↔ HasWord c s t := by
  by_cases hgo : s.cop &&& 2 = 0 ∧ s.ccw < c.memsize
  · obtain ⟨hcop, hin⟩ := hgo
    have hwalk := (fetchLoop_walk c s.mem).endsWith_iff (r := (true, t)) (s := s) ⟨rfl, hin⟩
    have hfetch : EndsWith (fun n ↦ fetch c n s) (true, t) ↔
        EndsWith (fun n ↦ fetchLoop c n (s.mem s.ccw) s) (true, t) := by
      refine exists_congr fun n ↦ ?_
      dsimp only
      rw [fetch, if_neg (not_not.mpr hcop), if_pos hin]
    rw [hfetch, hwalk]
    constructor
    · rintro ⟨e, hreach, -, hr⟩
      rw [stopWord] at hr
      split_ifs at hr with hxfer
      · obtain rfl := (Prod.ext_iff.mp hr).2
        refine .fetched hwcr hcop hreach ?_ hxfer
        rcases hreach.cases_tail with rfl | ⟨d, -, hlead⟩
        · exact hin
        · exact jump_lt hlead
      · cases hr
      · cases hr
    · intro h
      cases h with
      | now hne => exact absurd hwcr hne
      | @fetched e _ _ hreach _ hxfer =>
          refine ⟨e, hreach, if_neg fun h ↦ hxfer h.2.1, ?_⟩
          rw [stopWord, if_pos hxfer]
  · refine iff_of_false ?_ fun h ↦ ?_
    · rintro ⟨n, h⟩
      dsimp only at h
      rw [fetch] at h
      split_ifs at h with hcop hin
      · cases h
      · exact hgo ⟨not_not.mp hcop, hin⟩
      · cases h
    · cases h with
      | now hne => exact hne hwcr
      | @fetched e _ hcop hreach he _ =>
          rcases hreach.cases_head with heq | ⟨b, hlead, -⟩
          · exact hgo ⟨hcop, heq ▸ he⟩
          · rw [Leads, jump] at hlead
            exact hgo ⟨hcop, (TransSys.of_guard hlead).1.1⟩

lemma hasWord_iff : Has (fetch c) (fun s ↦ s.wcr = 0) s t ↔ HasWord c s t := by
  constructor
  · intro h
    cases h with
    | now hne => exact .now hne
    | fetched hwcr h => exact (fetch_finds hwcr).mp h
  · intro h
    by_cases hwcr : s.wcr = 0
    · exact .fetched hwcr ((fetch_finds hwcr).mpr h)
    · cases h with
      | now hne => exact .now hne
      | fetched hzero => exact absurd hzero hwcr

/-- A word that moves. -/
lemma move_moves (dir : Dir) (h : Moves c t) : (move c dir t).1 = true ∧ (move c dir t).2.wcr = t.wcr + 1 &&& wmask ∧
    (move c dir t).2.ccw = t.ccw ∧ (move c dir t).2.cop = t.cop ∧ (move c dir t).2.mem = after dir t := by
  rw [move]
  by_cases hzero : t.cda = 0
  · rw [if_neg (not_not.mpr hzero)]
    cases dir
    · exact ⟨rfl, rfl, rfl, rfl, rfl⟩
    · exact ⟨rfl, rfl, rfl, rfl, (if_pos hzero).symm⟩
  · have hlt : t.cda < c.memsize := h.resolve_left hzero
    rw [if_pos hzero, if_neg (Nat.not_lt.mpr hlt.le), if_pos hlt]
    cases dir
    · exact ⟨rfl, rfl, rfl, rfl, rfl⟩
    · exact ⟨rfl, rfl, rfl, rfl, (if_neg hzero).symm⟩

lemma move_fails (h : ¬ Moves c t) : (move c dir t).1 = false := by
  rw [Moves, not_or] at h
  rw [move, if_pos h.1, if_neg h.2]
  split <;> rfl

/-- **A call ends exactly when it settles.** -/
lemma transfer_ends (c : Config δ) (dir : Dir) (s : RhIf δ) :
    Ends (fun n ↦ transfer c dir n s) ↔ Settles c dir s := by
  refine (served_ends (move c dir) (fun s ↦ s.wcr = 0) (fetch_settled c) s).trans ?_
  refine and_congr (imp_congr_right fun _ ↦ fetch_ends c s) (forall_congr' fun t ↦ imp_congr hasWord_iff ?_)
  rw [fetch_ends]
  by_cases hmoves : Moves c t
  · obtain ⟨hdone, hwcr, hccw, hcop, hmem⟩ := move_moves dir hmoves
    rw [hdone, hwcr, hccw, hcop, hmem, imp_iff_right rfl, imp_iff_right hmoves]
  · rw [move_fails hmoves]
    exact iff_of_true nofun fun _ h ↦ absurd h hmoves

end

end Rh20

/-! ### Calls -/

/-- **A call of a data channel ends exactly when the control words that it goes through do not jump in a circle.** A jump
word of a DF10 or of an RH10 that leads to itself is taken for the end of the list; one of an RH20 is not. -/
theorem channels_end (k : DataChannel.Kind) (memsize : ℕ) (dir : DataChannel.Dir) (s : DataChannel.Df10) {δ : Type}
    (c : Rh20.Config δ) (t : Rh20.RhIf δ) :
    (Ends (fun fuel ↦ k.call memsize dir fuel s) ↔ DataChannel.Settles (k.config memsize) dir s) ∧
      (Ends (fun fuel ↦ Rh20.transfer c dir fuel t) ↔ Rh20.Settles c dir t) := by
  refine ⟨?_, Rh20.transfer_ends c dir t⟩
  rw [DataChannel.Kind.call_eq]
  exact DataChannel.transfer_ends (k.config memsize) dir s

/-- A channel at two control words that jump to one another, and an RH20 at one that jumps to itself. -/
def circle : DataChannel.Df10 where
  status := 0
  cia := 0
  ccw := 0o100
  wcr := 0
  cda := 0
  buf := 0
  irq := false
  mem a := if a = 0o100 then 0o200 else 0o100
def loneDrives : Rh20.Drives Unit := ⟨fun _ _ ↦ false, fun d _ _ _ ↦ d⟩
def loneConfig : Rh20.Config Unit := ⟨0o1000, 0, 0, loneDrives⟩
def selfJump : Rh20.RhIf Unit where
  status := 0
  stcr := 0
  ptcr := 0
  sbar := 0
  pbar := 0
  cia := 0
  ccw := 0o100
  wcr := 0
  cda := 0
  cop := 0
  drive := 0
  xferDrive := 0
  buf := 0
  irq := false
  dev := ()
  mem _ := 0o200000000100

/-- Such channels never end. -/
theorem circle_endless :
    (¬ Ends fun fuel ↦ (DataChannel.Kind.df10 false false 12).call 0o1000 .read fuel circle) ∧
    ¬ Ends fun fuel ↦ Rh20.transfer loneConfig .read fuel selfJump := by
  constructor
  · rw [DataChannel.Kind.call_eq, DataChannel.transfer_ends]
    intro h
    have hout : DataChannel.jump ((DataChannel.Kind.df10 false false 12).config 0o1000) circle.mem 0o100 = some 0o200 := by
      decide
    have hback : DataChannel.jump ((DataChannel.Kind.df10 false false 12).config 0o1000) circle.mem 0o200 = some 0o100 := by
      decide
    exact h.1 rfl 0o100 .refl (.head hout (.single hback))
  · rw [Rh20.transfer_ends]
    intro h
    have hself : Rh20.jump loneConfig selfJump.mem 0o100 = some 0o100 := by decide
    exact h.1 rfl rfl 0o100 .refl (.single hself)

end Ka10Simh.Pdp10
