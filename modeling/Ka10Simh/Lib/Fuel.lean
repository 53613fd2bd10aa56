import Ka10Simh.Lib.Iterate

/-!
Loops that are given a number of turns, and return none when it was too small.

* `Fuel.Settled`: a result that is there stays with more turns.
* `Fuel.bind_ends`: one loop after another ends when both do.
* `Fuel.served_keeps`, `Fuel.served_ends`: a step that fetches what it needs before it, and again when it has used it up.
* `Fuel.Walk.ends_iff`, `Fuel.Walk.endsWith_iff`: a loop that follows keys ends exactly when no key leads back to
  itself, with the result of the last one.
-/

namespace Fuel

open Iterate (Leads Acyclic Halts run run_succ halts_iff_acyclic)

variable {σ ρ τ κ : Type*}

/-- A loop comes to an end, and it ends with a result. -/
def Ends (f : ℕ → Option ρ) : Prop := ∃ n, f n ≠ none
def EndsWith (f : ℕ → Option ρ) (r : ρ) : Prop := ∃ n, f n = some r

/-- A result that is there stays with more turns. -/
def Settled (f : ℕ → Option ρ) : Prop := ∀ n r, f n = some r → f (n + 1) = some r

variable {f : ℕ → Option ρ} {g : ρ → ℕ → Option τ} {r : ρ} {m n : ℕ}

lemma Settled.of_le (hf : Settled f) (h : f m = some r) (hle : m ≤ n) : f n = some r := by
  induction n, hle using Nat.le_induction with
  | base => exact h
  | succ n _ ih => exact hf n r ih

lemma Settled.unique (hf : Settled f) {q : ρ} (hr : EndsWith f r) (hq : EndsWith f q) : r = q := by
  obtain ⟨m, hm⟩ := hr
  obtain ⟨n, hn⟩ := hq
  have hmax := hf.of_le hm (Nat.le_max_left m n)
  rw [hf.of_le hn (Nat.le_max_right m n)] at hmax
  exact (Option.some.inj hmax).symm

lemma ends_iff : Ends f ↔ ∃ r, EndsWith f r := by
  constructor
  · rintro ⟨n, hn⟩
    obtain ⟨r, hr⟩ := Option.ne_none_iff_exists'.mp hn
    exact ⟨r, n, hr⟩
  · rintro ⟨r, n, hr⟩
    exact ⟨n, by rw [hr]; exact Option.some_ne_none r⟩

/-- **One loop after another ends when both do.** -/
theorem bind_ends (hf : Settled f) (hg : ∀ r, Settled (g r)) :
    Ends (fun n ↦ (f n).bind fun r ↦ g r n) ↔ ∃ r, EndsWith f r ∧ Ends (g r) := by
  constructor
  · rintro ⟨n, hn⟩
    obtain ⟨t, ht⟩ := Option.ne_none_iff_exists'.mp hn
    obtain ⟨r, hr, hgr⟩ := Option.bind_eq_some_iff.mp ht
    exact ⟨r, ⟨n, hr⟩, n, by rw [hgr]; exact Option.some_ne_none t⟩
  · rintro ⟨r, ⟨m, hm⟩, n, hn⟩
    obtain ⟨t, ht⟩ := Option.ne_none_iff_exists'.mp hn
    refine ⟨max m n, ?_⟩
    dsimp only
    rw [hf.of_le hm (Nat.le_max_left m n), Option.bind_some, (hg r).of_le ht (Nat.le_max_right m n)]
    exact Option.some_ne_none t

/-- A result without a loop. -/
lemma settled_const (r : Option ρ) : Settled fun _ ↦ r := fun _ _ h ↦ h

lemma ends_some (r : ρ) : Ends fun _ ↦ some r := ⟨0, Option.some_ne_none r⟩

/-! ### Fetching before and after a step -/

section Served

variable {fetch : ℕ → σ → Option (Bool × σ)} {step : σ → Bool × σ} {empty : σ → Prop} [DecidablePred empty] {s t : σ}

/-- A step, with a fetch before it when nothing is at hand, and one after it when nothing is left. -/
def served (fetch : ℕ → σ → Option (Bool × σ)) (step : σ → Bool × σ) (empty : σ → Prop) [DecidablePred empty] (n : ℕ)
    (s : σ) : Option (Bool × σ) :=
  (if empty s then fetch n s else some (true, s)).bind fun (found, s) =>
    if found = false then some (false, s)
    else
      let (done, s) := step s
      if done = false then some (false, s)
      else if empty s then fetch n s
      else some (true, s)

/-- The state in which the step is made. -/
inductive Has (fetch : ℕ → σ → Option (Bool × σ)) (empty : σ → Prop) (s : σ) : σ → Prop
  | now : ¬ empty s → Has fetch empty s s
  | fetched {t : σ} : empty s → EndsWith (fun n ↦ fetch n s) (true, t) → Has fetch empty s t

/-- **What the fetches and the step keep, a served step keeps.** -/
theorem served_keeps {R : Bool → σ → σ → Prop} {b : Bool} (hrefl : ∀ s, R true s s)
    (htrans : ∀ {b s t u}, R true s t → R b t u → R b s u) (hfetch : ∀ {n b s t}, fetch n s = some (b, t) → R b s t)
    (hstep : ∀ s, R (step s).1 s (step s).2) (h : served fetch step empty n s = some (b, t)) : R b s t := by
  have hmaybe : ∀ {b : Bool} {s t : σ}, (if empty s then fetch n s else some (true, s)) = some (b, t) → R b s t := by
    intro b s t h
    split_ifs at h
    · exact hfetch h
    · obtain ⟨rfl, rfl⟩ := Prod.mk.inj (Option.some.inj h)
      exact hrefl s
  obtain ⟨⟨found, u⟩, hfirst, h⟩ := Option.bind_eq_some_iff.mp h
  have hfound := hmaybe hfirst
  cases found with
  | false =>
      obtain ⟨rfl, rfl⟩ := Prod.mk.inj (Option.some.inj h)
      exact hfound
  | true =>
      have hdone := hstep u
      dsimp only at h
      rw [if_neg (by decide)] at h
      cases hd : (step u).1 with
      | false =>
          rw [hd] at hdone h
          obtain ⟨rfl, rfl⟩ := Prod.mk.inj (Option.some.inj h)
          exact htrans hfound hdone
      | true =>
          rw [hd, if_neg (by decide)] at h
          rw [hd] at hdone
          exact htrans hfound (htrans hdone (hmaybe h))

/-- What follows the first fetch. -/
def rest (fetch : ℕ → σ → Option (Bool × σ)) (step : σ → Bool × σ) (empty : σ → Prop) [DecidablePred empty]
    (p : Bool × σ) (n : ℕ) : Option (Bool × σ) :=
  if p.1 = false then some (false, p.2)
  else if (step p.2).1 = false then some (false, (step p.2).2)
  else if empty (step p.2).2 then fetch n (step p.2).2
  else some (true, (step p.2).2)

lemma rest_settled (step : σ → Bool × σ) (empty : σ → Prop) [DecidablePred empty] (hf : ∀ s, Settled fun n ↦ fetch n s)
    (p : Bool × σ) : Settled (rest fetch step empty p) := by
  intro n r h
  rw [rest] at h ⊢
  split_ifs at h ⊢
  · exact h
  · exact h
  · exact hf _ n r h
  · exact h

lemma rest_ends (t : σ) : Ends (rest fetch step empty (true, t)) ↔
    ((step t).1 = true → empty (step t).2 → Ends fun n ↦ fetch n (step t).2) := by
  cases hdone : (step t).1 with
  | false =>
      refine iff_of_true ⟨0, ?_⟩ nofun
      rw [rest, if_neg nofun, hdone, if_pos rfl]
      exact Option.some_ne_none _
  | true =>
      rw [imp_iff_right rfl]
      by_cases hempty : empty (step t).2
      · rw [imp_iff_right hempty]
        refine exists_congr fun n ↦ ?_
        rw [rest, if_neg nofun, hdone, if_neg nofun, if_pos hempty]
      · refine iff_of_true ⟨0, ?_⟩ fun h ↦ absurd h hempty
        rw [rest, if_neg nofun, hdone, if_neg nofun, if_neg hempty]
        exact Option.some_ne_none _

/-- **A served step ends when its fetches do.** -/
theorem served_ends (step : σ → Bool × σ) (empty : σ → Prop) [DecidablePred empty]
    (hf : ∀ s, Settled fun n ↦ fetch n s) (s : σ) : Ends (fun n ↦ served fetch step empty n s) ↔
    (empty s → Ends fun n ↦ fetch n s) ∧
      ∀ t, Has fetch empty s t → (step t).1 = true → empty (step t).2 → Ends fun n ↦ fetch n (step t).2 := by
  have hfirst : Settled fun n ↦ if empty s then fetch n s else some (true, s) := by
    intro n r h
    dsimp only at h ⊢
    split_ifs at h ⊢
    · exact hf s n r h
    · exact h
  refine (bind_ends hfirst (rest_settled step empty hf)).trans ?_
  by_cases hempty : empty s
  · simp only [if_pos hempty]
    rw [imp_iff_right hempty, ends_iff]
    constructor
    · rintro ⟨r, hr, hrest⟩
      refine ⟨⟨r, hr⟩, fun t ht ↦ ?_⟩
      cases ht with
      | now h => exact absurd hempty h
      | fetched _ ht =>
          obtain rfl := (hf s).unique hr ht
          exact (rest_ends t).mp hrest
    · rintro ⟨⟨⟨found, t⟩, hr⟩, hlast⟩
      refine ⟨(found, t), hr, ?_⟩
      cases found with
      | false => exact ⟨0, Option.some_ne_none _⟩
      | true => exact (rest_ends t).mpr (hlast t (.fetched hempty hr))
  · simp only [if_neg hempty]
    constructor
    · rintro ⟨r, ⟨n, hr⟩, hrest⟩
      obtain rfl : (true, s) = r := Option.some.inj hr
      refine ⟨fun h ↦ absurd h hempty, fun t ht ↦ ?_⟩
      cases ht with
      | now => exact (rest_ends s).mp hrest
      | fetched h => exact absurd h hempty
    · rintro ⟨-, hlast⟩
      exact ⟨(true, s), ⟨0, rfl⟩, (rest_ends s).mpr (hlast s (.now hempty))⟩

/-- The three ways in which a served step comes to a result: the first fetch fails, the step does, or the step is followed
by a fetch. -/
lemma served_first (hempty : empty s) (h : EndsWith (fun n ↦ fetch n s) (false, t)) :
    EndsWith (fun n ↦ served fetch step empty n s) (false, t) := by
  obtain ⟨n, hn⟩ := h
  refine ⟨n, ?_⟩
  dsimp only at hn ⊢
  rw [served, if_pos hempty, hn]
  rfl

lemma served_rest {r : Bool × σ} (ht : Has fetch empty s t) (hf : ∀ s, Settled fun n ↦ fetch n s)
    (h : EndsWith (rest fetch step empty (true, t)) r) : EndsWith (fun n ↦ served fetch step empty n s) r := by
  obtain ⟨n, hn⟩ := h
  cases ht with
  | now hempty =>
      refine ⟨n, ?_⟩
      dsimp only
      rw [served, if_neg hempty]
      exact hn
  | fetched hempty ht =>
      obtain ⟨m, hm⟩ := ht
      refine ⟨max m n, ?_⟩
      have hrest := (rest_settled step empty hf (true, t)).of_le hn (Nat.le_max_right m n)
      have hfetch := (hf s).of_le hm (Nat.le_max_left m n)
      dsimp only at hfetch ⊢
      rw [served, if_pos hempty, hfetch]
      exact hrest

lemma served_step (ht : Has fetch empty s t) (hf : ∀ s, Settled fun n ↦ fetch n s) (h : (step t).1 = false) :
    EndsWith (fun n ↦ served fetch step empty n s) (false, (step t).2) := by
  refine served_rest ht hf ⟨0, ?_⟩
  rw [rest, if_neg nofun, if_pos h]

lemma served_second {r : Bool × σ} (ht : Has fetch empty s t) (hf : ∀ s, Settled fun n ↦ fetch n s)
    (hdone : (step t).1 = true) (hempty : empty (step t).2) (h : EndsWith (fun n ↦ fetch n (step t).2) r) :
    EndsWith (fun n ↦ served fetch step empty n s) r := by
  obtain ⟨n, hn⟩ := h
  refine served_rest ht hf ⟨n, ?_⟩
  rw [rest, if_neg nofun, hdone, if_neg nofun, if_pos hempty]
  exact hn

lemma served_settled (hf : ∀ s, Settled fun n ↦ fetch n s) (s : σ) :
    Settled fun n ↦ served fetch step empty n s := by
  intro n r h
  dsimp only at h ⊢
  rw [served] at h ⊢
  obtain ⟨p, hp, hr⟩ := Option.bind_eq_some_iff.mp h
  refine Option.bind_eq_some_iff.mpr ⟨p, ?_, rest_settled step empty hf p n r hr⟩
  split_ifs at hp ⊢
  · exact hf s n p hp
  · exact hp

end Served

/-! ### Keys -/

section Keys

/-- A loop whose course is that of a key of its state: where the key leads on, a turn of the loop changes the key, and
where it does not, the loop ends with the result of its state. -/
structure Walk (loop : ℕ → σ → Option ρ) (key : σ → κ) (next : κ → Option κ) (go : σ → κ → σ) (out : σ → ρ)
    (inv : σ → Prop) : Prop where
  zero : ∀ s, loop 0 s = none
  turn : ∀ n s k, inv s → next (key s) = some k → inv (go s k) ∧ loop (n + 1) s = loop n (go s k)
  stop : ∀ n s, inv s → next (key s) = none → loop (n + 1) s = some (out s)
  key_go : ∀ s k, key (go s k) = k
  go_go : ∀ s k l, go (go s k) l = go s l
  go_key : ∀ s, go s (key s) = s

variable {loop : ℕ → σ → Option ρ} {key : σ → κ} {next : κ → Option κ} {go : σ → κ → σ} {out : σ → ρ} {inv : σ → Prop}
  {s : σ}

/-- From key to key. -/
def chase (next : κ → Option κ) (k : κ) : κ ⊕ Unit := (next k).elim (.inr ()) .inl

lemma chase_follows (next : κ → Option κ) : Iterate.Follows (chase next) id next := by
  intro k
  rw [chase, id]
  cases next k <;> rfl

lemma Walk.turns (h : Walk loop key next go out inv) (n : ℕ) (hs : inv s) :
    loop n s ≠ none ↔ ∃ r, run (chase next) n (key s) = .inr r := by
  induction n generalizing s with
  | zero =>
      refine iff_of_false (not_not.mpr (h.zero s)) ?_
      rintro ⟨r, hr⟩
      cases hr
  | succ n ih =>
      cases hk : next (key s) with
      | none =>
          refine iff_of_true ?_ ⟨(), ?_⟩
          · rw [h.stop n s hs hk]
            exact Option.some_ne_none _
          · rw [run_succ, chase, hk]
            rfl
      | some k =>
          obtain ⟨hinv, hloop⟩ := h.turn n s k hs hk
          rw [hloop, ih hinv, h.key_go, run_succ, chase, hk]
          rfl

/-- **Such a loop ends exactly when no key leads back to itself.** -/
theorem Walk.ends_iff (h : Walk loop key next go out inv) (hs : inv s)
    (hfin : {k | Relation.ReflTransGen (Leads next) (key s) k}.Finite) :
    Ends (fun n ↦ loop n s) ↔ Acyclic next (key s) := by
  have hhalts : Halts (chase next) (key s) ↔ Acyclic next (key s) := by
    have hfollows := halts_iff_acyclic (chase_follows next) hfin
    exact hfollows
  rw [← hhalts]
  exact exists_congr fun n ↦ h.turns n hs

/-- **It ends with the result of the last key.** -/
theorem Walk.endsWith_iff (h : Walk loop key next go out inv) (hs : inv s) :
    EndsWith (fun n ↦ loop n s) r ↔
      ∃ e, Relation.ReflTransGen (Leads next) (key s) e ∧ next e = none ∧ r = out (go s e) := by
  constructor
  · rintro ⟨n, hn⟩
    dsimp only at hn
    induction n generalizing s with
    | zero =>
        rw [h.zero] at hn
        cases hn
    | succ n ih =>
        cases hk : next (key s) with
        | none =>
            rw [h.stop n s hs hk] at hn
            refine ⟨key s, .refl, hk, ?_⟩
            rw [h.go_key]
            exact (Option.some.inj hn).symm
        | some k =>
            obtain ⟨hinv, hloop⟩ := h.turn n s k hs hk
            rw [hloop] at hn
            obtain ⟨e, hreach, hend, hr⟩ := ih hinv hn
            rw [h.key_go] at hreach
            rw [h.go_go] at hr
            exact ⟨e, .head hk hreach, hend, hr⟩
  · rintro ⟨e, hreach, hend, rfl⟩
    generalize hkey : key s = k at hreach
    induction hreach using Relation.ReflTransGen.head_induction_on generalizing s with
    | refl =>
        subst hkey
        refine ⟨1, ?_⟩
        dsimp only
        rw [h.stop 0 s hs hend, h.go_key]
    | @head a b hlead _ ih =>
        subst hkey
        obtain ⟨hinv, -⟩ := h.turn 0 s b hs hlead
        obtain ⟨n, hn⟩ := ih hinv (h.key_go s b)
        refine ⟨n + 1, ?_⟩
        dsimp only at hn ⊢
        rw [(h.turn n s b hs hlead).2, hn, h.go_go]

/-- It is settled. -/
lemma Walk.settled (h : Walk loop key next go out inv) (hs : inv s) : Settled fun n ↦ loop n s := by
  intro n r hn
  dsimp only at hn ⊢
  induction n generalizing s with
  | zero =>
      rw [h.zero] at hn
      cases hn
  | succ n ih =>
      cases hk : next (key s) with
      | none =>
          rw [h.stop n s hs hk] at hn
          rw [h.stop (n + 1) s hs hk, hn]
      | some k =>
          obtain ⟨hinv, hloop⟩ := h.turn n s k hs hk
          rw [hloop] at hn
          rw [(h.turn (n + 1) s k hs hk).2]
          exact ih hinv hn

end Keys

end Fuel
