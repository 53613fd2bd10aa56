import Ka10Simh.Card.Reader

/-!
What the card reader does with any file.

* `Good`: a card takes bytes of the buffer, nothing outside of the buffer and of the tables is read, and an error is marked.
* `Sound`: the data for which a card is good.
* `good_iff`: a card is good just if its data are sound.
* `deck_iff`: a deck is read to its end, with good cards, just if all its cards are sound.
-/

namespace Ka10Simh.Card

variable {fl : Flags} {b : Buffer} {data rest : List ℕ} {closed : Bool} {image : Image} {c col flag i j temp v : ℕ}

/-! ### Errors -/

/-- A card is marked in error. -/
def Marked (image : Image) : Prop := image 0 &&& cardErr ≠ 0

lemma not_marked_blank : ¬ Marked blank := fun h ↦ h rfl

lemma marked_mark : Marked (mark cardErr image) := by
  rw [Marked, mark, Function.update_self, Nat.and_or_distrib_right, Nat.and_self]
  exact fun h ↦ absurd (Nat.or_eq_zero_iff.mp h).2 (by decide)

lemma marked_update_zero : Marked (Function.update image 0 v) ↔ v &&& cardErr ≠ 0 := by rw [Marked, Function.update_self]

lemma marked_update (h : col ≠ 0) : Marked (Function.update image col v) ↔ Marked image := by
  rw [Marked, Marked, Function.update_of_ne h.symm]

/-- What is punched has no flags. -/
lemma punched_unmarked : temp &&& 0xfff &&& cardErr = 0 := by rw [Nat.and_assoc]; exact Nat.and_zero temp

/-! ### Text -/

/-- The characters of a line with their columns, and the rest of the line. -/
def columns : List ℕ → ℕ → List (ℕ × ℕ) × List ℕ
  | [], _ => ([], [])
  | c :: rest, col =>
      if col < 80 then
        if c = 0 ∨ c = 13 then columns rest col
        else if c = 9 then columns rest ((col ||| 7) + 1)
        else if c = 10 then ([], c :: rest)
        else ((col, c) :: (columns rest (col + 1)).1, (columns rest (col + 1)).2)
      else ([], c :: rest)

/-- A character that cannot be translated. -/
def Flags.Bad (fl : Flags) (byte : ℕ) : Prop := ∃ temp, fl.punches byte = some temp ∧ temp &&& 0xf000 ≠ 0

/-- The line ends in the data. -/
def LineEnds : List ℕ → Prop
  | [] => False
  | c :: rest => c = 10 ∨ if c = 13 then rest ≠ [] else LineEnds rest

lemma columns_suffix (data : List ℕ) (col : ℕ) : (columns data col).2 <:+ data := by
  induction data generalizing col with
  | nil => exact List.suffix_refl _
  | cons c rest ih =>
    rw [columns]
    split_ifs
    · exact (ih col).trans (List.suffix_cons c rest)
    · exact (ih _).trans (List.suffix_cons c rest)
    · exact List.suffix_refl _
    · exact (ih _).trans (List.suffix_cons c rest)
    · exact List.suffix_refl _

lemma columns_ge {p : ℕ × ℕ} (h : p ∈ (columns data col).1) : col ≤ p.1 := by
  induction data generalizing col with
  | nil => exact absurd h List.not_mem_nil
  | cons c rest ih =>
    rw [columns] at h
    split_ifs at h
    · exact ih h
    · have hor := @Nat.left_le_or col 7
      have hle := ih h
      omega
    · exact absurd h List.not_mem_nil
    · rcases List.mem_cons.mp h with rfl | h
      · exact le_rfl
      · exact (Nat.le_succ col).trans (ih h)
    · exact absurd h List.not_mem_nil

lemma table_length (fl : Flags) : fl.table.length = 128 := by
  rw [Flags.table]
  cases fl.charset <;> rfl

/-- A table has an entry for a character just if it is not negative. -/
lemma punches_none_iff : fl.punches c = none ↔ toChar c < 0 := by
  have hlow : -128 ≤ toChar c := Int.le_bmod (by norm_num)
  have hhigh : toChar c < 128 := Int.bmod_lt (by norm_num)
  have hupper : (0 ≤ toupper (toChar c) ↔ 0 ≤ toChar c) ∧ toupper (toChar c) < 128 := by
    rw [toupper]
    split_ifs <;> omega
  rw [Flags.punches]
  generalize hx : (if fl.lower = true then toChar c else toupper (toChar c)) = x
  have hxs : (0 ≤ x ↔ 0 ≤ toChar c) ∧ x < 128 := by
    rw [← hx]
    split_ifs
    · exact ⟨Iff.rfl, hhigh⟩
    · exact hupper
  split_ifs with hneg
  · rw [List.getElem?_eq_none_iff, table_length]
    lia
  · simp only [true_iff]
    omega

lemma punches_some (h : 0 ≤ toChar c) : ∃ temp, fl.punches c = some temp :=
  Option.ne_none_iff_exists'.mp fun hnone ↦ not_lt.mpr h (punches_none_iff.mp hnone)

/-- Text with a character that no table has. -/
lemma textLoop_none (h : ∃ p ∈ (columns data col).1, toChar p.2 < 0) : textLoop fl data col i image = none := by
  induction data generalizing col i image with
  | nil =>
    obtain ⟨p, hp, -⟩ := h
    exact absurd hp List.not_mem_nil
  | cons c rest ih =>
    obtain ⟨p, hp, hneg⟩ := h
    rw [columns] at hp
    rw [textLoop]
    split_ifs at hp ⊢
    · exact ih ⟨p, hp, hneg⟩
    · exact ih ⟨p, hp, hneg⟩
    · exact absurd hp List.not_mem_nil
    · rcases List.mem_cons.mp hp with rfl | hp
      · rw [punches_none_iff.mpr hneg]
        rfl
      · cases hc : fl.punches c with
        | none => rfl
        | some temp => exact ih ⟨p, hp, hneg⟩
    · exact absurd hp List.not_mem_nil

/-- One character. -/
lemma char_marked (h : fl.punches c = some temp) : Marked (if temp &&& 0xf000 ≠ 0 then mark cardErr image else image) ↔
    Marked image ∨ fl.Bad c := by
  have hbad : fl.Bad c ↔ temp &&& 0xf000 ≠ 0 :=
    ⟨fun ⟨x, hx, hne⟩ ↦ Option.some.inj (h.symm.trans hx) ▸ hne, fun hne ↦ ⟨temp, h, hne⟩⟩
  rw [hbad]
  split_ifs with hne
  · exact iff_of_true marked_mark (.inr hne)
  · exact (or_iff_left hne).symm

/-- Text after the first column. -/
lemma textLoop_some (h : ∀ p ∈ (columns data col).1, 0 ≤ toChar p.2) (hcol : 0 < col) :
    ∃ result, textLoop fl data col i image = some (i + (data.length - (columns data col).2.length), result) ∧
      (Marked result ↔ Marked image ∨ ∃ p ∈ (columns data col).1, fl.Bad p.2) := by
  induction data generalizing col i image with
  | nil =>
    refine ⟨image, rfl, (or_iff_left ?_).symm⟩
    rintro ⟨p, hp, -⟩
    exact List.not_mem_nil hp
  | cons c rest ih =>
    have hlength (col : ℕ) : (columns rest col).2.length ≤ rest.length := (columns_suffix rest col).length_le
    have hnone : ¬ ∃ p ∈ ([] : List (ℕ × ℕ)), fl.Bad p.2 := fun ⟨p, hp, _⟩ ↦ List.not_mem_nil hp
    rw [columns] at h ⊢
    rw [textLoop]
    split_ifs at h ⊢
    · obtain ⟨result, hrun, hmarked⟩ := ih (i := i + 1) h hcol
      refine ⟨result, ?_, hmarked⟩
      rw [hrun, List.length_cons, show i + 1 + (rest.length - (columns rest col).2.length) =
        i + (rest.length + 1 - (columns rest col).2.length) by have := hlength col; omega]
    · obtain ⟨result, hrun, hmarked⟩ := ih (i := i + 1) h (Nat.succ_pos _)
      refine ⟨result, ?_, hmarked⟩
      rw [hrun, List.length_cons, show i + 1 + (rest.length - (columns rest ((col ||| 7) + 1)).2.length) =
        i + (rest.length + 1 - (columns rest ((col ||| 7) + 1)).2.length) by have := hlength ((col ||| 7) + 1); lia]
    · exact ⟨image, by rw [Nat.sub_self, Nat.add_zero], (or_iff_left hnone).symm⟩
    · obtain ⟨temp, htemp⟩ := @punches_some fl c (h (col, c) List.mem_cons_self)
      obtain ⟨result, hrun, hmarked⟩ := ih (i := i + 1) (fun p hp ↦ h p (List.mem_cons_of_mem _ hp)) (Nat.succ_pos col)
      refine ⟨result, ?_, ?_⟩
      · rw [htemp, Option.bind_some]
        dsimp only
        rw [hrun, List.length_cons, show i + 1 + (rest.length - (columns rest (col + 1)).2.length) =
          i + (rest.length + 1 - (columns rest (col + 1)).2.length) by have := hlength (col + 1); omega]
      · rw [hmarked, marked_update hcol.ne', char_marked htemp, or_assoc]
        refine or_congr_right ⟨?_, ?_⟩
        · rintro (hbad | ⟨p, hp, hbad⟩)
          · exact ⟨(col, c), List.mem_cons_self, hbad⟩
          · exact ⟨p, List.mem_cons_of_mem _ hp, hbad⟩
        · rintro ⟨p, hp, hbad⟩
          rcases List.mem_cons.mp hp with rfl | hp
          · exact .inl hbad
          · exact .inr ⟨p, hp, hbad⟩
    · exact ⟨image, by rw [Nat.sub_self, Nat.add_zero], (or_iff_left hnone).symm⟩

/-- **The text of a card.** The mark for a character in the first column is lost. -/
lemma textLoop_first (h : ∀ p ∈ (columns data 0).1, 0 ≤ toChar p.2) :
    ∃ result, textLoop fl data 0 i blank = some (i + (data.length - (columns data 0).2.length), result) ∧
      (Marked result ↔ ∃ p ∈ (columns data 0).1, p.1 ≠ 0 ∧ fl.Bad p.2) := by
  have hafter {rest : List ℕ} {col : ℕ} (hcol : 0 < col) : (∃ p ∈ (columns rest col).1, fl.Bad p.2) ↔
      ∃ p ∈ (columns rest col).1, p.1 ≠ 0 ∧ fl.Bad p.2 :=
    exists_congr fun p ↦ and_congr_right fun hp ↦ (and_iff_right (hcol.trans_le (columns_ge hp)).ne').symm
  induction data generalizing i with
  | nil => exact ⟨blank, rfl, iff_of_false not_marked_blank fun ⟨p, hp, _⟩ ↦ List.not_mem_nil hp⟩
  | cons c rest ih =>
    have hlength (col : ℕ) : (columns rest col).2.length ≤ rest.length := (columns_suffix rest col).length_le
    rw [columns] at h ⊢
    rw [textLoop]
    simp only [if_pos (show 0 < 80 by norm_num)] at h ⊢
    split_ifs at h ⊢
    · obtain ⟨result, hrun, hmarked⟩ := ih h (i := i + 1)
      refine ⟨result, ?_, hmarked⟩
      rw [hrun, List.length_cons, show i + 1 + (rest.length - (columns rest 0).2.length) =
        i + (rest.length + 1 - (columns rest 0).2.length) by have := hlength 0; omega]
    · obtain ⟨result, hrun, hmarked⟩ := textLoop_some (i := i + 1) h (Nat.succ_pos _)
      refine ⟨result, ?_, ?_⟩
      · rw [hrun, List.length_cons, show i + 1 + (rest.length - (columns rest ((0 ||| 7) + 1)).2.length) =
          i + (rest.length + 1 - (columns rest ((0 ||| 7) + 1)).2.length) by have := hlength ((0 ||| 7) + 1); omega]
      · rw [hmarked, or_iff_right not_marked_blank, hafter (Nat.succ_pos _)]
    · exact ⟨blank, by rw [Nat.sub_self, Nat.add_zero], iff_of_false not_marked_blank fun ⟨p, hp, _⟩ ↦ List.not_mem_nil hp⟩
    · obtain ⟨temp, htemp⟩ := @punches_some fl c (h (0, c) List.mem_cons_self)
      obtain ⟨result, hrun, hmarked⟩ := textLoop_some (i := i + 1) (fun p hp ↦ h p (List.mem_cons_of_mem _ hp)) (Nat.succ_pos 0)
      refine ⟨result, ?_, ?_⟩
      · rw [htemp, Option.bind_some]
        dsimp only
        rw [hrun, List.length_cons, show i + 1 + (rest.length - (columns rest (0 + 1)).2.length) =
          i + (rest.length + 1 - (columns rest (0 + 1)).2.length) by have := hlength (0 + 1); omega]
      · rw [hmarked, marked_update_zero, punched_unmarked, or_iff_right (not_not.mpr rfl), hafter (Nat.succ_pos 0)]
        refine ⟨fun ⟨p, hp, hbad⟩ ↦ ⟨p, List.mem_cons_of_mem _ hp, hbad⟩, fun ⟨p, hp, hne, hbad⟩ ↦ ?_⟩
        rcases List.mem_cons.mp hp with rfl | hp
        · exact absurd rfl hne
        · exact ⟨p, hp, hne, hbad⟩

/-! ### Lines -/

lemma endLine_some (h : closed = true ∨ LineEnds data) : ∃ r, endLine closed data i = some r ∧ i ≤ r ∧ r ≤ i + data.length ∧
    ((∃ rest, data = 10 :: rest) → i < r) := by
  induction data generalizing i with
  | nil => exact ⟨i, if_pos (h.resolve_right id), le_rfl, le_rfl, fun ⟨_, hcons⟩ ↦ absurd hcons (List.cons_ne_nil _ _).symm⟩
  | cons c rest ih =>
    rw [endLine, List.length_cons]
    split_ifs with hlf hcr
    · exact ⟨i + 1, rfl, by omega, by omega, fun _ ↦ by omega⟩
    · have hne : (∃ tail, c :: rest = 10 :: tail) → False := fun ⟨_, hcons⟩ ↦ hlf (List.cons.inj hcons).1
      cases rest with
      | nil =>
        have hclosed : closed = true := h.resolve_right fun hends ↦ by
          rw [LineEnds, if_pos hcr] at hends
          exact hends.elim hlf fun hnil ↦ hnil rfl
        exact ⟨i + 1, if_pos hclosed, by omega, by simp, fun h ↦ (hne h).elim⟩
      | cons c' rest =>
        refine ⟨_, rfl, ?_, ?_, fun h ↦ (hne h).elim⟩
        · split_ifs <;> omega
        · rw [List.length_cons]
          split_ifs <;> lia
    · have hends : closed = true ∨ LineEnds rest := h.imp_right fun hends ↦ by
        rw [LineEnds, if_neg hcr] at hends
        exact hends.resolve_left hlf
      obtain ⟨r, hrun, hlow, hhigh, -⟩ := ih hends (i := i + 1)
      exact ⟨r, hrun, by omega, by omega, fun ⟨_, hcons⟩ ↦ absurd (List.cons.inj hcons).1 hlf⟩

lemma endLine_none (h : ¬ (closed = true ∨ LineEnds data)) : endLine closed data i = none := by
  rw [not_or] at h
  obtain ⟨hclosed, hends⟩ := h
  induction data generalizing i with
  | nil => exact if_neg hclosed
  | cons c rest ih =>
    rw [LineEnds, not_or] at hends
    obtain ⟨hlf, hends⟩ := hends
    rw [endLine, if_neg hlf]
    split_ifs at hends ⊢
    · rw [not_not] at hends
      rw [hends]
      exact if_neg hclosed
    · exact ih hends

lemma blankLoop_bounds (data : List ℕ) (col i : ℕ) : i ≤ (blankLoop data col i).2 ∧ (blankLoop data col i).2 ≤ i + data.length := by
  induction data generalizing col i with
  | nil => exact ⟨le_rfl, le_rfl⟩
  | cons c rest ih =>
    rw [blankLoop, List.length_cons]
    split_ifs
    · have := ih 80 (i + 1)
      omega
    · have := ih col (i + 1)
      omega
    · have := ih ((col ||| 7) + 1) (i + 1)
      omega
    · dsimp only
      omega
    · dsimp only
      omega

lemma rawLoop_bounds (data : List ℕ) (col j i : ℕ) (image : Image) :
    i ≤ (rawLoop data col j i image).1 ∧ (rawLoop data col j i image).1 ≤ i + data.length := by
  induction data generalizing col j i image with
  | nil => exact ⟨le_rfl, le_rfl⟩
  | cons c rest ih =>
    rw [rawLoop, List.length_cons]
    dsimp only
    split_ifs
    · have := ih (col + 1) 0 (i + 1) (Function.update image col ((image col <<< 3 ||| (c - 48)) % 2 ^ 16))
      omega
    · have := ih col (j + 1) (i + 1) (Function.update image col ((image col <<< 3 ||| (c - 48)) % 2 ^ 16))
      omega
    · dsimp only
      omega
    · dsimp only
      omega
    · dsimp only
      omega

/-- The digits end with another character. -/
def RawBad : List ℕ → ℕ → ℕ → Prop
  | [], _, _ => False
  | c :: rest, col, j =>
      col < 80 ∧ if 48 ≤ c ∧ c ≤ 55 then (if j + 1 = 4 then RawBad rest (col + 1) 0 else RawBad rest col (j + 1)) else ¬ (c = 10 ∨ c = 13)

lemma rawLoop_marked (h : RawBad data col j) : Marked (rawLoop data col j i image).2 := by
  induction data generalizing col j i image with
  | nil => exact h.elim
  | cons c rest ih =>
    rw [RawBad] at h
    rw [rawLoop, if_pos h.1]
    dsimp only
    have h := h.2
    split_ifs at h ⊢
    · exact ih h
    · exact ih h
    · exact marked_update_zero.mpr (by decide)

lemma get_bounds (h : b.get i = some c) : i ≤ b.data.length ∧ (c ≠ 0 → i < b.data.length) := by
  rw [Buffer.get] at h
  split_ifs at h with hlt hend
  · exact ⟨hlt.le, fun _ ↦ hlt⟩
  · exact ⟨hend.1.le, fun hc ↦ absurd (Option.some.inj h).symm hc⟩

/-- A word that is there. -/
lemma cmpLoop_true {word : List ℕ} {k : ℕ} (h : cmpLoop b word i = some true) (hk : k < word.length) :
    ∃ byte, b.get (i + k) = some byte ∧ tolower byte = word.getD k 0 := by
  induction word generalizing i k with
  | nil => exact absurd hk (Nat.not_lt_zero k)
  | cons c rest ih =>
    rw [cmpLoop] at h
    obtain ⟨byte, hbyte, hrest⟩ := Option.bind_eq_some_iff.mp h
    split_ifs at hrest with hne
    · exact absurd (Option.some.inj hrest) Bool.false_ne_true
    · cases k with
      | zero => exact ⟨byte, hbyte, not_not.mp hne⟩
      | succ k =>
        obtain ⟨byte, hbyte, hlower⟩ := ih hrest (Nat.lt_of_succ_lt_succ hk)
        exact ⟨byte, by rw [← hbyte, show i + (k + 1) = i + 1 + k by omega], hlower⟩

/-- The card of a word with three letters has four characters. -/
lemma word_length {word : List ℕ} (h : cmpLoop b word 1 = some true) (hlength : word.length = 3) :
    3 ≤ b.data.length ∧ (word.getD 2 0 ≠ 0 → 4 ≤ b.data.length) := by
  obtain ⟨byte, hbyte, hlower⟩ := cmpLoop_true h (show 2 < word.length by omega)
  obtain ⟨hle, hlt⟩ := get_bounds hbyte
  refine ⟨hle, fun hne ↦ hlt fun hzero ↦ hne ?_⟩
  rw [← hlower, hzero]
  rfl

lemma trySingles_some {list : List (List ℕ × ℕ × ℕ)} {l : Line} (h : trySingles b list = some l) :
    l = .plain ∨ ∃ e ∈ list, cmpLoop b e.1 1 = some true ∧ l = .single e.2.1 e.2.2 := by
  induction list with
  | nil => exact .inl (Option.some.inj h).symm
  | cons e list ih =>
    rw [trySingles] at h
    obtain ⟨same, hsame, hrest⟩ := Option.bind_eq_some_iff.mp h
    split_ifs at hrest with htrue
    · exact .inr ⟨e, List.mem_cons_self, htrue ▸ hsame, (Option.some.inj hrest).symm⟩
    · exact (ih hrest).imp_right fun ⟨e', he', h'⟩ ↦ ⟨e', List.mem_cons_of_mem e he', h'⟩

lemma singles_sizes : ∀ e ∈ singles, e.1.length = 3 ∧ 1 ≤ e.2.1 ∧ e.2.1 ≤ 4 ∧ (3 < e.2.1 → e.1.getD 2 0 ≠ 0) := by
  decide

/-- Where the conversion of a line stops. -/
def Line.stop (data : List ℕ) : Line → ℕ
  | .eof i => i
  | .raw => (rawLoop (data.drop 4) 0 0 4 blank).1
  | .single i _ => i
  | .plain => data.length - (columns data 0).2.length

/-- The stop is in the data, and not before the first byte unless the line is empty. -/
lemma stop_bounds {l : Line} (hne : b.data ≠ []) (h : line b = some l) :
    l.stop b.data ≤ b.data.length ∧ (1 ≤ l.stop b.data ∨ l.stop b.data = 0 ∧ ∃ rest, b.data = 10 :: rest) := by
  have hpos : 0 < b.data.length := List.length_pos_iff.mpr hne
  have hplain : Line.plain.stop b.data ≤ b.data.length ∧
      (1 ≤ Line.plain.stop b.data ∨ Line.plain.stop b.data = 0 ∧ ∃ rest, b.data = 10 :: rest) := by
    refine ⟨Nat.sub_le _ _, ?_⟩
    obtain ⟨c, rest, hdata⟩ := List.exists_cons_of_ne_nil hne
    rw [Line.stop, hdata, columns, if_pos (by norm_num), List.length_cons]
    have hlength (col : ℕ) : (columns rest col).2.length ≤ rest.length := (columns_suffix rest col).length_le
    split_ifs with hskip htab hlf
    · have := hlength 0
      omega
    · have := hlength ((0 ||| 7) + 1)
      omega
    · exact .inr ⟨Nat.sub_self _, rest, by rw [hlf]⟩
    · have := hlength (0 + 1)
      dsimp only
      omega
  rw [line] at h
  obtain ⟨c, hc, hline⟩ := Option.bind_eq_some_iff.mp h
  split_ifs at hline with htilde hblank
  · exact Option.some.inj hline ▸ hplain
  · have hbounds := blankLoop_bounds b.data.tail 1 1
    have htail : b.data.tail.length = b.data.length - 1 := List.length_tail
    rw [← Option.some.inj hline, Line.stop]
    omega
  · obtain ⟨same, hsame, hrest⟩ := Option.bind_eq_some_iff.mp hline
    split_ifs at hrest with htrue
    · have hlength := (word_length (htrue ▸ hsame) rfl).2 (by decide)
      have hbounds := rawLoop_bounds (b.data.drop 4) 0 0 4 blank
      rw [List.length_drop] at hbounds
      rw [← Option.some.inj hrest, Line.stop]
      omega
    · rcases trySingles_some hrest with rfl | ⟨e, he, hword, rfl⟩
      · exact hplain
      · have hsize := singles_sizes e he
        obtain ⟨hthree, hfour⟩ := word_length hword hsize.1
        rw [Line.stop]
        lia

/-! ### Good cards -/

/-- A card that takes bytes which are there, and is marked in error if a character of it cannot be translated. -/
def GoodCard (untranslatable : Prop) (b : Buffer) (result : Option Parsed) : Prop :=
  ∃ p, result = some p ∧ p.size ≤ b.data.length ∧ (b.data ≠ [] → p.ok = true ∧ 1 ≤ p.size) ∧ (untranslatable → Marked p.image)

variable {u : Prop}

lemma not_good_none : ¬ GoodCard u b none := fun ⟨_, h, _⟩ ↦ Option.some_ne_none _ h.symm

lemma good_some {p : Parsed} : GoodCard u b (some p) ↔
    p.size ≤ b.data.length ∧ (b.data ≠ [] → p.ok = true ∧ 1 ≤ p.size) ∧ (u → Marked p.image) := by
  constructor
  · rintro ⟨q, hq, h⟩
    exact Option.some.inj hq ▸ h
  · exact fun h ↦ ⟨p, rfl, h⟩

lemma endCard_good (hle : i ≤ b.data.length) (hpos : 1 ≤ i ∨ i = 0 ∧ ∃ rest, b.data = 10 :: rest) :
    GoodCard u b (endCard b i image) ↔ (b.closed = true ∨ LineEnds (b.data.drop i)) ∧ (u → Marked image) := by
  rw [endCard, if_neg (not_lt.mpr hle)]
  by_cases hends : b.closed = true ∨ LineEnds (b.data.drop i)
  · obtain ⟨r, hrun, hlow, hhigh, hlf⟩ := endLine_some hends (i := i)
    rw [List.length_drop] at hhigh
    have hsize : 1 ≤ r := by
      rcases hpos with hpos | ⟨rfl, hrest⟩
      · omega
      · exact hlf hrest
    rw [hrun, Option.map_some, good_some]
    exact ⟨fun h ↦ ⟨hends, h.2.2⟩, fun h ↦ ⟨show r ≤ _ by omega, fun _ ↦ ⟨rfl, hsize⟩, h.2⟩⟩
  · rw [endLine_none hends]
    exact iff_of_false not_good_none fun h ↦ hends h.1

/-- Text that can be converted, with an error that is not only in the first column. -/
def Line.Sound (fl : Flags) (data : List ℕ) : Line → Prop
  | .plain =>
      (∀ p ∈ (columns data 0).1, 0 ≤ toChar p.2) ∧
        ((∃ p ∈ (columns data 0).1, fl.Bad p.2) → ∃ p ∈ (columns data 0).1, p.1 ≠ 0 ∧ fl.Bad p.2)
  | _ => True

/-- The characters of a line that cannot be translated. -/
def Line.Untranslatable (fl : Flags) (data : List ℕ) : Line → Prop
  | .plain => ∃ p ∈ (columns data 0).1, fl.Bad p.2
  | .raw => RawBad (data.drop 4) 0 0
  | _ => False

def TextUntranslatable (fl : Flags) (b : Buffer) : Prop := ∃ l, line b = some l ∧ l.Untranslatable fl b.data

/-- A text card is sound: the line ends in the data or at the terminating byte. -/
def TextSound (fl : Flags) (b : Buffer) : Prop :=
  ∃ l, line b = some l ∧ l.Sound fl b.data ∧ (b.closed = true ∨ LineEnds (b.data.drop (l.stop b.data)))

theorem text_iff (hne : b.data ≠ []) : GoodCard (TextUntranslatable fl b) b (parseText fl b) ↔ TextSound fl b := by
  rw [parseText, TextSound, TextUntranslatable]
  cases hline : line b with
  | none => exact iff_of_false not_good_none fun ⟨_, h, _⟩ ↦ Option.some_ne_none _ h.symm
  | some l =>
    have hu : (∃ l', some l = some l' ∧ l'.Untranslatable fl b.data) ↔ l.Untranslatable fl b.data :=
      ⟨fun ⟨_, h, hu⟩ ↦ Option.some.inj h ▸ hu, fun hu ↦ ⟨l, rfl, hu⟩⟩
    have hs : (∃ l', some l = some l' ∧ l'.Sound fl b.data ∧ (b.closed = true ∨ LineEnds (b.data.drop (l'.stop b.data)))) ↔
        l.Sound fl b.data ∧ (b.closed = true ∨ LineEnds (b.data.drop (l.stop b.data))) :=
      ⟨fun ⟨_, h, hs⟩ ↦ Option.some.inj h ▸ hs, fun hs ↦ ⟨l, rfl, hs⟩⟩
    obtain ⟨hle, hpos⟩ := stop_bounds hne hline
    rw [hu, hs, Option.bind_some]
    cases l with
    | eof i =>
      exact (endCard_good hle hpos).trans ⟨fun h ↦ ⟨trivial, h.1⟩, fun h ↦ ⟨h.2, fun hu ↦ hu.elim⟩⟩
    | raw =>
      exact (endCard_good hle hpos).trans ⟨fun h ↦ ⟨trivial, h.1⟩, fun h ↦ ⟨h.2, fun hu ↦ rawLoop_marked hu⟩⟩
    | single i column =>
      exact (endCard_good hle hpos).trans ⟨fun h ↦ ⟨trivial, h.1⟩, fun h ↦ ⟨h.2, fun hu ↦ hu.elim⟩⟩
    | plain =>
      dsimp only
      by_cases hchars : ∀ p ∈ (columns b.data 0).1, 0 ≤ toChar p.2
      · obtain ⟨result, hrun, hmarked⟩ := textLoop_first (i := 0) hchars
        rw [Nat.zero_add] at hrun
        rw [hrun, Option.bind_some]
        refine (endCard_good hle hpos).trans ?_
        rw [hmarked]
        exact ⟨fun h ↦ ⟨⟨hchars, h.2⟩, h.1⟩, fun h ↦ ⟨h.2, h.1.2⟩⟩
      · rw [textLoop_none (by push Not at hchars; exact hchars)]
        exact iff_of_false not_good_none fun h ↦ hchars h.1.1

/-! ### Cards with parity -/

/-- The bytes of a card, up to the next record. -/
def taken (n : ℕ) (data : List ℕ) : List ℕ := (data.takeWhile fun c ↦ decide (¬ Begins c)).take n

lemma taken_cons (n : ℕ) : taken (n + 1) (c :: rest) = if Begins c then [] else c :: taken n rest := by
  rw [taken, List.takeWhile_cons]
  by_cases hc : Begins c
  · rw [if_pos hc, if_neg (by simpa using hc), List.take_nil]
  · rw [if_neg hc, if_pos (by simpa using hc), List.take_succ_cons]
    rfl

lemma taken_nil (n : ℕ) : taken n [] = [] := List.take_nil

lemma taken_zero (data : List ℕ) : taken 0 data = [] := rfl

/-- Nothing is taken after the last column, and nothing of the next record. -/
lemma taken_stop {n : ℕ} (h : ¬ (col < 80 ∧ ¬ Begins c)) : taken (n * (80 - col)) (c :: rest) = [] := by
  by_cases hcol : col < 80
  · have hc : Begins c := not_not.mp fun hc ↦ h ⟨hcol, hc⟩
    cases hn : n * (80 - col) with
    | zero => rfl
    | succ k => rw [taken_cons, if_pos hc]
  · rw [show 80 - col = 0 by omega, Nat.mul_zero, taken_zero]

lemma taken_length_le (n : ℕ) (data : List ℕ) : (taken n data).length ≤ n ∧ (taken n data).length ≤ data.length := by
  rw [taken, List.length_take]
  have hle := (List.takeWhile_prefix (fun c ↦ decide (¬ Begins c)) (l := data)).length_le
  omega

/-- A half with an error. -/
def OddBad (c : ℕ) : Prop := parity c = c &&& 0o100

lemma marked_or (h : v &&& cardErr = 0) : (image 0 ||| v) &&& cardErr ≠ 0 ↔ Marked image := by
  rw [Nat.and_or_distrib_right, h, Nat.or_zero, Marked]

lemma ite_marked {p : Prop} [Decidable p] : Marked (if p then mark cardErr image else image) ↔ Marked image ∨ p := by
  split_ifs with h
  · exact iff_of_true marked_mark (.inr h)
  · exact (or_iff_left h).symm

lemma low_unmarked (x : ℕ) : x &&& 0o77 &&& cardErr = 0 := by
  rw [Nat.and_assoc]
  exact Nat.and_zero x

lemma upper_marked (h : col ≠ 0) : Marked (upper col c image) ↔ Marked image ∨ OddBad c := by
  rw [upper, marked_update h, ite_marked, OddBad]

lemma upper_first : ¬ Marked (upper 0 c image) := by
  have hzero : (c &&& 0o77) <<< 6 &&& cardErr = 0 := by
    rw [show cardErr = 128 <<< 6 from rfl, ← Nat.shiftLeft_and_distrib, Nat.and_assoc]
    exact congrArg (· <<< 6) (Nat.and_zero c)
  rw [upper, marked_update_zero, hzero]
  exact not_not.mpr rfl

lemma lower_marked : Marked (lower col c image) ↔ Marked image ∨ OddBad c := by
  rw [lower]
  rcases eq_or_ne col 0 with rfl | hcol
  · rw [marked_update_zero, marked_or (low_unmarked c), ite_marked, OddBad]
  · rw [marked_update hcol, ite_marked, OddBad]

lemma bcd_unmarked : ∀ x < 64, bcdToHol x &&& cardErr = 0 := by decide

lemma whole_marked (h : col ≠ 0) : Marked (whole col c image) ↔ Marked image ∨ ¬ OddBad c := by
  rw [whole, marked_update h, ite_marked, OddBad]

lemma whole_first : ¬ Marked (whole 0 c image) := by
  have hlow : c &&& 0o77 < 64 := (Nat.and_le_right).trans_lt (by norm_num)
  rw [whole, marked_update_zero, bcd_unmarked _ hlow]
  exact not_not.mpr rfl

/-- A card whose last half is there. -/
lemma cbnLoop_even (hcol : col ≤ 80) (h : ¬ ((taken (2 * (80 - col)) data).length % 2 = 1 ∧
    (taken (2 * (80 - col)) data).length = data.length)) : ∃ result, cbnLoop closed data col i image =
      some (i + (taken (2 * (80 - col)) data).length, col + (taken (2 * (80 - col)) data).length / 2, result) ∧
      (0 < col → (Marked result ↔ Marked image ∨ ∃ c ∈ taken (2 * (80 - col)) data, OddBad c)) := by
  have hnone : ¬ ∃ c ∈ ([] : List ℕ), OddBad c := fun ⟨_, hmem, _⟩ ↦ List.not_mem_nil hmem
  have hstep {col : ℕ} (hcol : col < 80) : 2 * (80 - col) = 2 * (80 - (col + 1)) + 1 + 1 := by lia
  induction data using List.twoStepInduction generalizing col i image with
  | nil =>
    rw [taken_nil]
    exact ⟨image, rfl, fun _ ↦ (or_iff_left hnone).symm⟩
  | singleton c =>
    rw [cbnLoop]
    by_cases hc : col < 80 ∧ ¬ Begins c
    · rw [hstep hc.1, taken_cons, if_neg hc.2, taken_nil] at h
      exact absurd ⟨rfl, rfl⟩ h
    · rw [if_neg hc, taken_stop hc]
      exact ⟨image, rfl, fun _ ↦ (or_iff_left hnone).symm⟩
  | cons_cons c₁ c₂ rest ih _ =>
    rw [cbnLoop]
    by_cases hc : col < 80 ∧ ¬ Begins c₁
    · rw [if_pos hc]
      rw [hstep hc.1, taken_cons, if_neg hc.2, taken_cons] at h ⊢
      split_ifs at h ⊢ with hc₂
      · refine ⟨upper col c₁ image, by simp, fun hpos ↦ ?_⟩
        rw [upper_marked hpos.ne']
        exact or_congr_right ⟨fun hbad ↦ ⟨c₁, List.mem_singleton.mpr rfl, hbad⟩,
          fun ⟨c, hmem, hbad⟩ ↦ List.mem_singleton.mp hmem ▸ hbad⟩
      · rw [List.length_cons, List.length_cons, List.length_cons, List.length_cons] at h
        obtain ⟨result, hrun, hmarked⟩ := ih (i := i + 2) (show col + 1 ≤ 80 by omega) (by lia)
        refine ⟨result, ?_, fun hpos ↦ ?_⟩
        · rw [hrun, List.length_cons, List.length_cons]
          refine congrArg some (Prod.ext ?_ (Prod.ext ?_ rfl)) <;> dsimp only <;> omega
        · rw [hmarked (Nat.succ_pos col), lower_marked, upper_marked hpos.ne', or_assoc, or_assoc]
          refine or_congr_right ⟨?_, ?_⟩
          · rintro (hbad | hbad | ⟨c, hmem, hbad⟩)
            · exact ⟨c₁, List.mem_cons_self, hbad⟩
            · exact ⟨c₂, List.mem_cons_of_mem _ List.mem_cons_self, hbad⟩
            · exact ⟨c, List.mem_cons_of_mem _ (List.mem_cons_of_mem _ hmem), hbad⟩
          · rintro ⟨c, hmem, hbad⟩
            rcases List.mem_cons.mp hmem with rfl | hmem
            · exact .inl hbad
            · rcases List.mem_cons.mp hmem with rfl | hmem
              · exact .inr (.inl hbad)
              · exact .inr (.inr ⟨c, hmem, hbad⟩)
    · rw [if_neg hc, taken_stop hc]
      exact ⟨image, rfl, fun _ ↦ (or_iff_left hnone).symm⟩

/-- A card that ends with the data in the middle of a column: the byte after the data is taken. -/
lemma cbnLoop_odd {t : ℕ × ℕ × Image} (h : (taken (2 * (80 - col)) data).length % 2 = 1)
    (hall : (taken (2 * (80 - col)) data).length = data.length) (hrun : cbnLoop closed data col i image = some t) :
    t.1 = i + data.length + 1 := by
  have hstep {col : ℕ} (hcol : col < 80) : 2 * (80 - col) = 2 * (80 - (col + 1)) + 1 + 1 := by lia
  induction data using List.twoStepInduction generalizing col i image with
  | nil =>
    rw [taken_nil] at h
    exact absurd h (by decide)
  | singleton c =>
    rw [cbnLoop] at hrun
    split_ifs at hrun with hc hclosed
    · rw [← Option.some.inj hrun]
      rfl
    · rw [taken_stop hc] at h
      exact absurd h (by decide)
  | cons_cons c₁ c₂ rest ih _ =>
    rw [cbnLoop] at hrun
    by_cases hc : col < 80 ∧ ¬ Begins c₁
    · rw [if_pos hc] at hrun
      rw [hstep hc.1, taken_cons, if_neg hc.2, taken_cons] at h hall
      split_ifs at h hall hrun with hc₂
      · simp only [List.length_cons, List.length_nil] at hall
        omega
      · rw [List.length_cons, List.length_cons] at h
        rw [List.length_cons, List.length_cons, List.length_cons, List.length_cons] at hall
        rw [ih (by omega) (by lia) hrun, List.length_cons, List.length_cons]
        omega
    · rw [taken_stop hc] at h
      exact absurd h (by decide)

/-- The bytes of a BCD card. -/
lemma bcdLoop_spec (hcol : col ≤ 80) : ∃ result, bcdLoop data col i image =
      (i + (taken (80 - col) data).length, col + (taken (80 - col) data).length, result) ∧
      (0 < col → (Marked result ↔ Marked image ∨ ∃ c ∈ taken (80 - col) data, ¬ OddBad c)) := by
  have hnone : ¬ ∃ c ∈ ([] : List ℕ), ¬ OddBad c := fun ⟨_, hmem, _⟩ ↦ List.not_mem_nil hmem
  induction data generalizing col i image with
  | nil =>
    rw [taken_nil]
    exact ⟨image, rfl, fun _ ↦ (or_iff_left hnone).symm⟩
  | cons c rest ih =>
    rw [bcdLoop]
    by_cases hc : col < 80 ∧ ¬ Begins c
    · obtain ⟨result, hrun, hmarked⟩ := ih (i := i + 1) (show col + 1 ≤ 80 by omega)
      rw [if_pos hc, show 80 - col = 80 - (col + 1) + 1 by omega, taken_cons, if_neg hc.2, List.length_cons]
      refine ⟨result, ?_, fun hpos ↦ ?_⟩
      · rw [hrun]
        refine Prod.ext ?_ (Prod.ext ?_ rfl) <;> dsimp only <;> omega
      · rw [hmarked (Nat.succ_pos col), whole_marked hpos.ne', or_assoc]
        refine or_congr_right ⟨?_, ?_⟩
        · rintro (hbad | ⟨c, hmem, hbad⟩)
          · exact ⟨_, List.mem_cons_self, hbad⟩
          · exact ⟨c, List.mem_cons_of_mem _ hmem, hbad⟩
        · rintro ⟨c, hmem, hbad⟩
          rcases List.mem_cons.mp hmem with rfl | hmem
          · exact .inl hbad
          · exact .inr ⟨c, hmem, hbad⟩
    · have htaken : taken (80 - col) (c :: rest) = [] := by
        have hstop := @taken_stop rest c col 1 hc
        rwa [Nat.one_mul] at hstop
      rw [if_neg hc, htaken]
      exact ⟨image, rfl, fun _ ↦ (or_iff_left hnone).symm⟩

/-! ### Records that are too long -/

lemma skipRecord_some (h : ∃ c ∈ data, Begins c) : ∃ r, skipRecord data i = some r ∧ i ≤ r ∧ r ≤ i + data.length := by
  induction data generalizing i with
  | nil =>
    obtain ⟨_, hmem, _⟩ := h
    exact absurd hmem List.not_mem_nil
  | cons c rest ih =>
    rw [skipRecord, List.length_cons]
    split_ifs with hc
    · exact ⟨i, rfl, le_rfl, by omega⟩
    · obtain ⟨c', hmem, hc'⟩ := h
      have hrest : ∃ c ∈ rest, Begins c := by
        rcases List.mem_cons.mp hmem with rfl | hmem
        · exact absurd hc' hc
        · exact ⟨c', hmem, hc'⟩
      obtain ⟨r, hrun, hlow, hhigh⟩ := ih hrest (i := i + 1)
      exact ⟨r, hrun, by omega, by omega⟩

lemma skipRecord_none (h : ¬ ∃ c ∈ data, Begins c) : skipRecord data i = none := by
  induction data generalizing i with
  | nil => rfl
  | cons c rest ih =>
    rw [skipRecord, if_neg fun hc ↦ h ⟨c, List.mem_cons_self, hc⟩]
    exact ih fun ⟨c', hmem, hc'⟩ ↦ h ⟨c', List.mem_cons_of_mem c hmem, hc'⟩

/-- A record goes on after the last column of a card. -/
def Over (mode : Mode) (col : ℕ) (after : List ℕ) : Prop := mode ≠ .auto ∧ 80 ≤ col ∧ ∃ c rest, after = c :: rest ∧ ¬ Begins c

lemma overlong_good {mode : Mode} (hlength : data.length = b.data.length) (hpos : 1 ≤ i) (hle : i ≤ b.data.length) :
    GoodCard u b (overlong mode data (i, col, image)) ↔
      (Over mode col (data.drop i) → ∃ c ∈ data.drop i, Begins c) ∧ (u → Marked image ∨ Over mode col (data.drop i)) := by
  have hsame (h : ¬ Over mode col (data.drop i)) : GoodCard u b (some ⟨image, i, true⟩) ↔
      (Over mode col (data.drop i) → ∃ c ∈ data.drop i, Begins c) ∧ (u → Marked image ∨ Over mode col (data.drop i)) := by
    rw [good_some]
    exact ⟨fun hgood ↦ ⟨fun hover ↦ absurd hover h, fun hu ↦ .inl (hgood.2.2 hu)⟩,
      fun hgood ↦ ⟨hle, fun _ ↦ ⟨rfl, hpos⟩, fun hu ↦ (hgood.2 hu).resolve_right h⟩⟩
  rw [overlong]
  cases hafter : data.drop i with
  | nil =>
    rw [hafter] at hsame
    exact hsame fun ⟨_, _, _, _, hcons, _⟩ ↦ List.cons_ne_nil _ _ hcons.symm
  | cons c rest =>
    rw [hafter] at hsame
    dsimp only
    have hover : (mode ≠ .auto ∧ 80 ≤ col ∧ ¬ Begins c) ↔ Over mode col (c :: rest) :=
      ⟨fun ⟨hmode, hcol, hc⟩ ↦ ⟨hmode, hcol, c, rest, rfl, hc⟩,
        fun ⟨hmode, hcol, _, _, hcons, hc⟩ ↦ ⟨hmode, hcol, (List.cons.inj hcons).1 ▸ hc⟩⟩
    by_cases hc : mode ≠ .auto ∧ 80 ≤ col ∧ ¬ Begins c
    · rw [if_pos hc]
      by_cases hmark : ∃ c' ∈ c :: rest, Begins c'
      · obtain ⟨r, hrun, hlow, hhigh⟩ := skipRecord_some hmark (i := i)
        have hrest := congrArg List.length hafter
        rw [List.length_drop] at hrest
        rw [hrun, Option.map_some, good_some]
        exact iff_of_true ⟨show r ≤ _ by omega, fun _ ↦ ⟨rfl, show 1 ≤ r by omega⟩, fun _ ↦ marked_mark⟩
          ⟨fun _ ↦ hmark, fun _ ↦ .inr (hover.mp hc)⟩
      · rw [skipRecord_none hmark]
        exact iff_of_false not_good_none fun h ↦ hmark (h.1 (hover.mp hc))
    · rw [if_neg hc]
      exact hsame fun h ↦ hc (hover.mpr h)

/-- The data of a card with parity: the characters, an error that is not only in the first of them, and a next record after a record that
is too long. -/
def ParitySound (bad : ℕ → Prop) (mode : Mode) (n : ℕ) (data : List ℕ) : Prop :=
  (Over mode ((taken n data).length * 80 / n) (data.drop (taken n data).length) → ∃ c ∈ data.drop (taken n data).length, Begins c) ∧
    ((∃ c ∈ taken n data, bad c) →
      (∃ c ∈ (taken n data).tail, bad c) ∨ Over mode ((taken n data).length * 80 / n) (data.drop (taken n data).length))

/-- A tape mark. -/
def CbnMark (data : List ℕ) : Prop := ∃ rest, data = 0o217 :: rest ∧ (rest = [] ∨ Begins (rest.headD 0))
def BcdMark (data : List ℕ) : Prop := ∃ c rest, data = 0o217 :: c :: rest ∧ Begins c

/-- The data without the mark of the record. -/
def unmarked (data : List ℕ) : List ℕ := (data.headD 0 &&& 0x7f) :: data.tail

/-- A column binary card is sound: no column of it ends with the data. -/
def CbnSound (mode : Mode) (data : List ℕ) : Prop :=
  CbnMark data ∨ ¬ ((taken 160 (unmarked data)).length % 2 = 1 ∧ (taken 160 (unmarked data)).length = data.length) ∧
    ParitySound OddBad mode 160 (unmarked data)

/-- A BCD card is sound: the mark of the record is not there. -/
def BcdSound (mode : Mode) (data : List ℕ) : Prop :=
  BcdMark data ∨ ¬ Begins (data.headD 0) ∧ ParitySound (fun c ↦ ¬ OddBad c) mode 80 data

def CbnUntranslatable (data : List ℕ) : Prop := ¬ CbnMark data ∧ ∃ c ∈ taken 160 (unmarked data), OddBad c
def BcdUntranslatable (data : List ℕ) : Prop := ¬ BcdMark data ∧ ∃ c ∈ taken 80 data, ¬ OddBad c

lemma not_begins_unmarked (c : ℕ) : ¬ Begins (c &&& 0x7f) := by
  rw [Begins, Nat.and_assoc]
  exact not_not.mpr (Nat.and_zero c)

/-- The first column of a column binary card. -/
lemma cbnLoop_first (hdata : data = c :: rest) (hc : ¬ Begins c)
    (h : ¬ ((taken 160 data).length % 2 = 1 ∧ (taken 160 data).length = data.length)) :
    ∃ result, cbnLoop closed data 0 0 blank = some ((taken 160 data).length, (taken 160 data).length / 2, result) ∧
      (Marked result ↔ ∃ c ∈ (taken 160 data).tail, OddBad c) := by
  subst hdata
  rw [show 160 = 158 + 1 + 1 from rfl, taken_cons, if_neg hc] at h ⊢
  rw [List.tail_cons]
  cases rest with
  | nil =>
    rw [taken_nil] at h
    exact absurd ⟨rfl, rfl⟩ h
  | cons c₂ rest =>
    rw [cbnLoop, if_pos ⟨by norm_num, hc⟩]
    rw [taken_cons] at h ⊢
    split_ifs at h ⊢ with hc₂
    · exact ⟨upper 0 c blank, by simp, iff_of_false upper_first fun ⟨_, hmem, _⟩ ↦ List.not_mem_nil hmem⟩
    · simp only [List.length_cons] at h
      obtain ⟨result, hrun, hmarked⟩ := @cbnLoop_even rest closed (lower 0 c₂ (upper 0 c blank)) (0 + 1) (0 + 2) (by norm_num) (by
        change ¬ ((taken 158 rest).length % 2 = 1 ∧ (taken 158 rest).length = rest.length)
        lia)
      refine ⟨result, ?_, ?_⟩
      · rw [hrun, List.length_cons, List.length_cons]
        change some (0 + 2 + (taken 158 rest).length, 0 + 1 + (taken 158 rest).length / 2, result) = _
        refine congrArg some (Prod.ext ?_ (Prod.ext ?_ rfl)) <;> dsimp only <;> lia
      · rw [hmarked (Nat.succ_pos 0), lower_marked, or_iff_right upper_first]
        change OddBad c₂ ∨ (∃ c ∈ taken 158 rest, OddBad c) ↔ _
        constructor
        · rintro (hbad | ⟨c, hmem, hbad⟩)
          · exact ⟨c₂, List.mem_cons_self, hbad⟩
          · exact ⟨c, List.mem_cons_of_mem _ hmem, hbad⟩
        · rintro ⟨c, hmem, hbad⟩
          rcases List.mem_cons.mp hmem with rfl | hmem
          · exact .inl hbad
          · exact .inr ⟨c, hmem, hbad⟩

theorem cbn_iff {mode : Mode} (hne : b.data ≠ []) :
    GoodCard (CbnUntranslatable b.data) b (parseCbn mode b) ↔ CbnSound mode b.data := by
  obtain ⟨c, rest, hdata⟩ := List.exists_cons_of_ne_nil hne
  have hlength : 0 < b.data.length := List.length_pos_iff.mpr hne
  have hmark : CbnMark b.data ↔ c = 0o217 ∧ (rest = [] ∨ rest.headD 0 &&& 0o200 ≠ 0) := by
    rw [hdata]
    exact ⟨fun ⟨_, hcons, h⟩ ↦ ⟨(List.cons.inj hcons).1, (List.cons.inj hcons).2 ▸ h⟩, fun ⟨hc, h⟩ ↦ ⟨rest, by rw [hc], h⟩⟩
  rw [parseCbn, hdata]
  dsimp only
  rw [← hdata]
  by_cases hm : c = 0o217 ∧ (rest = [] ∨ rest.headD 0 &&& 0o200 ≠ 0)
  · rw [if_pos hm, good_some]
    exact iff_of_true ⟨hlength, fun _ ↦ ⟨rfl, le_rfl⟩, fun hu ↦ absurd (hmark.mpr hm) hu.1⟩ (.inl (hmark.mpr hm))
  · have hunmarked : (c &&& 0x7f) :: rest = unmarked b.data := by rw [hdata]; rfl
    have hsame : (unmarked b.data).length = b.data.length := by rw [hdata]; rfl
    have hu : CbnUntranslatable b.data ↔ ∃ c ∈ taken 160 (unmarked b.data), OddBad c := and_iff_right fun h ↦ hm (hmark.mp h)
    rw [if_neg hm, hunmarked, CbnSound, or_iff_right fun h ↦ hm (hmark.mp h), hu]
    by_cases hodd : (taken 160 (unmarked b.data)).length % 2 = 1 ∧ (taken 160 (unmarked b.data)).length = b.data.length
    · refine iff_of_false (fun hgood ↦ ?_) fun h ↦ h.1 hodd
      cases hrun : cbnLoop b.closed (unmarked b.data) 0 0 blank with
      | none =>
        rw [hrun] at hgood
        exact not_good_none hgood
      | some t =>
        have ht := cbnLoop_odd hodd.1 (hodd.2.trans hsame.symm) hrun
        have hafter : (unmarked b.data).drop t.1 = [] := List.drop_eq_nil_of_le (by omega)
        rw [hrun, Option.bind_some, overlong, hafter, good_some] at hgood
        have hsize : t.1 ≤ b.data.length := hgood.1
        omega
    · obtain ⟨result, hrun, hmarked⟩ := @cbnLoop_first _ _ b.closed _ hunmarked.symm (not_begins_unmarked c) (hsame ▸ hodd)
      have hfirst : 1 ≤ (taken 160 (unmarked b.data)).length := by
        rw [← hunmarked, show 160 = 159 + 1 from rfl, taken_cons, if_neg (not_begins_unmarked c), List.length_cons]
        exact Nat.succ_pos _
      have hcol : (taken 160 (unmarked b.data)).length / 2 = (taken 160 (unmarked b.data)).length * 80 / 160 := by lia
      rw [hrun, Option.bind_some, overlong_good hsame hfirst (hsame ▸ (taken_length_le 160 _).2), hmarked, hcol]
      exact (and_iff_right hodd).symm

/-- The first column of a BCD card. -/
lemma bcdLoop_first (hdata : data = c :: rest) (hc : ¬ Begins c) : ∃ result,
    bcdLoop data 0 0 blank = ((taken 80 data).length, (taken 80 data).length, result) ∧
      (Marked result ↔ ∃ c ∈ (taken 80 data).tail, ¬ OddBad c) := by
  subst hdata
  obtain ⟨result, hrun, hmarked⟩ := @bcdLoop_spec rest (whole 0 c blank) (0 + 1) (0 + 1) (by norm_num)
  rw [show 80 = 79 + 1 from rfl, taken_cons, if_neg hc, List.tail_cons, bcdLoop, if_pos ⟨by norm_num, hc⟩]
  refine ⟨result, ?_, ?_⟩
  · rw [hrun, List.length_cons]
    change (0 + 1 + (taken 79 rest).length, 0 + 1 + (taken 79 rest).length, result) = _
    rw [Nat.zero_add, Nat.add_comm]
  · exact (hmarked (Nat.succ_pos 0)).trans (or_iff_right whole_first)

theorem bcd_iff {mode : Mode} (hne : b.data ≠ []) :
    GoodCard (BcdUntranslatable b.data) b (parseBcd mode b) ↔ BcdSound mode b.data := by
  obtain ⟨c, rest, hdata⟩ := List.exists_cons_of_ne_nil hne
  have hlength : 0 < b.data.length := List.length_pos_iff.mpr hne
  have hget : b.get 0 = some c := by rw [Buffer.get, if_pos hlength, hdata]; rfl
  have hhead : b.data.headD 0 = c := by rw [hdata]; rfl
  -- a record that begins here has no bytes
  have hempty (hc : Begins c) : ¬ GoodCard (BcdUntranslatable b.data) b (overlong mode b.data (bcdLoop b.data 0 0 blank)) := by
    have hloop : bcdLoop b.data 0 0 blank = (0, 0, blank) := by rw [hdata, bcdLoop, if_neg fun h ↦ h.2 hc]
    rw [hloop, overlong, List.drop_zero, hdata]
    dsimp only
    rw [if_neg fun h ↦ h.2.2 hc, good_some]
    exact fun h ↦ absurd (h.2.1 hne).2 (by decide)
  rw [parseBcd, hget, Option.bind_some, BcdSound, hhead]
  by_cases hc : c = 0o217
  · have hbegins : Begins c := by rw [hc]; decide
    rw [if_pos hc]
    cases rest with
    | nil =>
      have hmark : ¬ BcdMark b.data := fun ⟨_, _, hcons, _⟩ ↦ by
        rw [hdata] at hcons
        exact List.cons_ne_nil _ _ (List.cons.inj hcons).2.symm
      refine iff_of_false ?_ fun h ↦ h.elim hmark fun h ↦ h.1 hbegins
      have hget' : b.get 1 = if b.closed = true then some 0 else none := by
        rw [Buffer.get, hdata, if_neg (by simp)]
        simp
      rw [hget']
      split_ifs
      · exact hempty hbegins
      · exact not_good_none
    | cons c' rest =>
      have hget' : b.get 1 = some c' := by
        rw [Buffer.get, if_pos (by rw [hdata, List.length_cons, List.length_cons]; omega), hdata]
        rfl
      have hmark : BcdMark b.data ↔ c' &&& 0o200 ≠ 0 := by
        rw [hdata, hc]
        exact ⟨fun ⟨_, _, hcons, h⟩ ↦ (List.cons.inj (List.cons.inj hcons).2).1 ▸ h, fun h ↦ ⟨c', rest, rfl, h⟩⟩
      rw [hget', Option.map_some, Option.bind_some]
      by_cases hm : c' &&& 0o200 ≠ 0
      · rw [if_pos (decide_eq_true hm), good_some]
        exact iff_of_true ⟨hlength, fun _ ↦ ⟨rfl, le_rfl⟩, fun hu ↦ absurd (hmark.mpr hm) hu.1⟩ (.inl (hmark.mpr hm))
      · rw [if_neg (fun h ↦ hm (of_decide_eq_true h))]
        exact iff_of_false (hempty hbegins) fun h ↦ h.elim (fun h ↦ hm (hmark.mp h)) fun h ↦ h.1 hbegins
  · have hmark : ¬ BcdMark b.data := fun ⟨_, _, hcons, _⟩ ↦ hc (List.cons.inj (hdata.symm.trans hcons)).1
    rw [if_neg hc, Option.bind_some, if_neg Bool.false_ne_true, or_iff_right hmark]
    by_cases hbegins : Begins c
    · exact iff_of_false (hempty hbegins) fun h ↦ h.1 hbegins
    · obtain ⟨result, hrun, hmarked⟩ := bcdLoop_first hdata hbegins
      have hfirst : 1 ≤ (taken 80 b.data).length := by
        rw [hdata, show 80 = 79 + 1 from rfl, taken_cons, if_neg hbegins, List.length_cons]
        exact Nat.succ_pos _
      have hu : BcdUntranslatable b.data ↔ ∃ c ∈ taken 80 b.data, ¬ OddBad c := and_iff_right hmark
      have hcol : (taken 80 b.data).length = (taken 80 b.data).length * 80 / 80 := by omega
      rw [hrun, overlong_good rfl hfirst (taken_length_le 80 _).2, hmarked, hu, and_iff_right hbegins, ParitySound, ← hcol]

/-! ### The other formats -/

/-- A binary card with bits where none are. -/
def BinUntranslatable (data : List ℕ) : Prop := 160 ≤ data.length ∧ ∃ k < 80, data.getD (2 * k) 0 &&& 0xf ≠ 0

lemma binLoop_bits (hlength : 2 * (80 - col) ≤ data.length) :
    (binLoop data col temp image).1 &&& 0xf ≠ 0 ↔ temp &&& 0xf ≠ 0 ∨ ∃ k < 80 - col, data.getD (2 * k) 0 &&& 0xf ≠ 0 := by
  have hnone {n : ℕ} {data : List ℕ} (h : n = 0) : ¬ ∃ k < n, data.getD (2 * k) 0 &&& 0xf ≠ 0 := fun ⟨k, hk, _⟩ ↦ by omega
  induction data using List.twoStepInduction generalizing col temp image with
  | nil => exact (or_iff_left (hnone (by rw [List.length_nil] at hlength; omega))).symm
  | singleton c => exact (or_iff_left (hnone (by rw [List.length_singleton] at hlength; omega))).symm
  | cons_cons c₁ c₂ rest ih _ =>
    rw [binLoop]
    split_ifs with hcol
    · simp only [List.length_cons] at hlength
      have hor : (temp ||| c₁ &&& 0xff) &&& 0xf ≠ 0 ↔ temp &&& 0xf ≠ 0 ∨ c₁ &&& 0xf ≠ 0 := by
        rw [Nat.and_or_distrib_right, Nat.and_assoc, Ne, Nat.or_eq_zero_iff, not_and_or]
        rfl
      refine (ih (by lia)).trans ?_
      rw [hor, or_assoc]
      refine or_congr_right ⟨?_, ?_⟩
      · rintro (h | ⟨k, hk, h⟩)
        · exact ⟨0, by lia, h⟩
        · exact ⟨k + 1, by lia, h⟩
      · rintro ⟨k, hk, h⟩
        cases k with
        | zero => exact .inl h
        | succ k => exact .inr ⟨k, by lia, h⟩
    · exact (or_iff_left (hnone (by omega))).symm

theorem bin_iff (hne : b.data ≠ []) : GoodCard (BinUntranslatable b.data) b (some (parseBin b)) ↔ 160 ≤ b.data.length := by
  rw [good_some, parseBin]
  split_ifs with hlength
  · exact iff_of_false (fun h ↦ (h.2.1 hne).1) (not_le.mpr hlength)
  · refine iff_of_true ⟨not_lt.mp hlength, fun _ ↦ ⟨rfl, by norm_num⟩, fun ⟨_, hbits⟩ ↦ ?_⟩ (not_lt.mp hlength)
    have hbad : (binLoop b.data 0 0 blank).1 &&& 0xf ≠ 0 := (binLoop_bits (by omega)).mpr (.inr hbits)
    dsimp only
    rw [if_pos hbad]
    exact marked_mark

lemma ebcdicLoop_size (hi : i ≤ 80) : (ebcdicLoop data i image).1 = min 80 (i + data.length) := by
  induction data generalizing i image with
  | nil => exact (min_eq_right hi).symm
  | cons c rest ih =>
    rw [ebcdicLoop, List.length_cons]
    split_ifs with h
    · rw [ih (by omega)]
      lia
    · dsimp only
      omega

theorem ebcdic_good (hne : b.data ≠ []) : GoodCard False b (some (parseEbcdic b)) := by
  have hlength : 0 < b.data.length := List.length_pos_iff.mpr hne
  have hsize := @ebcdicLoop_size b.data (if b.data.length < 80 then mark cardErr blank else blank) 0 (by norm_num)
  rw [good_some, parseEbcdic]
  dsimp only
  rw [hsize]
  exact ⟨by omega, fun _ ↦ ⟨rfl, by omega⟩, fun h ↦ h.elim⟩

/-! ### Cards -/

/-- The format of a card. -/
def format (fl : Flags) (b : Buffer) : Option Mode := if fl.mode = .auto then autoMode b else some fl.mode

/-- The data are sound for a format. -/
def SoundFor (fl : Flags) (b : Buffer) : Mode → Prop
  | .bin => 160 ≤ b.data.length
  | .cbn => CbnSound fl.mode b.data
  | .bcd => BcdSound fl.mode b.data
  | .ebcdic => True
  | _ => TextSound fl b

/-- There is a character that has no column in a format. -/
def UntranslatableIn (fl : Flags) (b : Buffer) : Mode → Prop
  | .bin => BinUntranslatable b.data
  | .cbn => CbnUntranslatable b.data
  | .bcd => BcdUntranslatable b.data
  | .ebcdic => False
  | _ => TextUntranslatable fl b

/-- A card is good, and its data are sound. -/
def Good (fl : Flags) (b : Buffer) : Prop := GoodCard (∃ m, format fl b = some m ∧ UntranslatableIn fl b m) b (parseCard fl b)
def Sound (fl : Flags) (b : Buffer) : Prop := ∃ m, format fl b = some m ∧ SoundFor fl b m

/-- **A card is good just if its data are sound.** -/
theorem good_iff (hne : b.data ≠ []) : Good fl b ↔ Sound fl b := by
  rw [Good, Sound, parseCard, ← format]
  cases hformat : format fl b with
  | none => exact iff_of_false not_good_none fun ⟨_, h, _⟩ ↦ Option.some_ne_none _ h.symm
  | some m =>
    have hu : (∃ m', some m = some m' ∧ UntranslatableIn fl b m') ↔ UntranslatableIn fl b m :=
      ⟨fun ⟨_, h, hu⟩ ↦ Option.some.inj h ▸ hu, fun hu ↦ ⟨m, rfl, hu⟩⟩
    have hs : (∃ m', some m = some m' ∧ SoundFor fl b m') ↔ SoundFor fl b m :=
      ⟨fun ⟨_, h, hs⟩ ↦ Option.some.inj h ▸ hs, fun hs ↦ ⟨m, rfl, hs⟩⟩
    rw [hu, hs, Option.bind_some]
    cases m with
    | auto => exact text_iff hne
    | bin => exact bin_iff hne
    | text => exact text_iff hne
    | bcd => exact bcd_iff hne
    | cbn => exact cbn_iff hne
    | ebcdic => exact iff_of_true (ebcdic_good hne) trivial
    | octal => exact text_iff hne

/-! ### Decks -/

variable {s t : Deck} {file : List ℕ}

/-- The bytes that are still to be taken. -/
def Deck.left (s : Deck) : ℕ := s.buf.data.length + s.file.length

lemma slurp_left (s : Deck) : (slurp s).left = s.left := by
  rw [slurp]
  split_ifs
  · rw [Deck.left, Deck.left]
    dsimp only
    rw [List.length_append, List.length_take, List.length_drop]
    lia
  · rfl

lemma slurp_ne (h : s.buf.data ≠ []) : (slurp s).buf.data ≠ [] := by
  rw [slurp]
  split_ifs
  · exact fun hnil ↦ h (List.append_eq_nil_iff.mp hnil).1
  · exact h

/-- **A good card** is taken from the buffer, and there are fewer bytes left. -/
lemma takeCard_good (hgood : Good fl s.buf) (hne : s.buf.data ≠ []) :
    (∃ t, takeCard fl s = .inl t ∧ t.buf.data ≠ [] ∧ t.left < s.left) ∨ ∃ t, takeCard fl s = .inr (some t) := by
  obtain ⟨p, hp, hsize, hok, -⟩ := hgood
  have hfirst := (hok hne).2
  rw [takeCard, hp]
  dsimp only
  rw [if_neg (not_lt.mpr hsize)]
  split_ifs with hmore
  · refine .inl ⟨_, rfl, hmore.1, ?_⟩
    rw [Deck.left, Deck.left]
    dsimp only
    rw [List.length_drop]
    omega
  · exact .inr ⟨_, rfl⟩

/-- With good cards, the end of the deck is reached. -/
lemma deck_ends (hne : s.buf.data ≠ [])
    (hgood : ∀ n t, Iterate.run (nextCard fl) n s = .inl t → (slurp t).buf.data ≠ [] → Good fl (slurp t).buf) :
    ∃ n t, Iterate.run (nextCard fl) n s = .inr (some t) := by
  generalize hrank : s.left = k
  induction k using Nat.strong_induction_on generalizing s with
  | _ k ih =>
    have hbody : nextCard fl s = takeCard fl (slurp s) := rfl
    rcases takeCard_good (hgood 0 s rfl (slurp_ne hne)) (slurp_ne hne) with ⟨t, ht, hnet, hleft⟩ | ⟨t, ht⟩
    · rw [slurp_left, hrank] at hleft
      obtain ⟨n, u, hrun⟩ := ih t.left hleft hnet (fun n u hu ↦ hgood (n + 1) u (by
        rw [Iterate.run_succ, hbody, ht]
        exact hu)) rfl
      refine ⟨n + 1, u, ?_⟩
      rw [Iterate.run_succ, hbody, ht]
      exact hrun
    · refine ⟨1, t, ?_⟩
      rw [Iterate.run_succ, hbody, ht]
      rfl

/-- A card of an empty file takes no bytes. -/
lemma parseCard_nil : ∃ p, parseCard fl ⟨[], true, 0⟩ = some p ∧ p.size = 0 := by
  rw [parseCard]
  cases fl.mode <;> exact ⟨_, rfl, rfl⟩

/-- A deck is read to its end, and its cards are good. -/
def DeckGood (fl : Flags) (file : List ℕ) : Prop :=
  (∃ n t, Iterate.run (nextCard fl) n (openDeck file) = .inr (some t)) ∧
    ∀ n s, Iterate.run (nextCard fl) n (openDeck file) = .inl s → (slurp s).buf.data ≠ [] → Good fl (slurp s).buf

/-- **A deck is read to its end, and its cards are good, just if the data are sound for each of its cards.** -/
theorem deck_iff (fl : Flags) (file : List ℕ) : DeckGood fl file ↔
    ∀ n s, Iterate.run (nextCard fl) n (openDeck file) = .inl s → (slurp s).buf.data ≠ [] → Sound fl (slurp s).buf := by
  refine ⟨fun h n s hrun hne ↦ (good_iff hne).mp (h.2 n s hrun hne), fun h ↦ ?_⟩
  have hgood (n : ℕ) (s : Deck) (hrun : Iterate.run (nextCard fl) n (openDeck file) = .inl s) (hne : (slurp s).buf.data ≠ []) :
      Good fl (slurp s).buf := (good_iff hne).mpr (h n s hrun hne)
  refine ⟨?_, hgood⟩
  have hslurp : (slurp (openDeck file)).buf.data = file.take 8192 := List.nil_append _
  rcases eq_or_ne file [] with rfl | hfile
  · obtain ⟨p, hp, hsize⟩ := @parseCard_nil fl
    have hbuf : (slurp (openDeck [])).buf = ⟨[], true, 0⟩ := rfl
    refine ⟨1, ⟨⟨[], true, p.size⟩, [], true, [p.image], true && p.ok⟩, ?_⟩
    rw [Iterate.run_succ, nextCard, takeCard, hbuf, hp]
    dsimp only
    rw [hsize, if_neg (Nat.not_lt_zero _), if_neg fun hmore ↦ hmore.1 rfl]
    rfl
  · have hne : (slurp (openDeck file)).buf.data ≠ [] := by
      rw [hslurp]
      exact fun hnil ↦ (List.take_eq_nil_iff.mp hnil).elim (by norm_num) hfile
    rcases takeCard_good (hgood 0 _ rfl hne) hne with ⟨t, ht, hnet, -⟩ | ⟨t, ht⟩
    · have hbody : nextCard fl (openDeck file) = .inl t := ht
      obtain ⟨n, u, hrun⟩ := deck_ends hnet fun n u hu ↦ hgood (n + 1) u (by
        rw [Iterate.run_succ, hbody]
        exact hu)
      refine ⟨n + 1, u, ?_⟩
      rw [Iterate.run_succ, hbody]
      exact hrun
    · have hbody : nextCard fl (openDeck file) = .inr (some t) := ht
      refine ⟨1, t, ?_⟩
      rw [Iterate.run_succ, hbody]
      rfl

/-- Text in the code of the 026. -/
def text026 : Flags := ⟨.text, false, .h026⟩

/-- A byte that is negative as a character: the table is read before its first entry. -/
theorem negative_read : ¬ DeckGood text026 [0xe9, 10] := fun h ↦ by
  obtain ⟨p, hp, -⟩ := h.2 0 _ rfl (by decide)
  have hnone : parseCard text026 (slurp (openDeck [0xe9, 10])).buf = none := rfl
  exact Option.some_ne_none p (hp.symm.trans hnone)

end Ka10Simh.Card
