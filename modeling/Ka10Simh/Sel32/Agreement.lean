import Ka10Simh.Sel32.RealAddr

/-!
First and later references to a page on a SEL 32.

* `Sel.Fills`: what references do to the maps that are loaded: an entry is kept, or an empty one is
  filled from the list in memory.
* `Sel.Agrees`: every later reference to an address is answered as the first.
* `maps_agree_iff`: this holds, with all subscripts of `TLB` in the array, unless the page that is loaded
  is not in memory or its neighbour is beyond the last map.
-/

namespace Ka10Simh.Sel32

namespace Sel

variable {s s' s'' : Sel}

/-! ### What a reference loads -/

/-- The map of a page, in the list it has it in. -/
def tableMap (s : Sel) (i : ℕ) : ℕ :=
  s.rmh (s.listOf (s.regs.mpl &&& mask24) i + s.placeOf i <<< 1)

/-- The list of the user is in memory. -/
def UserOk (s : Sel) : Prop :=
  s.memOk (s.rmw ((s.regs.mpl &&& mask24) + s.regs.cpix + 4) &&& mask24) = true

/-- A machine that is mapped and loads maps when they are referred to. -/
structure OnAccess (s : Sel) : Prop where
  model : ¬ (s.regs.model = .m55 ∨ s.regs.model = .m75)
  mapped : s.regs.modes &&& mapMode ≠ 0
  osOk : s.memOk (s.rmw ((s.regs.mpl &&& mask24) + 4) &&& mask24) = true
  not2787 : s.is2787 = false

/-- A page it has been granted. -/
structure Cached (s : Sel) (addr : ℕ) : Prop extends s.OnAccess where
  granted : ¬ (s.pageOf addr ≥ s.regs.bpix + s.regs.cpixpl ∨ s.pageOf addr ≥ s.maxMap)

/-- A reference that loads the map of its page. -/
structure Loads (s : Sel) (addr : ℕ) : Prop extends s.Cached addr where
  off : s.tlb (s.pageOf addr) &&& hitBit = 0
  userOk : s.UserOk
  valid : s.tableMap (s.pageOf addr) &&& 0x8000 ≠ 0

/-- An entry that has been filled from its list. -/
structure Filled (s s' : Sel) (i : ℕ) : Prop where
  machine : s.OnAccess
  off : s.tlb i &&& hitBit = 0
  userOk : s.UserOk
  valid : s.tableMap i &&& 0x8000 ≠ 0
  tlb : s'.tlb i = tlbWord (s.tableMap i) ||| hitBit
  rmr : s'.rmr i = s.tableMap i

/-- What references do: each entry is kept or filled. -/
structure Fills (s s' : Sel) : Prop where
  regs : s'.regs = s.regs
  mem : s'.mem = s.mem
  entry : ∀ i, (s'.tlb i = s.tlb i ∧ s'.rmr i = s.rmr i) ∨ s.Filled s' i

lemma tableMap_lt (s : Sel) (i : ℕ) : s.tableMap i < 2 ^ 16 := readHalf_lt _ _

lemma hit_tlbWord (map : ℕ) : (tlbWord map ||| hitBit) &&& hitBit ≠ 0 := by
  rw [Nat.and_or_distrib_right, Nat.and_self]
  exact fun h => absurd (Nat.or_eq_zero_iff.mp h).2 (by norm_num)

/-- A state with the maps of another. -/
lemma eq_with_maps (hregs : s'.regs = s.regs) (hmem : s'.mem = s.mem) :
    s' = { s with tlb := s'.tlb, mapc := s'.mapc, trapStatus := s'.trapStatus, pfault := s'.pfault } := by
  cases s'
  cases hregs
  cases hmem
  rfl

/-- What is in the lists does not depend on the maps that are loaded. -/
lemma tableMap_congr (hregs : s'.regs = s.regs) (hmem : s'.mem = s.mem) (i : ℕ) :
    s'.tableMap i = s.tableMap i := by
  rw [eq_with_maps hregs hmem]
  rfl

lemma userOk_congr (hregs : s'.regs = s.regs) (hmem : s'.mem = s.mem) : s'.UserOk ↔ s.UserOk := by
  rw [eq_with_maps hregs hmem]
  rfl

lemma cached_congr (hregs : s'.regs = s.regs) (hmem : s'.mem = s.mem) {addr : ℕ}
    (h : s.Cached addr) : s'.Cached addr := by
  rw [eq_with_maps hregs hmem]
  exact ⟨⟨h.model, h.mapped, h.osOk, h.not2787⟩, h.granted⟩

lemma onAccess_congr (hregs : s'.regs = s.regs) (hmem : s'.mem = s.mem) (h : s'.OnAccess) :
    s.OnAccess := by
  rw [eq_with_maps hregs hmem] at h
  exact ⟨h.model, h.mapped, h.osOk, h.not2787⟩

namespace Fills

lemma refl (s : Sel) : s.Fills s := ⟨rfl, rfl, fun _ => .inl ⟨rfl, rfl⟩⟩

/-- An entry that hits is kept. -/
lemma kept (h : s.Fills s') {i : ℕ} (hon : s.tlb i &&& hitBit ≠ 0) :
    s'.tlb i = s.tlb i ∧ s'.rmr i = s.rmr i :=
  (h.entry i).resolve_right fun hf => hon hf.off

lemma trans (h : s.Fills s') (h' : s'.Fills s'') : s.Fills s'' where
  regs := h'.regs.trans h.regs
  mem := h'.mem.trans h.mem
  entry i := by
    have htable := tableMap_congr h.regs h.mem i
    rcases h.entry i with hkept | hf
    · refine (h'.entry i).imp (fun hk => ⟨hk.1.trans hkept.1, hk.2.trans hkept.2⟩) fun hf => ?_
      exact ⟨onAccess_congr h.regs h.mem hf.machine, hkept.1 ▸ hf.off,
        (userOk_congr h.regs h.mem).mp hf.userOk, htable ▸ hf.valid, htable ▸ hf.tlb, htable ▸ hf.rmr⟩
    · have hkept := h'.kept (i := i) (hf.tlb ▸ hit_tlbWord _)
      exact .inr { hf with tlb := hkept.1.trans hf.tlb, rmr := hkept.2.trans hf.rmr }

lemma trap (h : s.Fills s') (bits : ℕ) : s.Fills (s'.trap bits) where
  regs := h.regs
  mem := h.mem
  entry i := (h.entry i).imp id fun hf =>
    ⟨hf.machine, hf.off, hf.userOk, hf.valid, hf.tlb, hf.rmr⟩

end Fills

lemma load_tlb (s : Sel) (i map j : ℕ) :
    (s.load i map).tlb j = if j = i then tlbWord map ||| hitBit else s.tlb j := by
  rw [load, setTlb]
  exact Function.update_apply s.tlb i _ j

lemma load_rmr (s : Sel) (i : ℕ) {map : ℕ} (hmap : map < 2 ^ 16) (j : ℕ) :
    (s.load i map).rmr j = if j = i then map else s.rmr j := by
  rw [rmr, load]
  split_ifs with hj
  · rw [hj]
    exact readHalf_writeHalf_self _ _ hmap
  · exact readHalf_writeHalf_of_ne _ hj

lemma load_regs (s : Sel) (i map : ℕ) : (s.load i map).regs = s.regs := rfl

lemma load_quarterProt (s : Sel) (i map : ℕ) : (s.load i map).quarterProt = s.quarterProt := rfl

lemma load_pageProt (s : Sel) (i map : ℕ) : (s.load i map).pageProt = s.pageProt := rfl

lemma OnAccess.load (h : s.OnAccess) (i map : ℕ) : (s.load i map).OnAccess :=
  ⟨h.model, h.mapped, h.osOk, h.not2787⟩

/-- A map that is loaded from its list. -/
lemma fills_load {i : ℕ} (hmachine : s.OnAccess) (hoff : s.tlb i &&& hitBit = 0)
    (huser : s.UserOk) (hvalid : s.tableMap i &&& 0x8000 ≠ 0) : s.Fills (s.load i (s.tableMap i)) where
  regs := rfl
  mem := rfl
  entry j := by
    rw [load_tlb, load_rmr s i (s.tableMap_lt i)]
    rcases eq_or_ne j i with rfl | hne
    · exact .inr ⟨hmachine, hoff, huser, hvalid, by rw [load_tlb, if_pos rfl],
        by rw [load_rmr s j (s.tableMap_lt j), if_pos rfl]⟩
    · rw [if_neg hne, if_neg hne]
      exact .inl ⟨rfl, rfl⟩

/-- The neighbour of a page has its map in the same list. -/
lemma neighbour_list (mpl : ℕ) {i mix nix : ℕ} (h : s.neighbour (s.placeOf i) i = some (mix, nix)) :
    s.listOf mpl nix = s.listOf mpl i ∧ s.placeOf nix = mix := by
  have hand : s.placeOf i &&& 1 = s.placeOf i % 2 := Nat.and_one_is_mod _
  simp only [neighbour, hand] at h
  simp only [placeOf, listOf] at h ⊢
  split_ifs at h ⊢ <;> simp only [Option.some.injEq, Prod.mk.injEq] at h <;> lia

lemma fills_prefetch (hmachine : s.OnAccess) (huser : s.UserOk) (i : ℕ) :
    s.Fills (s.prefetch (s.listOf (s.regs.mpl &&& mask24) i) (s.placeOf i) i) := by
  rw [prefetch]
  split
  · exact Fills.refl s
  · rename_i mix nix hn
    obtain ⟨hlist, hplace⟩ := neighbour_list (s.regs.mpl &&& mask24) hn
    have htable : s.rmh (s.listOf (s.regs.mpl &&& mask24) i + mix <<< 1) = s.tableMap nix := by
      rw [tableMap, hlist, hplace]
    simp only [htable]
    split_ifs with hrange hoff hvalid
    · exact fills_load hmachine hoff huser hvalid
    · exact Fills.refl s
    · exact Fills.refl s
    · exact Fills.refl s

/-- **One reference** keeps the maps that are loaded, and fills others from their lists. -/
theorem fills_translate (s : Sel) (addr : ℕ) (access : Access) :
    s.Fills (s.translate addr access).2 := by
  simp only [translate, miss, apply_ite Prod.snd]
  split_ifs with hmodel hmapped hos _ h27 hon huser hvalid
  any_goals exact Fills.refl s
  · exact ⟨rfl, rfl, fun _ => .inl ⟨rfl, rfl⟩⟩
  · have hmachine : s.OnAccess := ⟨hmodel, hmapped, hos, Bool.eq_false_iff.mpr h27⟩
    have hload := fills_load hmachine (not_not.mp hon) huser hvalid
    refine hload.trans ?_
    exact fills_prefetch (s := s.load _ _) (hmachine.load _ _) huser _

/-- And so does a run of references. -/
def refer (s : Sel) (r : ℕ × Access) : Sel := (s.realAddr r.1 r.2).2

lemma fills_refer (s : Sel) (r : ℕ × Access) : s.Fills (s.refer r) :=
  (fills_translate s r.1 r.2).trap _

theorem fills_refers (s : Sel) (refs : List (ℕ × Access)) : s.Fills (refs.foldl refer s) := by
  induction refs generalizing s with
  | nil => exact Fills.refl s
  | cons r refs ih => exact (fills_refer s r).trans (ih _)

/-! ### Replies -/

/-- The reply of a reference that loads the map of its page. -/
def loadReply (s : Sel) (addr : ℕ) : Reply :=
  let map := s.tableMap (s.pageOf addr)
  let raddr := tlbWord map ||| hitBit
  let word := wordOf raddr (s.offsetOf addr)
  { status := .allok, real := word
    prot := if s.regs.model = .m67 ∨ s.regs.model = .m97 then s.quarterProt word raddr
      else s.pageProt map }

/-- A reference that loads. -/
lemma translate_loads {addr : ℕ} (h : s.Loads addr) (access : Access) :
    s.translate addr access = (s.loadReply addr,
      (s.load (s.pageOf addr) (s.tableMap (s.pageOf addr))).prefetch
        (s.listOf (s.regs.mpl &&& mask24) (s.pageOf addr)) (s.placeOf (s.pageOf addr))
        (s.pageOf addr)) := by
  have huser := h.userOk
  have hvalid := h.valid
  simp only [UserOk, tableMap] at huser hvalid
  simp only [translate, miss, loadReply, tableMap]
  rw [if_neg h.model, if_neg h.mapped, if_neg (not_not.mpr h.osOk), if_neg h.granted,
    if_neg (Bool.eq_false_iff.mp h.not2787), if_neg (not_not.mpr h.off), if_neg (not_not.mpr huser),
    if_neg hvalid, load_tlb, if_pos rfl]
  rfl

/-- A reference that finds the map of its page. -/
lemma translate_hit {addr : ℕ} (h : s.Cached addr) (hon : s.tlb (s.pageOf addr) &&& hitBit ≠ 0)
    (access : Access) :
    s.translate addr access = (s.hit (s.pageOf addr) (s.offsetOf addr) access, s) := by
  simp only [translate]
  rw [if_neg h.model, if_neg h.mapped, if_neg (not_not.mpr h.osOk), if_neg h.granted,
    if_neg (Bool.eq_false_iff.mp h.not2787), if_pos hon]

/-- A reply depends on the entry of the page only, but for the maps of a 32/7x. -/
lemma reply_congr (hregs : s'.regs = s.regs) (hmem : s'.mem = s.mem) {addr : ℕ}
    (htlb : s'.tlb (s.pageOf addr) = s.tlb (s.pageOf addr))
    (hrmr : s'.rmr (s.pageOf addr) = s.rmr (s.pageOf addr))
    (h7x : ∀ i, s.regs.model = .m55 ∨ s.regs.model = .m75 → s'.rmr i = s.rmr i) (access : Access) :
    (s'.translate addr access).1 = (s.translate addr access).1 := by
  have hlogical : s'.logical = s.logical := by rw [eq_with_maps hregs hmem]; rfl
  have hpage : s'.pageOf = s.pageOf := by rw [eq_with_maps hregs hmem]; rfl
  have hmemOk : s'.memOk = s.memOk := by rw [eq_with_maps hregs hmem]; rfl
  have hrmw : s'.rmw = s.rmw := by rw [eq_with_maps hregs hmem]; rfl
  have hrmh : s'.rmh = s.rmh := by rw [eq_with_maps hregs hmem]; rfl
  have h97 : s'.is97V9 = s.is97V9 := by rw [eq_with_maps hregs hmem]; rfl
  have h27 : s'.is2787 = s.is2787 := by rw [eq_with_maps hregs hmem]; rfl
  have hV : s'.isV = s.isV := by rw [eq_with_maps hregs hmem]; rfl
  have hquarter : s'.quarterProt = s.quarterProt := by rw [eq_with_maps hregs hmem]; rfl
  have hprot : s'.pageProt = s.pageProt := by rw [eq_with_maps hregs hmem]; rfl
  by_cases hmodel : s.regs.model = .m55 ∨ s.regs.model = .m75
  · have hrmr (i : ℕ) : s'.rmr i = s.rmr i := h7x i hmodel
    simp only [translate, hregs, if_pos hmodel, realAddr7x, hmemOk, hrmr]
  · simp only [translate, miss, apply_ite Prod.fst, hpage, hregs, if_neg hmodel, unmapped, hlogical,
      hmemOk, badOs, badIndex, maxMap, forced, hit, badUser, h97, h27, hV, offsetOf, hquarter, hprot,
      listOf, placeOf, hrmw, hrmh, htlb, hrmr, load_tlb, load_regs,
      load_quarterProt, load_pageProt]

/-- A reference that does not load leaves the maps alone. -/
lemma maps_of_not_loads {addr : ℕ} (h : ¬ s.Loads addr) (access : Access) :
    (s.translate addr access).2.regs = s.regs ∧ (s.translate addr access).2.mem = s.mem ∧
      (s.translate addr access).2.tlb = s.tlb ∧ (s.translate addr access).2.mapc = s.mapc := by
  simp only [translate, miss, apply_ite Prod.snd]
  split_ifs with hmodel hmapped hos hgranted h27 hon huser hvalid
  any_goals exact ⟨rfl, rfl, rfl, rfl⟩
  exact absurd ⟨⟨⟨hmodel, hmapped, hos, Bool.eq_false_iff.mpr h27⟩, hgranted⟩, not_not.mp hon, huser,
    hvalid⟩ h

/-- **Later references** to an address, after any others, are answered as the first. -/
def Agrees (s : Sel) (addr : ℕ) (access : Access) : Prop :=
  ∀ refs : List (ℕ × Access),
    ((refs.foldl refer (s.realAddr addr access).2).realAddr addr access).1
      = (s.realAddr addr access).1

/-- The subscripts of `TLB` in a reference that loads. -/
def subscripts (s : Sel) (addr : ℕ) : List ℕ :=
  let index := s.pageOf addr
  index :: ((s.neighbour (s.placeOf index) index).map Prod.snd).toList

/-- The page that is loaded is in memory. -/
def Present (s : Sel) (addr : ℕ) : Prop :=
  s.memOk ((s.tableMap (s.pageOf addr) &&& 0x7ff) <<< 13) = true

instance (s : Sel) (addr : ℕ) : Decidable (s.Present addr) := inferInstanceAs (Decidable (_ = true))

/-- Its neighbour is beyond the last map: it is the last page, and of the first map of a pair, and the
maps that are granted fill `TLB`. -/
def PastEnd (s : Sel) (addr : ℕ) : Prop :=
  s.pageOf addr = 2047 ∧ s.regs.bpix % 2 = 1 ∧ s.regs.bpix ≤ 2047
    ∧ 2048 ≤ s.regs.bpix + s.regs.cpixpl

lemma pageOf_lt (s : Sel) (addr : ℕ) : s.pageOf addr < 2048 := by
  have hmask := Nat.and_le_right (n := s.logical addr >>> 13) (m := 0x7ff)
  rw [pageOf]
  omega

/-- The subscripts are in the array. -/
lemma subscripts_lt_iff (s : Sel) (addr : ℕ) :
    (∀ i ∈ s.subscripts addr, i < 2048) ↔ ¬ s.PastEnd addr := by
  have hpage := s.pageOf_lt addr
  have hand : s.placeOf (s.pageOf addr) &&& 1 = s.placeOf (s.pageOf addr) % 2 := Nat.and_one_is_mod _
  simp only [subscripts, PastEnd, neighbour, hand, List.forall_mem_cons]
  simp only [placeOf]
  split_ifs <;> simp <;> lia

/-- The address of a page in its entry. -/
lemma tlbWord_address (map : ℕ) : (tlbWord map ||| hitBit) &&& mask24 = (map &&& 0x7ff) <<< 13 := by
  have hlt : (map &&& 0x7ff) <<< 13 < 2 ^ 24 := by
    have hmask := Nat.and_le_right (n := map) (m := 0x7ff)
    rw [Nat.shiftLeft_eq]
    omega
  rw [tlbWord, Nat.and_or_distrib_right, Nat.and_or_distrib_right, Nat.and_assoc _ 0xf8000000,
    show 0xf8000000 &&& mask24 = 0 from rfl, show hitBit &&& mask24 = 0 from rfl, Nat.and_zero,
    Nat.or_zero, Nat.or_zero, Nat.and_two_pow_sub_one_eq_mod _ 24, Nat.mod_eq_of_lt hlt]

/-- After a reference that has loaded the map, the entry is there for all others. -/
lemma loaded_entry {addr : ℕ} (h : s.Loads addr) (access : Access) (refs : List (ℕ × Access)) :
    let t := refs.foldl refer (s.realAddr addr access).2
    t.regs = s.regs ∧ t.mem = s.mem
      ∧ t.tlb (s.pageOf addr) = tlbWord (s.tableMap (s.pageOf addr)) ||| hitBit
      ∧ t.rmr (s.pageOf addr) = s.tableMap (s.pageOf addr) := by
  intro t
  let s₁ := s.load (s.pageOf addr) (s.tableMap (s.pageOf addr))
  have htlb : s₁.tlb (s.pageOf addr) = tlbWord (s.tableMap (s.pageOf addr)) ||| hitBit := by
    rw [load_tlb, if_pos rfl]
  have hrmr : s₁.rmr (s.pageOf addr) = s.tableMap (s.pageOf addr) := by
    rw [load_rmr s _ (s.tableMap_lt _), if_pos rfl]
  have hfirst : s₁.Fills (s.realAddr addr access).2 := by
    rw [realAddr, translate_loads h]
    exact (fills_prefetch (s := s₁) (h.toOnAccess.load _ _) h.userOk _).trap _
  have hfills : s₁.Fills t := hfirst.trans (fills_refers _ refs)
  have hkept := hfills.kept (htlb ▸ hit_tlbWord _)
  exact ⟨hfills.regs, hfills.mem, hkept.1.trans htlb, hkept.2.trans hrmr⟩

/-- The reply of a reference that finds what another has loaded. -/
lemma reply_loaded {addr : ℕ} (h : s.Loads addr) (hregs : s'.regs = s.regs) (hmem : s'.mem = s.mem)
    (htlb : s'.tlb (s.pageOf addr) = tlbWord (s.tableMap (s.pageOf addr)) ||| hitBit)
    (hrmr : s'.rmr (s.pageOf addr) = s.tableMap (s.pageOf addr)) (access : Access) :
    (s'.translate addr access).1 = if s.Present addr then s.loadReply addr
      else { status := .npmem, bits := if s.is97V9 then accessBits access else bit28 } := by
  have hpage : s'.pageOf addr = s.pageOf addr := by rw [eq_with_maps hregs hmem]; rfl
  have hoffset : s'.offsetOf addr = s.offsetOf addr := by rw [eq_with_maps hregs hmem]; rfl
  have hmemOk : s'.memOk = s.memOk := by rw [eq_with_maps hregs hmem]; rfl
  have h97 : s'.is97V9 = s.is97V9 := by rw [eq_with_maps hregs hmem]; rfl
  have hquarter : s'.quarterProt = s.quarterProt := by rw [eq_with_maps hregs hmem]; rfl
  have hprot : s'.pageProt = s.pageProt := by rw [eq_with_maps hregs hmem]; rfl
  have hV : ¬ s'.isV = true ↔ s.regs.model = .m67 ∨ s.regs.model = .m97 := by
    have hmodel := h.model
    have h27 := h.not2787
    simp only [isV, is2787, hregs] at h27 ⊢
    cases hm : s.regs.model <;> simp_all
  rw [translate_hit (cached_congr hregs hmem h.toCached) (by rw [hpage, htlb]; exact hit_tlbWord _),
    hpage, hoffset]
  simp only [hit, htlb, hrmr, tlbWord_address, hmemOk, h97, hquarter, hprot, hV, loadReply, Present]
  split_ifs <;> simp_all

/-- A page that has not been granted. -/
lemma translate_badIndex {addr : ℕ} (h : s.OnAccess)
    (hindex : s.pageOf addr ≥ s.regs.bpix + s.regs.cpixpl ∨ s.pageOf addr ≥ s.maxMap)
    (access : Access) : s.translate addr access = (s.badIndex, s) := by
  simp only [translate]
  rw [if_neg h.model, if_neg h.mapped, if_neg (not_not.mpr h.osOk), if_pos hindex]

/-- Without a load the reply stays. -/
lemma agrees_of_not_loads {addr : ℕ} (h : ¬ s.Loads addr) (access : Access) : s.Agrees addr access := by
  intro refs
  obtain ⟨hregs, hmem, htlb, hmapc⟩ := maps_of_not_loads h access
  have hfirst : s.Fills (s.realAddr addr access).2 :=
    ⟨hregs, hmem, fun i => .inl ⟨congrFun htlb i, congrArg (readHalf · (i <<< 1)) hmapc⟩⟩
  have hfills := hfirst.trans (fills_refers _ refs)
  show (Sel.translate _ addr access).1 = (s.translate addr access).1
  rcases hfills.entry (s.pageOf addr) with hkept | hf
  · refine reply_congr hfills.regs hfills.mem hkept.1 hkept.2 (fun i h7x => ?_) access
    exact ((hfills.entry i).resolve_right fun hf => hf.machine.model h7x).2
  · have hindex : s.pageOf addr ≥ s.regs.bpix + s.regs.cpixpl ∨ s.pageOf addr ≥ s.maxMap := by
      by_contra hgranted
      exact h ⟨⟨hf.machine, hgranted⟩, hf.off, hf.userOk, hf.valid⟩
    rw [translate_badIndex hf.machine hindex]
    generalize refs.foldl refer (s.realAddr addr access).2 = t at hfills ⊢
    have hlater : t.pageOf addr ≥ t.regs.bpix + t.regs.cpixpl ∨ t.pageOf addr ≥ t.maxMap := by
      rw [eq_with_maps hfills.regs hfills.mem]
      exact hindex
    rw [translate_badIndex (onAccess_congr hfills.regs.symm hfills.mem.symm hf.machine) hlater,
      eq_with_maps hfills.regs hfills.mem]
    rfl

end Sel

open Sel

/-- **First and later references**: for every state of the maps, address and access, every later
reference is answered as the first, with the same address, protection and bits of the trap status, and
the subscripts of `TLB` in a reference that loads are in the array, if and only if a page that is loaded
is in memory and its neighbour is not beyond the last map. -/
theorem maps_agree_iff (s : Sel) (addr : ℕ) (access : Access) :
    s.Agrees addr access ∧ (s.Loads addr → ∀ i ∈ s.subscripts addr, i < 2048)
      ↔ (s.Loads addr → s.Present addr ∧ ¬ s.PastEnd addr) := by
  by_cases h : s.Loads addr
  · have hreply (refs : List (ℕ × Access)) :
        ((refs.foldl refer (s.realAddr addr access).2).realAddr addr access).1
          = if s.Present addr then s.loadReply addr
            else { status := .npmem, bits := if s.is97V9 then accessBits access else bit28 } := by
      obtain ⟨hregs, hmem, htlb, hrmr⟩ := loaded_entry h access refs
      exact reply_loaded h hregs hmem htlb hrmr access
    have hfirst : (s.realAddr addr access).1 = s.loadReply addr := by
      rw [realAddr, translate_loads h]
    have hagrees : s.Agrees addr access ↔ s.Present addr := by
      simp only [Agrees, hreply, hfirst]
      constructor
      · intro hall
        by_contra habsent
        have hstatus := congrArg Reply.status (hall [])
        rw [if_neg habsent] at hstatus
        cases hstatus
      · intro hpresent refs
        rw [if_pos hpresent]
    simp only [hagrees, subscripts_lt_iff, h, true_imp_iff]
  · simp only [h, false_imp_iff, and_true, agrees_of_not_loads h access]

/-- A 32/67 with 1 MB of memory: the lists are at 0x2000 and 0x3000, for `os` and `user` maps, and name
page 0, but for the first of the user's, which is `page`. -/
def sample67 (os user page : ℕ) : Sel where
  regs := { model := .m67, modes := mapMode ||| extdBit, memSize := 0x100000, mpl := 0x1000 }
  mem := fun a => if a = 0x400 then os else if a = 0x401 then 0x2000 else if a = 0x402 then user
    else if a = 0x403 then 0x3000 else if a = 0xc00 then page <<< 16 else 0x80008000
  tlb := fun _ => 0
  mapc := fun _ => 0

/-- A page beyond the memory is given an address by the first read and a trap by the second; and the
last page of a user behind one of the O/S has entry 2048 loaded with its own. -/
theorem maps_agree_fails :
    (((sample67 0 1 0x87ff).loadMaps 8 false).1 = .allok
        ∧ ¬ ((sample67 0 1 0x87ff).loadMaps 8 false).2.Agrees 0 .rd)
      ∧ ((sample67 1 0x800007ff 0x8000).loadMaps 8 false).1 = .allok
        ∧ ((sample67 1 0x800007ff 0x8000).loadMaps 8 false).2.Loads 0xffe000
        ∧ 2048 ∈ ((sample67 1 0x800007ff 0x8000).loadMaps 8 false).2.subscripts 0xffe000 := by
  refine ⟨⟨by decide +kernel, fun h => ?_⟩, by decide +kernel, ?_, by decide +kernel⟩
  · exact absurd (h []) (by decide +kernel)
  · exact ⟨⟨⟨by decide +kernel, by decide +kernel, by decide +kernel, by decide +kernel⟩,
      by decide +kernel⟩, by decide +kernel, show _ = true by decide +kernel, by decide +kernel⟩

end Ka10Simh.Sel32
