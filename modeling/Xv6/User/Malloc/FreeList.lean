import Xv6.User.Malloc.Machine

/-! The free list in memory, and `free`.

    ```
    before   base ──▶ … ──▶ p ──────────────▶ next ──▶ … ──▶ base
    after    base ──▶ … ──▶ p ──▶ bp ──▶ next ──▶ … ──▶ base
    ```

    The blocks of the list are sorted and do not touch; `bp` goes between the two blocks around it, and
    is joined to those that it touches. -/

namespace Xv6.Malloc
open Extents Function
open Hoare (bind_ok)

variable {mem mem' : Nat → Header} {p q z a base : Nat} {l r F : List Extent} {b c : Extent} {s : State}

/-! ### Lists in memory -/

/-- The pointers lead from `p` through the blocks of `l` to the last of them, `q`. -/
def Path (mem : Nat → Header) : Nat → List Extent → Nat → Prop
  | p, [], q => p = q
  | p, b :: l, q => (mem p).ptr = b.start ∧ 16 * (mem b.start).size = b.len ∧ Path mem b.start l q

/-- The pointers lead from `p` through the blocks of `l` to `z`. -/
def Chain (mem : Nat → Header) : Nat → List Extent → Nat → Prop
  | p, [], z => (mem p).ptr = z
  | p, b :: l, z => (mem p).ptr = b.start ∧ 16 * (mem b.start).size = b.len ∧ Chain mem b.start l z

theorem chain_append : Chain mem p (l ++ r) z ↔ ∃ q, Path mem p l q ∧ Chain mem q r z := by
  induction l generalizing p with
  | nil => exact ⟨fun h => ⟨p, rfl, h⟩, fun ⟨_, h, h'⟩ => h ▸ h'⟩
  | cons b l ih =>
    constructor
    · rintro ⟨h₁, h₂, h₃⟩
      obtain ⟨q, h₄, h₅⟩ := ih.mp h₃
      exact ⟨q, ⟨h₁, h₂, h₄⟩, h₅⟩
    · rintro ⟨q, ⟨h₁, h₂, h₄⟩, h₅⟩
      exact ⟨h₁, h₂, ih.mpr ⟨q, h₄, h₅⟩⟩

theorem Path.chain (h : Path mem p l q) (hz : (mem q).ptr = z) : Chain mem p l z := by
  have := chain_append.mpr ⟨q, h, (show Chain mem q [] z from hz)⟩
  rwa [List.append_nil] at this

theorem path_append : Path mem p (l ++ r) z ↔ ∃ q, Path mem p l q ∧ Path mem q r z := by
  induction l generalizing p with
  | nil => exact ⟨fun h => ⟨p, rfl, h⟩, fun ⟨_, h, h'⟩ => h ▸ h'⟩
  | cons b l ih =>
    constructor
    · rintro ⟨h₁, h₂, h₃⟩
      obtain ⟨q, h₄, h₅⟩ := ih.mp h₃
      exact ⟨q, ⟨h₁, h₂, h₄⟩, h₅⟩
    · rintro ⟨q, ⟨h₁, h₂, h₄⟩, h₅⟩
      exact ⟨h₁, h₂, ih.mpr ⟨q, h₄, h₅⟩⟩

theorem path_concat : Path mem p (l ++ [b]) q ↔
    q = b.start ∧ ∃ m, Path mem p l m ∧ (mem m).ptr = b.start ∧ 16 * (mem b.start).size = b.len := by
  rw [path_append]
  constructor
  · rintro ⟨m, hl, h₁, h₂, rfl⟩
    exact ⟨rfl, m, hl, h₁, h₂⟩
  · rintro ⟨rfl, m, hl, h₁, h₂⟩
    exact ⟨m, hl, h₁, h₂, rfl⟩

theorem Path.last_mem (h : Path mem p l q) : q ∈ p :: l.map Extent.start := by
  induction l generalizing p with
  | nil => exact h ▸ List.mem_cons_self
  | cons b l ih => exact List.mem_cons_of_mem _ (ih h.2.2)

/-- The pointer of the last block is not part of a path. -/
theorem Path.congr (h : Path mem p l q) (hnodup : (p :: l.map Extent.start).Nodup)
    (hmem : ∀ a ∈ p :: l.map Extent.start, a ≠ q → mem' a = mem a) (hq : (mem' q).size = (mem q).size) :
    Path mem' p l q := by
  induction l generalizing p with
  | nil => exact h
  | cons b l ih =>
    obtain ⟨h₁, h₂, h₃⟩ := h
    have hne : p ≠ q := fun heq => (List.nodup_cons.mp hnodup).1 (heq ▸ h₃.last_mem)
    refine ⟨by rw [hmem p List.mem_cons_self hne, h₁], ?_, ih h₃ (List.nodup_cons.mp hnodup).2 fun a ha =>
      hmem a (List.mem_cons_of_mem _ ha)⟩
    by_cases hb : b.start = q
    · rw [hb, hq, ← hb, h₂]
    · rw [hmem b.start (by simp) hb, h₂]

/-- Only the pointer of the first node matters. -/
theorem Chain.congr (h : Chain mem p l z) (hp : (mem' q).ptr = (mem p).ptr)
    (hmem : ∀ a ∈ l.map Extent.start, mem' a = mem a) : Chain mem' q l z := by
  induction l generalizing p q with
  | nil => exact hp.trans h
  | cons b l ih =>
    obtain ⟨h₁, h₂, h₃⟩ := h
    have hb := hmem b.start (by simp)
    exact ⟨hp.trans h₁, by rw [hb, h₂], ih h₃ (by rw [hb]) fun a ha => hmem a (List.mem_cons_of_mem _ ha)⟩

/-- The free list: `base` is empty and below all blocks. -/
structure FreeList (base : Nat) (mem : Nat → Header) (F : List Extent) : Prop where
  chain : Chain mem base F base
  base_size : (mem base).size = 0
  gapped : Gapped F
  pos : ∀ b ∈ F, base + 16 ≤ b.start ∧ 0 < b.len

/-- `p` is `base` or a block of the list. -/
def On (base : Nat) (mem : Nat → Header) (F : List Extent) (p : Nat) : Prop :=
  ∃ l r, F = l ++ r ∧ Path mem base l p ∧ Chain mem p r base

theorem Gapped.starts (h : Gapped F) : (F.map Extent.start).Pairwise (· < ·) :=
  List.pairwise_map.mpr (h.imp fun hlt => by unfold Extent.stop at hlt; omega)

theorem FreeList.nodup (h : FreeList base mem F) : (base :: F.map Extent.start).Nodup := by
  refine List.nodup_cons.mpr ⟨fun hin => ?_, (Gapped.starts h.gapped).imp fun hlt => Nat.ne_of_lt hlt⟩
  obtain ⟨b, hb, heq⟩ := List.mem_map.mp hin
  have := (h.pos b hb).1
  omega

/-! ### The search -/

/-- The block after the last one of `l`, when `r` is the rest of the list. -/
def nextOf (base : Nat) : List Extent → Nat
  | [] => base
  | b :: _ => b.start

theorem Chain.ptr_eq (h : Chain mem p r base) : (mem p).ptr = nextOf base r := by
  cases r with
  | nil => exact h
  | cons b r => exact h.1

/-- The loop of `free` ends at `p`. -/
def Stop (a p next : Nat) : Prop := p < a ∧ a < next ∨ next ≤ p ∧ (p < a ∨ a < next)

theorem Path.unique {q' : Nat} (h : Path mem p l q) (h' : Path mem p l q') : q = q' := by
  induction l generalizing p with
  | nil => exact h.symm.trans h'
  | cons b l ih => exact ih h.2.2 h'.2.2

theorem searchLoop_stop {fuel : Nat} (h : Stop a p (s.mem p).ptr) : searchLoop a (fuel + 1) p s = .ok (p, s) := by
  show (if a > p ∧ a < (s.mem p).ptr then pure p
    else if p ≥ (s.mem p).ptr ∧ (a > p ∨ a < (s.mem p).ptr) then pure p else searchLoop a fuel (s.mem p).ptr : M Nat) s = _
  rcases h with h | h
  · rw [if_pos h]
    rfl
  · by_cases h' : a > p ∧ a < (s.mem p).ptr
    · rw [if_pos h']
      rfl
    · rw [if_neg h', if_pos h]
      rfl

theorem searchLoop_next {fuel : Nat} (h : ¬ Stop a p (s.mem p).ptr) :
    searchLoop a (fuel + 1) p s = searchLoop a fuel (s.mem p).ptr s := by
  show (if a > p ∧ a < (s.mem p).ptr then pure p
    else if p ≥ (s.mem p).ptr ∧ (a > p ∨ a < (s.mem p).ptr) then pure p else searchLoop a fuel (s.mem p).ptr : M Nat) s = _
  rw [if_neg fun h' => h (.inl h'), if_neg fun h' => h (.inr h')]

/-- From a node on, the loop ends at a node, or goes on to `base` at the end of the list. -/
theorem search_walk (hF : F = l ++ r) (hl : Path s.mem base l q) (hr : Chain s.mem q r base) :
    (∃ l' r' q', F = l' ++ r' ∧ Path s.mem base l' q' ∧ Chain s.mem q' r' base ∧ Stop a q' (nextOf base r') ∧
      ∀ fuel, r.length < fuel → searchLoop a fuel q s = .ok (q', s)) ∨
    (∀ fuel, searchLoop a (fuel + r.length + 1) q s = searchLoop a fuel base s) ∧
      ∀ l' r' q', F = l' ++ r' → l.length ≤ l'.length → Path s.mem base l' q' → ¬ Stop a q' (nextOf base r') := by
  induction r generalizing l q with
  | nil =>
    by_cases hstop : Stop a q (nextOf base [])
    · refine .inl ⟨l, [], q, hF, hl, hr, hstop, fun fuel hfuel => ?_⟩
      obtain ⟨fuel, rfl⟩ : ∃ n, fuel = n + 1 := ⟨fuel - 1, by omega⟩
      exact searchLoop_stop (hr.ptr_eq ▸ hstop)
    · refine .inr ⟨fun fuel => (searchLoop_next (hr.ptr_eq ▸ hstop)).trans (by rw [hr]; rfl), fun l' r' q' hF' hlen hl' => ?_⟩
      obtain ⟨rfl, rfl⟩ := List.append_inj (hF.symm.trans hF') (by
        have := congrArg List.length (hF.symm.trans hF')
        simp at this
        omega)
      rwa [← hl.unique hl']
  | cons b r ih =>
    by_cases hstop : Stop a q (nextOf base (b :: r))
    · refine .inl ⟨l, b :: r, q, hF, hl, hr, hstop, fun fuel hfuel => ?_⟩
      obtain ⟨fuel, rfl⟩ : ∃ n, fuel = n + 1 := ⟨fuel - 1, by omega⟩
      exact searchLoop_stop (hr.ptr_eq ▸ hstop)
    · have hround : ∀ fuel, searchLoop a (fuel + 1) q s = searchLoop a fuel b.start s := fun fuel => by
        rw [searchLoop_next (hr.ptr_eq ▸ hstop), hr.1]
      have hl' : Path s.mem base (l ++ [b]) b.start := path_concat.mpr ⟨rfl, q, hl, hr.1, hr.2.1⟩
      rcases ih (by rw [hF, List.append_assoc]; rfl) hl' hr.2.2 with ⟨l', r', q', h₁, h₂, h₃, h₄, h₅⟩ | ⟨hwrap, hnone⟩
      · refine .inl ⟨l', r', q', h₁, h₂, h₃, h₄, fun fuel hfuel => ?_⟩
        rw [List.length_cons] at hfuel
        obtain ⟨fuel, rfl⟩ : ∃ n, fuel = n + 1 := ⟨fuel - 1, by omega⟩
        rw [hround, h₅ fuel (by omega)]
      · refine .inr ⟨fun fuel => ?_, fun l' r' q' hF' hlen hl' => ?_⟩
        · rw [List.length_cons, hround, ← Nat.add_assoc, hwrap]
        · by_cases heq : l.length = l'.length
          · obtain ⟨rfl, rfl⟩ := List.append_inj (hF.symm.trans hF') heq
            rwa [← hl.unique hl']
          · exact hnone l' r' q' hF' (by simp; omega) hl'

/-- The last node of a part of the list is the highest. -/
theorem path_le (hF : FreeList base mem F) (hl : F = l ++ r) (hq : Path mem base l q) :
    base ≤ q ∧ (∀ b ∈ l, b.start ≤ q) ∧ (q = base ∨ ∃ b ∈ l, b.start = q) ∧ ∀ b ∈ r, q < b.start := by
  have hgap := hl ▸ hF.gapped
  have hpos := hl ▸ hF.pos
  obtain ⟨hgl, -, hlr⟩ := List.pairwise_append.mp hgap
  rcases List.eq_nil_or_concat l with rfl | ⟨l₁, c, rfl⟩
  · obtain rfl : base = q := hq
    exact ⟨le_rfl, by simp, .inl rfl, fun b hb => by have := (hpos b (by simp [hb])).1; omega⟩
  · rw [List.concat_eq_append] at *
    obtain ⟨rfl, -⟩ := path_concat.mp hq
    have hc : c ∈ l₁ ++ [c] := by simp
    refine ⟨by have := (hpos c (by simp)).1; omega, fun b hb => ?_, .inr ⟨c, hc, rfl⟩, fun b hb => ?_⟩
    · rcases List.mem_append.mp hb with hb | hb
      · have := (List.pairwise_append.mp hgl).2.2 b hb c (by simp)
        unfold Extent.stop at this
        omega
      · rw [List.mem_singleton.mp hb]
    · have := hlr c hc b hb
      unfold Extent.stop at this
      omega

/-- The loop ends between the blocks below and above `a`. -/
theorem stop_iff (hF : FreeList base mem F) (ha : base < a) (hl : F = l ++ r) (hq : Path mem base l q) :
    Stop a q (nextOf base r) ↔ (∀ b ∈ l, b.start < a) ∧ ∀ b ∈ r, a < b.start := by
  obtain ⟨hbase, hle, hlast, hgt⟩ := path_le hF hl hq
  have hgap := (List.pairwise_append.mp (hl ▸ hF.gapped)).2.1
  cases r with
  | nil =>
    refine ⟨fun hstop => ⟨fun b hb => ?_, by simp⟩, fun h => .inr ⟨hbase, .inl ?_⟩⟩
    · have := hle b hb
      simp only [Stop, nextOf] at hstop
      omega
    · rcases hlast with rfl | ⟨b, hb, rfl⟩
      · exact ha
      · exact h.1 b hb
  | cons c r =>
    have hc := hgt c List.mem_cons_self
    refine ⟨fun hstop => ?_, fun h => .inl ⟨?_, h.2 c List.mem_cons_self⟩⟩
    · simp only [Stop, nextOf] at hstop
      refine ⟨fun b hb => ?_, fun b hb => ?_⟩
      · have := hle b hb
        omega
      · rcases List.mem_cons.mp hb with rfl | hb
        · omega
        · have := (List.pairwise_cons.mp hgap).1 b hb
          unfold Extent.stop at this
          omega
    · rcases hlast with rfl | ⟨b, hb, rfl⟩
      · exact ha
      · exact h.1 b hb

theorem exists_split (hgap : Gapped F) (hout : ∀ b ∈ F, b.start ≠ a) :
    ∃ l r, F = l ++ r ∧ (∀ b ∈ l, b.start < a) ∧ ∀ b ∈ r, a < b.start := by
  induction F with
  | nil => exact ⟨[], [], rfl, by simp, by simp⟩
  | cons c F ih =>
    obtain ⟨hc, hgap⟩ := List.pairwise_cons.mp hgap
    rcases Nat.lt_or_gt_of_ne (hout c List.mem_cons_self) with hlt | hgt
    · obtain ⟨l, r, rfl, hl, hr⟩ := ih hgap fun b hb => hout b (List.mem_cons_of_mem _ hb)
      exact ⟨c :: l, r, rfl, by simpa using ⟨hlt, hl⟩, hr⟩
    · refine ⟨[], c :: F, rfl, by simp, fun b hb => ?_⟩
      rcases List.mem_cons.mp hb with rfl | hb
      · exact hgt
      · have := hc b hb
        unfold Extent.stop at this
        omega

/-- The loop of `free` finds the place of `a`, from wherever it starts. -/
theorem search_run (hF : FreeList base s.mem F) (hp : On base s.mem F p) (ha : base < a) (hout : ∀ b ∈ F, b.start ≠ a) :
    ∃ l r q, F = l ++ r ∧ (∀ b ∈ l, b.start < a) ∧ (∀ b ∈ r, a < b.start) ∧ Path s.mem base l q ∧ Chain s.mem q r base ∧
      ∀ fuel, 2 * F.length + 1 < fuel → searchLoop a fuel p s = .ok (q, s) := by
  obtain ⟨l₀, r₀, h₀, hl₀, hr₀⟩ := hp
  have hlen : r₀.length ≤ F.length := by
    rw [h₀, List.length_append]
    omega
  rcases search_walk h₀ hl₀ hr₀ with ⟨l, r, q, h₁, h₂, h₃, h₄, h₅⟩ | ⟨hwrap, -⟩
  · obtain ⟨hlt, hgt⟩ := (stop_iff hF ha h₁ h₂).mp h₄
    exact ⟨l, r, q, h₁, hlt, hgt, h₂, h₃, fun fuel hfuel => h₅ fuel (by omega)⟩
  · rcases search_walk (List.nil_append F).symm (show Path s.mem base [] base from rfl) hF.chain with
      ⟨l, r, q, h₁, h₂, h₃, h₄, h₅⟩ | ⟨-, hnone⟩
    · obtain ⟨hlt, hgt⟩ := (stop_iff hF ha h₁ h₂).mp h₄
      refine ⟨l, r, q, h₁, hlt, hgt, h₂, h₃, fun fuel hfuel => ?_⟩
      obtain ⟨fuel, rfl⟩ : ∃ n, fuel = n + r₀.length + 1 := ⟨fuel - (r₀.length + 1), by omega⟩
      rw [hwrap, h₅ fuel (by omega)]
    · obtain ⟨l, r, rfl, hlt, hgt⟩ := exists_split hF.gapped hout
      obtain ⟨q, hl, -⟩ := chain_append.mp hF.chain
      exact absurd ((stop_iff hF ha rfl hl).mpr ⟨hlt, hgt⟩) (hnone l r q rfl (by simp) hl)

/-! ### Joining -/

/-- The memory after the first `if` of `free`. -/
def joinedNext (mem : Nat → Header) (p bp : Nat) : Nat → Header :=
  update mem bp (if bp + 16 * (mem bp).size = (mem p).ptr then
    ⟨(mem (mem p).ptr).ptr, ((mem bp).size + (mem (mem p).ptr).size) % 2 ^ 32⟩ else ⟨(mem p).ptr, (mem bp).size⟩)

/-- The memory after the second `if`. -/
def joinedPrev (mem : Nat → Header) (p bp : Nat) : Nat → Header :=
  update mem p (if p + 16 * (mem p).size = bp then
    ⟨(mem bp).ptr, ((mem p).size + (mem bp).size) % 2 ^ 32⟩ else ⟨bp, (mem p).size⟩)

theorem joinNext_run (hp : p ≠ a) (hn : (s.mem p).ptr ≠ a) :
    joinNext p a s = .ok ((), { s with mem := joinedNext s.mem p a }) := by
  show (if a + 16 * (s.mem a).size = (s.mem p).ptr then do
      setSize a ((← size a) + (← size (← ptr p)))
      setPtr a (← ptr (← ptr p))
    else do setPtr a (← ptr p) : M Unit) s = _
  unfold joinedNext
  split
  · show Except.ok ((), { s with mem := update (update s.mem a _) a _ }) = _
    simp [update_of_ne hp, update_of_ne hn]
  · rfl

theorem joinPrev_run (hp : p ≠ a) : joinPrev p a s = .ok ((), { s with mem := joinedPrev s.mem p a }) := by
  show (if p + 16 * (s.mem p).size = a then do
      setSize p ((← size p) + (← size a))
      setPtr p (← ptr a)
    else do setPtr p a : M Unit) s = _
  unfold joinedPrev
  split
  · show Except.ok ((), { s with mem := update (update s.mem p _) p _ }) = _
    simp [update_of_ne hp.symm]
  · rfl

/-- A block in front of a list: its size, and where it points to. -/
def Loose (mem : Nat → Header) (z : Nat) : List Extent → Prop
  | [] => False
  | b :: l => 16 * (mem b.start).size = b.len ∧ Chain mem b.start l z

theorem sum_size {x y m n : Nat} (hx : 16 * x = m) (hy : 16 * y = n) (hlt : m + n < 2 ^ 36) :
    16 * ((x + y) % 2 ^ 32) = m + n := by
  rw [Nat.mod_eq_of_lt (by omega)]
  omega

theorem joinedNext_loose (hb : 16 * (mem b.start).size = b.len) (hr : Chain mem q r base) (hbase : base < b.start)
    (hnew : ∀ c ∈ r, c.start ≠ b.start) (htotal : b.len + total r < 2 ^ 36) :
    Loose (joinedNext mem q b.start) base (glue [b] r) := by
  unfold joinedNext
  cases r with
  | nil =>
    have hptr : (mem q).ptr = base := hr
    have hne : ¬ b.start + 16 * (mem b.start).size = (mem q).ptr := by omega
    rw [if_neg hne]
    exact ⟨by simpa using hb, by simpa [Chain] using hptr⟩
  | cons c r =>
    obtain ⟨hptr, hsize, hr⟩ := hr
    have hframe : ∀ x : Header, ∀ d ∈ c :: r, update mem b.start x d.start = mem d.start := fun x d hd =>
      update_of_ne (hnew d hd) _ _
    have hrest : ∀ x : Header, ∀ d ∈ r.map Extent.start, update mem b.start x d = mem d := fun x d hd => by
      obtain ⟨d', hd', rfl⟩ := List.mem_map.mp hd
      exact hframe x d' (List.mem_cons_of_mem _ hd')
    rw [total_cons] at htotal
    unfold glue
    rw [hptr]
    by_cases hjoin : b.stop = c.start
    · have hjoin' : b.start + 16 * (mem b.start).size = c.start := by rw [hb]; exact hjoin
      rw [if_pos hjoin, if_pos hjoin']
      refine ⟨?_, hr.congr ?_ (hrest _)⟩
      · simp only [update_self]
        exact sum_size hb hsize (by omega)
      · simp only [update_self]
    · have hjoin' : ¬ b.start + 16 * (mem b.start).size = c.start := by rw [hb]; exact hjoin
      rw [if_neg hjoin, if_neg hjoin']
      refine ⟨?_, ?_, ?_, ?_⟩
      · simpa only [update_self] using hb
      · simp only [update_self]
      · rw [hframe _ c List.mem_cons_self, hsize]
      · exact hr.congr (by rw [hframe _ c List.mem_cons_self]) (hrest _)

theorem joinedPrev_chain (hl : Path mem base l q) (hr : Loose mem base (b :: r)) (hbase : (mem base).size = 0)
    (hlt : base < b.start) (hnodup : (base :: (l ++ b :: r).map Extent.start).Nodup)
    (htotal : total l + total (b :: r) < 2 ^ 36) :
    On base (joinedPrev mem q b.start) (glue l (b :: r)) q ∧ ((joinedPrev mem q b.start) base).size = 0 := by
  obtain ⟨hb, hr⟩ := hr
  rw [List.map_append, List.map_cons] at hnodup
  unfold joinedPrev
  rcases List.eq_nil_or_concat l with rfl | ⟨l₁, c, rfl⟩
  · obtain rfl : base = q := hl
    obtain ⟨hnot, -⟩ := List.nodup_cons.mp hnodup
    have hframe : ∀ x : Header, ∀ d ∈ b.start :: r.map Extent.start, update mem base x d = mem d := fun x d hd =>
      update_of_ne (fun heq : d = base => hnot (heq ▸ hd)) _ _
    rw [if_neg (by omega)]
    refine ⟨⟨[], b :: r, rfl, rfl, ?_, ?_, ?_⟩, ?_⟩
    · simp only [update_self]
    · rw [hframe _ _ List.mem_cons_self, hb]
    · exact hr.congr (by rw [hframe _ _ List.mem_cons_self]) fun d hd => hframe _ d (List.mem_cons_of_mem _ hd)
    · simpa only [update_self] using hbase
  · rw [List.concat_eq_append] at *
    obtain ⟨rfl, m, hl₁, hm, hc⟩ := path_concat.mp hl
    rw [List.map_append, List.append_assoc, ← List.cons_append] at hnodup
    obtain ⟨hnd₁, hnd₂, hdis⟩ := List.nodup_append.mp hnodup
    obtain ⟨hnot, -⟩ := List.nodup_cons.mp (show (c.start :: b.start :: r.map Extent.start).Nodup from hnd₂)
    have hfront : ∀ x : Header, ∀ d ∈ base :: l₁.map Extent.start, update mem c.start x d = mem d := fun x d hd =>
      update_of_ne (fun heq => hdis d hd c.start (by simp) heq) _ _
    have hback : ∀ x : Header, ∀ d ∈ b.start :: r.map Extent.start, update mem c.start x d = mem d := fun x d hd =>
      update_of_ne (fun heq : d = c.start => hnot (heq ▸ hd)) _ _
    have hpath : ∀ x : Header, Path (update mem c.start x) base l₁ m := fun x =>
      hl₁.congr hnd₁ (fun d hd _ => hfront x d hd) (by rw [hfront x m hl₁.last_mem])
    have hptr : ∀ x : Header, (update mem c.start x m).ptr = c.start := fun x => by
      rw [hfront x m hl₁.last_mem, hm]
    simp only [total_append, total_cons, total_nil] at htotal
    rw [glue_concat]
    by_cases hjoin : c.stop = b.start
    · have hjoin' : c.start + 16 * (mem c.start).size = b.start := by rw [hc]; exact hjoin
      rw [if_pos hjoin, if_pos hjoin']
      refine ⟨⟨l₁ ++ [⟨c.start, c.len + b.len⟩], r, by simp, path_concat.mpr ⟨rfl, m, hpath _, hptr _, ?_⟩, ?_⟩, ?_⟩
      · simp only [update_self]
        exact sum_size hc hb (by omega)
      · exact hr.congr (by simp only [update_self]) fun d hd => hback _ d (List.mem_cons_of_mem _ hd)
      · rw [hfront _ base List.mem_cons_self, hbase]
    · have hjoin' : ¬ c.start + 16 * (mem c.start).size = b.start := by rw [hc]; exact hjoin
      rw [if_neg hjoin, if_neg hjoin']
      refine ⟨⟨l₁ ++ [c], b :: r, by simp, path_concat.mpr ⟨rfl, m, hpath _, hptr _, ?_⟩, ?_, ?_, ?_⟩, ?_⟩
      · simpa only [update_self] using hc
      · simp only [update_self]
      · rw [hback _ _ List.mem_cons_self, hb]
      · exact hr.congr (by rw [hback _ _ List.mem_cons_self]) fun d hd => hback _ d (List.mem_cons_of_mem _ hd)
      · rw [hfront _ base List.mem_cons_self, hbase]

theorem On.chain (h : On base mem F p) : Chain mem base F base := by
  obtain ⟨l, r, rfl, hl, hr⟩ := h
  exact chain_append.mpr ⟨p, hl, hr⟩

theorem FreeList.congr (h : FreeList base mem F) (hmem : ∀ d ∈ base :: F.map Extent.start, mem' d = mem d) :
    FreeList base mem' F :=
  ⟨h.chain.congr (by rw [hmem base List.mem_cons_self]) fun d hd => hmem d (List.mem_cons_of_mem _ hd),
    by rw [hmem base List.mem_cons_self, h.base_size], h.gapped, h.pos⟩

theorem On.congr (h : On base mem F p) (hF : FreeList base mem F) (hmem : ∀ d ∈ base :: F.map Extent.start, mem' d = mem d) :
    On base mem' F p := by
  obtain ⟨l, r, rfl, hl, hr⟩ := h
  have hnodup := hF.nodup
  rw [List.map_append, ← List.cons_append] at hnodup hmem
  have hfront : ∀ d ∈ base :: l.map Extent.start, mem' d = mem d := fun d hd => hmem d (List.mem_append_left _ hd)
  exact ⟨l, r, rfl, hl.congr (List.nodup_append.mp hnodup).1 (fun d hd _ => hfront d hd) (by rw [hfront p hl.last_mem]),
    hr.congr (by rw [hfront p hl.last_mem]) fun d hd => hmem d (List.mem_append_right _ hd)⟩

/-! ### `free` -/

/-- The cells that `free` writes. -/
def Kept (base : Nat) (F : List Extent) (a : Nat) (s t : State) : Prop :=
  t.brk = s.brk ∧ t.calls = s.calls ∧ t.got = s.got ∧
    ∀ d, d ≠ a → d ∉ base :: F.map Extent.start → t.mem d = s.mem d

/-- The two joins put a block between the parts of the list. -/
theorem joined_on (hF : FreeList base mem (l ++ r)) (hl : Path mem base l q) (hr : Chain mem q r base)
    (hb : 16 * (mem b.start).size = b.len) (hbase : base + 16 ≤ b.start) (hpos : 0 < b.len)
    (hbelow : ∀ c ∈ l, c.stop ≤ b.start) (habove : ∀ c ∈ r, b.stop ≤ c.start) (htotal : total (l ++ r) + b.len < 2 ^ 36) :
    On base (joinedPrev (joinedNext mem q b.start) q b.start) (place l b r) q ∧
      ((joinedPrev (joinedNext mem q b.start) q b.start) base).size = 0 := by
  have hne : ∀ c ∈ l ++ r, c.start ≠ b.start := fun c hc heq => by
    have := (hF.pos c hc).2
    rcases List.mem_append.mp hc with hc | hc
    · have := hbelow c hc
      unfold Extent.stop at *
      omega
    · have := habove c hc
      unfold Extent.stop at *
      omega
  have hframe : ∀ d ∈ base :: l.map Extent.start, joinedNext mem q b.start d = mem d := fun d hd => by
    refine update_of_ne ?_ _ _
    rcases List.mem_cons.mp hd with rfl | hd
    · omega
    · obtain ⟨c, hc, rfl⟩ := List.mem_map.mp hd
      exact hne c (List.mem_append_left _ hc)
  rw [total_append] at htotal
  have hloose := joinedNext_loose hb hr (by omega) (fun c hc => hne c (List.mem_append_right _ hc)) (by omega)
  have hnodup := hF.nodup
  rw [List.map_append, ← List.cons_append] at hnodup
  obtain ⟨hnd, -, -⟩ := List.nodup_append.mp hnodup
  have hpath : Path (joinedNext mem q b.start) base l q :=
    hl.congr hnd (fun d hd _ => hframe d hd) (by rw [hframe q hl.last_mem])
  have hgap := gapped_glue_singleton hF.gapped habove
  have hle := le_glue_singleton hF.gapped hbelow
  have hlow : ∀ d ∈ glue [b] r, base < d.start := fun d hd => by
    obtain ⟨⟨e, he, heq, -⟩, -⟩ := mem_glue hd
    rw [heq]
    rcases List.mem_cons.mp he with rfl | he
    · omega
    · have := (hF.pos e (List.mem_append_right _ he)).1
      omega
  have hsum := total_glue [b] r
  have hsum' : total (glue [b] r) = b.len + total r := by simpa using hsum
  unfold place
  cases hglue : glue [b] r with
  | nil =>
    rw [hglue] at hloose
    exact hloose.elim
  | cons b' r' =>
    have hstart : b'.start = b.start := by
      cases r with
      | nil =>
        obtain ⟨rfl, -⟩ := List.cons.inj hglue
        rfl
      | cons c r =>
        unfold glue at hglue
        split at hglue
        · obtain ⟨rfl, -⟩ := List.cons.inj hglue
          rfl
        · obtain ⟨rfl, -⟩ := List.cons.inj hglue
          rfl
    rw [hglue] at hloose hgap hle hlow hsum'
    rw [← hstart] at hpath hloose hframe ⊢
    refine joinedPrev_chain hpath hloose (by rw [hframe base List.mem_cons_self, hF.base_size]) (hlow b' List.mem_cons_self) ?_
      (by omega)
    rw [List.map_append, ← List.cons_append]
    refine List.nodup_append.mpr ⟨hnd, (Gapped.starts hgap).imp fun hlt => Nat.ne_of_lt hlt, fun d hd e he => ?_⟩
    obtain ⟨c', hc', rfl⟩ := List.mem_map.mp he
    rcases List.mem_cons.mp hd with rfl | hd
    · exact Nat.ne_of_lt (hlow c' hc')
    · obtain ⟨c, hc, rfl⟩ := List.mem_map.mp hd
      have := hle c hc c' hc'
      have := (hF.pos c (List.mem_append_left _ hc)).2
      unfold Extent.stop at *
      omega

/-- A block that is apart from the list is added to it. -/
theorem free_run (hF : FreeList base s.mem F) (hp : On base s.mem F s.freep) (hb : 16 * (s.mem b.start).size = b.len)
    (hbase : base + 16 ≤ b.start) (hpos : 0 < b.len) (hapart : ∀ c ∈ F, c.Apart b) (htotal : total F + b.len < 2 ^ 36) :
    ∃ F' t, (∀ fuel, 2 * F.length + 1 < fuel → free fuel (b.start + 16) s = .ok ((), t)) ∧ FreeList base t.mem F' ∧
      On base t.mem F' t.freep ∧ (∀ x, Covers F' x ↔ Covers F x ∨ b.Has x) ∧ total F' = total F + b.len ∧
      (∃ c ∈ F', b.len ≤ c.len) ∧ F'.length ≤ F.length + 1 ∧ Kept base F b.start s t := by
  have hnew : ∀ c ∈ F, c.start ≠ b.start := fun c hc heq => by
    have := hapart c hc
    have := (hF.pos c hc).2
    unfold Extent.Apart Extent.stop at *
    omega
  obtain ⟨l, r, q, rfl, hlt, hgt, hl, hr, hsearch⟩ := search_run hF hp (show base < b.start by omega) hnew
  have hbelow : ∀ c ∈ l, c.stop ≤ b.start := fun c hc => by
    have := hapart c (List.mem_append_left _ hc)
    have := hlt c hc
    unfold Extent.Apart Extent.stop at *
    omega
  have habove : ∀ c ∈ r, b.stop ≤ c.start := fun c hc => by
    have := hapart c (List.mem_append_right _ hc)
    have := hgt c hc
    unfold Extent.Apart Extent.stop at *
    omega
  obtain ⟨hon, hsize⟩ := joined_on hF hl hr hb hbase hpos hbelow habove htotal
  have hqmem : q ∈ base :: (l ++ r).map Extent.start := by
    rw [List.map_append]
    rcases List.mem_cons.mp hl.last_mem with rfl | hin
    · exact List.mem_cons_self
    · exact List.mem_cons_of_mem _ (List.mem_append_left _ hin)
  have hnode : ∀ d ∈ base :: (l ++ r).map Extent.start, d ≠ b.start := fun d hd => by
    rcases List.mem_cons.mp hd with rfl | hd
    · omega
    · obtain ⟨c, hc, rfl⟩ := List.mem_map.mp hd
      exact hnew c hc
  have hnext : (s.mem q).ptr ≠ b.start := by
    rw [hr.ptr_eq]
    cases r with
    | nil => exact hnode base List.mem_cons_self
    | cons c r => exact hnew c (by simp)
  refine ⟨place l b r, { s with mem := joinedPrev (joinedNext s.mem q b.start) q b.start, freep := q }, fun fuel hfuel => ?_,
    ⟨hon.chain, hsize, Gapped.place hF.gapped hbelow habove, fun d hd => ?_⟩, hon, fun x => covers_place,
    total_place l b r, exists_place l b r, length_place l b r, rfl, rfl, rfl, fun d hd hnd => ?_⟩
  · show ((searchLoop (b.start + 16 - 16) fuel s.freep >>= fun p => joinNext p (b.start + 16 - 16) >>= fun _ =>
      joinPrev p (b.start + 16 - 16) >>= fun _ => modify fun s => { s with freep := p }) : M Unit) s = _
    rw [Nat.add_sub_cancel, bind_ok (hsearch fuel hfuel), bind_ok (joinNext_run (hnode q hqmem) hnext),
      bind_ok (joinPrev_run (hnode q hqmem))]
    rfl
  · obtain ⟨c, hc, heq, hlen⟩ := mem_place hd
    rw [heq]
    rcases List.mem_cons.mp hc with rfl | hc
    · omega
    · have := hF.pos c hc
      omega
  · show update (update s.mem b.start _) q _ d = s.mem d
    rw [update_of_ne (fun heq : d = q => hnd (heq ▸ hqmem)), update_of_ne hd]

end Xv6.Malloc
