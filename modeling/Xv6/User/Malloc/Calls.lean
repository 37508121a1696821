import Xv6.User.Malloc.FreeList

/-! `malloc`: the search for a block, and what is taken of it. -/

namespace Xv6.Malloc
open Extents
open Hoare (bind_ok)

variable {e : Env} {f : Nat → M (Option Nat)} {p q z a n base fuel : Nat} {l r F : List Extent} {b : Extent} {s : State}

/-! ### The search -/

theorem size_run (p : Nat) (s : State) : size p s = .ok ((s.mem p).size, s) := rfl

theorem ptr_run (p : Nat) (s : State) : ptr p s = .ok ((s.mem p).ptr, s) := rfl

theorem setSize_run (p n : Nat) (s : State) :
    setSize p n s = .ok ((), { s with mem := Function.update s.mem p { s.mem p with size := n % 2 ^ 32 } }) := rfl

theorem get_run (s : State) : (get : M State) s = .ok (s, s) := rfl

theorem mallocLoop_found (hsize : n ≤ (s.mem p).size) (prevp : Nat) :
    mallocLoopWith f n (fuel + 1) prevp p s = (some <$> take n prevp p) s := by
  rw [mallocLoopWith, bind_ok (size_run p s), if_pos hsize]
  rfl

/-- The loop has come around: there is more memory, or `malloc` fails. -/
def more (f : Nat → M (Option Nat)) (n fuel : Nat) : M (Option Nat) := do
  match ← morecoreWith f fuel n with
  | none => pure none
  | some p => do mallocLoopWith f n fuel p (← ptr p)

theorem mallocLoop_next (hsize : (s.mem p).size < n) (hp : p ≠ s.freep) (prevp : Nat) :
    mallocLoopWith f n (fuel + 1) prevp p s = mallocLoopWith f n fuel p (s.mem p).ptr s := by
  rw [mallocLoopWith, bind_ok (size_run p s), if_neg (Nat.not_le.mpr hsize), bind_ok (get_run s), if_neg hp,
    bind_ok (ptr_run p s)]

theorem mallocLoop_more (hsize : (s.mem s.freep).size < n) (prevp : Nat) :
    mallocLoopWith f n (fuel + 1) prevp s.freep s = more f n fuel s := by
  rw [mallocLoopWith, bind_ok (size_run _ s), if_neg (Nat.not_le.mpr hsize), bind_ok (get_run s), if_pos rfl]
  rfl

/-- Blocks that are too small are passed. -/
theorem mallocLoop_walk (hr : Chain s.mem q r z) (hsmall : ∀ b ∈ r, b.len < 16 * n ∧ b.start ≠ s.freep) :
    ∃ q', Path s.mem q r q' ∧ (s.mem q').ptr = z ∧
      ∀ fuel, mallocLoopWith f n (fuel + r.length) q (s.mem q).ptr s = mallocLoopWith f n fuel q' z s := by
  induction r generalizing q with
  | nil => exact ⟨q, rfl, hr, fun fuel => by rw [hr]; rfl⟩
  | cons b r ih =>
    obtain ⟨hptr, hsize, hr⟩ := hr
    obtain ⟨hlt, hne⟩ := hsmall b List.mem_cons_self
    obtain ⟨q', hpath, hz, hrun⟩ := ih hr fun c hc => hsmall c (List.mem_cons_of_mem _ hc)
    refine ⟨q', ⟨hptr, hsize, hpath⟩, hz, fun fuel => ?_⟩
    rw [List.length_cons, ← Nat.add_assoc, hptr, mallocLoop_next (by omega) hne, hrun]

theorem first_large (r : List Extent) (m : Nat) :
    (∀ b ∈ r, b.len < m) ∨ ∃ r₁ b r₂, r = r₁ ++ b :: r₂ ∧ (∀ c ∈ r₁, c.len < m) ∧ m ≤ b.len := by
  induction r with
  | nil => exact .inl (by simp)
  | cons c r ih =>
    rcases Nat.lt_or_ge c.len m with hlt | hge
    · rcases ih with hall | ⟨r₁, b, r₂, rfl, hsmall, hb⟩
      · exact .inl (by simpa using ⟨hlt, hall⟩)
      · exact .inr ⟨c :: r₁, b, r₂, rfl, by simpa using ⟨hlt, hsmall⟩, hb⟩
    · exact .inr ⟨[], c, r, rfl, by simp, hge⟩

/-- The loop takes a block that is large enough, with the block before it as `prevp`, or finds that
    there is none. -/
theorem mallocLoop_run (hF : FreeList base s.mem F) (hp : On base s.mem F s.freep) (hn : 0 < n) :
    (∃ l b r pv, F = l ++ b :: r ∧ Path s.mem base l pv ∧ Chain s.mem pv (b :: r) base ∧ 16 * n ≤ b.len ∧
      ∀ fuel, F.length + 1 < fuel → mallocLoopWith f n fuel s.freep (s.mem s.freep).ptr s = (some <$> take n pv b.start) s) ∨
    (∀ b ∈ F, b.len < 16 * n) ∧
      ∀ fuel, mallocLoopWith f n (fuel + (F.length + 1)) s.freep (s.mem s.freep).ptr s = more f n fuel s := by
  obtain ⟨l, r, rfl, hl, hr⟩ := hp
  obtain ⟨-, hle, hlast, hgt⟩ := path_le hF rfl hl
  have hbase : (s.mem base).size < n := by rw [hF.base_size]; exact hn
  have hbefore : ∀ {l₁ l₂}, l = l₁ ++ l₂ → ∀ c ∈ l₁, ∀ d ∈ l₂, c.start < d.start := fun heq c hc d hd => by
    have hgap := (List.pairwise_append.mp hF.gapped).1
    have := (List.pairwise_append.mp (heq ▸ hgap)).2.2 c hc d hd
    unfold Extent.stop at this
    omega
  rcases first_large r (16 * n) with hsmall | ⟨r₁, b, r₂, rfl, hsmall, hb⟩
  · obtain ⟨q, hpath, hq, hwalk⟩ := mallocLoop_walk (f := f) hr fun b hb => ⟨hsmall b hb, (hgt b hb).ne'⟩
    rcases first_large l (16 * n) with hsmall' | ⟨l₁, b, l₂, rfl, hsmall', hb⟩
    · -- nothing is large enough
      refine .inr ⟨fun b hb => (List.mem_append.mp hb).elim (hsmall' b) (hsmall b), fun fuel => ?_⟩
      rcases List.eq_nil_or_concat l with rfl | ⟨l₁, c, rfl⟩
      · have heq : base = s.freep := hl
        rw [List.nil_append, ← Nat.add_assoc, Nat.add_right_comm, hwalk, heq, mallocLoop_more (heq ▸ hbase)]
      · rw [List.concat_eq_append] at *
        obtain ⟨heq, m, hl₁, hm, hc⟩ := path_concat.mp hl
        have hne : base ≠ s.freep := by
          have := (hF.pos c (by simp)).1
          omega
        obtain ⟨m', hm', -, hwalk'⟩ := mallocLoop_walk (f := f) (n := n) (hl₁.chain hm) fun d hd =>
          ⟨hsmall' d (by simp [hd]), fun h => absurd (hbefore rfl d hd c (by simp)) (by omega)⟩
        have hlen : fuel + ((l₁ ++ [c] ++ r).length + 1) = fuel + 1 + l₁.length + 1 + r.length := by
          simp
          omega
        rw [hlen, hwalk, mallocLoop_next hbase hne, hwalk', ← heq]
        exact mallocLoop_more (by rw [heq]; have := hsmall' c (by simp); omega) m'
    · -- after `base`
      obtain ⟨m, hl₁, hl₂⟩ := path_append.mp hl
      have hfreep : b.start ≤ s.freep := hle b (by simp)
      have hne : base ≠ s.freep := by
        have := (hF.pos b (by simp)).1
        omega
      obtain ⟨m', hm', -, hwalk'⟩ := mallocLoop_walk (f := f) (n := n) (hl₁.chain hl₂.1) fun d hd =>
        ⟨hsmall' d hd, by have := hbefore rfl d hd b (by simp); omega⟩
      refine .inl ⟨l₁, b, l₂ ++ r, m, by simp, hl₁, chain_append.mpr ⟨s.freep, hl₂, hr⟩, hb, fun fuel hfuel => ?_⟩
      obtain ⟨k, rfl⟩ : ∃ k, fuel = k + 1 + l₁.length + 1 + r.length :=
        ⟨fuel - (l₁.length + 1 + r.length + 1), by simp at hfuel; omega⟩
      rw [hwalk, mallocLoop_next hbase hne, hwalk', mallocLoop_found (by have := hl₂.2.1; omega), hl₁.unique hm']
  · -- before the end of the list
    obtain ⟨m, hr₁, hr₂⟩ := chain_append.mp hr
    obtain ⟨m', hm', -, hwalk⟩ := mallocLoop_walk (f := f) (n := n) (hr₁.chain hr₂.1) fun d hd =>
      ⟨hsmall d hd, (hgt d (by simp [hd])).ne'⟩
    refine .inl ⟨l ++ r₁, b, r₂, m, by simp, path_append.mpr ⟨_, hl, hr₁⟩, hr₂, hb, fun fuel hfuel => ?_⟩
    obtain ⟨k, rfl⟩ : ∃ k, fuel = k + 1 + r₁.length := ⟨fuel - (r₁.length + 1), by simp at hfuel; omega⟩
    rw [hwalk, mallocLoop_found (by have := hr₂.2.1; omega), hr₁.unique hm']

/-! ### Taking a block -/

/-- What `malloc` takes from the list `F`: a block at `a` of `n` headers, which was a part of `b`. -/
structure Taken (base n : Nat) (F : List Extent) (s : State) (F' : List Extent) (a : Nat) (t : State) : Prop where
  list : FreeList base t.mem F'
  on : On base t.mem F' t.freep
  size : (t.mem a).size = n
  low : base + 16 ≤ a
  part : ∃ b ∈ F, b.start ≤ a ∧ a + 16 * n ≤ b.stop
  covers : ∀ x, Covers F x ↔ Covers F' x ∨ Extent.Has ⟨a, 16 * n⟩ x
  apart : ∀ c ∈ F', c.Apart ⟨a, 16 * n⟩
  total : total F = total F' + 16 * n
  length : F'.length ≤ F.length
  kept : Kept base F a s t

theorem start_lt_of_gapped (hF : FreeList base s.mem (l ++ b :: r)) :
    (∀ c ∈ l, c.stop < b.start) ∧ ∀ c ∈ r, b.stop < c.start := by
  obtain ⟨-, hbr, hlb⟩ := List.pairwise_append.mp hF.gapped
  exact ⟨fun c hc => hlb c hc b List.mem_cons_self, (List.pairwise_cons.mp hbr).1⟩

/-- All of the block. -/
theorem take_exact (hF : FreeList base s.mem (l ++ b :: r)) (hl : Path s.mem base l p) (hr : Chain s.mem p (b :: r) base)
    (hn : 16 * n = b.len) :
    ∃ F' t, take n p b.start s = .ok (b.start + 16, t) ∧ Taken base n (l ++ b :: r) s F' b.start t := by
  obtain ⟨hbelow, habove⟩ := start_lt_of_gapped hF
  obtain ⟨hptr, hsize, hr⟩ := hr
  have hnodup := hF.nodup
  rw [List.map_append, ← List.cons_append] at hnodup
  obtain ⟨hnd, -, hdis⟩ := List.nodup_append.mp hnodup
  have hback : ∀ x : Header, ∀ d ∈ b.start :: r.map Extent.start, Function.update s.mem p x d = s.mem d := fun x d hd =>
    Function.update_of_ne (fun heq => hdis p hl.last_mem d hd heq.symm) _ _
  have hpmem : p ∈ base :: (l ++ b :: r).map Extent.start := by
    rw [List.map_append]
    rcases List.mem_cons.mp hl.last_mem with rfl | hin
    · exact List.mem_cons_self
    · exact List.mem_cons_of_mem _ (List.mem_append_left _ hin)
  have hpath : ∀ x : Header, x.size = (s.mem p).size → Path (Function.update s.mem p x) base l p := fun x hx =>
    hl.congr hnd (fun d _ hne => Function.update_of_ne hne _ _) (by rw [Function.update_self, hx])
  refine ⟨l ++ r, { s with mem := Function.update s.mem p ⟨(s.mem b.start).ptr, (s.mem p).size⟩, freep := p }, ?_, ?_⟩
  · rw [take, bind_ok (size_run _ s), if_pos (by omega)]
    rfl
  · have hchain : Chain (Function.update s.mem p ⟨(s.mem b.start).ptr, (s.mem p).size⟩) p r base :=
      hr.congr (by rw [Function.update_self]) fun d hd => hback _ d (List.mem_cons_of_mem _ hd)
    have hon : On base (Function.update s.mem p ⟨(s.mem b.start).ptr, (s.mem p).size⟩) (l ++ r) p :=
      ⟨l, r, rfl, hpath _ rfl, hchain⟩
    refine ⟨⟨hon.chain, ?_, ?_, fun c hc => ?_⟩, hon, ?_, (hF.pos b (by simp)).1, ⟨b, by simp, le_rfl, ?_⟩, fun x => ?_,
      fun c hc => ?_, ?_, by simp, rfl, rfl, rfl, fun d _ hd => ?_⟩
    · by_cases hb : base = p
      · subst hb
        simpa only [Function.update_self] using hF.base_size
      · show (Function.update s.mem p _ base).size = 0
        rw [Function.update_of_ne hb, hF.base_size]
    · exact hF.gapped.sublist (List.Sublist.append_left (List.sublist_cons_self b r) l)
    · refine hF.pos c ?_
      rcases List.mem_append.mp hc with hc | hc
      · exact List.mem_append_left _ hc
      · exact List.mem_append_right _ (List.mem_cons_of_mem _ hc)
    · show (Function.update s.mem p _ b.start).size = n
      rw [hback _ _ List.mem_cons_self]
      omega
    · unfold Extent.stop
      omega
    · have hb : Extent.Has ⟨b.start, 16 * n⟩ x ↔ b.Has x := by
        rw [hn]
      rw [covers_append, covers_cons, covers_append, hb, or_comm (a := b.Has x), or_assoc]
    · unfold Extent.Apart Extent.stop
      rw [hn]
      rcases List.mem_append.mp hc with hc | hc
      · exact .inl (hbelow c hc).le
      · exact .inr (habove c hc).le
    · rw [total_append, total_cons, total_append]
      omega
    · exact Function.update_of_ne (fun heq : d = p => hd (heq ▸ hpmem)) _ _

/-- The memory after the end of a block has been taken: its header is written, and the one of the new
    block at `a`. -/
def splitMem (mem : Nat → Header) (b : Extent) (n a : Nat) : Nat → Header :=
  Function.update (Function.update mem b.start ⟨(mem b.start).ptr, (mem b.start).size - n⟩) a ⟨(mem a).ptr, n⟩

theorem splitMem_other {mem : Nat → Header} {d : Nat} (h₁ : d ≠ b.start) (h₂ : d ≠ a) : splitMem mem b n a d = mem d := by
  rw [splitMem, Function.update_of_ne h₂, Function.update_of_ne h₁]

section Split

variable (hF : FreeList base s.mem (l ++ b :: r)) (ha : b.start < a ∧ a < b.stop)

include hF ha

/-- The new header is inside of the block. -/
theorem not_node : ∀ d ∈ base :: (l ++ b :: r).map Extent.start, d ≠ a := fun d hd => by
  obtain ⟨hbelow, habove⟩ := start_lt_of_gapped hF
  rcases List.mem_cons.mp hd with rfl | hd
  · have := (hF.pos b (by simp)).1
    omega
  · obtain ⟨c, hc, rfl⟩ := List.mem_map.mp hd
    rcases List.mem_append.mp hc with hc | hc
    · have := hbelow c hc
      have : c.start ≤ c.stop := Nat.le_add_right _ _
      omega
    · rcases List.mem_cons.mp hc with rfl | hc
      · omega
      · have := habove c hc
        omega

theorem split_on (hl : Path s.mem base l p) (hr : Chain s.mem p (b :: r) base) :
    On base (splitMem s.mem b n a) (l ++ ⟨b.start, b.len - 16 * n⟩ :: r) p := by
  obtain ⟨hptr, hsize, hr⟩ := hr
  have hnot := not_node hF ha
  have hnodup := hF.nodup
  rw [List.map_append, ← List.cons_append] at hnodup hnot
  obtain ⟨hnd, hnd', hdis⟩ := List.nodup_append.mp hnodup
  have hcell : splitMem s.mem b n a b.start = ⟨(s.mem b.start).ptr, (s.mem b.start).size - n⟩ := by
    rw [splitMem, Function.update_of_ne ha.1.ne, Function.update_self]
  have hfront : ∀ d ∈ base :: l.map Extent.start, splitMem s.mem b n a d = s.mem d := fun d hd =>
    splitMem_other (hdis d hd b.start List.mem_cons_self) (hnot d (List.mem_append_left _ hd))
  have hback : ∀ d ∈ r.map Extent.start, splitMem s.mem b n a d = s.mem d := fun d hd =>
    splitMem_other (fun heq => (List.nodup_cons.mp hnd').1 (heq ▸ hd))
      (hnot d (List.mem_append_right _ (List.mem_cons_of_mem _ hd)))
  refine ⟨l, _ :: r, rfl, hl.congr hnd (fun d hd _ => hfront d hd) (by rw [hfront p hl.last_mem]),
    by rw [hfront p hl.last_mem, hptr], ?_, hr.congr (by rw [hcell]) hback⟩
  rw [hcell]
  simp only
  omega

end Split

/-- The end of the block. -/
theorem take_split (hF : FreeList base s.mem (l ++ b :: r)) (hl : Path s.mem base l p) (hr : Chain s.mem p (b :: r) base)
    (hn : 16 * n < b.len) (hpos : 0 < n) (hlen : b.len < 2 ^ 36) :
    ∃ F' t, take n p b.start s = .ok (b.stop - 16 * n + 16, t) ∧
      Taken base n (l ++ b :: r) s F' (b.stop - 16 * n) t := by
  obtain ⟨hbelow, habove⟩ := start_lt_of_gapped hF
  have hsize := hr.2.1
  have hstop : b.stop = b.start + b.len := rfl
  have hb := hF.pos b (by simp)
  have ha : b.start < b.stop - 16 * n ∧ b.stop - 16 * n < b.stop := by omega
  have hnot := not_node hF ha
  have hon := split_on (n := n) hF ha hl hr
  refine ⟨_, { s with mem := splitMem s.mem b n (b.stop - 16 * n), freep := p }, ?_, ⟨hon.chain, ?_, ?_, fun c hc => ?_⟩, hon,
    ?_, by omega, ⟨b, by simp, by omega, by omega⟩, fun x => ?_, fun c hc => ?_, ?_, by simp, rfl, rfl, rfl, fun d h₁ h₂ => ?_⟩
  · have hmod : ((s.mem b.start).size - n) % 2 ^ 32 = (s.mem b.start).size - n := Nat.mod_eq_of_lt (by omega)
    have hmod' : n % 2 ^ 32 = n := Nat.mod_eq_of_lt (by omega)
    have hstart : b.start + 16 * ((s.mem b.start).size - n) = b.stop - 16 * n := by omega
    rw [take, bind_ok (size_run _ s), if_neg (by omega), bind_ok (size_run _ s), bind_ok (setSize_run _ _ s),
      bind_ok (size_run _ _)]
    simp only [Function.update_self, hmod, hstart]
    rw [bind_ok (setSize_run _ _ _)]
    simp only [Function.update_of_ne ha.1.ne', hmod']
    rfl
  · show (splitMem s.mem b n (b.stop - 16 * n) base).size = 0
    rw [splitMem_other (by omega) (by omega), hF.base_size]
  · obtain ⟨hgl, hgbr, hlb⟩ := List.pairwise_append.mp hF.gapped
    refine List.pairwise_append.mpr ⟨hgl, List.pairwise_cons.mpr ⟨fun c hc => ?_, (List.pairwise_cons.mp hgbr).2⟩,
      fun c hc d hd => ?_⟩
    · have := habove c hc
      unfold Extent.stop at *
      simp only
      omega
    · rcases List.mem_cons.mp hd with rfl | hd
      · exact hbelow c hc
      · exact hlb c hc d (List.mem_cons_of_mem _ hd)
  · rcases List.mem_append.mp hc with hc | hc
    · exact hF.pos c (List.mem_append_left _ hc)
    · rcases List.mem_cons.mp hc with rfl | hc
      · exact ⟨hb.1, by simp only; omega⟩
      · exact hF.pos c (List.mem_append_right _ (List.mem_cons_of_mem _ hc))
  · show (splitMem s.mem b n (b.stop - 16 * n) (b.stop - 16 * n)).size = n
    rw [splitMem, Function.update_self]
  · have hparts : b.Has x ↔ Extent.Has ⟨b.start, b.len - 16 * n⟩ x ∨ Extent.Has ⟨b.stop - 16 * n, 16 * n⟩ x := by
      unfold Extent.Has Extent.stop
      simp only
      omega
    rw [covers_append, covers_cons, covers_append, covers_cons, hparts, or_assoc, or_assoc, or_assoc,
      or_comm (a := Covers r x)]
  · unfold Extent.Apart Extent.stop at *
    simp only
    rcases List.mem_append.mp hc with hc | hc
    · have := hbelow c hc
      omega
    · rcases List.mem_cons.mp hc with rfl | hc
      · simp only
        omega
      · have := habove c hc
        omega
  · simp only [total_append, total_cons]
    omega
  · refine splitMem_other (fun heq => h₂ ?_) h₁
    rw [heq]
    simp

theorem take_run (hF : FreeList base s.mem (l ++ b :: r)) (hl : Path s.mem base l p) (hr : Chain s.mem p (b :: r) base)
    (hn : 16 * n ≤ b.len) (hpos : 0 < n) (hlen : b.len < 2 ^ 36) :
    ∃ F' a t, take n p b.start s = .ok (a + 16, t) ∧ Taken base n (l ++ b :: r) s F' a t := by
  rcases Nat.lt_or_eq_of_le hn with hlt | heq
  · obtain ⟨F', t, h⟩ := take_split hF hl hr hlt hpos hlen
    exact ⟨F', _, t, h⟩
  · obtain ⟨F', t, h⟩ := take_exact hF hl hr heq
    exact ⟨F', _, t, h⟩

/-- The first call makes the list. -/
def State.init (e : Env) (s : State) : State :=
  if s.freep = 0 then { s with mem := Function.update s.mem e.base ⟨e.base, 0⟩, freep := e.base } else s

theorem mallocWith_eq (f : Nat → M (Option Nat)) (fuel nbytes : Nat) (s : State) :
    mallocWith f e.base fuel nbytes s = mallocLoopWith f (((nbytes + 16 - 1) / 16 + 1) % 2 ^ 32) fuel (s.init e).freep
      ((s.init e).mem (s.init e).freep).ptr (s.init e) := by
  unfold State.init
  rw [mallocWith, bind_ok (get_run s)]
  split
  · rw [bind_ok (a := ()) (t := { s with freep := e.base }) rfl]
    show mallocLoopWith _ _ _ _ _ { s with mem := Function.update (Function.update s.mem e.base _) e.base _, freep := e.base } = _
    simp only [Function.update_idem, Function.update_self, Nat.zero_mod]
  · rfl

/-! ### Fuel -/

section Fuel
open Hoare (Extends)

theorem searchLoop_extends (bp fuel p : Nat) : Extends (searchLoop bp fuel p) (searchLoop bp (fuel + 1) p) := by
  induction fuel generalizing p with
  | zero => exact fun _ _ h => by cases h
  | succ fuel ih => exact (Extends.refl _).bind fun next => .ite (.refl _) (.ite (.refl _) (ih next))

theorem free_extends (ap fuel : Nat) : Extends (free fuel ap) (free (fuel + 1) ap) :=
  (Extends.refl _).bind fun _ => (searchLoop_extends _ fuel _).bind fun _ => .refl _

theorem morecore_extends (e : Env) (nu fuel : Nat) : Extends (morecore e fuel nu) (morecore e (fuel + 1) nu) := by
  refine (Extends.refl _).bind fun r => ?_
  cases r with
  | none => exact .refl _
  | some p => exact (Extends.refl _).bind fun _ => (Extends.refl _).bind fun _ => (free_extends _ fuel).bind fun _ => .refl _

theorem mallocLoop_extends (e : Env) (n fuel prevp p : Nat) :
    Extends (mallocLoop e n fuel prevp p) (mallocLoop e n (fuel + 1) prevp p) := by
  induction fuel generalizing prevp p with
  | zero => exact fun _ _ h => by cases h
  | succ fuel ih =>
    refine (Extends.refl _).bind fun _ => .ite (.refl _) ((Extends.refl _).bind fun _ => .ite ?_ ?_)
    · refine (morecore_extends e n fuel).bind fun r => ?_
      cases r with
      | none => exact .refl _
      | some p => exact (Extends.refl _).bind fun _ => ih _ _
    · exact (Extends.refl _).bind fun _ => ih _ _

theorem malloc_extends (e : Env) (nbytes fuel : Nat) : Extends (malloc e fuel nbytes) (malloc e (fuel + 1) nbytes) := by
  intro s x hx
  rw [malloc, mallocWith_eq] at hx ⊢
  exact mallocLoop_extends e _ fuel _ _ _ x hx

end Fuel

end Xv6.Malloc
