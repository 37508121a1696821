import Xv6.Schemes.System
import Xv6.User.Malloc.Calls

/-! `malloc` and `free` over sequences of calls.

    ```
    got     |================|      |=======================|
    free    |====|    |======|      |=====|      |==|
    live         |====|                   |======|  |=======|
    ```

    The free and the live blocks divide the memory that `morecore` has got. -/

namespace Xv6.Malloc
open Extents Function
open Hoare (bind_ok)

/-- A block that `malloc` has returned: its header is at `start`, and `bytes` were asked for. -/
structure Block where
  start : Nat
  units : Nat
  bytes : Nat
  deriving DecidableEq

def Block.extent (b : Block) : Extent := ⟨b.start, 16 * b.units⟩

variable {e : Env} {s t : State} {F : List Extent} {live : List Block} {n fuel : Nat}

/-- The free and live blocks are those of the memory that has been obtained. -/
structure Pool (e : Env) (s : State) (F : List Extent) (live : List Block) : Prop where
  header : ∀ b ∈ live, (s.mem b.start).size = b.units ∧ e.base + 16 ≤ b.start ∧ 0 < b.units ∧ b.bytes ≤ 16 * (b.units - 1)
  once : live.Pairwise fun b c => ∀ x, b.extent.Has x → ¬ c.extent.Has x
  disjoint : ∀ b ∈ live, ∀ x, b.extent.Has x → ¬ Covers F x
  cover : ∀ x, Covers s.got x ↔ Covers F x ∨ Covers (live.map Block.extent) x
  total : total s.got = total F + total (live.map Block.extent)
  below : ∀ x, Covers s.got x → x < s.brk
  room : e.base + 16 + Extents.total s.got ≤ s.brk ∧ s.brk ≤ e.limit

/-- Before the first call there is no list. -/
def Ready (e : Env) (s : State) (F : List Extent) (live : List Block) : Prop :=
  (FreeList e.base s.mem F ∧ On e.base s.mem F s.freep) ∧ Pool e s F live

variable {b c : Extent}

theorem apart_of_disjoint (hb : 0 < b.len) (hc : 0 < c.len) (h : ∀ x, b.Has x → ¬ c.Has x) : b.Apart c := by
  by_contra hcon
  unfold Extent.Apart Extent.Has Extent.stop at *
  have h₁ := h b.start
  have h₂ := h c.start
  omega

theorem disjoint_of_apart (h : b.Apart c) : ∀ x, b.Has x → ¬ c.Has x := by
  unfold Extent.Apart Extent.Has Extent.stop at *
  intro x
  omega

namespace Pool

variable {b : Block}

theorem live_pos (h : Pool e s F live) (hb : b ∈ live) : b.extent.Has b.start := by
  have := (h.header b hb).2.2.1
  unfold Extent.Has Extent.stop Block.extent
  simp only
  omega

/-- Headers of live blocks are no nodes of the list. -/
theorem not_node (h : Pool e s F live) (hF : FreeList e.base s.mem F) (hb : b ∈ live) :
    b.start ∉ e.base :: F.map Extent.start := fun hin => by
  rcases List.mem_cons.mp hin with heq | hin
  · have := (h.header b hb).2.1
    omega
  · obtain ⟨c, hc, heq⟩ := List.mem_map.mp hin
    refine h.disjoint b hb b.start (h.live_pos hb) ⟨c, hc, ?_⟩
    have := (hF.pos c hc).2
    unfold Extent.Has Extent.stop
    omega

theorem free_lt {c : Extent} (h : Pool e s F live) (hF : FreeList e.base s.mem F) (hc : c ∈ F) : c.stop ≤ s.brk := by
  have hpos := (hF.pos c hc).2
  have hcov : Covers s.got (c.stop - 1) := (h.cover _).mpr (.inl ⟨c, hc, by unfold Extent.Has Extent.stop; omega⟩)
  have := h.below _ hcov
  omega

theorem live_lt (h : Pool e s F live) (hb : b ∈ live) : b.start < s.brk :=
  h.below _ ((h.cover _).mpr (.inr ⟨_, List.mem_map_of_mem hb, h.live_pos hb⟩))

theorem total_le (h : Pool e s F live) : Extents.total F + Extents.total (live.map Block.extent) ≤ e.limit := by
  have := h.total
  have := h.room
  omega

end Pool

/-! ### Calls -/

/-- `free` of a live block. -/
theorem free_live {l₁ l₂ : List Block} {b : Block} (h : Ready e s F (l₁ ++ b :: l₂)) (hlimit : e.limit < 2 ^ 36) :
    ∃ F' t, (∀ fuel, 2 * F.length + 1 < fuel → free fuel (b.start + 16) s = .ok ((), t)) ∧ Ready e t F' (l₁ ++ l₂) := by
  obtain ⟨⟨hF, hp⟩, hpool⟩ := h
  have hb : b ∈ l₁ ++ b :: l₂ := by simp
  obtain ⟨hsize, hlow, hpos, -⟩ := hpool.header b hb
  have htotal := hpool.total_le
  rw [List.map_append, List.map_cons, total_append, total_cons] at htotal
  have hlen : b.extent.len = 16 * b.units := rfl
  obtain ⟨F', t, hrun, hF', hon, hcover, hsum, -, -, hbrk, -, hgot, hkept⟩ := free_run hF hp
    (by rw [hlen]; exact congrArg (16 * ·) hsize) hlow (by omega) (fun c hc => apart_of_disjoint (hF.pos c hc).2 (by omega)
      fun x hx hbx => hpool.disjoint b hb x hbx ⟨c, hc, hx⟩) (by omega)
  have hsub : ∀ c ∈ l₁ ++ l₂, c ∈ l₁ ++ b :: l₂ := fun c hc => by
    simp only [List.mem_append, List.mem_cons] at hc ⊢
    rcases hc with hc | hc
    · exact .inl hc
    · exact .inr (.inr hc)
  obtain ⟨ho₁, ho₂, ho₃⟩ := List.pairwise_append.mp hpool.once
  have hother : ∀ c ∈ l₁ ++ l₂, ∀ x, c.extent.Has x → ¬ b.extent.Has x := fun c hc x hx hbx => by
    rcases List.mem_append.mp hc with hc | hc
    · exact ho₃ c hc b List.mem_cons_self x hx hbx
    · exact (List.pairwise_cons.mp ho₂).1 c hc x hbx hx
  refine ⟨F', t, hrun, ⟨hF', hon⟩, fun c hc => ?_, ?_, fun c hc x hx hcov => ?_, fun x => ?_, ?_, ?_, ?_⟩
  · have hne : c.start ≠ b.start := fun heq =>
      hother c hc c.start (hpool.live_pos (hsub c hc)) (heq ▸ hpool.live_pos hb)
    rw [hkept c.start hne (hpool.not_node hF (hsub c hc))]
    exact hpool.header c (hsub c hc)
  · exact hpool.once.sublist (List.Sublist.append_left (List.sublist_cons_self b l₂) l₁)
  · rcases (hcover x).mp hcov with hcov | hbx
    · exact hpool.disjoint c (hsub c hc) x hx hcov
    · exact hother c hc x hx hbx
  · rw [hgot, hpool.cover, hcover, List.map_append, List.map_cons, covers_append, covers_cons, List.map_append, covers_append]
    tauto
  · have := hpool.total
    rw [List.map_append, List.map_cons, total_append, total_cons] at this
    rw [hgot, hsum, List.map_append, total_append]
    omega
  · rw [hgot, hbrk]
    exact hpool.below
  · rw [hgot, hbrk]
    exact hpool.room

/-- `morecore` has got `u` headers of memory, `gap` bytes above the rest. -/
def State.grow (s : State) (gap u : Nat) : State where
  mem := update s.mem (s.brk + gap) ⟨(s.mem (s.brk + gap)).ptr, u⟩
  freep := s.freep
  brk := s.brk + gap + u * 16
  calls := s.calls + 1
  got := ⟨s.brk + gap, u * 16⟩ :: s.got

theorem Ready.grow (h : Ready e s F live) (gap u : Nat) : (FreeList e.base (s.grow gap u).mem F ∧
    On e.base (s.grow gap u).mem F s.freep) ∧ ∀ c ∈ F, c.Apart ⟨s.brk + gap, u * 16⟩ := by
  obtain ⟨⟨hF, hp⟩, hpool⟩ := h
  have hnode : ∀ d ∈ e.base :: F.map Extent.start, (s.grow gap u).mem d = s.mem d := fun d hd => by
    refine update_of_ne ?_ _ _
    rcases List.mem_cons.mp hd with rfl | hd
    · have := hpool.room.1
      omega
    · obtain ⟨c, hc, rfl⟩ := List.mem_map.mp hd
      have := hpool.free_lt hF hc
      have := (hF.pos c hc).2
      unfold Extent.stop at *
      omega
  refine ⟨⟨hF.congr hnode, hp.congr hF hnode⟩, fun c hc => .inl ?_⟩
  have := hpool.free_lt hF hc
  show c.stop ≤ s.brk + gap
  omega

theorem sbrk_fails (h : ∀ gap, e.sbrk s.calls = some gap → e.limit < s.brk + gap + n) :
    sbrk e n s = .ok (none, { s with calls := s.calls + 1 }) := by
  rw [sbrk, bind_ok (get_run s), bind_ok rfl]
  cases hs : e.sbrk s.calls with
  | none => rfl
  | some gap =>
    simp only
    rw [if_neg (by have := h gap hs; omega)]
    rfl

variable {gap : Nat}

theorem sbrk_returns (h : e.sbrk s.calls = some gap) (hroom : s.brk + gap + n ≤ e.limit) :
    sbrk e n s = .ok (some (s.brk + gap), { s with calls := s.calls + 1, brk := s.brk + gap + n }) := by
  rw [sbrk, bind_ok (get_run s), bind_ok rfl, h]
  simp only
  rw [if_pos hroom]
  rfl

/-- `morecore` fails, or the list has a block that is large enough. -/
def Grown (e : Env) (F : List Extent) (live : List Block) (n : Nat) (r : Option Nat) (t : State) : Prop :=
  ∃ F', Ready e t F' live ∧ F'.length ≤ F.length + 1 ∧ ∀ p, r = some p → p = t.freep ∧ ∃ c ∈ F', 16 * n ≤ c.len

/-- The memory that `sbrk` has returned goes to the list. -/
theorem grown_free {u : Nat} (h : Ready e s F live) (hlimit : e.limit < 2 ^ 36) (hu : 0 < u) (hn : n ≤ u)
    (hroom : s.brk + gap + u * 16 ≤ e.limit) :
    ∃ t, (∀ fuel, 2 * F.length + 1 < fuel → free fuel (s.brk + gap + 16) (s.grow gap u) = .ok ((), t)) ∧
      Grown e F live n (some t.freep) t := by
  obtain ⟨⟨hF, hon⟩, hapart⟩ := h.grow gap u
  obtain ⟨⟨hF₀, -⟩, hpool⟩ := h
  have htotal := hpool.total
  have hspace := hpool.room
  have hcell : (s.grow gap u).mem (s.brk + gap) = ⟨(s.mem (s.brk + gap)).ptr, u⟩ := update_self _ _ _
  obtain ⟨F', t, hrun, hF', hon', hcover, hsum, ⟨c, hc, hlen⟩, hlength, hbrk, -, hgot, hkept⟩ := free_run
    hF hon (by simp only [hcell]; omega) (by simp only; omega)
    (by simp only; omega) hapart (by simp only; omega)
  simp only at hsum hlen
  have hnew : ∀ x, Extent.Has ⟨s.brk + gap, u * 16⟩ x → s.brk ≤ x := fun x hx => Nat.le_trans (Nat.le_add_right _ _) hx.1
  have hbelow : ∀ b ∈ live, ∀ x, b.extent.Has x → x < s.brk := fun b hb x hx =>
    hpool.below x ((hpool.cover x).mpr (.inr ⟨_, List.mem_map_of_mem hb, hx⟩))
  refine ⟨t, hrun, F', ⟨⟨hF', hon'⟩, fun b hb => ?_, hpool.once, fun b hb x hx hcov => ?_, fun x => ?_, ?_, fun x hx => ?_, ?_⟩,
    hlength, fun p hp => ⟨(Option.some.inj hp).symm, c, hc, by omega⟩⟩
  · have hne : b.start ≠ s.brk + gap := by have := hpool.live_lt hb; omega
    rw [hkept b.start hne (hpool.not_node hF₀ hb), show (s.grow gap u).mem b.start = s.mem b.start from
      update_of_ne hne _ _]
    exact hpool.header b hb
  · rcases (hcover x).mp hcov with hcov | hx'
    · exact hpool.disjoint b hb x hx hcov
    · have := hbelow b hb x hx
      have := hnew x hx'
      omega
  · rw [hgot, State.grow, covers_cons, hpool.cover, hcover, or_assoc, or_left_comm]
  · rw [hgot, State.grow, total_cons, hsum]
    simp only
    omega
  · rw [hbrk]
    rw [hgot, State.grow, covers_cons] at hx
    show x < s.brk + gap + u * 16
    rcases hx with hx | hx
    · exact hx.2
    · have := hpool.below x hx
      omega
  · rw [hbrk, hgot, State.grow, total_cons]
    simp only
    omega

theorem morecore_run (h : Ready e s F live) (hlimit : e.limit < 2 ^ 36) (n : Nat) :
    ∃ r t, (∀ fuel, 2 * F.length + 1 < fuel → morecore e fuel n s = .ok (r, t)) ∧ Grown e F live n r t := by
  obtain ⟨u, hu⟩ : ∃ u, (if n < 4096 then 4096 else n) = u := ⟨_, rfl⟩
  have hle : 0 < u ∧ n ≤ u := by
    rw [← hu]
    split <;> omega
  by_cases hfail : ∀ gap, e.sbrk s.calls = some gap → e.limit < s.brk + gap + u * 16
  · refine ⟨none, { s with calls := s.calls + 1 }, fun fuel _ => ?_, F, ⟨h.1, h.2.header, h.2.once, h.2.disjoint, h.2.cover,
      h.2.total, h.2.below, h.2.room⟩, Nat.le_succ _, fun _ hp => by cases hp⟩
    rw [morecore, morecoreWith]
    simp only [hu]
    rw [bind_ok (sbrk_fails hfail)]
    rfl
  · obtain ⟨gap, hs, hroom⟩ : ∃ gap, e.sbrk s.calls = some gap ∧ s.brk + gap + u * 16 ≤ e.limit := by
      push Not at hfail
      exact hfail
    obtain ⟨t, hrun, hgrown⟩ := grown_free h hlimit hle.1 hle.2 hroom
    refine ⟨some t.freep, t, fun fuel hfuel => ?_, hgrown⟩
    have hmod : u % 2 ^ 32 = u := Nat.mod_eq_of_lt (by omega)
    rw [morecore, morecoreWith]
    simp only [hu]
    rw [bind_ok (sbrk_returns hs hroom)]
    simp only
    rw [bind_ok (t := { s with
        calls := s.calls + 1
        brk := s.brk + gap + u * 16
        got := ⟨s.brk + gap, u * 16⟩ :: s.got }) rfl, bind_ok (setSize_run _ _ _)]
    simp only [hmod]
    exact bind_ok (hrun fuel hfuel)

/-- `malloc` fails, or there is one more live block. -/
def Allocated (e : Env) (live : List Block) (n nbytes : Nat) (r : Option Nat) (t : State) : Prop :=
  r = none ∧ (∃ F', Ready e t F' live) ∨ ∃ a F', r = some (a + 16) ∧ Ready e t F' (⟨a, n, nbytes⟩ :: live)

variable {a nbytes : Nat}

/-- A block has been taken from the list. -/
theorem Ready.take {F' : List Extent} (h : Ready e s F live) (ht : Taken e.base n F s F' a t) (hn : 0 < n)
    (hbytes : nbytes ≤ 16 * (n - 1)) : Ready e t F' (⟨a, n, nbytes⟩ :: live) := by
  obtain ⟨⟨hF, -⟩, hpool⟩ := h
  obtain ⟨hbrk, -, hgot, hkept⟩ := ht.kept
  have hnew : ∀ x, Block.extent ⟨a, n, nbytes⟩ |>.Has x → Covers F x := fun x hx => (ht.covers x).mpr (.inr hx)
  refine ⟨⟨ht.list, ht.on⟩, fun b hb => ?_, List.pairwise_cons.mpr ⟨fun b hb x hx hbx => ?_, hpool.once⟩, fun b hb x hx hcov => ?_,
    fun x => ?_, ?_, ?_, ?_⟩
  · rcases List.mem_cons.mp hb with rfl | hb
    · exact ⟨ht.size, ht.low, hn, hbytes⟩
    · have hne : b.start ≠ a := fun heq => by
        refine hpool.disjoint b hb b.start (hpool.live_pos hb) (hnew _ ?_)
        rw [heq]
        unfold Extent.Has Extent.stop Block.extent
        simp only
        omega
      rw [hkept b.start hne (hpool.not_node hF hb)]
      exact hpool.header b hb
  · exact hpool.disjoint b hb x hbx (hnew x hx)
  · rcases List.mem_cons.mp hb with rfl | hb
    · obtain ⟨c, hc, hcx⟩ := hcov
      exact disjoint_of_apart (ht.apart c hc) x hcx hx
    · exact hpool.disjoint b hb x hx ((ht.covers x).mpr (.inl hcov))
  · rw [hgot, hpool.cover, ht.covers, List.map_cons, covers_cons, or_assoc]
    rfl
  · rw [hgot, hpool.total, ht.total, List.map_cons, total_cons, Block.extent]
    simp only
    omega
  · rw [hgot, hbrk]
    exact hpool.below
  · rw [hgot, hbrk]
    exact hpool.room

theorem take_ready {l r : List Extent} {pv : Nat} (h : Ready e s (l ++ b :: r) live)
    (hlimit : e.limit < 2 ^ 36) (hl : Path s.mem e.base l pv) (hr : Chain s.mem pv (b :: r) e.base) (hlen : 16 * n ≤ b.len)
    (hn : 0 < n) (hbytes : nbytes ≤ 16 * (n - 1)) :
    ∃ r t, (some <$> Malloc.take n pv b.start : M (Option Nat)) s = .ok (r, t) ∧ Allocated e live n nbytes r t := by
  have htotal := h.2.total_le
  have hb : b.len ≤ total (l ++ b :: r) := le_total (by simp)
  obtain ⟨F', a, t, hrun, ht⟩ := take_run h.1.1 hl hr hlen hn (by omega)
  refine ⟨some (a + 16), t, ?_, .inr ⟨a, F', rfl, h.take ht hn hbytes⟩⟩
  rw [map_eq_pure_bind]
  exact bind_ok hrun

/-- The loop of `malloc`. -/
theorem mallocLoop_ready (h : Ready e s F live) (hlimit : e.limit < 2 ^ 36) (hn : 0 < n)
    (hbytes : nbytes ≤ 16 * (n - 1)) :
    ∃ r t, (∀ fuel, 3 * F.length + 6 < fuel → mallocLoop e n fuel s.freep (s.mem s.freep).ptr s = .ok (r, t)) ∧
      Allocated e live n nbytes r t := by
  rcases mallocLoop_run (f := sbrk e) h.1.1 h.1.2 hn with ⟨l, b, r, pv, rfl, hl, hr, hlen, hrun⟩ | ⟨-, hmore⟩
  · obtain ⟨res, t, htake, hall⟩ := take_ready h hlimit hl hr hlen hn hbytes
    exact ⟨res, t, fun fuel hfuel => (hrun fuel (by omega)).trans htake, hall⟩
  · obtain ⟨res, t, hcore, F', h', hlength, hgrown⟩ := morecore_run h hlimit n
    cases res with
    | none =>
      refine ⟨none, t, fun fuel hfuel => ?_, .inl ⟨rfl, F', h'⟩⟩
      obtain ⟨fuel, rfl⟩ : ∃ k, fuel = k + (F.length + 1) := ⟨fuel - (F.length + 1), by omega⟩
      rw [mallocLoop, hmore, more, bind_ok (hcore fuel (by omega))]
      rfl
    | some p =>
      obtain ⟨rfl, c, hc, hlarge⟩ := hgrown p rfl
      rcases mallocLoop_run h'.1.1 h'.1.2 hn with ⟨l, b, r, pv, rfl, hl, hr, hlen, hrun⟩ | ⟨hsmall, -⟩
      · obtain ⟨res, u, htake, hall⟩ := take_ready h' hlimit hl hr hlen hn hbytes
        refine ⟨res, u, fun fuel hfuel => ?_, hall⟩
        obtain ⟨fuel, rfl⟩ : ∃ k, fuel = k + (F.length + 1) := ⟨fuel - (F.length + 1), by omega⟩
        rw [mallocLoop, hmore, more, bind_ok (hcore fuel (by omega))]
        exact (bind_ok (ptr_run _ t)).trans ((hrun fuel (by omega)).trans htake)
      · exact absurd (hsmall c hc) (by omega)

/-! ### Sequences of calls -/

structure Trace where
  s : State
  live : List Block

inductive Call
  | malloc (fuel nbytes : Nat)
  | free (fuel p : Nat)
  | write (a : Nat) (v : Header)

/-- The headers of a block for `nbytes`. -/
def units (nbytes : Nat) : Nat := (nbytes + 15) / 16 + 1

/-- One call. A live block is as large as its header says; its owner may change what is in it. -/
def step (e : Env) (x : Trace) : Call → Option Trace
  | .malloc fuel nbytes =>
    match malloc e fuel nbytes x.s with
    | .ok (some p, t) => some ⟨t, ⟨p - 16, (t.mem (p - 16)).size, nbytes⟩ :: x.live⟩
    | .ok (none, t) => some ⟨t, x.live⟩
    | .error _ => none
  | .free fuel p =>
    match free fuel p x.s with
    | .ok (_, t) => some ⟨t, x.live.eraseP fun b => b.start + 16 = p⟩
    | .error _ => none
  | .write a v => some ⟨{ x.s with mem := update x.s.mem a v }, x.live⟩

/-- Requests are of less than 2^27 headers, and only live blocks are freed and written. -/
def Admissible (x : Trace) : Call → Prop
  | .malloc _ nbytes => units nbytes < 2 ^ 27
  | .free _ p => ∃ b ∈ x.live, b.start + 16 = p
  | .write a _ => ∃ b ∈ x.live, b.start < a ∧ a < b.extent.stop

/-- Before the first call of `malloc` there is no list. -/
def Inv (e : Env) (x : Trace) : Prop :=
  (x.s.freep = 0 ∧ x.live = [] ∧ Pool e x.s [] []) ∨ ∃ F, Ready e x.s F x.live

theorem Ready.freep_ne (h : Ready e s F live) (hbase : 0 < e.base) : s.freep ≠ 0 := by
  obtain ⟨l, r, hF, hl, -⟩ := h.1.2
  have := (path_le h.1.1 hF hl).1
  omega

variable {x : Trace}

/-- The first call makes the list. -/
theorem Inv.ready (h : Inv e x) (hbase : 0 < e.base) : ∃ F, Ready e (x.s.init e) F x.live := by
  rcases h with ⟨hzero, hlive, hpool⟩ | ⟨F, h⟩
  · have hcell : (x.s.init e).mem e.base = ⟨e.base, 0⟩ := by
      rw [State.init, if_pos hzero]
      exact update_self _ _ _
    have hchain : Chain (x.s.init e).mem e.base [] e.base := by rw [Chain, hcell]
    have hfreep : (x.s.init e).freep = e.base := by rw [State.init, if_pos hzero]
    have hbrk : (x.s.init e).brk = x.s.brk := by rw [State.init, if_pos hzero]
    have hgot : (x.s.init e).got = x.s.got := by rw [State.init, if_pos hzero]
    refine ⟨[], ⟨⟨hchain, by rw [hcell], List.Pairwise.nil, by simp⟩, [], [], rfl, hfreep.symm, ?_⟩, ?_⟩
    · rw [hfreep]
      exact hchain
    · rw [hlive]
      refine ⟨by simp, List.Pairwise.nil, by simp, ?_, ?_, ?_, ?_⟩
      · rw [hgot]
        exact hpool.cover
      · rw [hgot]
        exact hpool.total
      · rw [hgot, hbrk]
        exact hpool.below
      · rw [hgot, hbrk]
        exact hpool.room
  · refine ⟨F, ?_⟩
    rwa [State.init, if_neg (h.freep_ne hbase)]

theorem units_eq (hn : nbytes < 2 ^ 32) : ((nbytes + 16 - 1) / 16 + 1) % 2 ^ 32 = units nbytes := by
  unfold units
  omega

/-- `malloc` from the first call on. -/
theorem malloc_run (h : Inv e x) (hbase : 0 < e.base) (hlimit : e.limit < 2 ^ 36)
    (hn : units nbytes < 2 ^ 27) :
    ∃ r t, (∃ k, ∀ fuel, k < fuel → malloc e fuel nbytes x.s = .ok (r, t)) ∧
      Allocated e x.live (units nbytes) nbytes r t := by
  obtain ⟨F, h⟩ := h.ready hbase
  obtain ⟨r, t, hrun, hall⟩ := mallocLoop_ready h hlimit (show 0 < units nbytes from Nat.succ_pos _)
    (show nbytes ≤ 16 * (units nbytes - 1) by unfold units; omega)
  refine ⟨r, t, ⟨3 * F.length + 6, fun fuel hfuel => ?_⟩, hall⟩
  rw [malloc, mallocWith_eq, units_eq (by unfold units at hn; omega)]
  exact hrun fuel hfuel

theorem Ready.write {b : Block} (h : Ready e s F live) (hb : b ∈ live) (ha : b.start < a ∧ a < b.extent.stop)
    (v : Header) : Ready e { s with mem := update s.mem a v } F live := by
  obtain ⟨⟨hF, hp⟩, hpool⟩ := h
  have hin : b.extent.Has a := ⟨ha.1.le, ha.2⟩
  have hnode : ∀ d ∈ e.base :: F.map Extent.start, update s.mem a v d = s.mem d := fun d hd => by
    refine update_of_ne (fun heq => ?_) _ _
    rcases List.mem_cons.mp hd with rfl | hd
    · have := (hpool.header b hb).2.1
      omega
    · obtain ⟨c, hc, rfl⟩ := List.mem_map.mp hd
      refine hpool.disjoint b hb a hin ⟨c, hc, heq ▸ le_rfl, ?_⟩
      have := (hF.pos c hc).2
      unfold Extent.stop
      omega
  refine ⟨⟨hF.congr hnode, hp.congr hF hnode⟩, fun c hc => ?_, hpool.once, hpool.disjoint, hpool.cover, hpool.total, hpool.below,
    hpool.room⟩
  have hne : c.start ≠ a := fun heq => by
    rcases eq_or_ne c b with rfl | hcb
    · omega
    · have : Std.Symm fun b c : Block => ∀ x, b.extent.Has x → ¬ c.extent.Has x := ⟨fun _ _ h x hc hb => h x hb hc⟩
      exact hpool.once.forall hc hb hcb a (heq ▸ hpool.live_pos hc) hin
  show (update s.mem a v c.start).size = c.units ∧ _
  rw [update_of_ne hne]
  exact hpool.header c hc

theorem Allocated.inv {r : Option Nat} (h : Allocated e live n nbytes r t) :
    match r with
    | none => Inv e ⟨t, live⟩
    | some p => Inv e ⟨t, ⟨p - 16, (t.mem (p - 16)).size, nbytes⟩ :: live⟩ := by
  rcases h with ⟨rfl, F, h⟩ | ⟨a, F, rfl, h⟩
  · exact .inr ⟨F, h⟩
  · have hsize := (h.2.header _ List.mem_cons_self).1
    simp only at hsize ⊢
    rw [Nat.add_sub_cancel, hsize]
    exact .inr ⟨F, h⟩

/-- Every call keeps the invariant. -/
theorem Inv.call {y : Trace} {c : Call} (h : Inv e x) (hbase : 0 < e.base) (hlimit : e.limit < 2 ^ 36)
    (hok : Admissible x c) (hstep : step e x c = some y) : Inv e y := by
  cases c with
  | malloc fuel nbytes =>
    obtain ⟨r, t, ⟨k, hrun⟩, hall⟩ := malloc_run h hbase hlimit hok
    cases hres : malloc e fuel nbytes x.s with
    | error _ =>
      simp only [step, hres] at hstep
      cases hstep
    | ok res =>
      have hmore := Hoare.Extends.of_le (malloc_extends e nbytes) (Nat.le_add_right fuel (k + 1)) _ _ hres
      rw [hrun (fuel + (k + 1)) (by omega), Except.ok.injEq] at hmore
      obtain rfl := hmore
      have hinv := hall.inv
      cases r with
      | none | some p =>
        simp only [step, hres] at hstep
        exact Option.some.inj hstep ▸ hinv
  | free fuel p =>
    obtain ⟨b, hb, hp⟩ := hok
    rcases h with ⟨-, hlive, -⟩ | ⟨F, h⟩
    · rw [hlive] at hb
      exact absurd hb List.not_mem_nil
    · obtain ⟨b', l₁, l₂, -, hb', hl, herase⟩ := List.exists_of_eraseP (p := fun b : Block => b.start + 16 = p) hb (by simpa using hp)
      obtain ⟨F', t, hrun, h'⟩ := free_live (hl ▸ h) hlimit
      rw [of_decide_eq_true hb'] at hrun
      cases hres : free fuel p x.s with
      | error _ =>
        simp only [step, hres] at hstep
        cases hstep
      | ok res =>
        have hmore := Hoare.Extends.of_le (free_extends p) (Nat.le_add_right fuel (2 * F.length + 2)) _ _ hres
        rw [hrun (fuel + (2 * F.length + 2)) (by omega), Except.ok.injEq] at hmore
        obtain rfl := hmore
        simp only [step, hres, herase] at hstep
        exact Option.some.inj hstep ▸ .inr ⟨F', h'⟩
  | write a v =>
    obtain ⟨b, hb, ha⟩ := hok
    rcases h with ⟨-, hlive, -⟩ | ⟨F, h⟩
    · rw [hlive] at hb
      exact absurd hb List.not_mem_nil
    · exact Option.some.inj hstep ▸ .inr ⟨F, h.write hb ha v⟩

/-! ### What holds between calls -/

/-- The list with the blocks `F`, the live blocks, and the calls, which return when there is enough
    fuel for the loops. -/
structure Sound (e : Env) (x : Trace) (F : List Extent) : Prop where
  list : x.s.freep = 0 ∧ F = [] ∧ x.live = [] ∨ FreeList e.base x.s.mem F ∧ On e.base x.s.mem F x.s.freep
  once : x.live.Pairwise fun b c => ∀ a, b.extent.Has a → ¬ c.extent.Has a
  disjoint : ∀ b ∈ x.live, ∀ a, b.extent.Has a → ¬ Covers F a
  cover : ∀ a, Covers x.s.got a ↔ Covers F a ∨ Covers (x.live.map Block.extent) a
  room : ∀ b ∈ x.live, b.bytes ≤ 16 * (b.units - 1)
  malloc : ∀ nbytes, units nbytes < 2 ^ 27 → ∃ r t k, ∀ fuel, k < fuel → malloc e fuel nbytes x.s = .ok (r, t)
  free : ∀ b ∈ x.live, ∃ t k, ∀ fuel, k < fuel → free fuel (b.start + 16) x.s = .ok ((), t)

theorem Inv.sound (h : Inv e x) (hbase : 0 < e.base) (hlimit : e.limit < 2 ^ 36) : ∃ F, Sound e x F := by
  have hmalloc : ∀ nbytes, units nbytes < 2 ^ 27 → ∃ r t k, ∀ fuel, k < fuel → Malloc.malloc e fuel nbytes x.s = .ok (r, t) :=
    fun nbytes hn => by
      obtain ⟨r, t, ⟨k, hrun⟩, -⟩ := malloc_run h hbase hlimit hn
      exact ⟨r, t, k, hrun⟩
  rcases h with ⟨hzero, hlive, hpool⟩ | ⟨F, h⟩
  · rw [← hlive] at hpool
    exact ⟨[], .inl ⟨hzero, rfl, hlive⟩, hpool.once, hpool.disjoint, hpool.cover, fun b hb => (hpool.header b hb).2.2.2, hmalloc,
      fun b hb => by rw [hlive] at hb; exact absurd hb List.not_mem_nil⟩
  · refine ⟨F, .inr h.1, h.2.once, h.2.disjoint, h.2.cover, fun b hb => (h.2.header b hb).2.2.2, hmalloc, fun b hb => ?_⟩
    obtain ⟨l₁, l₂, hl⟩ := List.append_of_mem hb
    obtain ⟨F', t, hrun, -⟩ := free_live (hl ▸ h) hlimit
    exact ⟨t, 2 * F.length + 1, hrun⟩

/-- The state when a program starts. -/
structure Initial (e : Env) (s : State) : Prop where
  freep : s.freep = 0
  got : s.got = []
  brk : e.base + 16 ≤ s.brk ∧ s.brk ≤ e.limit

/-- The allocator of user programs is sound after every sequence of calls, as long as all memory is below
    2^36. -/
theorem umalloc_sound {cs : List Call} (hbase : 0 < e.base) (hlimit : e.limit < 2 ^ 36) (hs : Initial e s)
    (hrun : (System.ofStep (step e)).Run Admissible ⟨s, []⟩ cs x) : ∃ F, Sound e x F := by
  have hinit : Inv e ⟨s, []⟩ := by
    refine .inl ⟨hs.freep, rfl, by simp, List.Pairwise.nil, by simp, ?_, ?_, ?_, ?_⟩
    · simp [hs.got]
    · simp [hs.got]
    · simp [hs.got]
    · simpa [hs.got] using hs.brk
  exact (hrun.step_invariant (fun _ _ _ hinv hok hstep => hinv.call hbase hlimit hok hstep) hinit).sound hbase hlimit

instance (x : Trace) (c : Call) : Decidable (Admissible x c) :=
  match c with
  | .malloc _ nbytes => inferInstanceAs (Decidable (units nbytes < 2 ^ 27))
  | .free _ p => inferInstanceAs (Decidable (∃ b ∈ x.live, b.start + 16 = p))
  | .write a _ => inferInstanceAs (Decidable (∃ b ∈ x.live, b.start < a ∧ a < b.extent.stop))

/-- A program that has just started; `base` is at 16, and the memory up to 32 is in use. -/
def start : State := ⟨fun _ => ⟨0, 0⟩, 0, 32, 0, []⟩

/-- A request of 100 bytes, when there is 1 MB. -/
def smallTrace : Trace := (System.ofStep (step ⟨16, 2 ^ 20, fun _ => some 0⟩)).next ⟨start, []⟩ (.malloc 20 100)

theorem umalloc_sound_small : smallTrace.live = [⟨32 + 16 * 4088, 8, 100⟩] ∧ ∃ F, Sound ⟨16, 2 ^ 20, fun _ => some 0⟩ smallTrace F :=
  ⟨by decide +kernel, umalloc_sound (by decide) (by decide) ⟨rfl, rfl, by decide⟩
    (.snoc (.nil _) (by decide +kernel) (by decide))⟩

/-! ### Too much memory -/

/-- `sbrk` returns one piece of memory after the other. -/
def hugeEnv : Env := ⟨16, 2 ^ 37, fun _ => some 0⟩

/-- 33 blocks of almost 2^31 bytes, all of them freed again. -/
def hugeCalls : List Call :=
  List.replicate 33 (.malloc 20 (2 ^ 31 - 32)) ++ (List.range 33).map fun i => .free 20 (48 + i * (2 ^ 31 - 16))

/-- In the end the list has one block, and its size has wrapped around. -/
theorem huge_run : (((System.ofStep (step hugeEnv)).exec Admissible ⟨start, []⟩ hugeCalls).map fun x =>
    ([x.s.freep, (x.s.mem 16).ptr, (x.s.mem 32).ptr, (x.s.mem 32).size, x.live.length],
      x.s.got.map fun c => (c.start, c.len))) =
    some ([32, 32, 16, 2 ^ 27 - 33, 0], (List.range 33).reverse.map fun i => (32 + i * (2 ^ 31 - 16), 2 ^ 31 - 16)) := by
  decide +kernel

/-- With more than 64 GB the blocks of the list do not cover the memory that has been obtained. -/
theorem umalloc_wraps : ∃ x, Initial hugeEnv start ∧
    (System.ofStep (step hugeEnv)).Run Admissible ⟨start, []⟩ hugeCalls x ∧ ¬ ∃ F, Sound hugeEnv x F := by
  obtain ⟨x, hx, hfacts⟩ := Option.map_eq_some_iff.mp huge_run
  simp only [Prod.mk.injEq, List.cons.injEq] at hfacts
  obtain ⟨⟨hfreep, hbase, hptr, hsize, hlive, -⟩, hgot⟩ := hfacts
  refine ⟨x, ⟨rfl, rfl, by decide⟩, System.run_of_exec hx, fun ⟨F, hF⟩ => ?_⟩
  rcases hF.list with ⟨hzero, -⟩ | ⟨hlist, -⟩
  · omega
  · have hchain := hlist.chain
    have hcover : Covers x.s.got (32 + 32 * (2 ^ 31 - 16)) := by
      have hlast : (32 + 32 * (2 ^ 31 - 16), 2 ^ 31 - 16) ∈ x.s.got.map fun c => (c.start, c.len) := by
        rw [hgot]
        exact List.mem_map.mpr ⟨32, by decide, rfl⟩
      obtain ⟨c, hc, hcat⟩ := List.mem_map.mp hlast
      obtain ⟨hstart, hlen⟩ := Prod.mk.inj hcat
      refine ⟨c, hc, ?_⟩
      unfold Extent.Has Extent.stop
      omega
    rw [hF.cover, List.eq_nil_of_length_eq_zero hlive] at hcover
    obtain ⟨b, hb, hin⟩ := hcover.resolve_right covers_nil
    match F, hchain with
    | [], h => exact absurd hb List.not_mem_nil
    | [c], h =>
      obtain ⟨h₁, h₂, -⟩ := h
      have hc : c.start = 32 := h₁.symm.trans hbase
      rw [List.mem_singleton.mp hb] at hin
      rw [hc, hsize] at h₂
      unfold Extent.Has Extent.stop at hin
      omega
    | c :: d :: F, h =>
      obtain ⟨h₁, -, h₂, -⟩ := h
      have hc : c.start = 32 := h₁.symm.trans hbase
      rw [hc, hptr] at h₂
      have hpos := (hlist.pos d (by simp)).1
      rw [← h₂] at hpos
      exact absurd hpos (by decide)

end Xv6.Malloc
