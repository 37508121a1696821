import Xv6.Kernel.Mem.CallSpec

/-! The memory of system calls. -/

namespace Xv6.Mem

open View Function
open Prog (wp_bind wp_ite)
open Procs (Slot)

variable {K : Link} {alone : Bool} {E : String → Prop} {v w : View} {ρ : Frame → Option Cell}
  {π : Slot → Option Proc} {S X : Nat → Prop} {R R₀ f : Frame} {m n sz : Nat} {p q np : Slot} {P P₀ : Proc}

/-! ### sbrk -/

/-- A change of the record that keeps the trapframe and the page table. -/
theorem Table.keep {N : Proc} (T : Table K R ρ π v S) (hq : π q = some P) (htf : N.tf = P.tf)
    (hpt : N.pagetable = P.pagetable) :
    ∃ w, Sets v q N w ∧ Table K R ρ (update π q (some N)) w S := by
  have hset := T.good.record (.inl T.stale) (by rw [T.proc]; exact hq)
    (.inr ⟨htf, by rw [T.stale]; nofun⟩) (.inr ⟨hpt, by rw [T.stale]; nofun⟩)
  exact ⟨_, hset, T.set hset⟩

theorem Table.growproc (T : Table K R ρ π v (upTo (pages P.sz) X)) (hX : ∀ m, X m → Special 0 m)
    (hq : π q = some P) (hpt : P.pagetable = some R) (n : Int) :
    Wp K alone E (growproc q n) (fun r w => ∃ sz,
      Table K R ρ (update π q (some { P with sz := sz })) w (upTo (pages sz) X) ∧
      (r = false → sz = P.sz)) v := by
  have hsz : ∀ {v sz}, Table K R ρ π v (upTo (pages sz) X) → sz % 2 ^ 32 = sz := fun T =>
    Nat.mod_eq_of_lt (by have := T.small; omega)
  have hfail : ∀ {v}, Table K R ρ π v (upTo (pages P.sz) X) → Wp K alone E (pure false) (fun r w => ∃ sz,
      Table K R ρ (update π q (some { P with sz := sz })) w (upTo (pages sz) X) ∧
      (r = false → sz = P.sz)) v := fun T =>
    ⟨P.sz, by rwa [update_eq_self_iff.mpr hq.symm], fun _ => rfl⟩
  have hdone : ∀ {v sz}, Table K R ρ π v (upTo (pages sz) X) → Wp K alone E (do
      setProc q fun P => { P with sz := sz }
      pure true) (fun r w => ∃ sz,
        Table K R ρ (update π q (some { P with sz := sz })) w (upTo (pages sz) X) ∧
        (r = false → sz = P.sz)) v := by
    intro v sz T
    obtain ⟨w, hw, Tw⟩ := T.keep (N := { P with sz := sz }) hq rfl rfl
    exact wp_bind.mpr (wp_setProc (by rw [T.proc]; exact hq) hw ⟨sz, Tw, nofun⟩)
  refine wp_bind.mpr (wp_getProc (by rw [T.proc]; exact hq) ?_)
  rw [show P.pagetable.getD 0 = R by rw [hpt]; rfl, hsz T]
  refine wp_ite (fun _ => ?_) fun _ => wp_ite (fun _ => ?_) fun _ => hdone T
  · refine (T.uvmalloc hX).seq fun sz w hw => ?_
    rcases hw with ⟨hmax, T'⟩ | ⟨rfl, T'⟩
    · rw [hsz T']
      refine wp_ite (fun h0 => hfail ?_) fun _ => hdone T'
      rwa [show P.sz = sz by omega]
    · rw [if_pos (by rfl)]
      exact hfail T'
  · refine (T.uvmdealloc hX).seq fun sz w hw => ?_
    rw [hsz hw.2]
    exact hdone hw.2

/-! ### fork -/

/-- The frames and the records once `allocproc` has made `np` a process with trapframe `f` and page
    table `R`. -/
structure Made (K : Link) (alone : Bool) (np : Slot) (P : Proc) (f R : Frame) (v w : View) (S : Nat → Prop) : Prop where
  tf : v.cell f = none
  new : v.cell R = none
  table : Table K R (update v.cell f (some (.tf np)))
    (update v.proc np (some { P with tf := some f, pagetable := some R })) w S
  special : ∀ m, S m → Special 0 m
  low : ¬ w.tables R 0
  left : alone = true → v.left ≤ w.left + 4
  short : (∀ m, Special 0 m → S m) ∨
    (alone = true → (∀ m, ¬ S m) ∧ ¬ w.tables R (vpn TRAMPOLINE / 512) ∧ w.left = 0 ∧ v.left < 4)

theorem allocproc_spec (h : Good K v) (hs : v.stale = none) (hq : v.proc np = some P) (htf : P.tf = none)
    (hpt : P.pagetable = none) (hE : (alone = true → v.left ≤ 1) → E "uvmcreate: out of memory") :
    Wp K alone E (allocproc K np) (fun r w => (r = false ∧ w = v ∧ (alone = true → v.left = 0)) ∨
      (r = true ∧ ∃ f R S, Made K alone np P f R v w S)) v := by
  refine wp_bind.mpr (wp_kalloc hs (fun hleft => wp_bind.mpr ?_) fun hleft f hf hlo hhi => wp_bind.mpr ?_)
  · have hset := h.record (N := { P with tf := none }) (.inl hs) hq (.inl rfl) (.inr ⟨rfl, by rw [hs]; nofun⟩)
    refine wp_setProc hq hset (.inl ⟨rfl, ?_, hleft⟩)
    have hP : ({ P with tf := none } : Proc) = P := by rw [← htf]
    unfold View.record
    rw [hP, update_eq_self_iff.mpr hq.symm, ← hs]
  · have htake : Good K (v.take f) :=
      (h.plain (c := some .loose) hs (by rw [hf]; exact trivial) nofun fun _ => ⟨hlo, hhi⟩).setLeft _
    have hset : Sets (v.take f) np { P with tf := some f } _ := .tf hs (by simp) rfl hpt
    refine wp_setProc hq hset (wp_bind.mpr ?_)
    refine (procPagetable_spec (htake.sets hset) rfl fun h0 => hE fun ha => ?_).mono fun R w hw => ?_
    · have := h0 ha
      change v.left - 1 = 0 at this
      omega
    · obtain ⟨S, hw⟩ := hw
      have T := hw.table
      have hftf : w.cell f = some (.tf np) := by
        refine cell_of_rest (R := R) ?_
        rw [T.rest]
        exact update_self ..
      have hnew : v.cell R = none := by
        have hRf : R ≠ f := by
          intro hRf
          have := hw.new
          rw [hRf] at this
          simp at this
        simpa [hRf] using hw.new
      have hroot : ∀ q' P', q' ≠ np → w.proc q' = some P' → P'.pagetable ≠ some R := by
        intro q' P' hne hq' hR
        rw [T.proc] at hq'
        obtain ⟨e, he⟩ := (htake.sets hset).held.root hq' hR nofun
        rw [hw.new] at he
        cases he
      have hset' : Sets w np { P with tf := some f, pagetable := some R }
          (w.record np { P with tf := some f, pagetable := some R }) := by
        refine .same (.inl T.stale) (fun g hg => ?_) fun R' hR' => ?_
        · cases hg
          exact hftf
        · cases hR'
          exact ⟨T.root, hroot⟩
      refine wp_bind.mpr (wp_setProc (P := { P with tf := some f }) ?_ hset' (.inr ⟨rfl, f, R, S, ?_⟩))
      · rw [T.proc]
        exact update_self ..
      · refine ⟨hf, hnew, ?_, hw.special, hw.low, fun ha => ?_, hw.short.imp_right fun h ha => ?_⟩
        · have Ts := T.set hset'
          simp only [take_proc, take_cell, upd_cell, update_idem] at Ts
          exact Ts
        · have hleft' : v.left - 1 ≤ w.left + 3 := hw.left ha
          change v.left ≤ w.left + 4
          omega
        · obtain ⟨h₁, h₂, h₃, h₄⟩ := h ha
          have h₄ : v.left - 1 < 3 := h₄
          exact ⟨h₁, h₂, h₃, by omega⟩

variable {e : Fin 512 → Pte}

/-- Without memory `uvmcopy` panics at the first page. -/
theorem Table.uvmcopy_dry {Q : Bool → View → Prop} (T : Table K R ρ π v X)
    (hroot : ρ R₀ = some (.node R₀ 3 0 e)) (hold : ∃ f e, ρ f = some (.node R₀ 1 0 e) ∧ (e (idx 0)).v = true)
    (hsz : 0 < sz) (h0 : ¬ v.tables R 0) (hleft : v.left = 0) (hE : E "uvmunmap: walk") :
    Wp K true E (Mem.uvmcopy R₀ R sz) Q v := by
  obtain ⟨f, ef, hf, hv⟩ := hold
  have hf := cell_of_rest (by rw [T.rest]; exact hf)
  obtain ⟨c, hc⟩ : ∃ c, pagesTo 0 sz = c + 1 := by
    refine Nat.exists_eq_succ_of_ne_zero (Nat.pos_iff_ne_zero.mp ?_)
    unfold pagesTo PGSIZE
    omega
  unfold Mem.uvmcopy
  rw [hc, Mem.copyFrom]
  refine (walk_read T.good T.stale (cell_of_rest (by rw [T.rest]; exact hroot))
    (by decide)).seq fun r w hw => ?_
  obtain ⟨rfl, hr⟩ := hw
  cases r with
  | none => exact absurd hf (hr f ef)
  | some a =>
    obtain ⟨⟨g, i⟩, hi, eg, hg⟩ := a, hr
    obtain rfl : i = idx 0 := hi
    obtain rfl := T.good.trees.unique hf hg
    obtain ⟨-, -, -, rfl⟩ := node_inj hf hg
    refine wp_bind.mpr (wp_load hf ?_)
    rw [hv, if_neg (by simp)]
    refine wp_bind.mpr (wp_kalloc T.stale (fun _ => wp_bind.mpr (T.uvmunmap_none h0 hE)) fun hpos => ?_)
    have := hpos rfl
    omega

variable {u : View}

/-- The error path of `fork`. -/
theorem Made.abandon (h : Made K alone np .free f R v w S) (hq : v.proc np = some .free)
    (T : Table K R (update v.cell f (some (.tf np)))
      (update v.proc np (some ⟨.unused, none, some f, some R, 0⟩)) u S)
    (hE : (∀ m, Special 0 m → S m) ∨ E "uvmunmap: walk" ∧ E "uvmunmap: not mapped") :
    Wp K alone E (do
      freeproc np
      pure false) (fun r w => r = false ∧ Table K R v.cell v.proc w (fun _ => False)) u := by
  have T0 : Table K R _ _ u (upTo 0 S) := T.maps_congr fun m => (or_iff_right (Nat.not_lt_zero m)).symm
  refine (T0.freeproc h.special (update_self ..) rfl rfl (fun h => absurd h (lt_irrefl 0))
    (hE.imp_right (And.imp_right .inl))).seq fun _ t ht => ⟨rfl, ?_⟩
  have Tt := ht.lost rfl
  rw [update_idem, update_idem, update_eq_self_iff.mpr h.tf.symm,
    update_eq_self_iff.mpr hq.symm] at Tt
  exact Tt.maps_congr fun m => iff_of_false (Nat.not_lt_zero m) id

/-- The end of `fork`. -/
theorem Table.start
    (T : Table K R (update v.cell f (some (.tf np)))
      (update v.proc np (some ⟨.unused, none, some f, some R, 0⟩)) u (upTo n S)) (p : Slot) :
    Wp K alone E (do
      setProc np fun NP => { NP with sz := sz, parent := some p }
      setProc np fun NP => { NP with state := .runnable }
      pure true) (fun r w => r = true ∧ Table K R (update v.cell f (some (.tf np)))
        (update v.proc np (some ⟨.runnable, some p, some f, some R, sz⟩)) w (upTo n S)) u := by
  obtain ⟨t, ht, Tt⟩ := T.keep (N := ⟨.unused, some p, some f, some R, sz⟩) (update_self ..) rfl rfl
  obtain ⟨t', ht', Tt'⟩ := Tt.keep (q := np) (N := ⟨.runnable, some p, some f, some R, sz⟩) (update_self ..)
    rfl rfl
  rw [update_idem, update_idem] at Tt'
  exact wp_bind.mpr (wp_setProc (by rw [T.proc]; exact update_self ..) ht
    (wp_bind.mpr (wp_setProc (by rw [Tt.proc]; exact update_self ..) ht' ⟨rfl, Tt'⟩)))

/-- `fork` makes a child of size `sz`; or, where memory has run out, a page table that nobody has. -/
inductive Forked (K : Link) (alone : Bool) (p np : Slot) (sz : Nat) (v : View) : Bool → View → Prop
  | none (hleft : alone = true → v.left = 0) : Forked K alone p np sz v false v
  | lost {R : Frame} {w : View} (hR : v.cell R = none) (T : Table K R v.cell v.proc w fun _ => False) :
      Forked K alone p np sz v false w
  | child {f R : Frame} {S : Nat → Prop} {w : View} (hf : v.cell f = none) (hR : v.cell R = none)
      (hS : ∀ m, S m → Special 0 m) (hall : alone = true → 0 < sz → ∀ m, Special 0 m → S m)
      (T : Table K R (update v.cell f (some (.tf np)))
        (update v.proc np (some ⟨.runnable, some p, some f, some R, sz⟩)) w (upTo (pages sz) S)) :
      Forked K alone p np sz v true w

theorem fork_spec (h : Good K v) (hs : v.stale = none) (hp : v.proc p = some P₀) (hR₀ : P₀.pagetable = some R₀)
    (hmap : ∀ m, m < pages P₀.sz → v.mapped R₀ m) (hq : v.proc np = some .free) (hne : p ≠ np)
    (hE : (alone = true → v.left < 7) → E "uvmcreate: out of memory" ∧ E "uvmunmap: walk" ∧
      (alone = false → E "uvmunmap: not mapped")) :
    Wp K alone E (fork K p np) (Forked K alone p np P₀.sz v) v := by
  refine (allocproc_spec h hs hq rfl rfl fun h1 => (hE fun ha => by have := h1 ha; omega).1).seq fun r w hw => ?_
  rcases hw with ⟨rfl, rfl, hleft⟩ | ⟨rfl, f, R, S, hm⟩
  · exact .none hleft
  have T := hm.table
  obtain ⟨e, he⟩ := h.held.root hp hR₀ (by rw [hs]; nofun)
  have hold : ∀ {g c}, v.cell g = some c → update v.cell f (some (.tf np)) g = some c := by
    intro g c hg
    have hgf : g ≠ f := by
      rintro rfl
      rw [hm.tf] at hg
      cases hg
    rwa [update_of_ne hgf]
  have hpages : ∀ m, m < pages P₀.sz → ∃ g e, update v.cell f (some (.tf np)) g =
      some (.node R₀ 1 (m / 512) e) ∧ (e (idx m)).v = true := by
    intro m hlt
    obtain ⟨g, eg, hg, hv⟩ := hmap m hlt
    exact ⟨g, eg, hold hg, hv⟩
  have hnp : w.proc np = some ⟨.unused, none, some f, some R, 0⟩ := by
    rw [T.proc]
    exact update_self ..
  have hpp : w.proc p = some P₀ := by
    rw [T.proc, update_of_ne hne]
    exact hp
  rw [if_pos rfl]
  refine wp_bind.mpr (wp_getProc hpp (wp_bind.mpr (wp_getProc hnp ?_)))
  rw [show P₀.pagetable.getD 0 = R₀ by rw [hR₀]; rfl]
  have hstart : ∀ {u}, Table K R _ _ u (upTo (pages P₀.sz) S) → (alone = true → 0 < P₀.sz → ∀ m, Special 0 m → S m) →
      Wp K alone E _ (Forked K alone p np P₀.sz v) u := fun Tu hall =>
    (Tu.start p).mono fun r t ht => by
      obtain ⟨rfl, Tt⟩ := ht
      exact .child hm.tf hm.new hm.special hall Tt
  by_cases hdry : alone = true ∧ ¬ ∀ m, Special 0 m → S m
  · obtain ⟨ha, hnot⟩ := hdry
    obtain ⟨-, -, hleft, hvleft⟩ := hm.short.resolve_left hnot ha
    subst ha
    rcases Nat.eq_zero_or_pos P₀.sz with hsz | hsz
    · have hcopy : ∀ R, Mem.uvmcopy R₀ R P₀.sz = pure true := fun R => by rw [hsz]; rfl
      rw [hcopy]
      refine hstart (T.maps_congr fun m => ?_) fun _ hpos => absurd hpos (by omega)
      rw [hsz]
      exact (or_iff_right (Nat.not_lt_zero m)).symm
    · refine wp_bind.mpr (T.uvmcopy_dry (hold he) (hpages 0 ?_) hsz hm.low hleft (hE fun _ => by omega).2.1)
      unfold pages PGSIZE
      omega
  · have hE₁ : (alone = true → w.left < 3) → E "uvmunmap: walk" := fun hleft =>
      (hE fun ha => by have := hleft ha; have := hm.left ha; omega).2.1
    have hall : alone = true → ∀ m, Special 0 m → S m := fun ha => not_not.mp fun hn => hdry ⟨ha, hn⟩
    refine (T.uvmcopy hm.special (hold he) ((Table.of h hs he).bound hmap) hpages hm.low
      fun _ => hE₁).seq fun ok u hu => ?_
    rcases hu with ⟨rfl, Tu⟩ | ⟨rfl, Tu⟩
    · exact hstart Tu fun ha _ => hall ha
    · refine (hm.abandon hq Tu ?_).mono fun r t ht => ?_
      · cases alone with
        | true => exact .inl (hall rfl)
        | false => exact .inr ⟨hE₁ nofun, (hE nofun).2.2 rfl⟩
      · obtain ⟨rfl, Tt⟩ := ht
        exact .lost hm.new Tt

/-! ### wait -/

theorem wait_spec (T : Table K R (v.rest R) v.proc v (upTo n X)) (hX : ∀ m, X m → Special 0 m)
    (hp : v.proc p = some P₀) (hR₀ : P₀.pagetable = some R₀) (hq : v.proc np = some P) (htf : P.tf = some f)
    (hpt : P.pagetable = some R) (hn : 0 < P.sz → n = pages P.sz) (addr : Nat)
    (hE : (∀ m, Special 0 m → X m) ∨ E "uvmunmap: walk" ∧ E "uvmunmap: not mapped") :
    Wp K alone E (wait p np addr) (fun r w => (r = false ∧ w = v) ∨
      (r = true ∧ Gone K R (update (v.rest R) f none) (update v.proc np (some .free)) none n P.sz w))
      v := by
  have hfree : Wp K alone E (do
      Mem.freeproc np
      pure true) (fun r w => (r = false ∧ w = v) ∨ (r = true ∧
        Gone K R (update (v.rest R) f none) (update v.proc np (some .free)) none n P.sz w)) v :=
    (T.freeproc hX hq htf hpt hn (hE.imp_right (And.imp_right .inl))).seq
      fun _ w hw => .inr ⟨rfl, hw⟩
  obtain ⟨e, he⟩ := T.good.held.root hp hR₀ (by rw [T.stale]; nofun)
  refine wp_bind.mpr (wp_getProc hp ?_)
  rw [show P₀.pagetable.getD 0 = R₀ by rw [hR₀]; rfl]
  refine wp_ite (fun _ => hfree) fun _ => wp_bind.mpr ?_
  refine (copyout_read T.good T.stale he).mono fun ok w hw => ?_
  subst hw
  exact wp_ite (fun _ => hfree) fun _ => .inl ⟨rfl, rfl⟩

/-! ### exec -/

/-- The table with root `R` is the same. -/
def View.Same (R : Frame) (v w : View) : Prop :=
  ∀ f l b e, w.cell f = some (.node R l b e) ↔ v.cell f = some (.node R l b e)

namespace View.Same

theorem mapped (h : Same R v w) : w.mapped R n ↔ v.mapped R n :=
  exists_congr fun f => exists_congr fun e => and_congr (h f 1 (n / 512) e) Iff.rfl

theorem trans {u : View} (h : Same R v w) (h' : Same R w u) : Same R v u :=
  fun f l b e => (h' f l b e).trans (h f l b e)

end View.Same

variable {R' : Frame} {l b : Nat}

/-- A table other than `R` is as in the rest. -/
theorem Table.node_iff (T : Table K R ρ π v S) (hne : R' ≠ R) :
    v.cell f = some (.node R' l b e) ↔ ρ f = some (.node R' l b e) := by
  rw [← T.rest, rest_node hne]

variable {r : Option Ref}

theorem Gone.node_iff (h : Gone K R ρ π r n sz v)
    (hne : R' ≠ R) : v.cell f = some (.node R' l b e) ↔ ρ f = some (.node R' l b e) := by
  rcases Nat.eq_zero_or_pos sz with hsz | hsz
  · exact (h.lost hsz).node_iff hne
  · rw [(h.all hsz).2.2.2]

theorem Gone.good (h : Gone K R ρ π r n sz v) : Good K v := by
  rcases Nat.eq_zero_or_pos sz with hsz | hsz
  · exact (h.lost hsz).good
  · exact (h.all hsz).1

theorem Gone.proc (h : Gone K R ρ π r n sz v) : v.proc = π := by
  rcases Nat.eq_zero_or_pos sz with hsz | hsz
  · exact (h.lost hsz).proc
  · exact (h.all hsz).2.2.1

theorem Gone.stale (h : Gone K R ρ π none n sz v) : v.stale = none := by
  rcases Nat.eq_zero_or_pos sz with hsz | hsz
  · exact (h.lost hsz).stale
  · exact (h.all hsz).2.1

/-- What `exec` leaves: the address space of `p`, which had the record `P`, is the old one or a new
    one; frames that were not in use and other address spaces are as they were. -/
structure Execed (K : Link) (alone : Bool) (p : Slot) (P : Proc) (v w : View) : Prop where
  good : Good K w
  stale : w.stale = none
  proc : ∀ q, q ≠ p → w.proc q = v.proc q
  loose : ∀ f, v.cell f = some .loose → w.cell f = some .loose
  other : ∀ R, v.cell R ≠ none → P.pagetable ≠ some R → v.Same R w
  own : (w.proc p = some P ∧ ∀ R, P.pagetable = some R → v.Same R w) ∨
    ∃ R sz X, v.cell R = none ∧ w.proc p = some { P with pagetable := some R, sz := sz } ∧ 0 < sz ∧
      (∀ n, w.mapped R n ↔ upTo (pages sz) X n) ∧ (∀ m, X m → Special 0 m) ∧
      (alone = true → ∀ m, Special 0 m → X m)

namespace Execed

theorem refl (h : Good K v) (hs : v.stale = none) (hp : v.proc p = some P) : Execed K alone p P v v :=
  ⟨h, hs, fun _ _ => rfl, fun _ => id, fun _ _ _ _ _ _ _ => Iff.rfl, .inl ⟨hp, fun _ _ _ _ _ _ => Iff.rfl⟩⟩

/-- The new address space has been given up. -/
theorem bad (h : Gone K R v.cell v.proc none n sz w) (hR : v.cell R = none) (hp : v.proc p = some P)
    (hP : P.pagetable ≠ some R) : Execed K alone p P v w where
  good := h.good
  stale := h.stale
  proc q _ := by rw [h.proc]
  loose f hf := by
    rcases Nat.eq_zero_or_pos sz with hsz | hsz
    · refine cell_of_rest (R := R) ?_
      rw [(h.lost hsz).rest]
      exact hf
    · rw [(h.all hsz).2.2.2]
      exact hf
  other R' hR' _ f l b e := h.node_iff fun heq => hR' (heq ▸ hR)
  own := .inl ⟨by rw [h.proc]; exact hp, fun R' hR' f l b e => h.node_iff fun heq => hP (heq ▸ hR')⟩

/-- The old address space has been freed. -/
theorem done {u : View} (hR : v.cell R = none) (hR₀ : P.pagetable = some R₀) (hne : R ≠ R₀)
    (T : Table K R v.cell (update v.proc p (some { P with pagetable := some R, sz := sz })) u (upTo (pages sz) X))
    (hsz : 0 < sz) (hX : ∀ m, X m → Special 0 m) (hall : alone = true → ∀ m, Special 0 m → X m)
    (h : Gone K R₀ (u.rest R₀) u.proc none n m w) : Execed K alone p P v w where
  good := h.good
  stale := h.stale
  proc q hq := by rw [h.proc, T.proc, update_of_ne hq]
  loose f hf := by
    have hu : u.rest R₀ f = some .loose := by
      refine rest_eq_of_apart (cell_of_rest (R := R) ?_) rfl
      rw [T.rest]
      exact hf
    rcases Nat.eq_zero_or_pos m with hm | hm
    · refine cell_of_rest (R := R₀) ?_
      rw [(h.lost hm).rest]
      exact hu
    · rw [(h.all hm).2.2.2]
      exact hu
  other R' hR' hP f l b e := by
    have hne' : R' ≠ R₀ := fun heq => hP (heq ▸ hR₀)
    have hneR : R' ≠ R := fun heq => hR' (heq ▸ hR)
    rw [h.node_iff hne', ← T.node_iff hneR, rest_node hne']
  own := by
    refine .inr ⟨R, sz, X, hR, by rw [h.proc, T.proc, update_self], hsz, fun k => ?_, hX, hall⟩
    rw [← T.maps k]
    refine exists_congr fun f => exists_congr fun e => and_congr ?_ Iff.rfl
    rw [h.node_iff hne, rest_node hne]

end Execed

theorem exec_spec (h : Good K v) (hs : v.stale = none) (hp : v.proc p = some P) (hR₀ : P.pagetable = some R₀)
    (hmap : ∀ n, v.mapped R₀ n ↔ upTo (pages P.sz) X n) (hX : ∀ m, X m → Special 0 m)
    (hall : alone = true → ∀ m, Special 0 m → X m) (hE₁ : E "uvmcreate: out of memory") (hE₂ : E "uvmunmap: walk")
    (hE₃ : alone = false → E "uvmunmap: not mapped") (hE₄ : E "loadseg: address should exist") (x : Image)
    (argv : List Nat) :
    Wp K alone E (exec K p x argv) (fun _ w => Execed K alone p P v w) v := by
  refine wp_ite (fun _ => .refl h hs hp) fun _ => wp_bind.mpr (wp_getProc hp (wp_bind.mpr ?_))
  refine (procPagetable_spec h hs fun _ => hE₁).mono fun R w hw => ?_
  obtain ⟨S, hw⟩ := hw
  have T := hw.table
  obtain ⟨e, he⟩ := h.held.root hp hR₀ (by rw [hs]; nofun)
  have hne : R ≠ R₀ := by
    rintro rfl
    rw [hw.new] at he
    cases he
  have hP : P.pagetable ≠ some R := fun heq => hne (Option.some.inj (heq.symm.trans hR₀))
  have hnone : ∀ q P', v.proc q = some P' → P'.pagetable ≠ some R := by
    intro q P' hq hR
    obtain ⟨e, he⟩ := h.held.root hq hR (by rw [hs]; nofun)
    rw [hw.new] at he
    cases he
  have hbad : ∀ {u n sz}, Table K R v.cell v.proc u (upTo n S) → (0 < sz → n = pages sz) →
      ((∀ m, Special 0 m → S m) ∨ alone = false ∨ (∀ m, ¬ S m) ∧ ¬ u.tables R (vpn TRAMPOLINE / 512)) →
      Wp K alone E (do
        procFreepagetable R sz
        pure false) (fun _ w => Execed K alone p P v w) u := fun Tu hn hE =>
    (Tu.procFreepagetable hw.special hn (.inl ⟨rfl, hnone⟩)
      (hE.imp_right fun h => ⟨hE₂, h.imp_left hE₃⟩)).seq fun _ t ht => .bad ht hw.new hp hP
  by_cases hdry : alone = true ∧ ¬ ∀ m, Special 0 m → S m
  · obtain ⟨ha, hnot⟩ := hdry
    obtain ⟨hno, htables, hleft, -⟩ := hw.short.resolve_left hnot ha
    subst ha
    refine (loadImage_dry T.stale hleft x argv).seq fun r u hu => ?_
    obtain ⟨rfl, rfl⟩ := hu
    exact hbad (T.maps_congr fun m => (or_iff_right (Nat.not_lt_zero m)).symm)
      (fun h => absurd h (lt_irrefl 0)) (.inr (.inr ⟨hno, htables⟩))
  · have hE : (∀ m, Special 0 m → S m) ∨ alone = false := by
      cases alone with
      | false => exact .inr rfl
      | true => exact .inl (not_not.mp fun hn => hdry ⟨rfl, hn⟩)
    refine (T.loadImage hE₄ hw.special x argv).seq fun r u hu => ?_
    obtain ⟨ok, sz⟩ := r
    rcases hu with ⟨rfl, hsz, Tu⟩ | ⟨rfl, n, Tu, hn⟩
    · have hset : Sets u p { P with pagetable := some R, sz := sz } (u.record p { P with pagetable := some R, sz := sz }) := by
        refine .same (.inl Tu.stale) (fun f hf => ?_) fun R' hR' => ?_
        · exact Tu.good.held.tf (P := P) (by rw [Tu.proc]; exact hp) hf (by rw [Tu.stale]; nofun)
        · cases hR'
          exact ⟨Tu.root, fun q' P' _ hq' => hnone q' P' (by rw [← Tu.proc]; exact hq')⟩
      have Ts := Tu.set hset
      have T₀ := Table.of Ts.good Ts.stale ((Ts.node_iff hne.symm).mpr he)
      have hold : ∀ m, (u.record p { P with pagetable := some R, sz := sz }).mapped R₀ m ↔ upTo (pages P.sz) X m := by
        intro m
        rw [← hmap m]
        exact exists_congr fun f => exists_congr fun e => and_congr (Ts.node_iff hne.symm) Iff.rfl
      refine wp_bind.mpr (wp_setProc (by rw [Tu.proc]; exact hp) hset (wp_bind.mpr ?_))
      rw [show P.pagetable.getD 0 = R₀ by rw [hR₀]; rfl]
      refine ((T₀.maps_congr hold).procFreepagetable hX (fun _ => rfl) (.inl ⟨rfl, fun q P' hq' hR' => ?_⟩) ?_).mono fun _ t ht => .done hw.new hR₀ hne Ts hsz hw.special ?_ ht
      · rw [Ts.proc] at hq'
        by_cases hqp : q = p
        · subst hqp
          rw [update_self] at hq'
          cases hq'
          exact hne (Option.some.inj hR')
        · rw [update_of_ne hqp] at hq'
          exact hqp (h.held.sole hq' hp hR' hR₀)
      · cases alone with
        | true => exact .inl (hall rfl)
        | false => exact .inr ⟨hE₂, .inl (hE₃ rfl)⟩
      · rintro rfl
        exact hE.resolve_right nofun
    · exact hbad Tu hn (hE.imp_right .inl)

/-! ### sys_exec -/

/-- Frames `fs` that were not ours are not in use. -/
structure Lent (K : Link) (fs : List Frame) (v w : View) : Prop where
  good : Good K w
  stale : w.stale = none
  proc : w.proc = v.proc
  nodup : fs.Nodup
  loose : ∀ f, f ∈ fs → v.cell f = none ∧ w.cell f = some .loose
  rest : ∀ f, f ∉ fs → w.cell f = v.cell f

variable {fs : List Frame}

theorem Lent.same (h : Lent K fs v w) (R : Frame) : v.Same R w := by
  intro f l b e
  by_cases hf : f ∈ fs
  · obtain ⟨hv, hw⟩ := h.loose f hf
    rw [hv, hw]
    exact iff_of_false nofun nofun
  · rw [h.rest f hf]

/-- One more frame, before the others. -/
theorem Lent.take (hf : v.cell f = none) (h : Lent K fs (v.take f) w) : Lent K (f :: fs) v w := by
  have hnew : f ∉ fs := fun hmem => by
    have := (h.loose f hmem).1
    simp at this
  have hcell : ∀ {g}, g ≠ f → (v.take f).cell g = v.cell g := fun hg => by simp [hg]
  refine ⟨h.good, h.stale, h.proc, List.nodup_cons.mpr ⟨hnew, h.nodup⟩, fun g hg => ?_, fun g hg => ?_⟩
  · rcases List.mem_cons.mp hg with rfl | hmem
    · exact ⟨hf, by rw [h.rest g hnew]; simp⟩
    · have hgf : g ≠ f := fun heq => hnew (heq ▸ hmem)
      exact ⟨by rw [← hcell hgf]; exact (h.loose g hmem).1, (h.loose g hmem).2⟩
  · obtain ⟨hgf, hmem⟩ := not_or.mp (fun h => hg (List.mem_cons.mpr h))
    rw [h.rest g hmem, hcell hgf]

theorem fetchArgs_spec (h : Good K v) (hs : v.stale = none) (hE : E "sys_exec kalloc") (args : List Arg) :
    Wp K alone E (fetchArgs args n) (fun r w => Lent K r.1 v w) v := by
  have hnil : ∀ {v : View}, Good K v → v.stale = none → Lent K [] v v := fun h hs =>
    ⟨h, hs, rfl, List.nodup_nil, fun _ hf => absurd hf List.not_mem_nil, fun _ _ => rfl⟩
  induction args generalizing v n with
  | nil => exact hnil h hs
  | cons a rest ih =>
    have htake : ∀ {f}, v.cell f = none → K.kend ≤ f → f < PHYSTOP → Good K (v.take f) := fun hf hlo hhi =>
      (h.plain (c := some .loose) hs (by rw [hf]; exact trivial) nofun fun _ => ⟨hlo, hhi⟩).setLeft _
    refine wp_ite (fun _ => hnil h hs) fun _ => ?_
    cases a with
    | noAddr => exact hnil h hs
    | noStr =>
      refine wp_bind.mpr (wp_kalloc hs (fun _ => hE) fun _ f hf hlo hhi => ?_)
      exact (hnil (htake hf hlo hhi) hs).take hf
    | str len =>
      refine wp_bind.mpr (wp_kalloc hs (fun _ => hE) fun _ f hf hlo hhi => wp_bind.mpr ?_)
      exact (ih (htake hf hlo hhi) hs).mono fun r w hw => hw.take hf

theorem freeArgs_spec (h : Good K v) (hs : v.stale = none) (hfs : fs.Nodup)
    (hloose : ∀ f, f ∈ fs → v.cell f = some .loose) :
    Wp K alone E (freeArgs fs) (fun _ w => Good K w ∧ w.stale = none ∧ w.proc = v.proc ∧
      (∀ f, f ∈ fs → w.cell f = none) ∧ ∀ f, f ∉ fs → w.cell f = v.cell f) v := by
  induction fs generalizing v with
  | nil => exact ⟨h, hs, rfl, fun _ hf => absurd hf List.not_mem_nil, fun _ _ => rfl⟩
  | cons f fs ih =>
    obtain ⟨hnew, hfs⟩ := List.nodup_cons.mp hfs
    have hfree : Frees v f _ := .plain (.inl (hloose f List.mem_cons_self))
    have hne : ∀ {g}, g ∈ fs → g ≠ f := fun hmem heq => hnew (heq ▸ hmem)
    rw [freeArgs]
    refine wp_bind.mpr (wp_kfree hs hfree ?_)
    refine (ih ((h.frees hs hfree).setLeft _) hs hfs fun g hg => ?_).mono fun _ w hw => ?_
    · simpa [hne hg] using hloose g (List.mem_cons_of_mem _ hg)
    · obtain ⟨hgood, hst, hproc, hnone, hrest⟩ := hw
      refine ⟨hgood, hst, hproc, fun g hg => ?_, fun g hg => ?_⟩
      · rcases List.mem_cons.mp hg with rfl | hmem
        · rw [hrest g hnew]
          simp
        · exact hnone g hmem
      · obtain ⟨hgf, hmem⟩ := not_or.mp (fun h => hg (List.mem_cons.mpr h))
        rw [hrest g hmem]
        simp [hgf]

/-- `exec` between the allocation of argument pages and their release. -/
theorem Execed.lent {t : View} (hu : Lent K fs v u) (ht : Execed K alone p P u t) (h : Good K w)
    (hs : w.stale = none) (hproc : w.proc = t.proc) (hnone : ∀ f, f ∈ fs → w.cell f = none)
    (hrest : ∀ f, f ∉ fs → w.cell f = t.cell f) : Execed K alone p P v w := by
  have hsame : ∀ R, t.Same R w := by
    intro R f l b e
    by_cases hf : f ∈ fs
    · rw [hnone f hf, ht.loose f (hu.loose f hf).2]
      exact iff_of_false nofun nofun
    · rw [hrest f hf]
  have hout : ∀ {f}, v.cell f ≠ none → f ∉ fs := fun hf hmem => hf (hu.loose _ hmem).1
  refine ⟨h, hs, fun q hq => ?_, fun f hf => ?_, fun R hR hP => ?_, ?_⟩
  · rw [hproc, ht.proc q hq, hu.proc]
  · have hmem : f ∉ fs := hout (by rw [hf]; nofun)
    rw [hrest f hmem]
    exact ht.loose f (by rw [hu.rest f hmem]; exact hf)
  · have hRu : u.cell R ≠ none := by rwa [hu.rest R (hout hR)]
    exact ((hu.same R).trans (ht.other R hRu hP)).trans (hsame R)
  · rcases ht.own with ⟨hp, hown⟩ | ⟨R, sz, X, hR, hp, hsz, hmap, hX, hall⟩
    · exact .inl ⟨by rw [hproc]; exact hp, fun R hR => ((hu.same R).trans (hown R hR)).trans (hsame R)⟩
    · refine .inr ⟨R, sz, X, ?_, by rw [hproc]; exact hp, hsz, fun n => (hsame R).mapped.trans (hmap n), hX, hall⟩
      by_cases hmem : R ∈ fs
      · exact (hu.loose R hmem).1
      · rw [← hu.rest R hmem]
        exact hR

theorem sysExec_spec (h : Good K v) (hs : v.stale = none) (hp : v.proc p = some P) (hR₀ : P.pagetable = some R₀)
    (hmap : ∀ n, v.mapped R₀ n ↔ upTo (pages P.sz) X n) (hX : ∀ m, X m → Special 0 m)
    (hall : alone = true → ∀ m, Special 0 m → X m) (hE₀ : E "sys_exec kalloc") (hE₁ : E "uvmcreate: out of memory")
    (hE₂ : E "uvmunmap: walk") (hE₃ : alone = false → E "uvmunmap: not mapped")
    (hE₄ : E "loadseg: address should exist") (x : Image) (args : List Arg) :
    Wp K alone E (sysExec K p x args) (fun _ w => Execed K alone p P v w) v := by
  refine (fetchArgs_spec h hs hE₀ args).seq fun r u hu => ?_
  obtain ⟨fs, argv⟩ := r
  have hfree : ∀ {t}, Execed K alone p P u t → Wp K alone E (freeArgs fs) (fun _ w => Execed K alone p P v w) t :=
    fun ht => (freeArgs_spec ht.good ht.stale hu.nodup fun f hf => ht.loose f (hu.loose f hf).2).mono
      fun _ w hw => .lent hu ht hw.1 hw.2.1 hw.2.2.1 hw.2.2.2.1 hw.2.2.2.2
  have hpu : u.proc p = some P := by rw [hu.proc]; exact hp
  cases argv with
  | none => exact wp_bind.mpr (hfree (.refl hu.good hu.stale hpu))
  | some argv =>
    refine (exec_spec hu.good hu.stale hpu hR₀ (fun n => ((hu.same R₀).mapped).trans (hmap n)) hX hall
      hE₁ hE₂ hE₃ hE₄ x argv).seq fun ok t ht => wp_bind.mpr (hfree ht)

end Xv6.Mem
