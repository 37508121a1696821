import Mathlib.Data.Nat.Bitwise
import Xv6.Schemes.Simulation
import Xv6.Kernel.Mem.AddressSpace
import Xv6.Kernel.Mem.Process

/-! The page tables with entries and those with words are the same.

    ```
    Mem     frame f         entry ⟨V, R W X U, ppn⟩         free: f, …
    Sv39    f * PGSIZE      word                            free: f * PGSIZE, …
    ```

    Where a function over entries returns, the one over words returns the same. -/

namespace Xv6.Sv39
open Function
open Mem (PGSIZE PGROUNDDOWN PGROUNDUP MAXVA lastPage Frame Pte Perm Link)
open Procs (Slot)
open Prog (Follows of_run_bind)

/-! ### Words -/

def flags (w : Nat) : Perm := ⟨w.testBit 1, w.testBit 2, w.testBit 3, w.testBit 4⟩

def decode (w : Nat) : Pte := ⟨w.testBit 0, flags w, PTE2PA w / PGSIZE⟩

variable {w perm va a n fuel f pt : Nat} {i : Fin 512} {e : Pte} {K : Link} {π : Slot → Mem.Proc}

theorem testBit_iff (w i : Nat) : w.testBit i = true ↔ w &&& 1 <<< i ≠ 0 := by
  rw [Nat.one_shiftLeft, Nat.and_two_pow]
  cases w.testBit i <;> simp

theorem valid_iff (w : Nat) : (decode w).v = true ↔ w &&& PTE_V ≠ 0 := testBit_iff w 0

/-- An entry with a flag of `Perm` has not only `PTE_V`. -/
theorem flags_ne (h : ¬ (!((decode w).isLeaf || (decode w).perm.u)) = true) : PTE_FLAGS w ≠ PTE_V := by
  intro hV
  have hmod : w % 1024 = 1 := (Nat.and_two_pow_sub_one_eq_mod w 10).symm.trans hV
  simp only [decode, flags, Pte.isLeaf, Nat.testBit_eq_decide_div_mod_eq] at h
  simp at h
  omega

theorem PTE2PA_eq (w : Nat) : PTE2PA w = (decode w).ppn * PGSIZE := by
  show PTE2PA w = PTE2PA w / 4096 * 4096
  rw [PTE2PA, Nat.shiftLeft_eq]
  omega

theorem decode_word (hf : f < 2 ^ 52) (hperm : perm < 2 ^ 10) :
    decode (PA2PTE (f * PGSIZE) ||| perm ||| PTE_V) = .leaf f (flags perm) := by
  have hlow : ∀ i < 10, (PA2PTE (f * PGSIZE)).testBit i = false := fun i hi => by
    rw [PA2PTE, Nat.testBit_mod_two_pow, Nat.testBit_shiftLeft, decide_eq_false (Nat.not_le.mpr hi), Bool.false_and,
      Bool.and_false]
  have hpa : f * PGSIZE < 2 ^ 64 := Nat.mul_lt_mul_of_pos_right hf (by decide)
  have hppn : PTE2PA (PA2PTE (f * PGSIZE) ||| perm ||| PTE_V) / PGSIZE = f := by
    rw [Nat.or_assoc, PTE2PA_word hpa (Nat.mul_mod_left _ _) (or_V_lt hperm), Nat.mul_div_cancel _ (by decide)]
  rw [decode, hppn]
  simp [flags, hlow, Pte.leaf, PTE_V, Nat.testBit_one_eq_true_iff_self_eq_zero]

theorem PX_eq (level va : Nat) : PX level va = Mem.px level va := Fin.ext (PX_val level va)

/-! ### Operations -/

/-- The frames and entries of `t` are those of `s`, and the processes are `π`. -/
structure Shows (π : Slot → Mem.Proc) (s : State) (t : Mem.State) : Prop where
  free : s.free = t.free.map (· * PGSIZE)
  ram : ∀ f ∈ t.free, f < Mem.PHYSTOP
  entry : ∀ f i, decode (s.mem (f * PGSIZE) i) = t.pte f i
  proc : t.proc = π

theorem Shows.set {s : State} {t : Mem.State} {c : Fin 512 → Nat} {d : Fin 512 → Pte} (h : Shows π s t)
    (hc : ∀ i, decode (c i) = d i) : Shows π { s with mem := update s.mem (f * PGSIZE) c } (t.setPte f d) := by
  refine ⟨h.free, h.ram, fun g i => ?_, h.proc⟩
  by_cases hg : g = f
  · subst hg
    simp [hc]
  · have hne : g * PGSIZE ≠ f * PGSIZE := fun heq => hg (Nat.eq_of_mul_eq_mul_right (by decide) heq)
    simp [hg, hne, h.entry]

/-- Where `x` returns, `y` returns. -/
abbrev Does {α β : Type} (K : Link) (π : Slot → Mem.Proc) (x : Mem.Kernel α) (y : M β) (Q : α → β → Prop) : Prop :=
  Follows (Mem.Op.run K) (Shows π) x y Q

theorem does_load : Does K π (Mem.load f i) (load (f * PGSIZE) i) fun e w => decode w = e :=
  .call fun t s _ _ h hrun => by
    cases hrun
    exact ⟨_, _, rfl, h, h.entry f i⟩

theorem does_store (he : decode w = e) : Does K π (Mem.store f i e) (store (f * PGSIZE) i w) fun _ _ => True :=
  .call fun t s _ _ h hrun => by
    cases hrun
    refine ⟨(), _, rfl, h.set fun j => ?_, trivial⟩
    by_cases hj : j = i
    · subst hj
      simp [he]
    · simp [hj, h.entry]

theorem does_clear : Does K π (Mem.clear f) (memset (f * PGSIZE) 0) fun _ _ => True :=
  .call fun t s _ _ h hrun => by
    cases hrun
    exact ⟨(), _, rfl, h.set fun _ => rfl, trivial⟩

theorem does_kalloc : Does K π Mem.kalloc kalloc fun r r' => r' = r.map (· * PGSIZE) ∧ ∀ f ∈ r, f < Mem.PHYSTOP :=
  .call fun ⟨frames, pte, proc⟩ ⟨free, mem⟩ a t' h hrun => by
    obtain rfl : free = frames.map (· * PGSIZE) := h.free
    cases frames with
    | nil =>
      cases hrun
      exact ⟨none, _, rfl, h, rfl, nofun⟩
    | cons f rest =>
      cases hrun
      have hrest : Shows π ⟨rest.map (· * PGSIZE), mem⟩ ⟨rest, pte, proc⟩ := ⟨rfl, (List.forall_mem_cons.mp h.ram).2, h.entry, h.proc⟩
      exact ⟨some (f * PGSIZE), _, rfl, hrest.set fun _ => rfl, rfl, fun g hg => by cases hg; exact h.ram f List.mem_cons_self⟩

theorem does_kfree : Does K π (Mem.kfree f) (kfree (K.kend * PGSIZE) (f * PGSIZE)) fun _ _ => True :=
  .call fun t s a t' h hrun => by
    rw [Mem.Op.run] at hrun
    split at hrun
    · cases hrun
    · rename_i hf
      cases hrun
      obtain ⟨hlo, hhi⟩ : ¬ f < (K.kend : Nat) ∧ ¬ (0x88000 : Nat) ≤ f := not_or.mp hf
      have hram : RamPage (K.kend * PGSIZE) (f * PGSIZE) := by
        unfold RamPage PHYSTOP PGSIZE
        omega
      have hmore : Shows π { s with free := f * PGSIZE :: s.free } { t with free := f :: t.free } :=
        ⟨by simp [h.free], List.forall_mem_cons.mpr ⟨Nat.not_le.mp hhi, h.ram⟩, h.entry, h.proc⟩
      exact ⟨(), _, kfree_run hram s, hmore.set fun _ => rfl, trivial⟩

/-! ### Page tables -/

theorem does_walkFrom {alloc : Bool} (level : Nat) :
    Does K π (Mem.walkFrom va alloc level pt) (walkFrom va alloc level (pt * PGSIZE))
      fun r r' => r' = r.map fun x => (x.1 * PGSIZE, x.2) := by
  induction level generalizing pt with
  | zero => exact .pure (by rw [PX_eq]; rfl)
  | succ level ih =>
    unfold Mem.walkFrom walkFrom
    rw [PX_eq]
    refine does_load.bind fun e w he => ?_
    subst he
    refine .ite (valid_iff w) (fun _ => by rw [PTE2PA_eq]; exact ih) fun _ => ?_
    cases alloc with
    | false => exact .pure rfl
    | true =>
      refine does_kalloc.bind fun r r' hr => ?_
      obtain ⟨rfl, hram⟩ := hr
      cases r with
      | none => exact .pure rfl
      | some f =>
        have hlink : decode (PA2PTE (f * PGSIZE) ||| PTE_V) = .ptr f := by
          rw [← Nat.or_zero (PA2PTE _), decode_word ((hram f rfl).trans (by decide)) (by decide)]
          rfl
        exact does_clear.bind fun _ _ _ => (does_store hlink).bind fun _ _ _ => ih

theorem does_walk {alloc : Bool} : Does K π (Mem.walk pt va alloc) (walk (pt * PGSIZE) va alloc)
    fun r r' => r' = r.map (fun x => (x.1 * PGSIZE, x.2)) ∧ va < MAXVA :=
  .ite Iff.rfl (fun _ => .panic) fun hva => (does_walkFrom 2).mono fun _ _ hr => ⟨hr, Nat.not_le.mp hva⟩

theorem does_walkaddr : Does K π (Mem.walkaddr pt va) (walkaddr (pt * PGSIZE) va) fun f pa => pa = f * PGSIZE := by
  have hzero : (0 : Nat) = 0 * PGSIZE := (Nat.zero_mul _).symm
  refine .ite Iff.rfl (fun _ => .pure hzero) fun _ => does_walk.bind fun r r' hr => ?_
  obtain ⟨rfl, -⟩ := hr
  cases r with
  | none => exact .pure hzero
  | some x =>
    refine does_load.bind fun e w he => ?_
    subst he
    have hu : (decode w).perm.u = true ↔ w &&& PTE_U ≠ 0 := testBit_iff w 4
    simp only [Bool.and_eq_true, valid_iff, hu]
    by_cases hv : w &&& PTE_V = 0
    · rw [if_pos hv, if_neg fun h => h.1 hv]
      exact .pure hzero
    · rw [if_neg hv, ← ite_not]
      exact .ite (by simp [hv]) (fun _ => .pure hzero) fun _ => .pure (PTE2PA_eq w)

/-- A page is mapped. -/
theorem does_mapPage (hf : f < Mem.PHYSTOP) (hperm : perm < 2 ^ 10) :
    Does K π (Mem.mapPage pt a f (flags perm)) (mapPage (pt * PGSIZE) a (f * PGSIZE) perm) fun r r' => r' = r ∧ a < MAXVA := by
  refine does_walk.bind fun r r' hr => ?_
  obtain ⟨rfl, ha⟩ := hr
  cases r with
  | none => exact .pure ⟨rfl, ha⟩
  | some x =>
    refine does_load.bind fun e w he => ?_
    subst he
    exact .ite (valid_iff w) (fun _ => .panic) fun _ =>
      (does_store (decode_word (hf.trans (by decide)) hperm)).bind fun _ _ _ => .pure ⟨rfl, ha⟩

theorem does_unmapPage {doFree : Bool} :
    Does K π (Mem.unmapPage pt doFree a) (unmapPage (K.kend * PGSIZE) (pt * PGSIZE) a doFree) fun _ _ => a < MAXVA := by
  refine does_walk.bind fun r r' hr => ?_
  obtain ⟨rfl, ha⟩ := hr
  cases r with
  | none => exact .panic
  | some x =>
    refine does_load.bind fun e w he => ?_
    subst he
    refine .ite (by rw [Bool.not_eq_true', ← Bool.not_eq_true, valid_iff, not_not]) (fun _ => .panic) fun _ => ?_
    by_cases hleaf : (!((decode w).isLeaf || (decode w).perm.u)) = true
    · rw [if_pos hleaf]
      exact .panic
    · rw [if_neg hleaf, if_neg (flags_ne hleaf), PTE2PA_eq]
      have hstore : Does K π (Mem.store x.1 x.2 .zero) (store (x.1 * PGSIZE) x.2 0) fun _ _ => a < MAXVA :=
        (does_store (show decode 0 = .zero from rfl)).mono fun _ _ _ => ha
      cases doFree with
      | true => exact does_kfree.bind fun _ _ _ => hstore
      | false => exact hstore

theorem Enough.next (h : Enough (fuel + 1) a) (hal : a % PGSIZE = 0) (ha : a < MAXVA) :
    Enough fuel (a + PGSIZE) ∧ (a + PGSIZE) % 2 ^ 64 = a + PGSIZE := by
  have hstep := h.step ha
  rw [hal, PGROUNDDOWN, Nat.div_mul_cancel (Nat.dvd_of_mod_eq_zero hal)] at hstep
  exact hstep

theorem does_unmapLoop {doFree : Bool} (n : Nat) (hal : a % PGSIZE = 0) (hfuel : Enough fuel a) :
    Does K π (Mem.unmapFrom pt doFree n a) (unmapLoop (K.kend * PGSIZE) (pt * PGSIZE) (a + n * PGSIZE) doFree fuel a)
      fun _ _ => True := by
  induction n generalizing fuel a with
  | zero =>
    obtain ⟨fuel, rfl⟩ : ∃ k, fuel = k + 1 := ⟨fuel - 1, (Nat.sub_add_cancel hfuel.1).symm⟩
    rw [unmapLoop, Nat.zero_mul, Nat.add_zero]
    simp only [if_true, bind_pure_unit]
    exact does_unmapPage.mono fun _ _ _ => trivial
  | succ n ih =>
    obtain ⟨fuel, rfl⟩ : ∃ k, fuel = k + 1 := ⟨fuel - 1, (Nat.sub_add_cancel hfuel.1).symm⟩
    refine does_unmapPage.bind fun _ _ ha => ?_
    obtain ⟨hleft, hnext⟩ := hfuel.next hal ha
    have hlast : a + (n + 1) * PGSIZE = a + PGSIZE + n * PGSIZE := by ring
    have hne : a ≠ a + PGSIZE + n * PGSIZE := by
      unfold PGSIZE
      omega
    rw [hlast, if_neg hne, hnext]
    exact ih ((Nat.add_mod_right a PGSIZE).trans hal) hleft

/-- A range that does not wrap. -/
theorem does_uvmunmap {size : Nat} {doFree : Bool} (hrange : PGROUNDDOWN va ≤ lastPage va size) :
    Does K π (Mem.uvmunmap pt va size doFree) (uvmunmap (K.kend * PGSIZE) (pt * PGSIZE) va size doFree) fun _ _ => True := by
  have hpages : PGROUNDDOWN va + (lastPage va size - PGROUNDDOWN va) / PGSIZE * PGSIZE = lastPage va size := by
    unfold lastPage PGROUNDDOWN PGSIZE at *
    omega
  rw [uvmunmap, ← hpages]
  exact does_unmapLoop _ (PGROUNDDOWN_mod va) (enough_rounds _)

/-! ### Address spaces -/

variable {oldsz newsz : Nat}

theorem does_uvmdealloc (hold : oldsz < 2 ^ 64) :
    Does K π (Mem.uvmdealloc pt oldsz newsz) (uvmdealloc (K.kend * PGSIZE) (pt * PGSIZE) oldsz newsz) fun r r' => r' = r := by
  refine .ite Iff.rfl (fun _ => .pure rfl) fun _ => ?_
  by_cases hup : PGROUNDUP newsz < PGROUNDUP oldsz
  · have hsize : (oldsz + 2 ^ 64 - PGROUNDUP newsz) % 2 ^ 64 = oldsz - PGROUNDUP newsz := by
      unfold PGROUNDUP PGSIZE at *
      omega
    simp only [if_pos hup, hsize]
    refine (does_uvmunmap ?_).bind fun _ _ _ => .pure rfl
    unfold lastPage PGROUNDDOWN PGROUNDUP PGSIZE at *
    omega
  · simp only [if_neg hup]
    exact .pure rfl

theorem mem_mappages_page {perm : Perm} (hal : a % PGSIZE = 0) (ha : a < 2 ^ 63) :
    Mem.mappages pt a PGSIZE f perm = Mem.mapPage pt a f perm := by
  have hlast : lastPage a PGSIZE = a ∧ PGROUNDDOWN a = a := by
    unfold lastPage PGROUNDDOWN PGSIZE at *
    omega
  rw [Mem.mappages, hlast.1, hlast.2, Nat.sub_self]
  rfl

theorem does_uvmallocLoop (n : Nat) (hn : Mem.pagesTo a newsz = n) (hal : a % PGSIZE = 0) (ha : a ≤ MAXVA)
    (hfuel : Enough fuel a) : Does K π (Mem.allocFrom pt oldsz newsz n a)
      (uvmallocLoop (K.kend * PGSIZE) (pt * PGSIZE) oldsz newsz fuel a) fun r r' => r' = r := by
  induction n generalizing fuel a with
  | zero =>
    obtain ⟨fuel, rfl⟩ : ∃ k, fuel = k + 1 := ⟨fuel - 1, (Nat.sub_add_cancel hfuel.1).symm⟩
    have hle : newsz ≤ a := by
      unfold Mem.pagesTo PGSIZE at hn
      omega
    rw [uvmallocLoop, if_pos hle]
    exact .pure rfl
  | succ n ih =>
    obtain ⟨fuel, rfl⟩ : ∃ k, fuel = k + 1 := ⟨fuel - 1, (Nat.sub_add_cancel hfuel.1).symm⟩
    obtain ⟨hlt, hn⟩ : ¬ newsz ≤ a ∧ Mem.pagesTo (a + PGSIZE) newsz = n := by
      unfold Mem.pagesTo PGSIZE at *
      omega
    have hback : Does K π (Mem.uvmdealloc pt a oldsz >>= fun _ => pure 0)
        (uvmdealloc (K.kend * PGSIZE) (pt * PGSIZE) a oldsz >>= fun _ => pure 0) fun r r' => r' = r :=
      (does_uvmdealloc (Nat.lt_of_le_of_lt ha (by decide))).bind fun _ _ _ => .pure rfl
    rw [uvmallocLoop, if_neg hlt, mapNew, bind_assoc]
    refine does_kalloc.bind fun r r' hr => ?_
    obtain ⟨rfl, hram⟩ := hr
    cases r with
    | none => exact hback
    | some f =>
      rw [Option.map_some, bind_assoc]
      refine does_clear.bind fun _ _ _ => ?_
      rw [mem_mappages_page hal (Nat.lt_of_le_of_lt ha (by decide))]
      rcases Nat.lt_or_ge a MAXVA with hva | hva
      · rw [mappages_page hal hva, bind_assoc, bind_assoc]
        refine (does_mapPage (hram f rfl) (show userPerm < 2 ^ 10 by decide)).bind fun r r' hr => ?_
        obtain ⟨rfl, -⟩ := hr
        cases r' with
        | false =>
          rw [if_neg Bool.false_ne_true, if_neg Bool.false_ne_true, pure_bind, if_pos (by decide), bind_assoc]
          exact does_kfree.bind fun _ _ _ => hback
        | true =>
          obtain ⟨hleft, hnext⟩ := hfuel.next hal hva
          show Does K π _ (uvmallocLoop _ _ _ _ fuel ((a + PGSIZE) % 2 ^ 64)) _
          rw [hnext]
          exact ih hn ((Nat.add_mod_right a PGSIZE).trans hal) (page_le_MAXVA hal hva) hleft
      · rw [Mem.mapPage, Mem.walk, if_pos hva]
        exact .panic

theorem does_uvmalloc (hold : oldsz ≤ MAXVA) :
    Does K π (Mem.uvmalloc pt oldsz newsz) (uvmalloc (K.kend * PGSIZE) (pt * PGSIZE) oldsz newsz) fun r r' => r' = r := by
  have hup : PGROUNDUP oldsz % PGSIZE = 0 ∧ PGROUNDUP oldsz ≤ MAXVA := by
    unfold PGROUNDUP MAXVA PGSIZE at *
    omega
  exact .ite Iff.rfl (fun _ => .pure rfl) fun _ => does_uvmallocLoop _ rfl hup.1 hup.2 (enough_rounds _)

section Growproc

variable {s : State} {t t' : Mem.State} {q : Slot} {p : Proc} {k : Int} {r : Bool} (h : Shows π s t)

include h

theorem shows_setSz {sz : Nat} (hrun : (Mem.setProc q (fun P => { P with sz := sz }) >>= fun _ => pure true).run (Mem.Op.run K) t =
    .ok (r, t')) : r = true ∧ (t'.proc q).sz = sz ∧ Shows t'.proc s t' := by
  cases hrun
  exact ⟨rfl, by simp, h.free, h.ram, h.entry, rfl⟩

/-- `growproc` of the process `q`. -/
theorem growproc_refines (hpt : (π q).pagetable = some pt) (hp : p.pagetable = pt * PGSIZE ∧ p.sz = (π q).sz)
    (hrun : (Mem.growproc q k).run (Mem.Op.run K) t = .ok (r, t')) :
    ∃ s', growproc (K.kend * PGSIZE) p k s = .ok ((if r then 0 else -1, { p with sz := (t'.proc q).sz }), s') ∧
      Shows t'.proc s' t' := by
  have hlt : p.sz % 2 ^ 32 < 2 ^ 32 := Nat.mod_lt _ (by decide)
  obtain ⟨P, t₁, hget, hrun⟩ := of_run_bind hrun
  cases hget
  simp only [h.proc, hpt, Option.getD_some, ← hp.2] at hrun
  rw [growproc, hp.1]
  split at hrun
  · rename_i hk
    obtain ⟨sz, u, hal, hrun⟩ := of_run_bind hrun
    obtain ⟨_, s', hs', hu, rfl⟩ := does_uvmalloc (hlt.le.trans (by decide)) _ _ _ _ h hal
    rw [if_pos hk, Hoare.bind_ok hs']
    split at hrun
    · rename_i hz
      cases hrun
      refine ⟨s', ?_, hu.proc ▸ hu⟩
      rw [hu.proc, ← hp.2, ← hp.1, if_pos hz]
      rfl
    · rename_i hz
      obtain ⟨rfl, hsz, hshow⟩ := shows_setSz hu hrun
      exact ⟨s', by rw [hsz, if_neg hz]; rfl, hshow⟩
  · rename_i hk
    rw [if_neg hk]
    split at hrun
    · rename_i hneg
      obtain ⟨sz, u, hde, hrun⟩ := of_run_bind hrun
      obtain ⟨_, s', hs', hu, rfl⟩ := does_uvmdealloc (hlt.trans (by decide)) _ _ _ _ h hde
      obtain ⟨rfl, hsz, hshow⟩ := shows_setSz hu hrun
      exact ⟨s', by rw [if_pos hneg, Hoare.bind_ok hs', hsz]; rfl, hshow⟩
    · rename_i hneg
      obtain ⟨rfl, hsz, hshow⟩ := shows_setSz h hrun
      exact ⟨s, by rw [if_neg hneg, hsz]; rfl, hshow⟩

end Growproc

end Xv6.Sv39
