import Xv6.Schemes.Radix
import Xv6.Kernel.Mem.Sv39

/-! Page tables are maps from virtual to physical pages.

    ```
    map       T ──────────────────────▶ T with the pages of the range
              ▲                          ▲
          translate                  translate
              │                          │
    memory    s ───────mappages────────▶ t
    ```

    A page table is a radix tree of depth 3 in memory; an address below `MAXVA` is the path of its three
    indices. -/

namespace Xv6.Sv39
open Hoare Radix Function
open Mem (PGSIZE PGROUNDDOWN MAXVA lastPage)

/-! ### Words -/

section Words

variable {pa perm va vb : Nat}

theorem PX_val (level va : Nat) : (PX level va).val = va / 2 ^ (12 + 9 * level) % 512 := by
  show (va >>> (12 + 9 * level)) &&& 0x1FF = _
  rw [Nat.shiftRight_eq_div_pow]
  exact Nat.and_two_pow_sub_one_eq_mod _ 9

/-- The three indices determine the page. -/
theorem PX_inj (ha : va < MAXVA) (hb : vb < MAXVA) (h₂ : PX 2 va = PX 2 vb) (h₁ : PX 1 va = PX 1 vb)
    (h₀ : PX 0 va = PX 0 vb) : va / PGSIZE = vb / PGSIZE := by
  have h₂ := congrArg Fin.val h₂
  have h₁ := congrArg Fin.val h₁
  have h₀ := congrArg Fin.val h₀
  simp only [PX_val] at h₀ h₁ h₂
  norm_num at h₀ h₁ h₂
  unfold MAXVA PGSIZE at *
  omega

theorem PX_congr (h : va / PGSIZE = vb / PGSIZE) (level : Nat) : PX level va = PX level vb := by
  have hpow : (2 : Nat) ^ (12 + 9 * level) = PGSIZE * 2 ^ (9 * level) := Nat.pow_add 2 12 _
  rw [Fin.ext_iff, PX_val, PX_val, hpow, ← Nat.div_div_eq_div_mul, ← Nat.div_div_eq_div_mul, h]

/-- The word of an entry. -/
theorem word_eq (hpa : pa < 2 ^ 64) (hperm : perm < 2 ^ 10) :
    PA2PTE pa ||| perm = pa / 4096 * 1024 + perm := by
  have hshift : PA2PTE pa = (pa / 4096) <<< 10 := by
    have heq : (pa >>> 12) <<< 10 = pa / 4096 * 1024 := by
      rw [Nat.shiftLeft_eq, Nat.shiftRight_eq_div_pow]
    rw [PA2PTE, heq, Nat.mod_eq_of_lt (by omega), Nat.shiftLeft_eq]
  rw [hshift, ← Nat.shiftLeft_add_eq_or_of_lt hperm, Nat.shiftLeft_eq]

theorem or_V_lt (hperm : perm < 2 ^ 10) : perm ||| PTE_V < 2 ^ 10 := Nat.or_lt_two_pow hperm (by decide)

theorem PTE2PA_word (hpa : pa < 2 ^ 64) (hal : pa % PGSIZE = 0) (hperm : perm < 2 ^ 10) :
    PTE2PA (PA2PTE pa ||| perm) = pa := by
  unfold PGSIZE at hal
  rw [word_eq hpa hperm, PTE2PA, Nat.shiftLeft_eq, Nat.shiftRight_eq_div_pow]
  omega

theorem PTE_FLAGS_word (hpa : pa < 2 ^ 64) (hperm : perm < 2 ^ 10) : PTE_FLAGS (PA2PTE pa ||| perm) = perm := by
  rw [word_eq hpa hperm, PTE_FLAGS, show (0x3FF : Nat) = 2 ^ 10 - 1 from rfl, Nat.and_two_pow_sub_one_eq_mod]
  omega

theorem valid_word (pa perm : Nat) : (PA2PTE pa ||| perm ||| PTE_V) &&& PTE_V ≠ 0 := by
  rw [Nat.and_or_distrib_right]
  intro h
  rw [Nat.or_eq_zero_iff] at h
  exact absurd h.2 (by decide)

end Words

/-! ### The map -/

/-- The page-table page that an entry points to. -/
def next (pte : Nat) : Option Nat := if pte &&& PTE_V ≠ 0 then some (PTE2PA pte) else none

/-- What an entry of the lowest level maps to: the physical page, and the flags. -/
def leaf (pte : Nat) : Option (Nat × Nat) :=
  if pte &&& PTE_V ≠ 0 then some (PTE2PA pte, PTE_FLAGS pte) else none

/-- The indices of the levels from `level` down to 1. -/
def down (va : Nat) : Nat → List (Fin 512)
  | 0 => []
  | level + 1 => PX (level + 1) va :: down va level

/-- All indices of an address. -/
def path (va : Nat) : List (Fin 512) := down va 2 ++ [PX 0 va]

/-- The page-table page at the end of a path. -/
def table (s : State) (pt : Nat) (q : List (Fin 512)) : Option Nat := node next s.mem pt q

/-- The map of a page table. -/
def translate (s : State) (pt va : Nat) : Option (Nat × Nat) :=
  (entry next s.mem pt (down va 2) (PX 0 va)).bind leaf

/-- The page-table pages are distinct. -/
def WellFormed (s : State) (pt : Nat) : Prop := Separate next s.mem pt 2

/-- The free pages are pages of memory, distinct, and no page-table pages. -/
structure Allocator (s : State) (pt : Nat) : Prop where
  page : ∀ f ∈ s.free, f % PGSIZE = 0 ∧ f < 2 ^ 56
  nodup : s.free.Nodup
  outside : ∀ f ∈ s.free, Outside next s.mem pt 2 f

/-- From `s` to `t` the table has grown for the addresses in `S`: pages from the free list have been
    added, filled with zeros, and only entries on the paths of these addresses have been written. -/
structure Grown (pt : Nat) (S : Nat → Prop) (s t : State) : Prop where
  kept : ∀ q a, q.length ≤ 2 → table s pt q = some a → table t pt q = some a
  added : ∀ q f, q.length ≤ 2 → table t pt q = some f → table s pt q = none →
    f ∈ s.free ∧ ∀ j, t.mem f j ≠ 0 → ∃ va, S va ∧ q ++ [j] <+: path va
  changed : ∀ f j, f ∉ s.free → t.mem f j ≠ s.mem f j →
    ∃ va q, S va ∧ q.length ≤ 2 ∧ table s pt q = some f ∧ q ++ [j] <+: path va
  free : t.free <:+ s.free

variable {s t u : State} {pt va : Nat} {S : Nat → Prop}

namespace Grown

theorem refl (pt : Nat) (S : Nat → Prop) (s : State) : Grown pt S s s where
  kept _ _ _ h := h
  added _ _ _ h h' := by
    rw [h] at h'
    cases h'
  changed _ _ _ h := absurd rfl h
  free := List.suffix_refl _

theorem trans (h : Grown pt S s t) (h' : Grown pt S t u) (ht : WellFormed t pt) (hta : Allocator t pt) :
    Grown pt S s u where
  kept q a hq ha := h'.kept q a hq (h.kept q a hq ha)
  added q f hq hf hs := by
    cases hn : table t pt q with
    | none =>
      obtain ⟨hfree, hmem⟩ := h'.added q f hq hf hn
      exact ⟨h.free.subset hfree, hmem⟩
    | some g =>
      obtain rfl : g = f := Option.some.inj ((h'.kept q g hq hn).symm.trans hf)
      obtain ⟨hfree, hmem⟩ := h.added q g hq hn hs
      refine ⟨hfree, fun j hj => ?_⟩
      by_cases heq : u.mem g j = t.mem g j
      · exact hmem j (heq ▸ hj)
      · obtain ⟨va, q', hva, hq', hg, hpre⟩ := h'.changed g j (fun hin => hta.outside g hin q hq hn) heq
        exact ⟨va, hva, by rwa [ht q q' g hq hq' hn hg]⟩
  changed f j hf hne := by
    by_cases heq : t.mem f j = s.mem f j
    · obtain ⟨va, q, hva, hq, hfq, hpre⟩ := h'.changed f j (fun hin => hf (h.free.subset hin)) (heq ▸ hne)
      cases hs : table s pt q with
      | none => exact absurd (h.added q f hq hfq hs).1 hf
      | some g =>
        obtain rfl : g = f := Option.some.inj ((h.kept q g hq hs).symm.trans hfq)
        exact ⟨va, q, hva, hq, hs, hpre⟩
    · exact h.changed f j hf heq
  free := h'.free.trans h.free

end Grown

/-! ### A new page-table page -/

theorem next_zero : next 0 = none := by decide

theorem leaf_zero : leaf 0 = none := by decide

/-- The first free page becomes the page-table page at entry `i` of `a`. -/
def State.link (s : State) (a : Nat) (i : Fin 512) (f : Nat) (rest : List Nat) : State :=
  ⟨rest, Radix.link s.mem a i (PA2PTE f ||| PTE_V) f 0⟩

section Link

variable {a f : Nat} {i : Fin 512} {rest : List Nat} {p : List (Fin 512)} (h : WellFormed s pt) (hA : Allocator s pt)
  (hfree : s.free = f :: rest) (ha : table s pt p = some a) (hp : p.length < 2) (hnone : next (s.mem a i) = none)

include hA hfree in
theorem next_link : next (PA2PTE f ||| PTE_V) = some f := by
  obtain ⟨hal, hlt⟩ := hA.page f (by rw [hfree]; exact List.mem_cons_self)
  have hvalid : (PA2PTE f ||| PTE_V) &&& PTE_V ≠ 0 := by
    have := valid_word f 0
    rwa [Nat.or_zero] at this
  rw [next, if_pos hvalid, PTE2PA_word (by omega) hal (by decide)]

include hA hfree in
theorem outside_link : Outside next s.mem pt 2 f := hA.outside f (by rw [hfree]; exact List.mem_cons_self)

include h hA hfree ha hp hnone

theorem table_link {q : List (Fin 512)} (hq : q.length ≤ 2) :
    table (s.link a i f rest) pt q = if q = p ++ [i] then some f else table s pt q :=
  node_link h ha hp (outside_link hA hfree) hnone next_zero (next_link hA hfree) hq

theorem wellFormed_link : WellFormed (s.link a i f rest) pt :=
  Separate.link h ha hp (outside_link hA hfree) hnone next_zero (next_link hA hfree)

theorem allocator_link : Allocator (s.link a i f rest) pt := by
  have hnodup := hA.nodup
  rw [hfree, List.nodup_cons] at hnodup
  have hsub : ∀ g ∈ rest, g ∈ s.free := fun g hg => by
    rw [hfree]
    exact List.mem_cons_of_mem _ hg
  refine ⟨fun g hg => hA.page g (hsub g hg), hnodup.2, fun g hg q hq => ?_⟩
  have heq := table_link h hA hfree ha hp hnone hq
  unfold table at heq
  rw [heq]
  split
  · intro hfg
    exact hnodup.1 (Option.some.inj hfg ▸ hg)
  · exact hA.outside g (hsub g hg) q hq

/-- Nothing is mapped in a page of zeros. -/
theorem translate_link (va : Nat) : translate (s.link a i f rest) pt va = translate s pt va := by
  have hentry := entry_link (j := PX 0 va) h ha hp (outside_link hA hfree) hnone next_zero (next_link hA hfree)
    (show (down va 2).length = 2 from rfl)
  unfold translate
  show (entry next (Radix.link s.mem a i (PA2PTE f ||| PTE_V) f 0) pt (down va 2) (PX 0 va)).bind leaf = _
  rw [hentry]
  split
  · rename_i heq
    have hold : node next s.mem pt (p ++ [i]) = none := by
      rw [node_concat, show node next s.mem pt p = some a from ha, Option.bind_some, hnone]
    rw [Option.bind_some, leaf_zero, entry, heq, hold]
    rfl
  · rfl

theorem grown_link (hS : S va) (hpre : p ++ [i] <+: path va) : Grown pt S s (s.link a i f rest) := by
  have hfa : f ≠ a := fun heq => outside_link hA hfree p hp.le (heq ▸ ha)
  have hin : f ∈ s.free := by
    rw [hfree]
    exact List.mem_cons_self
  refine ⟨fun q b hq hb => ?_, fun q g hq hg hs => ?_, fun g j hg hne => ?_, ?_⟩
  · rw [table_link h hA hfree ha hp hnone hq, if_neg, hb]
    rintro rfl
    have hold : table s pt (p ++ [i]) = next (s.mem a i) := by
      unfold table at ha ⊢
      rw [node_concat, ha, Option.bind_some]
    rw [hold, hnone] at hb
    cases hb
  · rw [table_link h hA hfree ha hp hnone hq] at hg
    split at hg
    · cases hg
      refine ⟨hin, fun j hj => absurd ?_ hj⟩
      show set _ a i _ f j = 0
      rw [set_of_ne (.inl hfa), update_self]
    · rw [hs] at hg
      cases hg
  · by_cases hgj : g = a ∧ j = i
    · obtain ⟨rfl, rfl⟩ := hgj
      exact ⟨va, p, hS, hp.le, ha, hpre⟩
    · refine absurd ?_ hne
      have hgf : g ≠ f := fun heq => hg (heq ▸ hin)
      show set _ a i _ g j = s.mem g j
      rw [set_of_ne (not_and_or.mp hgj), update_of_ne hgf]
  · rw [hfree]
    exact List.suffix_cons _ _

end Link

/-! ### `walk` -/

variable {E : String → Prop}

variable {a : Nat} {i : Fin 512}

@[simp] theorem wp_load {Q : Nat → State → Prop} : wp E (load a i) Q s ↔ Q (s.mem a i) s :=
  Iff.rfl

variable {pte : Nat} {Q : Unit → State → Prop}

@[simp] theorem wp_store :
    wp E (store a i pte) Q s ↔ Q () (s.store a i pte) := Iff.rfl

variable {pa c : Nat}

@[simp] theorem wp_memset : wp E (memset pa c) Q s ↔ Q () (s.memset pa c) :=
  Iff.rfl

/-- The table and the allocator. -/
structure Sound (s : State) (pt : Nat) : Prop where
  table : WellFormed s pt
  alloc : Allocator s pt

/-- The steps of `walk`, `mappages` and their loops: the table grows for addresses in `S`, and its map
    becomes `T`. -/
structure Step (pt : Nat) (S : Nat → Prop) (T : Nat → Option (Nat × Nat)) (s t : State) : Prop where
  sound : Sound t pt
  grown : Grown pt S s t
  map : ∀ va, va < MAXVA → translate t pt va = T va

/-- A page that has left the free list is a page-table page. -/
def Used (pt : Nat) (s t : State) : Prop :=
  ∀ f ∈ s.free, f ∈ t.free ∨ ∃ q : List (Fin 512), q.length ≤ 2 ∧ table t pt q = some f

theorem Used.refl (pt : Nat) (s : State) : Used pt s s := fun _ hf => .inl hf

theorem Used.trans (h : Used pt s t) (h' : Used pt t u)
    (hkept : ∀ q a, q.length ≤ 2 → table t pt q = some a → table u pt q = some a) : Used pt s u := fun f hf => by
  rcases h f hf with hin | ⟨q, hq, hn⟩
  · exact h' f hin
  · exact .inr ⟨q, hq, hkept q f hq hn⟩

variable {p : List (Fin 512)}

/-- `walk` allocates the pages that are missing, or finds that there are none. -/
theorem walkFrom_alloc (hS : S va) (level : Nat) (h : Sound s pt)
    (ha : table s pt p = some a) (hp : p ++ down va level = down va 2) :
    wp E (walkFrom va true level a) (fun r t => Step pt S (translate s pt) s t ∧ Used pt s t ∧
      r.elim (t.free = []) fun x => x.2 = PX 0 va ∧ table t pt (down va 2) = some x.1) s := by
  induction level generalizing s p a with
  | zero =>
    rw [down, List.append_nil] at hp
    exact ⟨⟨h, .refl pt S s, fun _ _ => rfl⟩, .refl pt s, rfl, hp ▸ ha⟩
  | succ level ih =>
    have hlen : p.length < 2 := by
      have := congrArg List.length hp
      simp [down] at this
      omega
    have hnext : p ++ [PX (level + 1) va] ++ down va level = down va 2 := by
      rw [← hp, List.append_assoc]
      rfl
    have hpre : p ++ [PX (level + 1) va] <+: path va :=
      (hnext ▸ List.prefix_append _ _ : p ++ [PX (level + 1) va] <+: down va 2).trans (List.prefix_append _ _)
    unfold walkFrom
    rw [wp_bind, wp_load]
    refine wp_ite (fun hv => ?_) fun hv => ?_
    · refine ih h ?_ hnext
      show node next s.mem pt (p ++ [_]) = _
      rw [node_concat, show node next s.mem pt p = some a from ha, Option.bind_some, next, if_pos hv]
    · have hnone : next (s.mem a (PX (level + 1) va)) = none := if_neg hv
      rw [if_neg (by decide), wp_bind]
      unfold kalloc
      rw [wp_bind, wp_get]
      cases hfree : s.free with
      | nil => exact ⟨⟨h, .refl pt S s, fun _ _ => rfl⟩, .refl pt s, hfree⟩
      | cons f rest =>
        have hlink : ((({ s with free := rest } : State).memset f 5).memset f 0).store a (PX (level + 1) va)
            (PA2PTE f ||| PTE_V) = s.link a (PX (level + 1) va) f rest := by
          unfold State.link Radix.link Radix.set State.store State.memset
          simp only [update_idem, Nat.zero_mul]
        have hsound : Sound (s.link a (PX (level + 1) va) f rest) pt :=
          ⟨wellFormed_link h.table h.alloc hfree ha hlen hnone, allocator_link h.table h.alloc hfree ha hlen hnone⟩
        simp only [wp_bind, wp_modify, wp_memset, wp_pure, wp_store, hlink]
        have hnew : table (s.link a (PX (level + 1) va) f rest) pt (p ++ [PX (level + 1) va]) = some f := by
          rw [table_link h.table h.alloc hfree ha hlen hnone (by simp; omega), if_pos rfl]
        have hused : Used pt s (s.link a (PX (level + 1) va) f rest) := fun g hg => by
          rw [hfree] at hg
          rcases List.mem_cons.mp hg with rfl | hin
          · exact .inr ⟨_, by simp; omega, hnew⟩
          · exact .inl hin
        refine (ih hsound hnew hnext).mono fun r t hrt => ?_
        obtain ⟨ht, hu, hr⟩ := hrt
        refine ⟨⟨ht.sound, ?_, ?_⟩, hused.trans hu ht.grown.kept, hr⟩
        · exact (grown_link h.table h.alloc hfree ha hlen hnone hS hpre).trans ht.grown hsound.table hsound.alloc
        · intro vb hvb
          rw [ht.map vb hvb, translate_link h.table h.alloc hfree ha hlen hnone]

theorem walk_alloc (hS : S va) (hva : va < MAXVA) (h : Sound s pt) :
    wp E (walk pt va true) (fun r t => Step pt S (translate s pt) s t ∧ Used pt s t ∧
      r.elim (t.free = []) fun x => x.2 = PX 0 va ∧ table t pt (down va 2) = some x.1) s := by
  rw [walk, if_neg (Nat.not_le.mpr hva)]
  exact walkFrom_alloc hS 2 (p := []) h rfl rfl

/-- Without allocation, or need for it, `walk` follows the path. -/
theorem walkFrom_eq {alloc : Bool} (level : Nat) (ha : table s pt p = some a)
    (hp : p ++ down va level = down va 2) (h : alloc = false ∨ table s pt (down va 2) ≠ none) :
    walkFrom va alloc level a s = .ok ((table s pt (down va 2)).map fun b => (b, PX 0 va), s) := by
  induction level generalizing p a with
  | zero =>
    rw [down, List.append_nil] at hp
    rw [← hp, ha]
    rfl
  | succ level ih =>
    have hnext : p ++ [PX (level + 1) va] ++ down va level = down va 2 := by
      rw [← hp, List.append_assoc]
      rfl
    have hnode : table s pt (p ++ [PX (level + 1) va]) = next (s.mem a (PX (level + 1) va)) := by
      unfold table at ha ⊢
      rw [node_concat, ha, Option.bind_some]
    show (if s.mem a (PX (level + 1) va) &&& PTE_V ≠ 0 then walkFrom va alloc level (PTE2PA (s.mem a (PX (level + 1) va)))
      else _) s = _
    split
    · rename_i hv
      exact ih (hnode.trans (if_pos hv)) hnext
    · rename_i hv
      have hnone : table s pt (down va 2) = none :=
        node_none_above (hnode.trans (if_neg hv)) (hnext ▸ List.prefix_append _ _)
      rcases h with rfl | h
      · rw [hnone]
        rfl
      · exact absurd hnone h

theorem walk_eq (hva : va < MAXVA) :
    walk pt va false s = .ok ((table s pt (down va 2)).map fun b => (b, PX 0 va), s) := by
  rw [walk, if_neg (Nat.not_le.mpr hva)]
  exact walkFrom_eq 2 (p := []) rfl rfl (.inl rfl)

variable {b : Nat}

theorem translate_eq (hb : table s pt (down va 2) = some b) : translate s pt va = leaf (s.mem b (PX 0 va)) := by
  unfold translate entry
  rw [show node next s.mem pt (down va 2) = some b from hb, Option.map_some, Option.bind_some]

/-- The address that the map gives to user code. -/
def userPage : Option (Nat × Nat) → Nat
  | some (pa, flags) => if flags &&& PTE_U = 0 then 0 else pa
  | none => 0

theorem flags_U (pte : Nat) : PTE_FLAGS pte &&& PTE_U = pte &&& PTE_U := by
  rw [PTE_FLAGS, Nat.and_assoc]
  rfl

/-- `walkaddr` looks up the map. -/
theorem walkaddr_eq (hva : va < MAXVA) : walkaddr pt va s = .ok (userPage (translate s pt va), s) := by
  rw [walkaddr, if_neg (Nat.not_le.mpr hva)]
  show Except.bind (walk pt va false s) _ = _
  rw [walk_eq hva]
  show _ = Except.ok (userPage (((table s pt (down va 2)).map (s.mem · (PX 0 va))).bind leaf), s)
  cases table s pt (down va 2) with
  | none => rfl
  | some b =>
    show (if s.mem b (PX 0 va) &&& PTE_V = 0 then pure 0
      else if s.mem b (PX 0 va) &&& PTE_U = 0 then pure 0 else pure (PTE2PA (s.mem b (PX 0 va))) : M Nat) s =
        .ok (userPage (leaf (s.mem b (PX 0 va))), s)
    by_cases hv : s.mem b (PX 0 va) &&& PTE_V = 0
    · rw [if_pos hv, leaf, if_neg (not_not.mpr hv)]
      rfl
    · rw [if_neg hv, leaf, if_pos hv, userPage, flags_U]
      split <;> rfl

/-! ### `mappages` -/

variable {vb : Nat}

theorem down_inj (h : down va 2 = down vb 2) : PX 2 va = PX 2 vb ∧ PX 1 va = PX 1 vb := by
  simp only [down, List.cons.injEq, and_true] at h
  exact h

/-- An entry of the lowest level is written. -/
theorem translate_store (h : WellFormed s pt) (hb : table s pt (down va 2) = some b) (hva : va < MAXVA)
    (hvb : vb < MAXVA) : translate (s.store b (PX 0 va) pte) pt vb =
      if vb / PGSIZE = va / PGSIZE then leaf pte else translate s pt vb := by
  have hentry := entry_leaf (q := down vb 2) (j := PX 0 vb) (i := PX 0 va) (e := pte) h hb rfl (Nat.le_refl 2)
  unfold translate
  show (entry next (Radix.set s.mem b (PX 0 va) pte) pt (down vb 2) (PX 0 vb)).bind leaf = _
  rw [hentry]
  by_cases hpage : vb / PGSIZE = va / PGSIZE
  · have hsame : down vb 2 = down va 2 ∧ PX 0 vb = PX 0 va :=
      ⟨by simp only [down, PX_congr hpage], PX_congr hpage 0⟩
    rw [if_pos hsame, if_pos hpage, Option.bind_some]
  · rw [if_neg hpage, if_neg]
    rintro ⟨hdown, h0⟩
    obtain ⟨h2, h1⟩ := down_inj hdown
    exact hpage (PX_inj hvb hva h2 h1 h0)

variable {perm : Nat}

theorem leaf_word (hpa : pa < 2 ^ 64) (hal : pa % PGSIZE = 0) (hperm : perm < 2 ^ 10) :
    leaf (PA2PTE pa ||| perm ||| PTE_V) = some (pa, perm ||| PTE_V) := by
  rw [leaf, if_pos (valid_word pa perm), Nat.or_assoc, PTE2PA_word hpa hal (or_V_lt hperm),
    PTE_FLAGS_word hpa (or_V_lt hperm)]

theorem grown_store (h : WellFormed s pt) (hb : table s pt (down va 2) = some b) (hS : S va) :
    Grown pt S s (s.store b (PX 0 va) pte) := by
  have htable : ∀ q : List (Fin 512), q.length ≤ 2 → table (s.store b (PX 0 va) pte) pt q = table s pt q :=
    fun q hq => node_leaf h hb rfl hq
  refine ⟨fun q a hq ha => by rwa [htable q hq], fun q f hq hf hs => ?_, fun f j hf hne => ?_, List.suffix_refl _⟩
  · rw [htable q hq, hs] at hf
    cases hf
  · by_cases hfj : f = b ∧ j = PX 0 va
    · obtain ⟨rfl, rfl⟩ := hfj
      exact ⟨va, down va 2, hS, Nat.le_refl 2, hb, List.prefix_refl _⟩
    · exact absurd (set_of_ne (not_and_or.mp hfj)) hne

theorem sound_store (h : Sound s pt) (hb : table s pt (down va 2) = some b) :
    Sound (s.store b (PX 0 va) pte) pt := by
  refine ⟨Separate.leaf h.table hb rfl, h.alloc.page, h.alloc.nodup, fun f hf q hq => ?_⟩
  have heq : node next (s.store b (PX 0 va) pte).mem pt q = node next s.mem pt q := node_leaf h.table hb rfl hq
  rw [heq]
  exact h.alloc.outside f hf q hq

/-- The map with one page added. -/
def withPage (T : Nat → Option (Nat × Nat)) (a pa perm vb : Nat) : Option (Nat × Nat) :=
  if vb / PGSIZE = a / PGSIZE then some (pa, perm ||| PTE_V) else T vb

theorem mapPage_ok (h : Sound s pt) (hS : S a) (ha : a < MAXVA) (hnew : translate s pt a = none)
    (hpa : pa < 2 ^ 64) (hal : pa % PGSIZE = 0) (hperm : perm < 2 ^ 10) :
    wp E (mapPage pt a pa perm) (fun r t => Used pt s t ∧
      if r then Step pt S (withPage (translate s pt) a pa perm) s t
      else Step pt S (translate s pt) s t ∧ t.free = []) s := by
  refine (walk_alloc hS ha h).seq fun r t ⟨ht, hused, hr⟩ => ?_
  cases r with
  | none => exact ⟨hused, ht, hr⟩
  | some x =>
    obtain ⟨b, i⟩ := x
    obtain ⟨rfl, hb⟩ := hr
    have hfree : ¬ t.mem b (PX 0 a) &&& PTE_V ≠ 0 := by
      intro hv
      have hmap := (ht.map a ha).trans hnew
      rw [translate_eq hb, leaf, if_pos hv] at hmap
      cases hmap
    simp only [wp_bind, wp_load, if_neg hfree, wp_store, wp_pure, if_true]
    have hstore : Grown pt S t (t.store b (PX 0 a) (PA2PTE pa ||| perm ||| PTE_V)) := grown_store ht.sound.table hb hS
    refine ⟨hused.trans (fun _ hf => .inl hf) hstore.kept, sound_store ht.sound hb, ht.grown.trans hstore ht.sound.table ht.sound.alloc,
      fun vb hvb => ?_⟩
    rw [translate_store ht.sound.table hb ha hvb, leaf_word hpa hal hperm, withPage, ht.map vb hvb]

/-- The map with `k` pages added from `a` on. -/
def withRange (T : Nat → Option (Nat × Nat)) (a pa perm k vb : Nat) : Option (Nat × Nat) :=
  if a ≤ vb ∧ vb < a + k * PGSIZE then some (pa + (vb - a) / PGSIZE * PGSIZE, perm ||| PTE_V) else T vb

theorem withRange_zero (T : Nat → Option (Nat × Nat)) (a pa perm vb : Nat) : withRange T a pa perm 0 vb = T vb :=
  if_neg (by omega)

variable {T T' : Nat → Option (Nat × Nat)}

theorem withRange_congr (h : T vb = T' vb) (a pa perm k : Nat) :
    withRange T a pa perm k vb = withRange T' a pa perm k vb := by
  unfold withRange
  rw [h]

theorem withRange_succ (T : Nat → Option (Nat × Nat)) (pa perm k vb : Nat) (hal : a % PGSIZE = 0) :
    withRange (withPage T a pa perm) (a + PGSIZE) (pa + PGSIZE) perm k vb = withRange T a pa perm (k + 1) vb := by
  unfold withRange withPage PGSIZE at *
  by_cases h₁ : a + 4096 ≤ vb ∧ vb < a + 4096 + k * 4096
  · rw [if_pos h₁, if_pos (by omega)]
    have : 4096 + (vb - (a + 4096)) / 4096 * 4096 = (vb - a) / 4096 * 4096 := by omega
    rw [Nat.add_assoc, this]
  · rw [if_neg h₁]
    by_cases h₂ : vb / 4096 = a / 4096
    · rw [if_pos h₂, if_pos (by omega)]
      have : (vb - a) / 4096 * 4096 = 0 := by omega
      rw [this, Nat.add_zero]
    · rw [if_neg h₂, if_neg (by omega)]

theorem Step.trans (h : Step pt S T s t) (h' : Step pt S T' t u) : Step pt S T' s u :=
  ⟨h'.sound, h.grown.trans h'.grown h.sound.table h.sound.alloc, h'.map⟩

theorem Step.congr (h : Step pt S T s t) (hT : ∀ va, va < MAXVA → T va = T' va) :
    Step pt S T' s t :=
  ⟨h.sound, h.grown, fun va hva => (h.map va hva).trans (hT va hva)⟩

variable {fuel : Nat}

theorem mapLoop_ok (hperm : perm < 2 ^ 10) (n : Nat) (hfuel : n < fuel) (h : Sound s pt)
    (hal : a % PGSIZE = 0) (hend : a + n * PGSIZE < MAXVA) (hS : ∀ k, k ≤ n → S (a + k * PGSIZE))
    (hnew : ∀ k, k ≤ n → translate s pt (a + k * PGSIZE) = none) (hpal : pa % PGSIZE = 0)
    (hpa : pa + n * PGSIZE < 2 ^ 64) :
    wp E (mapLoop pt perm (a + n * PGSIZE) fuel a pa) (fun r t =>
      r = 0 ∧ Step pt S (withRange (translate s pt) a pa perm (n + 1)) s t ∨
      r = -1 ∧ t.free = [] ∧ ∃ k, k ≤ n ∧ Step pt S (withRange (translate s pt) a pa perm k) s t) s := by
  have hlt : MAXVA < 2 ^ 64 := by decide
  have hsize : PGSIZE = 4096 := rfl
  induction n generalizing fuel a pa s with
  | zero =>
    obtain ⟨fuel, rfl⟩ : ∃ k, fuel = k + 1 := ⟨fuel - 1, by omega⟩
    rw [Nat.zero_mul, Nat.add_zero] at *
    have hround := mapPage_ok (E := E) h (by simpa using hS 0 le_rfl) hend (by simpa using hnew 0 le_rfl) hpa hpal hperm
    refine hround.seq fun r t ⟨_, ht⟩ => ?_
    cases r with
    | true =>
      rw [if_pos rfl] at ht ⊢
      rw [if_pos rfl]
      refine .inl ⟨rfl, ht.congr fun vb _ => ?_⟩
      rw [← withRange_succ _ pa perm 0 vb hal, withRange_zero]
    | false =>
      rw [if_neg Bool.false_ne_true] at ht ⊢
      exact .inr ⟨rfl, ht.2, 0, le_rfl, ht.1.congr fun vb _ => (withRange_zero _ a pa perm vb).symm⟩
  | succ n ih =>
    obtain ⟨fuel, rfl⟩ : ∃ k, fuel = k + 1 := ⟨fuel - 1, by omega⟩
    have hnext : ∀ k, a + (k + 1) * PGSIZE = a + PGSIZE + k * PGSIZE := fun k => by ring
    have hpnext : pa + (n + 1) * PGSIZE = pa + PGSIZE + n * PGSIZE := by ring
    rw [hnext n] at hend ⊢
    rw [hpnext] at hpa
    unfold mapLoop
    have hround := mapPage_ok (E := E) h (by simpa using hS 0 (by omega)) (by omega)
      (by simpa using hnew 0 (by omega)) (show pa < 2 ^ 64 by omega) hpal hperm
    refine hround.seq fun r t ⟨_, ht⟩ => ?_
    cases r with
    | true =>
      rw [if_pos rfl] at ht ⊢
      have hmap : ∀ k vb, vb < MAXVA → withRange (translate t pt) (a + PGSIZE) (pa + PGSIZE) perm k vb =
          withRange (translate s pt) a pa perm (k + 1) vb := fun k vb hvb => by
        rw [withRange_congr (ht.map vb hvb), withRange_succ _ pa perm k vb hal]
      rw [if_neg (by omega), Nat.mod_eq_of_lt (show a + PGSIZE < 2 ^ 64 by omega),
        Nat.mod_eq_of_lt (show pa + PGSIZE < 2 ^ 64 by omega)]
      refine (ih (by omega) ht.sound (by rwa [Nat.add_mod_right]) (by omega) (fun k hk => ?_) (fun k hk => ?_)
        (by rwa [Nat.add_mod_right]) (by omega)).mono fun r u hu => ?_
      · rw [← hnext k]
        exact hS (k + 1) (by omega)
      · rw [← hnext k]
        have hk' : a + (k + 1) * PGSIZE < MAXVA := by
          have := Nat.mul_le_mul_right PGSIZE hk
          rw [hnext k]
          omega
        rw [ht.map _ hk', withPage, if_neg (by rw [hsize]; omega)]
        exact hnew (k + 1) (by omega)
      · rcases hu with ⟨hr, hu⟩ | ⟨hr, hfree, k, hk, hu⟩
        · exact .inl ⟨hr, ht.trans (hu.congr (hmap (n + 1)))⟩
        · exact .inr ⟨hr, hfree, k + 1, by omega, ht.trans (hu.congr (hmap k))⟩
    | false =>
      rw [if_neg Bool.false_ne_true] at ht ⊢
      exact .inr ⟨rfl, ht.2, 0, by omega, ht.1.congr fun vb _ => (withRange_zero _ a pa perm vb).symm⟩

/-! ### `uvmunmap` -/

/-- A page that does not belong to the table is filled. -/
theorem translate_memset {f : Nat} (hf : Outside next s.mem pt 2 f) (va : Nat) :
    translate (s.memset f c) pt va = translate s pt va := by
  have hnode : node next (s.memset f c).mem pt (down va 2) = node next s.mem pt (down va 2) :=
    node_update hf _ (Nat.le_refl 2)
  unfold translate entry
  rw [hnode]
  cases hb : node next s.mem pt (down va 2) with
  | none => rfl
  | some b =>
    have hne : b ≠ f := fun heq => hf (down va 2) (Nat.le_refl 2) (heq ▸ hb)
    show leaf (update s.mem f _ b (PX 0 va)) = leaf (s.mem b (PX 0 va))
    rw [update_of_ne hne]

/-- From `s` to `t` the page-table pages stay where they are, and the map becomes `T`. -/
structure Unmapped (pt : Nat) (T : Nat → Option (Nat × Nat)) (s t : State) : Prop where
  table : ∀ q : List (Fin 512), q.length ≤ 2 → table t pt q = table s pt q
  map : ∀ va, va < MAXVA → translate t pt va = T va

namespace Unmapped

variable {T T' : Nat → Option (Nat × Nat)}

theorem wellFormed (h : Unmapped pt T s t) (hs : WellFormed s pt) : WellFormed t pt := fun q q' a hq hq' ha ha' =>
  hs q q' a hq hq' ((h.table q hq).symm.trans ha) ((h.table q' hq').symm.trans ha')

theorem outside {f : Nat} (h : Unmapped pt T s t) (hf : Outside next s.mem pt 2 f) : Outside next t.mem pt 2 f :=
  fun q hq hn => hf q hq ((h.table q hq).symm.trans hn)

theorem trans (h : Unmapped pt T s t) (h' : Unmapped pt T' t u) : Unmapped pt T' s u :=
  ⟨fun q hq => (h'.table q hq).trans (h.table q hq), h'.map⟩

theorem congr (h : Unmapped pt T s t) (hT : ∀ va, va < MAXVA → T va = T' va) : Unmapped pt T' s t :=
  ⟨h.table, fun va hva => (h.map va hva).trans (hT va hva)⟩

end Unmapped

/-- `kfree` takes pages of the memory from `end` to `PHYSTOP`. -/
def RamPage (kend pa : Nat) : Prop := pa % PGSIZE = 0 ∧ kend ≤ pa ∧ pa < PHYSTOP

/-- What `uvmunmap` asks of a page that it removes. -/
structure Removable (kend : Nat) (doFree : Bool) (s : State) (pt : Nat) (m : Nat × Nat) : Prop where
  isLeaf : m.2 ≠ PTE_V
  ram : doFree = true → RamPage kend m.1
  data : doFree = true → Outside next s.mem pt 2 m.1

variable {kend : Nat}

theorem kfree_ok (hram : RamPage kend pa) (hdata : Outside next s.mem pt 2 pa) :
    wp E (kfree kend pa) (fun _ t => Unmapped pt (translate s pt) s t) s := by
  unfold kfree
  obtain ⟨hal, hlo, hhi⟩ := hram
  refine wp_ite (fun hbad => by omega) fun _ => ?_
  · simp only [wp_bind, wp_memset, wp_modify]
    exact ⟨fun q hq => node_update hdata _ hq, fun va _ => translate_memset hdata va⟩

/-- The map with one page removed. -/
def withoutPage (T : Nat → Option (Nat × Nat)) (a vb : Nat) : Option (Nat × Nat) :=
  if vb / PGSIZE = a / PGSIZE then none else T vb

variable {doFree : Bool}

theorem unmapPage_ok {m : Nat × Nat} (h : WellFormed s pt) (ha : a < MAXVA)
    (hmap : translate s pt a = some m) (hm : Removable kend doFree s pt m) :
    wp E (unmapPage kend pt a doFree) (fun _ t =>
      Unmapped pt (withoutPage (translate s pt) a) s t) s := by
  obtain ⟨b, hb⟩ : ∃ b, table s pt (down a 2) = some b := by
    unfold translate entry at hmap
    cases hb : table s pt (down a 2) with
    | none =>
      rw [show node next s.mem pt (down a 2) = none from hb] at hmap
      cases hmap
    | some b => exact ⟨b, rfl⟩
  have hleaf := (translate_eq hb).symm.trans hmap
  unfold leaf at hleaf
  by_cases hv : s.mem b (PX 0 a) &&& PTE_V ≠ 0
  · rw [if_pos hv, Option.some.injEq] at hleaf
    subst hleaf
    -- the entry is cleared after the page it maps has been freed
    have hclear : ∀ t, Unmapped pt (translate s pt) s t →
        Unmapped pt (withoutPage (translate s pt) a) s (t.store b (PX 0 a) 0) := fun t ht => by
      have hbt := (ht.table (down a 2) (Nat.le_refl 2)).trans hb
      refine ⟨fun q hq => (node_leaf (ht.wellFormed h) hbt rfl hq).trans (ht.table q hq), fun vb hvb => ?_⟩
      rw [translate_store (ht.wellFormed h) hbt ha hvb, leaf_zero, ht.map vb hvb, withoutPage]
    unfold unmapPage
    refine wp_bind.mpr (wp_of_eq (walk_eq ha) ?_)
    simp only [hb, Option.map_some, wp_bind, wp_load, if_neg hv]
    refine wp_ite (fun hbare => absurd hbare hm.isLeaf) fun _ => ?_
    cases doFree with
    | false =>
      simp only [Bool.false_eq_true, if_false, wp_store]
      exact hclear s ⟨fun _ _ => rfl, fun _ _ => rfl⟩
    | true =>
      simp only [if_true, wp_bind]
      exact (kfree_ok (hm.ram rfl) (hm.data rfl)).mono fun _ t ht => hclear t ht
  · rw [if_neg hv] at hleaf
    cases hleaf

/-- The map with `k` pages removed from `a` on. -/
def withoutRange (T : Nat → Option (Nat × Nat)) (a k vb : Nat) : Option (Nat × Nat) :=
  if a ≤ vb ∧ vb < a + k * PGSIZE then none else T vb

theorem withoutRange_succ (T : Nat → Option (Nat × Nat)) (k vb : Nat) (hal : a % PGSIZE = 0) :
    withoutRange (withoutPage T a) (a + PGSIZE) k vb = withoutRange T a (k + 1) vb := by
  unfold withoutRange withoutPage PGSIZE at *
  by_cases h₁ : a + 4096 ≤ vb ∧ vb < a + 4096 + k * 4096
  · rw [if_pos h₁, if_pos (by omega)]
  · rw [if_neg h₁]
    by_cases h₂ : vb / 4096 = a / 4096
    · rw [if_pos h₂, if_pos (by omega)]
    · rw [if_neg h₂, if_neg (by omega)]

theorem withoutRange_zero (T : Nat → Option (Nat × Nat)) (a vb : Nat) : withoutRange T a 0 vb = T vb :=
  if_neg (by omega)

theorem withoutRange_congr (h : T vb = T' vb) (a k : Nat) :
    withoutRange T a k vb = withoutRange T' a k vb := by
  unfold withoutRange
  rw [h]

theorem unmapLoop_ok (n : Nat) (hfuel : n < fuel) (h : WellFormed s pt)
    (hal : a % PGSIZE = 0) (hend : a + n * PGSIZE < MAXVA)
    (hmap : ∀ k, k ≤ n → ∃ m, translate s pt (a + k * PGSIZE) = some m ∧ Removable kend doFree s pt m) :
    wp E (unmapLoop kend pt (a + n * PGSIZE) doFree fuel a) (fun _ t =>
      Unmapped pt (withoutRange (translate s pt) a (n + 1)) s t) s := by
  have hlt : MAXVA < 2 ^ 64 := by decide
  have hsize : PGSIZE = 4096 := rfl
  induction n generalizing fuel a s with
  | zero =>
    obtain ⟨fuel, rfl⟩ : ∃ k, fuel = k + 1 := ⟨fuel - 1, by omega⟩
    obtain ⟨m, hm, hok⟩ := hmap 0 le_rfl
    rw [Nat.zero_mul, Nat.add_zero] at *
    refine (unmapPage_ok h hend hm hok).seq fun _ t ht => ?_
    rw [if_pos rfl]
    refine ht.congr fun vb _ => ?_
    rw [← withoutRange_succ _ 0 vb hal, withoutRange_zero]
  | succ n ih =>
    obtain ⟨fuel, rfl⟩ : ∃ k, fuel = k + 1 := ⟨fuel - 1, by omega⟩
    have hnext : ∀ k, a + (k + 1) * PGSIZE = a + PGSIZE + k * PGSIZE := fun k => by ring
    obtain ⟨m, hm, hok⟩ := hmap 0 (Nat.zero_le _)
    rw [Nat.zero_mul, Nat.add_zero] at hm
    rw [hnext n] at hend ⊢
    refine (unmapPage_ok h (by omega) hm hok).seq fun _ t ht => ?_
    rw [if_neg (by omega), Nat.mod_eq_of_lt (show a + PGSIZE < 2 ^ 64 by omega)]
    refine (ih (by omega) (ht.wellFormed h) (by rwa [Nat.add_mod_right]) (by omega) fun k hk => ?_).mono fun _ u hu =>
      ht.trans (hu.congr fun vb hvb => ?_)
    · obtain ⟨m, hm, hok⟩ := hmap (k + 1) (by omega)
      have hk' : a + (k + 1) * PGSIZE < MAXVA := by
        have := Nat.mul_le_mul_right PGSIZE hk
        rw [hnext k]
        omega
      refine ⟨m, ?_, hok.isLeaf, hok.ram, fun hf => ht.outside (hok.data hf)⟩
      rw [← hnext k, ht.map _ hk', withoutPage, if_neg (by rw [hsize]; omega), hm]
    · rw [withoutRange_congr (ht.map vb hvb), withoutRange_succ _ _ _ hal]

/-! ### Ranges -/

/-- The number of pages from `va` to `va + size - 1`. -/
def pageCount (va size : Nat) : Nat := (va + size - 1) / PGSIZE - va / PGSIZE + 1

def InRange (va size vb : Nat) : Prop :=
  PGROUNDDOWN va ≤ vb ∧ vb < PGROUNDDOWN va + pageCount va size * PGSIZE

section Range

variable {size : Nat} (hsize : 0 < size) (hend : va + size ≤ MAXVA)

theorem PGROUNDDOWN_mod (va : Nat) : PGROUNDDOWN va % PGSIZE = 0 := Nat.mul_mod_left _ _

include hsize hend

theorem lastPage_eq : lastPage va size = PGROUNDDOWN va + (pageCount va size - 1) * PGSIZE := by
  have hmod : (va + size + 2 ^ 64 - 1) % 2 ^ 64 = va + size - 1 := by
    unfold MAXVA at hend
    omega
  unfold lastPage PGROUNDDOWN pageCount PGSIZE
  rw [hmod]
  omega

theorem last_lt : PGROUNDDOWN va + (pageCount va size - 1) * PGSIZE < MAXVA := by
  unfold PGROUNDDOWN pageCount PGSIZE
  omega

theorem count_lt : pageCount va size - 1 < rounds := by
  unfold rounds pageCount MAXVA PGSIZE at *
  omega

omit hsize hend in
theorem inRange_page {k : Nat} (hk : k ≤ pageCount va size - 1) : InRange va size (PGROUNDDOWN va + k * PGSIZE) := by
  have hpos : 0 < pageCount va size := Nat.succ_pos _
  refine ⟨Nat.le_add_right _ _, Nat.add_lt_add_left (Nat.mul_lt_mul_of_pos_right (by omega) (by decide)) _⟩

theorem mappages_ok {pa perm : Nat} (h : Sound s pt) (hpal : pa % PGSIZE = 0) (hpa : pa < 2 ^ 56) (hperm : perm < 2 ^ 10)
    (hnew : ∀ vb, InRange va size vb → translate s pt vb = none) :
    wp E (mappages pt va size pa perm) (fun r t =>
      r = 0 ∧ Step pt (InRange va size) (withRange (translate s pt) (PGROUNDDOWN va) pa perm (pageCount va size)) s t ∨
      r = -1 ∧ t.free = [] ∧ ∃ k, k < pageCount va size ∧
        Step pt (InRange va size) (withRange (translate s pt) (PGROUNDDOWN va) pa perm k) s t) s := by
  have hlast := last_lt hsize hend
  have hpos : 0 < pageCount va size := Nat.succ_pos _
  have hpend : pa + (pageCount va size - 1) * PGSIZE < 2 ^ 64 := by
    unfold MAXVA at hlast
    omega
  unfold mappages
  rw [lastPage_eq hsize hend]
  refine (mapLoop_ok hperm _ (count_lt hsize hend) h (PGROUNDDOWN_mod va) hlast (fun k hk => inRange_page hk)
    (fun k hk => hnew _ (inRange_page hk)) hpal hpend).mono fun r t ht => ?_
  rcases ht with ⟨hr, ht⟩ | ⟨hr, hfree, k, hk, ht⟩
  · rw [Nat.sub_add_cancel hpos] at ht
    exact .inl ⟨hr, ht⟩
  · exact .inr ⟨hr, hfree, k, by omega, ht⟩

theorem uvmunmap_ok {kend : Nat} {doFree : Bool} (h : WellFormed s pt)
    (hmap : ∀ vb, InRange va size vb → ∃ m, translate s pt vb = some m ∧ Removable kend doFree s pt m) :
    wp E (uvmunmap kend pt va size doFree) (fun _ t =>
      Unmapped pt (withoutRange (translate s pt) (PGROUNDDOWN va) (pageCount va size)) s t) s := by
  have hpos : 0 < pageCount va size := Nat.succ_pos _
  unfold uvmunmap
  rw [lastPage_eq hsize hend]
  refine (unmapLoop_ok _ (count_lt hsize hend) h (PGROUNDDOWN_mod va) (last_lt hsize hend) fun k hk =>
    hmap _ (inRange_page hk)).mono fun _ t ht => ?_
  rwa [Nat.sub_add_cancel hpos] at ht

end Range

/-- `walk` and `walkaddr` find what the map says. -/
structure Looks (s : State) (pt : Nat) : Prop where
  walk : ∀ va, va < MAXVA → ∃ r, walk pt va false s = .ok (r, s) ∧
    (r.bind fun x => leaf (s.mem x.1 x.2)) = translate s pt va
  walkaddr : ∀ va, va < MAXVA → walkaddr pt va s = .ok (userPage (translate s pt va), s)

theorem looks (s : State) (pt : Nat) : Looks s pt := by
  refine ⟨fun va hva => ⟨_, walk_eq hva, ?_⟩, fun va hva => walkaddr_eq hva⟩
  unfold translate entry table
  cases node next s.mem pt (down va 2) <;> rfl

/-! ### Main result -/

/-- Page tables are maps: `walk` and `walkaddr` look up, `mappages` adds the range, or a first part of it
    when the memory runs out, and `uvmunmap` removes it. -/
theorem page_table_refines_map {s : State} {pt va size : Nat} (h : Sound s pt) (hsize : 0 < size)
    (hend : va + size ≤ MAXVA) :
    (∀ t, Looks t pt) ∧
    (∀ pa perm, pa % PGSIZE = 0 → pa < 2 ^ 56 → perm < 2 ^ 10 →
      (∀ vb, InRange va size vb → translate s pt vb = none) →
      ∃ r t, mappages pt va size pa perm s = .ok (r, t) ∧
        (r = 0 ∧ Step pt (InRange va size)
          (withRange (translate s pt) (PGROUNDDOWN va) pa perm (pageCount va size)) s t ∨
        r = -1 ∧ t.free = [] ∧ ∃ k, k < pageCount va size ∧
          Step pt (InRange va size) (withRange (translate s pt) (PGROUNDDOWN va) pa perm k) s t)) ∧
    ∀ kend doFree,
      (∀ vb, InRange va size vb → ∃ m, translate s pt vb = some m ∧ Removable kend doFree s pt m) →
      ∃ t, uvmunmap kend pt va size doFree s = .ok ((), t) ∧ WellFormed t pt ∧
        Unmapped pt (withoutRange (translate s pt) (PGROUNDDOWN va) (pageCount va size)) s t := by
  refine ⟨fun t => looks t pt, fun pa perm hpal hpa hperm hnew => ?_, fun kend doFree hmap => ?_⟩
  · exact (mappages_ok hsize hend h hpal hpa hperm hnew).returns
  · obtain ⟨_, t, hrun, ht⟩ := (uvmunmap_ok hsize hend h.table hmap).returns
    exact ⟨t, hrun, ht.wellFormed h.table, ht⟩

/-- A page of zeros is a page table that maps nothing. -/
theorem table_zero (hz : ∀ i, s.mem pt i = 0) (q : List (Fin 512)) : table s pt q = if q = [] then some pt else none := by
  induction q using List.reverseRecOn with
  | nil => rfl
  | append_singleton q j ih =>
    unfold table at ih ⊢
    rw [node_concat, ih, if_neg (show ¬ q ++ [j] = [] by simp)]
    split
    · rw [Option.bind_some, hz, next_zero]
    · rfl

theorem translate_zero (hz : ∀ i, s.mem pt i = 0) (va : Nat) : translate s pt va = none := by
  have htable : table s pt (down va 2) = none := by
    rw [table_zero hz]
    rfl
  rw [translate, entry, show node next s.mem pt (down va 2) = none from htable]
  rfl

theorem sound_zero (hz : ∀ i, s.mem pt i = 0) (hpage : ∀ f ∈ s.free, f % PGSIZE = 0 ∧ f < 2 ^ 56) (hnodup : s.free.Nodup)
    (hpt : pt ∉ s.free) : Sound s pt := by
  have hroot : ∀ q a, table s pt q = some a → q = [] ∧ a = pt := fun q a ha => by
    rw [table_zero hz] at ha
    split at ha
    · exact ⟨‹_›, (Option.some.inj ha).symm⟩
    · cases ha
  refine ⟨fun q q' a _ _ ha ha' => (hroot q a ha).1.trans (hroot q' a ha').1.symm, hpage, hnodup, fun f hf q _ hq => ?_⟩
  exact hpt ((hroot q f hq).2 ▸ hf)

/-- The memory after `uvmcreate`, with two more pages free. -/
def created : State := ⟨[0x87ffe000, 0x87ffd000], fun _ _ => 0⟩

theorem sound_created : Sound created 0x87fff000 :=
  sound_zero (fun _ => rfl) (by decide) (by decide) (by decide)

/-- A range in two pages is mapped. -/
theorem page_table_refines_map_created :
    ∃ t, mappages 0x87fff000 100 PGSIZE 0x87ff0000 (PTE_R ||| PTE_U) created = .ok (0, t) ∧ pageCount 100 PGSIZE = 2 ∧
      Step 0x87fff000 (InRange 100 PGSIZE) (withRange (translate created 0x87fff000) (PGROUNDDOWN 100) 0x87ff0000
        (PTE_R ||| PTE_U) (pageCount 100 PGSIZE)) created t := by
  obtain ⟨r, t, hrun, hr⟩ := (page_table_refines_map sound_created (show 0 < PGSIZE by decide)
    (show 100 + PGSIZE ≤ MAXVA by decide)).2.1 0x87ff0000 (PTE_R ||| PTE_U) (by decide) (by decide) (by decide)
    fun vb _ => translate_zero (fun _ => rfl) vb
  have hzero : (mappages 0x87fff000 100 PGSIZE 0x87ff0000 (PTE_R ||| PTE_U) created).toOption.map Prod.fst = some 0 := by
    decide +kernel
  rw [hrun] at hzero
  obtain rfl : r = 0 := Option.some.inj hzero
  rcases hr with ⟨-, hstep⟩ | ⟨hneg, -⟩
  · exact ⟨t, hrun, by decide, hstep⟩
  · exact absurd hneg (by decide)

/-- A page without permissions can be mapped, and cannot be removed: `uvmunmap` takes its entry for one
    that points to a page-table page. -/
theorem unmap_bare_page :
    ((mappages 0x87fff000 0 PGSIZE 0x87ffc000 0 created).toOption.map fun x =>
      (x.1, translate x.2 0x87fff000 0, match uvmunmap 0x80000000 0x87fff000 0 PGSIZE false x.2 with
        | .ok _ => none
        | .error e => some e)) =
      some (0, some (0x87ffc000, PTE_V), some "uvmunmap: not a leaf") := by
  decide +kernel

end Xv6.Sv39
