import Mathlib.Data.List.GetD
import Xv6.Kernel.Mem.Copy
import Xv6.Kernel.Mem.PageMap

/-! `copyout`, `copyin` and `copyinstr` access the memory of the user, byte by byte.

    ```
    va + i ──phys──▶ physical byte ◀──copyout── src[i]
                          │
                          └────────copyin─────▶ dst[i]
    ```

    The loops go from page to page; what they have done so far is a copy of the first bytes. -/

namespace Xv6.Sv39
open Hoare Radix Function
open Mem (PGSIZE PGROUNDDOWN MAXVA)

variable {s t u : State} {pt va vb k : Nat} {bs : List UInt8}

/-! ### User pages -/

/-- The page that a user address is in: below `MAXVA`, valid and with `PTE_U`. -/
def user (s : State) (pt va : Nat) : Option Nat :=
  if va < MAXVA then (translate s pt va).bind fun m => if m.2 &&& PTE_U = 0 then none else some m.1 else none

/-- The physical address of a user address. -/
def phys (s : State) (pt va : Nat) : Option Nat := (user s pt va).map (· + va % PGSIZE)

/-- The pages of the user are different pages of memory, and no page-table pages. No page is at 0, which
    is what `walkaddr` returns for an address without a page. -/
structure UserFrames (s : State) (pt : Nat) : Prop where
  distinct : ∀ va vb f, user s pt va = some f → user s pt vb = some f → va / PGSIZE = vb / PGSIZE
  data : ∀ va f, user s pt va = some f → Outside next s.mem pt 2 f
  nonzero : ∀ va f, user s pt va = some f → f ≠ 0

theorem translate_page (h : va / PGSIZE = vb / PGSIZE) : translate s pt va = translate s pt vb := by
  have hdown : down va 2 = down vb 2 := by
    simp only [down, PX_congr h]
  rw [translate, translate, hdown, PX_congr h]

/-- The map depends on the page-table pages only. -/
theorem translate_congr (h : ∀ q f, q.length ≤ 2 → table s pt q = some f → t.mem f = s.mem f) (va : Nat) :
    translate t pt va = translate s pt va := by
  have hnode : node next t.mem pt (down va 2) = node next s.mem pt (down va 2) :=
    node_congr (fun q a _ hq ha => by rw [h q a hq.le ha]) (Nat.le_refl 2)
  unfold translate entry
  rw [hnode]
  cases hn : node next s.mem pt (down va 2) with
  | none => rfl
  | some b => rw [Option.map_some, Option.map_some, h (down va 2) b (Nat.le_refl 2) hn]

theorem translate_aligned {m : Nat × Nat} (h : translate s pt va = some m) : m.1 % PGSIZE = 0 := by
  obtain ⟨pte, -, hleaf⟩ := Option.bind_eq_some_iff.mp h
  unfold leaf at hleaf
  split at hleaf
  · rw [← Option.some.inj hleaf]
    show (pte >>> 10) <<< 12 % 2 ^ 64 % 4096 = 0
    rw [Nat.shiftLeft_eq]
    omega
  · cases hleaf

theorem user_page (h : va / PGSIZE = vb / PGSIZE) : user s pt va = user s pt vb := by
  have hmax : va < MAXVA ↔ vb < MAXVA := by
    unfold MAXVA PGSIZE at *
    omega
  unfold user
  rw [translate_page h]
  exact if_congr hmax rfl rfl

theorem user_congr (h : ∀ va, translate t pt va = translate s pt va) (va : Nat) : user t pt va = user s pt va := by
  unfold user
  rw [h]

variable {f : Nat}

theorem user_eq_some (h : user s pt va = some f) :
    va < MAXVA ∧ ∃ flags, translate s pt va = some (f, flags) ∧ flags &&& PTE_U ≠ 0 := by
  unfold user at h
  split at h
  · rename_i hva
    obtain ⟨⟨pa, flags⟩, hm, hu⟩ := Option.bind_eq_some_iff.mp h
    split at hu
    · cases hu
    · rename_i hflags
      cases hu
      exact ⟨hva, flags, hm, hflags⟩
  · cases h

theorem user_aligned (h : user s pt va = some f) : f % PGSIZE = 0 := by
  obtain ⟨-, flags, hm, -⟩ := user_eq_some h
  exact translate_aligned hm

variable {i : Nat}

/-- The bytes of a page follow each other. -/
theorem phys_page (h : user s pt va = some f) (hi : va % PGSIZE + i < PGSIZE) :
    phys s pt (va + i) = some (f + va % PGSIZE + i) := by
  have hpage : (va + i) / PGSIZE = va / PGSIZE := by
    unfold PGSIZE at *
    omega
  rw [phys, user_page hpage, h, Option.map_some]
  unfold PGSIZE at *
  rw [show (va + i) % 4096 = va % 4096 + i by omega, Nat.add_assoc]

variable {a : Nat}

/-- The page of a user byte. -/
theorem page_phys (h : phys s pt va = some a) : user s pt va = some (Packed.page 512 a) := by
  obtain ⟨f, hf, hadd⟩ := Option.map_eq_some_iff.mp h
  have hal := user_aligned hf
  rw [hf, ← hadd]
  show some f = some ((f + va % 4096) / 4096 * 4096)
  unfold PGSIZE at hal
  congr 1
  omega

theorem UserFrames.inj (h : UserFrames s pt) (ha : phys s pt va = some a) (hb : phys s pt vb = some a) :
    va = vb := by
  have hpage := h.distinct va vb _ (page_phys ha) (page_phys hb)
  obtain ⟨f, hf, hadd⟩ := Option.map_eq_some_iff.mp ha
  obtain ⟨g, hg, hadd'⟩ := Option.map_eq_some_iff.mp hb
  have := user_aligned hf
  have := user_aligned hg
  unfold PGSIZE at *
  omega

/-- `walkaddr` finds the user page of an address. -/
theorem walkaddr_user (h : ∀ f, user s pt va = some f → f ≠ 0) : ∃ pa0, walkaddr pt (PGROUNDDOWN va) s = .ok (pa0, s) ∧
    (pa0 = 0 ∧ user s pt va = none ∨ pa0 ≠ 0 ∧ user s pt va = some pa0) := by
  by_cases hva : va < MAXVA
  · have hdown : PGROUNDDOWN va < MAXVA := Nat.lt_of_le_of_lt (Nat.div_mul_le_self _ _) hva
    have hpage : PGROUNDDOWN va / PGSIZE = va / PGSIZE := Nat.mul_div_cancel _ (by decide)
    refine ⟨_, walkaddr_eq hdown, ?_⟩
    rw [translate_page hpage]
    unfold user at h ⊢
    rw [if_pos hva] at h ⊢
    cases hm : translate s pt va with
    | none => exact .inl ⟨rfl, rfl⟩
    | some m =>
      rw [hm] at h
      simp only [Option.bind_some, userPage] at h ⊢
      by_cases hu : m.2 &&& PTE_U = 0
      · rw [if_pos hu, if_pos hu]
        exact .inl ⟨rfl, rfl⟩
      · rw [if_neg hu] at h ⊢
        rw [if_neg hu]
        exact .inr ⟨h m.1 rfl, rfl⟩
  · have hdown : MAXVA ≤ PGROUNDDOWN va := by
      unfold PGROUNDDOWN MAXVA PGSIZE at *
      omega
    refine ⟨0, by rw [walkaddr, if_pos hdown]; rfl, .inl ⟨rfl, if_neg hva⟩⟩

/-! ### `copyout` -/

/-- The bytes have been stored where `φ` says, and nothing else has changed. -/
structure Copied (φ : Nat → Option Nat) (va : Nat) (bs : List UInt8) (s t : State) : Prop where
  free : t.free = s.free
  stored : ∀ i (h : i < bs.length), ∃ a, φ (va + i) = some a ∧ t.byte a = bs[i]
  rest : ∀ a, (∀ i, i < bs.length → φ (va + i) ≠ some a) → t.byte a = s.byte a
  pages : ∀ f, (∀ i a, i < bs.length → φ (va + i) = some a → f ≠ Packed.page 512 a) → t.mem f = s.mem f

namespace Copied

variable {φ : Nat → Option Nat} {cs : List UInt8}

theorem nil (φ : Nat → Option Nat) (va : Nat) (s : State) : Copied φ va [] s s :=
  ⟨rfl, fun _ h => absurd h (Nat.not_lt_zero _), fun _ _ => rfl, fun _ _ => rfl⟩

theorem append (hφ : ∀ x y a, φ x = some a → φ y = some a → x = y) (h : Copied φ va bs s t)
    (h' : Copied φ (va + bs.length) cs t u) : Copied φ va (bs ++ cs) s u := by
  have hlen : ∀ i, i < cs.length → bs.length + i < (bs ++ cs).length := fun i hi => by
    rw [List.length_append]
    omega
  have hsub : ∀ i, i < bs.length → i < (bs ++ cs).length := fun i hi => by
    rw [List.length_append]
    omega
  refine ⟨h'.free.trans h.free, fun i hi => ?_, fun a ha => ?_, fun f hf => ?_⟩
  · by_cases hbs : i < bs.length
    · obtain ⟨a, ha, hbyte⟩ := h.stored i hbs
      refine ⟨a, ha, ?_⟩
      rw [List.getElem_append_left hbs, ← hbyte]
      refine h'.rest a fun j _ hj => ?_
      have := hφ _ _ _ ha hj
      omega
    · rw [List.length_append] at hi
      obtain ⟨a, ha, hbyte⟩ := h'.stored (i - bs.length) (by omega)
      rw [Nat.add_assoc, Nat.add_sub_of_le (by omega)] at ha
      exact ⟨a, ha, by rw [List.getElem_append_right (by omega), hbyte]⟩
  · rw [h'.rest a fun i hi => ?_, h.rest a fun i hi => ha i (hsub i hi)]
    rw [Nat.add_assoc]
    exact ha _ (hlen i hi)
  · rw [h'.pages f fun i a hi ha => ?_, h.pages f fun i a hi ha => hf i a (hsub i hi) ha]
    rw [Nat.add_assoc] at ha
    exact hf _ a (hlen i hi) ha

variable (h : Copied (phys s pt) va bs s t) (hs : UserFrames s pt)

include h hs

/-- The copy does not change the map. -/
theorem translate_eq (vb : Nat) :
    translate t pt vb = translate s pt vb :=
  translate_congr (fun q f hq hf => h.pages f fun _ _ _ ha heq => hs.data _ _ (page_phys ha) q hq (heq ▸ hf)) vb

theorem outside {f : Nat}
    (hf : Outside next s.mem pt 2 f) : Outside next t.mem pt 2 f := fun q hq hn => by
  have hnode : node next t.mem pt q = node next s.mem pt q :=
    node_congr (fun q' a _ hq' ha => by
      rw [h.pages a fun _ _ _ hb heq => hs.data _ _ (page_phys hb) q' hq'.le (heq ▸ ha)]) hq
  exact hf q hq (hnode ▸ hn)

theorem user_eq : user t pt = user s pt :=
  funext (user_congr (h.translate_eq hs))

theorem phys_eq : phys t pt = phys s pt := by
  funext vb
  rw [phys, phys, h.user_eq hs]

theorem userFrames : UserFrames t pt := by
  have huser := h.user_eq hs
  refine ⟨fun va vb f ha hb => ?_, fun va f hf => ?_, fun va f hf => ?_⟩
  · rw [huser] at ha hb
    exact hs.distinct va vb f ha hb
  · rw [huser] at hf
    exact h.outside hs (hs.data va f hf)
  · rw [huser] at hf
    exact hs.nonzero va f hf

end Copied

/-- The bytes are stored in one page. -/
theorem copied_page (h : user s pt va = some f) (hlen : va % PGSIZE + bs.length ≤ PGSIZE) :
    Copied (phys s pt) va bs s (s.write (f + va % PGSIZE) bs) := by
  have hphys : ∀ i, i < bs.length → phys s pt (va + i) = some (f + va % PGSIZE + i) := fun i hi =>
    phys_page h (by omega)
  refine ⟨rfl, fun i hi => ⟨_, hphys i hi, Packed.byte_write_mem hi⟩, fun a ha => Packed.byte_write_of_notMem ?_,
    fun g hg => Packed.write_of_ne fun i hi => hg i _ hi (hphys i hi)⟩
  by_contra hc
  push Not at hc
  refine ha (a - (f + va % PGSIZE)) (by omega) ?_
  rw [hphys _ (by omega), Nat.add_sub_of_le hc.1]

/-- The rounds that a loop over pages from `va` on needs. -/
def Enough (fuel va : Nat) : Prop := 0 < fuel ∧ (va < MAXVA → MAXVA / PGSIZE + 1 ≤ fuel + va / PGSIZE)

theorem enough_rounds (va : Nat) : Enough rounds va := ⟨by decide, fun _ => Nat.le_add_right _ _⟩

variable {fuel : Nat}

/-- The next page. -/
theorem Enough.step (h : Enough (fuel + 1) va) (hva : va < MAXVA) :
    Enough fuel (va + (PGSIZE - va % PGSIZE)) ∧ (PGROUNDDOWN va + PGSIZE) % 2 ^ 64 = va + (PGSIZE - va % PGSIZE) := by
  obtain ⟨-, hfuel⟩ := h
  unfold Enough PGROUNDDOWN MAXVA PGSIZE at *
  omega

theorem sub_PGROUNDDOWN (va : Nat) : va - PGROUNDDOWN va = va % PGSIZE := by
  unfold PGROUNDDOWN PGSIZE
  omega

theorem copyoutLoop_run {dstva : Nat} (h : UserFrames s pt) (hfuel : Enough fuel dstva) (src : List UInt8) :
    ∃ r t, copyoutLoop pt fuel dstva src s = .ok (r, t) ∧ (r = 0 ∧ Copied (phys s pt) dstva src s t ∨
      r = -1 ∧ ∃ k, k < src.length ∧ user s pt (dstva + k) = none ∧ Copied (phys s pt) dstva (src.take k) s t) := by
  induction fuel generalizing s dstva src with
  | zero => exact absurd hfuel.1 (Nat.lt_irrefl 0)
  | succ fuel ih =>
    rw [copyoutLoop]
    by_cases hlen : src.length = 0
    · rw [if_pos hlen, List.eq_nil_of_length_eq_zero hlen]
      exact ⟨0, s, rfl, .inl ⟨rfl, .nil _ _ _⟩⟩
    rw [if_neg hlen, sub_PGROUNDDOWN]
    obtain ⟨pa0, hwalk, hpa⟩ := walkaddr_user (h.nonzero dstva)
    rw [bind_ok hwalk]
    rcases hpa with ⟨rfl, hnone⟩ | ⟨hpa, hsome⟩
    · rw [if_pos rfl]
      exact ⟨-1, s, rfl, .inr ⟨rfl, 0, Nat.pos_of_ne_zero hlen, hnone, .nil _ _ _⟩⟩
    rw [if_neg hpa]
    obtain ⟨n, hn⟩ : ∃ n, min (PGSIZE - dstva % PGSIZE) src.length = n := ⟨_, rfl⟩
    have hoff : dstva % PGSIZE < PGSIZE := Nat.mod_lt _ (by decide)
    have htake : (src.take n).length = n := by rw [List.length_take]; omega
    have hcopy : Copied (phys s pt) dstva (src.take n) s (s.write (pa0 + dstva % PGSIZE) (src.take n)) :=
      copied_page hsome (by omega)
    have hva := (user_eq_some hsome).1
    obtain ⟨henough, hnext⟩ := hfuel.step hva
    simp only [hn]
    rw [bind_ok rfl]
    by_cases hlast : src.length ≤ PGSIZE - dstva % PGSIZE
    · -- the rest of the bytes fits on this page
      have hall : n = src.length := by omega
      subst hall
      obtain ⟨fuel, rfl⟩ : ∃ f, fuel = f + 1 := ⟨fuel - 1, by have := henough.1; omega⟩
      rw [List.drop_length, List.take_length] at *
      rw [copyoutLoop, if_pos List.length_nil]
      exact ⟨0, _, rfl, .inl ⟨rfl, hcopy⟩⟩
    · have hn' : n = PGSIZE - dstva % PGSIZE := by omega
      have hinj : ∀ x y a, phys s pt x = some a → phys s pt y = some a → x = y := fun _ _ _ => h.inj
      rw [hnext, ← hn']
      rw [← hn'] at henough
      obtain ⟨r, t, hrun, hr⟩ := ih (hcopy.userFrames h) henough _
      rw [hcopy.phys_eq h, hcopy.user_eq h] at hr
      refine ⟨r, t, hrun, ?_⟩
      rcases hr with ⟨hr, hrest⟩ | ⟨hr, k, hk, hnone, hrest⟩
      · have hall : Copied (phys s pt) dstva (src.take n ++ src.drop n) s t := hcopy.append hinj (by rwa [htake])
        rw [List.take_append_drop] at hall
        exact .inl ⟨hr, hall⟩
      · have hsome : Copied (phys s pt) dstva (src.take n ++ (src.drop n).take k) s t :=
          hcopy.append hinj (by rwa [htake])
        rw [← List.take_add] at hsome
        rw [List.length_drop] at hk
        exact .inr ⟨hr, n + k, by omega, by rwa [← Nat.add_assoc], hsome⟩

/-! ### `copyin` -/

/-- The first `n` bytes at `va` are in the buffer from offset `k` on, and the rest of the buffer is as
    before. -/
structure Fetched (s : State) (pt va n k : Nat) (dst d : Nat → UInt8) : Prop where
  fetched : ∀ i, i < n → ∃ a, phys s pt (va + i) = some a ∧ d (k + i) = s.byte a
  rest : ∀ i, i < k ∨ k + n ≤ i → d i = dst i

namespace Fetched

variable {n m : Nat} {dst d e : Nat → UInt8}

theorem zero (s : State) (pt va k : Nat) (dst : Nat → UInt8) : Fetched s pt va 0 k dst dst :=
  ⟨fun _ h => absurd h (Nat.not_lt_zero _), fun _ _ => rfl⟩

theorem add (h : Fetched s pt va n k dst d) (h' : Fetched s pt (va + n) m (k + n) d e) :
    Fetched s pt va (n + m) k dst e := by
  refine ⟨fun i hi => ?_, fun i hi => ?_⟩
  · by_cases hn : i < n
    · obtain ⟨a, ha, hbyte⟩ := h.fetched i hn
      exact ⟨a, ha, (h'.rest _ (by omega)).trans hbyte⟩
    · obtain ⟨a, ha, hbyte⟩ := h'.fetched (i - n) (by omega)
      rw [Nat.add_assoc, Nat.add_sub_of_le (by omega)] at ha hbyte
      exact ⟨a, ha, hbyte⟩
  · rw [h'.rest i (by omega), h.rest i (by omega)]

end Fetched

theorem bytes_length (s : State) (a n : Nat) : (s.bytes a n).length = n := by
  rw [State.bytes, List.length_map, List.length_range]

variable {n : Nat}

theorem getElem_bytes (h : i < (s.bytes a n).length) : (s.bytes a n)[i] = s.byte (a + i) := by
  simp only [State.bytes, List.getElem_map, List.getElem_range]

theorem getD_bytes {d : UInt8} (h : i < n) : (s.bytes a n).getD i d = s.byte (a + i) := by
  rw [List.getD_eq_getElem _ _ (by rwa [bytes_length]), getElem_bytes]

variable {dst : Nat → UInt8}

theorem fetched_page (h : user s pt va = some f) (hlen : va % PGSIZE + n ≤ PGSIZE) :
    Fetched s pt va n k dst (place dst k (s.bytes (f + va % PGSIZE) n)) := by
  refine ⟨fun i hi => ⟨_, phys_page h (by omega), ?_⟩, fun i hi => ?_⟩
  · rw [place, if_pos (Nat.le_add_right _ _), Nat.add_sub_cancel_left, getD_bytes hi]
  · rw [place]
    split
    · rw [List.getD_eq_default _ _ (by rw [bytes_length]; omega)]
    · rfl

variable {srcva : Nat}

theorem copyinLoop_run (h : ∀ va f, user s pt va = some f → f ≠ 0) (hfuel : Enough fuel srcva)
    (dst : Nat → UInt8) (k len : Nat) :
    ∃ r d n, copyinLoop pt fuel dst k srcva len s = .ok ((r, d), s) ∧ Fetched s pt srcva n k dst d ∧
      (r = 0 ∧ n = len ∨ r = -1 ∧ n < len ∧ user s pt (srcva + n) = none) := by
  induction fuel generalizing srcva len dst k with
  | zero => exact absurd hfuel.1 (Nat.lt_irrefl 0)
  | succ fuel ih =>
    rw [copyinLoop]
    by_cases hlen : len = 0
    · rw [if_pos hlen]
      exact ⟨0, dst, 0, rfl, .zero _ _ _ _ _, .inl ⟨rfl, hlen.symm⟩⟩
    rw [if_neg hlen, sub_PGROUNDDOWN]
    obtain ⟨pa0, hwalk, hpa⟩ := walkaddr_user (h srcva)
    rw [bind_ok hwalk]
    rcases hpa with ⟨rfl, hnone⟩ | ⟨hpa, hsome⟩
    · rw [if_pos rfl]
      exact ⟨-1, dst, 0, rfl, .zero _ _ _ _ _, .inr ⟨rfl, Nat.pos_of_ne_zero hlen, hnone⟩⟩
    rw [if_neg hpa]
    obtain ⟨n, hn⟩ : ∃ n, min (PGSIZE - srcva % PGSIZE) len = n := ⟨_, rfl⟩
    have hoff : srcva % PGSIZE < PGSIZE := Nat.mod_lt _ (by decide)
    have hpage : Fetched s pt srcva n k dst (place dst k (s.bytes (pa0 + srcva % PGSIZE) n)) :=
      fetched_page hsome (by omega)
    obtain ⟨henough, hnext⟩ := hfuel.step (user_eq_some hsome).1
    simp only [hn]
    rw [bind_ok rfl]
    by_cases hlast : len ≤ PGSIZE - srcva % PGSIZE
    · obtain ⟨fuel, rfl⟩ : ∃ f, fuel = f + 1 := ⟨fuel - 1, by have := henough.1; omega⟩
      rw [copyinLoop, if_pos (by omega)]
      exact ⟨0, _, n, rfl, hpage, .inl ⟨rfl, by omega⟩⟩
    · have hn' : n = PGSIZE - srcva % PGSIZE := by omega
      rw [hnext, ← hn']
      rw [← hn'] at henough
      obtain ⟨r, d, m, hrun, hfetched, hr⟩ := ih henough _ (k + n) _
      refine ⟨r, d, n + m, hrun, hpage.add hfetched, ?_⟩
      rw [← Nat.add_assoc]
      rcases hr with ⟨hr, hm⟩ | ⟨hr, hm, hnone⟩
      · exact .inl ⟨hr, by omega⟩
      · exact .inr ⟨hr, by omega, hnone⟩

/-! ### `copyinstr` -/

/-- The inner loop copies up to the first zero: `j` bytes that are not zero, and the zero if there is one. -/
theorem strLoop_run (s : State) (n p : Nat) (dst : Nat → UInt8) (k : Nat) :
    ∃ g d j, strLoop n p dst k s = .ok ((g, d, k + j), s) ∧ (∀ i, i < j → s.byte (p + i) ≠ 0) ∧
      (∀ i, i < j + g.toNat → d (k + i) = s.byte (p + i)) ∧ (∀ i, i < k ∨ k + (j + g.toNat) ≤ i → d i = dst i) ∧
      (g = true ∧ j < n ∧ s.byte (p + j) = 0 ∨ g = false ∧ j = n) := by
  induction n generalizing p dst k with
  | zero => exact ⟨false, dst, 0, rfl, fun _ h => absurd h (Nat.not_lt_zero _), fun _ h => absurd h (Nat.not_lt_zero _),
      fun _ _ => rfl, .inr ⟨rfl, rfl⟩⟩
  | succ n ih =>
    rw [strLoop, bind_ok rfl]
    by_cases hc : s.byte p = 0
    · rw [if_pos hc]
      refine ⟨true, _, 0, rfl, fun _ h => absurd h (Nat.not_lt_zero _), fun i hi => ?_, fun i hi => ?_,
        .inl ⟨rfl, Nat.succ_pos n, hc⟩⟩
      · obtain rfl : i = 0 := Nat.lt_one_iff.mp hi
        exact (update_self _ _ _).trans hc.symm
      · have hne : i ≠ k := by
          simp only [Bool.toNat_true] at hi
          omega
        exact update_of_ne hne _ _
    · rw [if_neg hc]
      obtain ⟨g, d, j, hrun, hnonzero, hbytes, hrest, hg⟩ := ih (p + 1) (update dst k (s.byte p)) (k + 1)
      have hshift : ∀ a i : Nat, a + 1 + i = a + (i + 1) := fun a i => by omega
      refine ⟨g, d, j + 1, by rw [hrun, hshift], fun i hi => ?_, fun i hi => ?_, fun i hi => ?_, ?_⟩
      · cases i with
        | zero => exact hc
        | succ i => exact hshift p i ▸ hnonzero i (by omega)
      · cases i with
        | zero => exact (hrest k (by omega)).trans (update_self _ _ _)
        | succ i =>
          have := hbytes i (by omega)
          rwa [hshift, hshift] at this
      · rw [hrest i (by omega), update_of_ne (by omega)]
      · rw [hshift] at hg
        rcases hg with ⟨hg, hj, hzero⟩ | ⟨hg, hj⟩
        · exact .inl ⟨hg, by omega, hzero⟩
        · exact .inr ⟨hg, by omega⟩

/-- What `copyinstr` has copied: a string with its zero, or bytes that are not zero. -/
def Ends (r : Int) (max n k : Nat) (d : Nat → UInt8) (next : Option Nat) : Prop :=
  r = 0 ∧ (∃ j, n = j + 1 ∧ d (k + j) = 0 ∧ ∀ i, i < j → d (k + i) ≠ 0) ∨
  r = -1 ∧ (∀ i, i < n → d (k + i) ≠ 0) ∧ (n = max ∨ next = none)

theorem copyinstrLoop_run (h : ∀ va f, user s pt va = some f → f ≠ 0) (hfuel : Enough fuel srcva)
    (dst : Nat → UInt8) (k max : Nat) :
    ∃ r d n, copyinstrLoop pt fuel dst k srcva max s = .ok ((r, d), s) ∧ Fetched s pt srcva n k dst d ∧ n ≤ max ∧
      Ends r max n k d (user s pt (srcva + n)) := by
  induction fuel generalizing srcva max dst k with
  | zero => exact absurd hfuel.1 (Nat.lt_irrefl 0)
  | succ fuel ih =>
    have hnil : ∀ i, i < 0 → dst (k + i) ≠ 0 := fun _ hi => absurd hi (Nat.not_lt_zero _)
    rw [copyinstrLoop]
    by_cases hmax : max = 0
    · rw [if_pos hmax]
      exact ⟨-1, dst, 0, rfl, .zero _ _ _ _ _, Nat.zero_le _, .inr ⟨rfl, hnil, .inl hmax.symm⟩⟩
    rw [if_neg hmax, sub_PGROUNDDOWN]
    obtain ⟨pa0, hwalk, hpa⟩ := walkaddr_user (h srcva)
    rw [bind_ok hwalk]
    rcases hpa with ⟨rfl, hnone⟩ | ⟨hpa, hsome⟩
    · rw [if_pos rfl]
      exact ⟨-1, dst, 0, rfl, .zero _ _ _ _ _, Nat.zero_le _, .inr ⟨rfl, hnil, .inr hnone⟩⟩
    rw [if_neg hpa]
    obtain ⟨n, hn⟩ : ∃ n, min (PGSIZE - srcva % PGSIZE) max = n := ⟨_, rfl⟩
    obtain ⟨henough, hnext⟩ := hfuel.step (user_eq_some hsome).1
    obtain ⟨g, d, j, hstr, hnonzero, hbytes, hrest, hg⟩ := strLoop_run s n (pa0 + srcva % PGSIZE) dst k
    simp only [hn]
    rw [bind_ok hstr]
    rcases hg with ⟨rfl, hj, hzero⟩ | ⟨rfl, rfl⟩
    · refine ⟨0, d, j + 1, rfl, ⟨fun i hi => ⟨_, phys_page hsome (by omega), hbytes i hi⟩, hrest⟩, by omega,
        .inl ⟨rfl, j, rfl, (hbytes j (Nat.lt_succ_self j)).trans hzero, fun i hi => ?_⟩⟩
      rw [hbytes i (Nat.lt_succ_of_lt hi)]
      exact hnonzero i hi
    · have hpage : Fetched s pt srcva j k dst d := ⟨fun i hi => ⟨_, phys_page hsome (by omega), hbytes i hi⟩, hrest⟩
      have hfirst : ∀ i, i < j → d (k + i) ≠ 0 := fun i hi => by
        rw [hbytes i hi]
        exact hnonzero i hi
      simp only [Bool.false_eq_true, if_false, Nat.add_sub_cancel_left]
      by_cases hlast : max ≤ PGSIZE - srcva % PGSIZE
      · obtain ⟨fuel, rfl⟩ : ∃ f, fuel = f + 1 := ⟨fuel - 1, by have := henough.1; omega⟩
        rw [copyinstrLoop, if_pos (by omega)]
        exact ⟨-1, d, j, rfl, hpage, by omega, .inr ⟨rfl, hfirst, .inl (by omega)⟩⟩
      · have hj : j = PGSIZE - srcva % PGSIZE := by omega
        rw [hnext, ← hj]
        rw [← hj] at henough
        obtain ⟨r, e, m, hrun, hfetched, hm, hends⟩ := ih henough d (k + j) (max - j)
        have hsplit : ∀ i, i < j + m → (∀ l, l < m → e (k + j + l) ≠ 0 ∨ i ≠ j + l) → e (k + i) ≠ 0 := fun i hi hl => by
          by_cases hij : i < j
          · rw [hfetched.rest _ (by omega)]
            exact hfirst i hij
          · have := (hl (i - j) (by omega)).resolve_right (by omega)
            rwa [Nat.add_assoc, Nat.add_sub_of_le (by omega)] at this
        refine ⟨r, e, j + m, hrun, hpage.add hfetched, by omega, ?_⟩
        rcases hends with ⟨hr, l, rfl, hzero, hl⟩ | ⟨hr, hl, hend⟩
        · refine .inl ⟨hr, j + l, rfl, by rwa [← Nat.add_assoc], fun i hi => hsplit i (by omega) fun l' hl' => ?_⟩
          by_cases heq : l' < l
          · exact .inl (hl l' heq)
          · exact .inr (by omega)
        · refine .inr ⟨hr, fun i hi => hsplit i hi fun l' hl' => .inl (hl l' hl'), ?_⟩
          rw [← Nat.add_assoc]
          exact hend.imp_left fun hm => by omega

/-! ### A table of consecutive pages -/

/-- The memory after `n` pages from `pa` on have been mapped at 0. -/
def mapped (n pa : Nat) : State :=
  ((mappages 0x87fff000 0 (n * PGSIZE) pa (PTE_R ||| PTE_W ||| PTE_U) created).toOption.map Prod.snd).getD created

section Mapped

variable {n pa : Nat}

theorem pageCount_mul (hn : 0 < n) : pageCount 0 (n * PGSIZE) = n := by
  unfold pageCount PGSIZE
  omega

variable (hn : 0 < n) (hend : 0 + n * PGSIZE ≤ MAXVA) (hal : pa % PGSIZE = 0) (hpa : pa < 2 ^ 56)
  (hrun : (mappages 0x87fff000 0 (n * PGSIZE) pa (PTE_R ||| PTE_W ||| PTE_U) created).toOption.map Prod.fst = some 0)
include hn hend hal hpa hrun

/-- The map has the pages. -/
theorem mapped_step : Step 0x87fff000 (InRange 0 (n * PGSIZE))
    (withRange (translate created 0x87fff000) 0 pa (PTE_R ||| PTE_W ||| PTE_U) n) created (mapped n pa) := by
  have hperm : PTE_R ||| PTE_W ||| PTE_U < 2 ^ 10 := by decide
  have hsize : 0 < n * PGSIZE := Nat.mul_pos hn (by decide)
  obtain ⟨r, t, heq, hr⟩ := (mappages_ok hsize hend sound_created hal hpa hperm
    fun vb _ => translate_zero (fun _ => rfl) vb).returns
  have hmapped : mapped n pa = t := by rw [mapped, heq]; rfl
  rw [heq] at hrun
  obtain rfl : r = 0 := Option.some.inj hrun
  rw [hmapped]
  rcases hr with ⟨-, hstep⟩ | ⟨hneg, -⟩
  · rw [pageCount_mul hn] at hstep
    exact hstep
  · exact absurd hneg (by decide)

theorem mapped_user (va : Nat) :
    user (mapped n pa) 0x87fff000 va = if va < n * PGSIZE then some (pa + va / PGSIZE * PGSIZE) else none := by
  unfold user
  by_cases hva : va < MAXVA
  · rw [if_pos hva, (mapped_step hn hend hal hpa hrun).map va hva, withRange, translate_zero fun _ => rfl]
    by_cases hin : va < n * PGSIZE
    · rw [if_pos ⟨Nat.zero_le _, by omega⟩, if_pos hin, Nat.sub_zero, Option.bind_some, if_neg]
      exact show (PTE_R ||| PTE_W ||| PTE_U ||| PTE_V) &&& PTE_U ≠ 0 by decide
    · rw [if_neg (by omega), if_neg hin]
      rfl
  · rw [if_neg hva, if_neg (by omega)]

theorem mapped_user_some {va : Nat} (h : user (mapped n pa) 0x87fff000 va = some f) :
    va < n * PGSIZE ∧ f = pa + va / PGSIZE * PGSIZE := by
  rw [mapped_user hn hend hal hpa hrun] at h
  split at h
  · rename_i hva
    exact ⟨hva, (Option.some.inj h).symm⟩
  · cases h

theorem mapped_distinct (va vb f : Nat) (ha : user (mapped n pa) 0x87fff000 va = some f)
    (hb : user (mapped n pa) 0x87fff000 vb = some f) : va / PGSIZE = vb / PGSIZE := by
  have h₁ := (mapped_user_some hn hend hal hpa hrun ha).2
  have h₂ := (mapped_user_some hn hend hal hpa hrun hb).2
  unfold PGSIZE at h₁ h₂ ⊢
  omega

end Mapped

/-- Two pages are mapped. -/
abbrev twoPages : State := mapped 2 0x87ff0000

theorem twoPages_run : (mappages 0x87fff000 0 (2 * PGSIZE) 0x87ff0000 (PTE_R ||| PTE_W ||| PTE_U) created).toOption.map
    Prod.fst = some 0 := by
  decide +kernel

theorem twoPages_step : Step 0x87fff000 (InRange 0 (2 * PGSIZE)) (withRange (translate created 0x87fff000) 0 0x87ff0000
    (PTE_R ||| PTE_W ||| PTE_U) 2) created twoPages :=
  mapped_step (by decide) (by decide) (by decide) (by decide) twoPages_run

theorem twoPages_table {q : List (Fin 512)} (hq : q.length ≤ 2)
    (h : table twoPages 0x87fff000 q = some f) : f ∈ [0x87fff000, 0x87ffe000, 0x87ffd000] := by
  cases hs : table created 0x87fff000 q with
  | none => exact List.mem_cons_of_mem _ (twoPages_step.grown.added q f hq h hs).1
  | some a =>
    have hsame := Option.some.inj ((twoPages_step.grown.kept q a hq hs).symm.trans h)
    rw [table_zero fun _ => rfl] at hs
    split at hs
    · rw [← hsame, ← Option.some.inj hs]
      exact List.mem_cons_self
    · cases hs

theorem twoPages_user {va f : Nat} (h : user twoPages 0x87fff000 va = some f) :
    va < 2 * 4096 ∧ f = 0x87ff0000 + va / 4096 * 4096 :=
  mapped_user_some (by decide) (by decide) (by decide) (by decide) twoPages_run h

theorem twoPages_frames : UserFrames twoPages 0x87fff000 := by
  refine ⟨mapped_distinct (by decide) (by decide) (by decide) (by decide) twoPages_run, fun va f hf q hq hn => ?_,
    fun va f hf => ?_⟩
  · have hin := twoPages_table hq hn
    have := twoPages_user hf
    simp only [List.mem_cons, List.not_mem_nil, or_false] at hin
    omega
  · have := twoPages_user hf
    omega

/-! ### Main results -/

/-- Every address of the range is in a user page. -/
def Accessible (s : State) (pt va len : Nat) : Prop := ∀ i, i < len → ∃ f, user s pt (va + i) = some f

theorem user_of_phys (h : phys s pt va = some a) : ∃ f, user s pt va = some f := ⟨_, page_phys h⟩

theorem Copied.accessible (h : Copied (phys s pt) va bs s t) : Accessible s pt va bs.length := fun i hi => by
  obtain ⟨a, ha, -⟩ := h.stored i hi
  exact user_of_phys ha

theorem Fetched.accessible {d : Nat → UInt8} (h : Fetched s pt va n k dst d) : Accessible s pt va n :=
  fun i hi => by
    obtain ⟨a, ha, -⟩ := h.fetched i hi
    exact user_of_phys ha

theorem not_accessible (hk : k < n) (h : user s pt (va + k) = none) : ¬ Accessible s pt va n := fun ha => by
  obtain ⟨f, hf⟩ := ha k hk
  rw [h] at hf
  cases hf

variable {s : State} {pt : Nat}

/-- `copyout` and `copyin` copy the range if the user has all of it, and a first part of it otherwise. -/
theorem copy_user_range (h : UserFrames s pt) (va : Nat) :
    (∀ src : List UInt8, ∃ r t, copyout pt va src s = .ok (r, t) ∧
      (r = 0 ∧ Accessible s pt va src.length ∧ Copied (phys s pt) va src s t ∨
       r = -1 ∧ ¬ Accessible s pt va src.length ∧
        ∃ k, k < src.length ∧ Accessible s pt va k ∧ Copied (phys s pt) va (src.take k) s t)) ∧
    (∀ (dst : Nat → UInt8) (len : Nat), ∃ r d, copyin pt dst va len s = .ok ((r, d), s) ∧
      (r = 0 ∧ Accessible s pt va len ∧ Fetched s pt va len 0 dst d ∨
       r = -1 ∧ ¬ Accessible s pt va len ∧ ∃ k, k < len ∧ Accessible s pt va k ∧ Fetched s pt va k 0 dst d)) := by
  refine ⟨fun src => ?_, fun dst len => ?_⟩
  · obtain ⟨r, t, hrun, hr⟩ := copyoutLoop_run h (enough_rounds va) src
    refine ⟨r, t, hrun, hr.imp (fun ⟨hr, hcopy⟩ => ⟨hr, hcopy.accessible, hcopy⟩) fun ⟨hr, k, hk, hnone, hcopy⟩ => ?_⟩
    have hprefix := hcopy.accessible
    rw [List.length_take, Nat.min_eq_left hk.le] at hprefix
    exact ⟨hr, not_accessible hk hnone, k, hk, hprefix, hcopy⟩
  · obtain ⟨r, d, n, hrun, hfetched, hr⟩ := copyinLoop_run h.nonzero (enough_rounds va) dst 0 len
    refine ⟨r, d, hrun, ?_⟩
    rcases hr with ⟨hr, rfl⟩ | ⟨hr, hn, hnone⟩
    · exact .inl ⟨hr, hfetched.accessible, hfetched⟩
    · exact .inr ⟨hr, not_accessible hn hnone, n, hn, hfetched.accessible, hfetched⟩

theorem twoPages_accessible : Accessible twoPages 0x87fff000 4095 2 := fun i hi => by
  have hin : 4095 + i < 2 * PGSIZE := by
    unfold PGSIZE
    omega
  rw [mapped_user (by decide) (by decide) (by decide) (by decide) twoPages_run, if_pos hin]
  exact ⟨_, rfl⟩

/-- Two bytes are copied to the end of a page and the beginning of the next; as many are read from there. -/
theorem copy_user_range_page : ∃ t d, copyout 0x87fff000 4095 [7, 8] twoPages = .ok (0, t) ∧
    Accessible twoPages 0x87fff000 4095 2 ∧ Copied (phys twoPages 0x87fff000) 4095 [7, 8] twoPages t ∧
    copyin 0x87fff000 (fun _ => 1) 4095 2 twoPages = .ok ((0, d), twoPages) ∧ Fetched twoPages 0x87fff000 4095 2 0 (fun _ => 1) d := by
  obtain ⟨hout, hin⟩ := copy_user_range twoPages_frames 4095
  obtain ⟨r, t, hrun, ⟨rfl, -, hcopied⟩ | ⟨-, hno, -⟩⟩ := hout [7, 8]
  · obtain ⟨r, d, hrun', ⟨rfl, -, hfetched⟩ | ⟨-, hno, -⟩⟩ := hin (fun _ => 1) 2
    · exact ⟨t, d, hrun, twoPages_accessible, hcopied, hrun', hfetched⟩
    · exact absurd twoPages_accessible hno
  · exact absurd twoPages_accessible hno

/-- A page of the user at the physical address 0 is taken for none. -/
theorem copyout_frame_zero : (∀ va vb f, user (mapped 1 0) 0x87fff000 va = some f →
      user (mapped 1 0) 0x87fff000 vb = some f → va / PGSIZE = vb / PGSIZE) ∧ Accessible (mapped 1 0) 0x87fff000 0 1 ∧
    (copyout 0x87fff000 0 [7] (mapped 1 0)).toOption.map Prod.fst = some (-1) := by
  refine ⟨mapped_distinct (by decide) (by decide) (by decide) (by decide) (by decide +kernel), fun i hi => ⟨0, ?_⟩,
    by decide +kernel⟩
  obtain rfl : i = 0 := Nat.lt_one_iff.mp hi
  decide +kernel

/-- The string of length `k` at a user address. -/
def StringAt (s : State) (pt va k : Nat) : Prop :=
  (∃ a, phys s pt (va + k) = some a ∧ s.byte a = 0) ∧ ∀ i, i < k → ∃ a, phys s pt (va + i) = some a ∧ s.byte a ≠ 0

/-- `copyinstr` copies the string if it ends within `max` bytes, and writes no more than `max` bytes. -/
theorem copyinstr_string (h : ∀ va f, user s pt va = some f → f ≠ 0) (srcva max : Nat)
    (dst : Nat → UInt8) : ∃ r d, copyinstr pt dst srcva max s = .ok ((r, d), s) ∧
      (r = 0 ∧ (∃ k, k < max ∧ StringAt s pt srcva k ∧ ∀ i, i ≤ k → ∃ a, phys s pt (srcva + i) = some a ∧ d i = s.byte a) ∨
       r = -1 ∧ ¬ ∃ k, k < max ∧ StringAt s pt srcva k) ∧
      ∀ i, max ≤ i → d i = dst i := by
  obtain ⟨r, d, n, hrun, hfetched, hn, hends⟩ := copyinstrLoop_run h (enough_rounds srcva) dst 0 max
  have hbyte : ∀ i, i < n → ∃ a, phys s pt (srcva + i) = some a ∧ d i = s.byte a := fun i hi => by
    obtain ⟨a, ha, hd⟩ := hfetched.fetched i hi
    rw [Nat.zero_add] at hd
    exact ⟨a, ha, hd⟩
  refine ⟨r, d, hrun, ?_, fun i hi => hfetched.rest i (.inr (by omega))⟩
  simp only [Ends, Nat.zero_add] at hends
  rcases hends with ⟨hr, k, rfl, hzero, hnonzero⟩ | ⟨hr, hnonzero, hend⟩
  · refine .inl ⟨hr, k, hn, ⟨?_, fun i hi => ?_⟩, fun i hi => hbyte i (Nat.lt_succ_of_le hi)⟩
    · obtain ⟨a, ha, hd⟩ := hbyte k (Nat.lt_succ_self k)
      exact ⟨a, ha, hd.symm.trans hzero⟩
    · obtain ⟨a, ha, hd⟩ := hbyte i (Nat.lt_succ_of_lt hi)
      exact ⟨a, ha, hd ▸ hnonzero i hi⟩
  · refine .inr ⟨hr, fun ⟨k, hk, ⟨a, ha, hzero⟩, hstr⟩ => ?_⟩
    have hmapped : ∀ i, i ≤ k → ∃ f, user s pt (srcva + i) = some f := fun i hi => by
      rcases Nat.lt_or_eq_of_le hi with hlt | rfl
      · obtain ⟨b, hb, -⟩ := hstr i hlt
        exact user_of_phys hb
      · exact user_of_phys ha
    by_cases hkn : k < n
    · obtain ⟨b, hb, hd⟩ := hbyte k hkn
      rw [ha] at hb
      cases hb
      exact hnonzero k hkn (hd.trans hzero)
    · rcases hend with hend | hend
      · omega
      · obtain ⟨f, hf⟩ := hmapped n (by omega)
        rw [hend] at hf
        cases hf

/-- The empty string. -/
theorem copyinstr_string_page : ∃ d, copyinstr 0x87fff000 (fun _ => 1) 0 3 (mapped 1 0x87ffc000) = .ok ((0, d), mapped 1 0x87ffc000) ∧
    (∃ k, k < 3 ∧ StringAt (mapped 1 0x87ffc000) 0x87fff000 0 k ∧ ∀ i, i ≤ k →
      ∃ a, phys (mapped 1 0x87ffc000) 0x87fff000 (0 + i) = some a ∧ d i = (mapped 1 0x87ffc000).byte a) ∧ ∀ i, 3 ≤ i → d i = 1 := by
  have hnonzero : ∀ va f, user (mapped 1 0x87ffc000) 0x87fff000 va = some f → f ≠ 0 := fun va f hf => by
    have := (mapped_user_some (by decide) (by decide) (by decide) (by decide) (by decide +kernel) hf).2
    omega
  obtain ⟨r, d, hrun, ⟨rfl, hstr⟩ | ⟨-, hno⟩, hrest⟩ := copyinstr_string hnonzero 0 3 fun _ => 1
  · exact ⟨d, hrun, hstr, hrest⟩
  · refine absurd ⟨0, by decide, ⟨0x87ffc000, by decide +kernel, by decide +kernel⟩, fun i hi => ?_⟩ hno
    exact absurd hi (Nat.not_lt_zero i)

/-- A string in the page at the physical address 0 is not found. -/
theorem copyinstr_frame_zero : StringAt (mapped 1 0) 0x87fff000 0 0 ∧
    (copyinstr 0x87fff000 (fun _ => 1) 0 3 (mapped 1 0)).toOption.map (fun x => x.1.1) = some (-1) := by
  refine ⟨⟨⟨0, by decide +kernel, by decide +kernel⟩, fun i hi => absurd hi (Nat.not_lt_zero i)⟩, by decide +kernel⟩

end Xv6.Sv39
