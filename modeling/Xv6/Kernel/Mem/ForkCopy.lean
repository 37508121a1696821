import Xv6.Kernel.Mem.Sbrk

/-! `uvmcopy` gives the child its own copy of the memory of the parent.

    ```
    parent   va ──▶ pa   ┄┄ same bytes, same flags ┄┄┐
    child    va ──▶ f, from the free list  ◀┄┄┄┄┄┄┄┄┄┘
    ```
 -/

namespace Xv6.Sv39
open Hoare Radix Function
open Mem (PGSIZE PGROUNDUP MAXVA TRAPFRAME)

variable {kend old new sz i pa f va : Nat} {s t u : State} {rest : List Nat} {c : Fin 512 → Nat} {bs : List UInt8}

/-! ### Pages of bytes -/

/-- A byte of a page. -/
def pageByte (c : Fin 512 → Nat) (j : Nat) : UInt8 := Packed.byte (fun _ => c) j

theorem byte_page {j : Nat} (hal : f % PGSIZE = 0) (hj : j < PGSIZE) : s.byte (f + j) = pageByte (s.mem f) j := by
  have hpage : Packed.page 512 (f + j) = f := by
    unfold Packed.page PGSIZE at *
    omega
  have hword : Packed.word 512 (f + j) = Packed.word 512 j := by
    unfold Packed.word PGSIZE at *
    exact Fin.ext (by simp only; omega)
  have hpos : (f + j) % 8 = j % 8 := by
    unfold PGSIZE at *
    omega
  rw [State.byte, Packed.byte, hpage, hword, hpos]
  rfl

/-- What is written to a page that is held stays in it. -/
theorem write_hold (hal : f % PGSIZE = 0) (hlen : bs.length ≤ PGSIZE) :
    (s.hold f rest c).write f bs = s.hold f rest (((s.hold f rest c).write f bs).mem f) := by
  have hmem : ((s.hold f rest c).write f bs).mem = update s.mem f (((s.hold f rest c).write f bs).mem f) := by
    funext g
    by_cases hg : g = f
    · rw [hg, update_self]
    · rw [update_of_ne hg, ← hold_mem (s := s) (c := c) hg]
      refine Packed.write_of_ne fun i hi => ?_
      have hpage : Packed.page 512 (f + i) = f := by
        unfold Packed.page PGSIZE at *
        omega
      rwa [hpage]
  exact congrArg (State.mk rest) hmem

theorem hold_byte {a : Nat} (h : Packed.page 512 a ≠ f) : (s.hold f rest c).byte a = s.byte a := by
  rw [State.byte, Packed.byte, hold_mem h]
  rfl

theorem write_byte {i : Nat} (h : i < bs.length) : (s.write f bs).byte (f + i) = bs[i] := Packed.byte_write_mem h

/-- `memmove` of a page. -/
theorem copyPage_hold (hal : f % PGSIZE = 0) (hpa : pa % PGSIZE = 0) (hne : pa ≠ f) :
    ∃ c', copyPage pa f (s.hold f rest c) = .ok ((), s.hold f rest c') ∧
      ∀ j, j < PGSIZE → pageByte c' j = s.byte (pa + j) := by
  obtain ⟨t, ht⟩ : ∃ t, t = s.hold f rest c := ⟨_, rfl⟩
  have hlen := bytes_length t pa PGSIZE
  refine ⟨(t.write f (t.bytes pa PGSIZE)).mem f, ?_, fun j hj => ?_⟩
  · rw [← ht, copyPage, bind_ok rfl, ht]
    exact congrArg (fun u => Except.ok ((), u)) (write_hold hal (by rw [← ht, hlen]))
  · have hpage : Packed.page 512 (pa + j) = pa := by
      unfold Packed.page PGSIZE at *
      omega
    rw [← byte_page hal hj, write_byte (by rwa [hlen]), getElem_bytes, ht]
    exact hold_byte (by rwa [hpage])

theorem flags_or_V {pte : Nat} (h : pte &&& PTE_V ≠ 0) : PTE_FLAGS pte ||| PTE_V = PTE_FLAGS pte := by
  have hodd : pte % 2 = 1 := by
    have hone : pte &&& 1 = pte % 2 := Nat.and_one_is_mod pte
    have : pte &&& 1 ≠ 0 := h
    omega
  apply Nat.eq_of_testBit_eq
  intro j
  rw [Nat.testBit_or]
  cases j with
  | zero =>
    have hlow : (PTE_FLAGS pte).testBit 0 = true := by
      rw [PTE_FLAGS, Nat.testBit_and, Nat.testBit_zero, hodd]
      rfl
    rw [hlow]
    rfl
  | succ j =>
    have hhigh : PTE_V.testBit (j + 1) = false := by
      show (1 : Nat).testBit (j + 1) = false
      rw [Nat.testBit_succ]
      simp
    rw [hhigh, Bool.or_false]

/-! ### `uvmcopy` -/

/-- The pages of the parent that are copied, and its page-table pages, are not the child's. -/
structure Apart (old new sz : Nat) (s : State) : Prop where
  table : ∀ q f, q.length ≤ 2 → table s old q = some f → ¬ Owns s new f
  pages : ∀ va m, va < MAXVA → va < PGROUNDUP sz → translate s old va = some m → ¬ Owns s new m.1

/-- A copy of the page of the parent. -/
def CopyOf (s : State) (old va flags : Nat) (c : Fin 512 → Nat) : Prop :=
  ∃ pa, translate s old va = some (pa, flags) ∧ ∀ j, j < PGSIZE → pageByte c j = s.byte (pa + j)

/-- What the source can stop with: everything but the end of the fuel. -/
def Panics (e : String) : Prop := e ≠ "out of fuel"

theorem unmapPage_panics (kend pt a : Nat) (b : Bool) (s : State) :
    wp Panics (unmapPage kend pt a b) (fun _ _ => a < MAXVA) s := by
  rw [unmapPage, wp_bind, walk]
  by_cases ha : a < MAXVA
  · rw [if_neg (Nat.not_le.mpr ha)]
    refine wp_of_eq (walkFrom_eq 2 (p := []) rfl rfl (.inl rfl)) ?_
    cases table s pt (down a 2) with
    | none => exact fun h => absurd h (by decide)
    | some p =>
      simp only [Option.map_some, wp_bind, wp_load]
      refine wp_ite (fun _ => fun h => absurd h (by decide)) fun _ => wp_ite (fun _ => fun h => absurd h (by decide)) fun _ => ?_
      cases b with
      | false => exact ha
      | true =>
        simp only [if_true, wp_bind]
        unfold kfree
        exact wp_ite (fun _ => fun h => absurd h (by decide)) fun _ => ha
  · rw [if_pos (Nat.not_lt.mp ha)]
    exact fun h => absurd h (by decide)

/-- The loop of `uvmunmap` panics before it runs out of fuel. -/
theorem unmapLoop_panics {pt last a fuel : Nat} {b : Bool} (hal : a % PGSIZE = 0) (h : Enough fuel a) :
    wp Panics (unmapLoop kend pt last b fuel a) (fun _ _ => True) s := by
  induction fuel generalizing a s with
  | zero => exact absurd h.1 (Nat.lt_irrefl 0)
  | succ fuel ih =>
    rw [unmapLoop, wp_bind]
    refine (unmapPage_panics kend pt a b s).mono fun _ t ha => wp_ite (fun _ => trivial) fun _ => ?_
    have hmod : (a + PGSIZE) % 2 ^ 64 = a + PGSIZE := by
      unfold MAXVA PGSIZE at *
      omega
    have hal' : (a + PGSIZE) % PGSIZE = 0 := by rw [Nat.add_mod_right, hal]
    have hfuel := (h.step ha).1
    rw [hal, Nat.sub_zero] at hfuel
    rw [hmod]
    exact ih hal' hfuel

theorem translate_old {C : Nat → Nat → (Fin 512 → Nat) → Prop} (hapart : Apart old new sz s)
    (h : Extended kend new 0 i C s t) (va : Nat) : translate t old va = translate s old va :=
  translate_congr (fun q f hq hf => h.change.frame f (hapart.table q f hq hf)) va

section Loop

variable (hapart : Apart old new sz s) (h : Extended kend new 0 i (CopyOf s old) s t)

include hapart h

/-- The page of the parent is copied to a page that the child has just got. -/
theorem copyOf_hold {pte : Nat} (hsz : sz ≤ MAXVA) (hi : i < sz) (hv : pte &&& PTE_V ≠ 0)
    (hpte : translate t old i = some (PTE2PA pte, PTE_FLAGS pte)) (hfree : t.free = f :: rest) (c : Fin 512 → Nat) :
    ∃ c', copyPage (PTE2PA pte) f (t.hold f rest c) = .ok ((), t.hold f rest c') ∧
      ∀ va, va / PGSIZE = i / PGSIZE → CopyOf s old va (PTE_FLAGS pte ||| PTE_V) c' := by
  have hin : f ∈ t.free := head_free hfree
  have hold := (translate_old hapart h i).symm.trans hpte
  have hpa := translate_aligned hpte
  have hother := hapart.pages i _ (by omega) (Nat.lt_of_lt_of_le hi (le_PGROUNDUP hsz)) hold
  have hne : PTE2PA pte ≠ f := fun heq => hother ((h.change.owns _).mp (.inl (heq ▸ hin)))
  have hal := (h.change.space.sound.alloc.page f hin).1
  obtain ⟨c', hrun, hbytes⟩ : ∃ c', copyPage (PTE2PA pte) f (t.hold f rest c) = .ok ((), t.hold f rest c') ∧
      ∀ j, j < PGSIZE → pageByte c' j = t.byte (PTE2PA pte + j) := copyPage_hold hal hpa hne
  refine ⟨c', hrun, fun va hva => ⟨PTE2PA pte, ?_, fun j hj => ?_⟩⟩
  · rw [translate_page hva, hold, flags_or_V hv]
  · rw [hbytes j hj, byte_page hpa hj, byte_page hpa hj, h.change.frame _ hother]

end Loop

theorem uvmcopyLoop_ok {fuel : Nat} (hapart : Apart old new sz s) (hsz : sz ≤ MAXVA)
    (hfresh : ∀ va, va < PGROUNDUP sz → translate s new va = none) (h : Extended kend new 0 i (CopyOf s old) s t)
    (hal : i % PGSIZE = 0) (hi : i ≤ PGROUNDUP sz) (hfuel : Enough fuel i) :
    wp Panics (uvmcopyLoop kend old new sz fuel i)
      (fun r u => r = 0 → Extended kend new 0 (PGROUNDUP sz) (CopyOf s old) s u) t := by
  have htop : PGROUNDUP sz ≤ MAXVA := PGROUNDUP_le hsz (by decide) le_rfl
  induction fuel generalizing i t with
  | zero => exact absurd hfuel.1 (Nat.lt_irrefl 0)
  | succ fuel ih =>
    rw [uvmcopyLoop]
    by_cases hdone : sz ≤ i
    · rw [if_pos hdone]
      have heq : PGROUNDUP sz = i := Nat.le_antisymm (PGROUNDUP_le hdone hal (by omega)) hi
      exact fun _ => heq ▸ h
    rw [if_neg hdone, wp_bind]
    refine wp_of_eq (walk_eq (by omega)) ?_
    cases hb : table t old (down i 2) with
    | none => exact fun h => absurd h (by decide)
    | some b =>
      simp only [Option.map_some, wp_bind, wp_load]
      refine wp_ite (fun _ => fun h => absurd h (by decide)) fun hv => ?_
      have hnext := next_le_PGROUNDUP hal (Nat.lt_of_not_le hdone) hsz
      have hpte : translate t old i = some (PTE2PA (t.mem b (PX 0 i)), PTE_FLAGS (t.mem b (PX 0 i))) := by
        rw [translate_eq hb, leaf, if_pos hv]
      have hfree : translate t new i = none := by
        rw [h.map i (by omega) (.inr le_rfl)]
        exact hfresh i (Nat.lt_of_lt_of_le (Nat.lt_add_of_pos_right (by decide)) hnext)
      have hflags : PTE_FLAGS (t.mem b (PX 0 i)) < 2 ^ 10 := Nat.lt_of_le_of_lt Nat.and_le_right (by decide)
      rw [wp_bind]
      refine (mapNew_extended (C := CopyOf s old) h.change.space hal (by omega) hfree hflags fun f rest c hf =>
        copyOf_hold hapart h hsz (Nat.lt_of_not_le hdone) hv hpte hf c).mono fun r t' hr => ?_
      rcases hr.2 with ⟨rfl, ht'⟩ | ⟨rfl, -⟩
      · have hmod : (i + PGSIZE) % 2 ^ 64 = i + PGSIZE := by
          unfold MAXVA at *
          omega
        have hal' : (i + PGSIZE) % PGSIZE = 0 := by rw [Nat.add_mod_right, hal]
        have hfuel' := (hfuel.step (by omega)).1
        rw [hal, Nat.sub_zero] at hfuel'
        rw [if_pos rfl, hmod]
        exact ih (h.trans ht' (Nat.zero_le _) (Nat.le_add_right _ _)) hal' hnext hfuel'
      · rw [if_neg Bool.false_ne_true, wp_bind]
        exact (unmapLoop_panics (by decide) (enough_rounds _)).mono fun _ _ _ (hr : (-1 : Int) = 0) => absurd hr (by decide)

/-! ### Writes of user code -/

/-- A store of user code; without a page it faults. -/
def userWrite (pt : Nat) (s : State) (w : Nat × UInt8) : State :=
  match phys s pt w.1 with
  | some a => s.write a [w.2]
  | none => s

def userWrites (pt : Nat) (s : State) (ws : List (Nat × UInt8)) : State := ws.foldl (userWrite pt) s

/-- What user code reads. -/
def seen (s : State) (pt va : Nat) : Option UInt8 := (phys s pt va).map s.byte

theorem seen_eq (s : State) (pt va : Nat) :
    seen s pt va = (user s pt va).map fun f => pageByte (s.mem f) (va % PGSIZE) := by
  rw [seen, phys]
  cases hf : user s pt va with
  | none => rfl
  | some f => exact congrArg some (byte_page (user_aligned hf) (Nat.mod_lt _ (by decide)))

/-- The same page with the same contents. -/
theorem seen_of_user {pt : Nat} (h : user t pt va = user s pt va) (hmem : ∀ f, user s pt va = some f → t.mem f = s.mem f) :
    seen t pt va = seen s pt va := by
  rw [seen_eq, seen_eq, h]
  cases hf : user s pt va with
  | none => rfl
  | some f => rw [Option.map_some, Option.map_some, hmem f hf]

/-- The memory outside `P` is as it was. -/
def SameOutside (P : Nat → Prop) (s t : State) : Prop := ∀ f, ¬ P f → t.mem f = s.mem f

section Writes

variable {pt hi : Nat} {P : Nat → Prop}

theorem userWrite_same (h : ∀ va f, va < hi → user s pt va = some f → P f) {w : Nat × UInt8} (hw : w.1 < hi) :
    SameOutside P s (userWrite pt s w) := fun g hg => by
  unfold userWrite
  cases ha : phys s pt w.1 with
  | none => rfl
  | some a =>
    refine Packed.write_of_ne fun i hi => ?_
    obtain rfl : i = 0 := Nat.lt_one_iff.mp hi
    rintro rfl
    exact hg (h w.1 _ hw (page_phys ha))

/-- Stores through a table change user pages only, as long as those are no page-table pages. -/
theorem userWrites_same (h : ∀ va f, va < hi → user s pt va = some f → P f)
    (hP : ∀ f, P f → Outside next s.mem pt 2 f) (ws : List (Nat × UInt8)) (hws : ∀ w ∈ ws, w.1 < hi) :
    SameOutside P s (userWrites pt s ws) := by
  have htable : ∀ {t}, SameOutside P s t → ∀ q f, q.length ≤ 2 → table s pt q = some f → t.mem f = s.mem f :=
    fun ht q f hq hf => ht f fun hin => hP f hin q hq hf
  induction ws using List.reverseRecOn with
  | nil => exact fun _ _ => rfl
  | append_singleton ws w ih =>
    have hsame := ih fun w hw => hws w (List.mem_append_left _ hw)
    have huser := user_congr (translate_congr (htable hsame))
    have hstep : SameOutside P (userWrites pt s ws) (userWrite pt (userWrites pt s ws) w) :=
      userWrite_same (fun va f hva hf => h va f hva (huser va ▸ hf))
        (hws w (List.mem_append_right _ (List.mem_singleton_self w)))
    rw [userWrites, List.foldl_append]
    exact fun f hf => (hstep f hf).trans (hsame f hf)

/-- What a table reaches outside `P` looks the same. -/
theorem seen_same (h : SameOutside P s t) (htable : ∀ q f, q.length ≤ 2 → table s pt q = some f → ¬ P f)
    (hpage : ∀ f, user s pt va = some f → ¬ P f) : seen t pt va = seen s pt va := by
  exact seen_of_user (user_congr (translate_congr fun q f hq hf => h f (htable q f hq hf)) va) fun f hf => h f (hpage f hf)

end Writes

/-! ### Main result -/

/-- The child has a copy of every page, in a page of its own. -/
structure Copies (old new sz : Nat) (s t : State) : Prop where
  copy : ∀ va, va < PGROUNDUP sz → ∃ pa flags f, translate s old va = some (pa, flags) ∧
    translate t new va = some (f, flags) ∧ f ∈ s.free ∧ ∀ j, j < PGSIZE → t.byte (f + j) = s.byte (pa + j)
  distinct : ∀ va vb m n, va < PGROUNDUP sz → vb < PGROUNDUP sz → translate t new va = some m →
    translate t new vb = some n → m.1 = n.1 → va / PGSIZE = vb / PGSIZE

/-- The parent has its table and its memory. -/
structure Untouched (old sz : Nat) (s t : State) : Prop where
  table : ∀ q f, q.length ≤ 2 → table s old q = some f → t.mem f = s.mem f
  map : ∀ va, translate t old va = translate s old va
  pages : ∀ va m, va < PGROUNDUP sz → translate s old va = some m → t.mem m.1 = s.mem m.1

/-- When `uvmcopy` succeeds, the child has a copy of the memory of the parent, the parent is as before, and
    neither of them sees what the other writes. -/
theorem uvmcopy_copies {kend old new sz : Nat} {s t : State} (hchild : AddressSpace kend s new)
    (hparent : ∀ va, va < sz → va < MAXVA ∧ ∃ m, translate s old va = some m)
    (hfresh : ∀ va, va < PGROUNDUP sz → translate s new va = none) (hapart : Apart old new sz s)
    (hrun : uvmcopy kend old new sz s = .ok (0, t)) :
    Copies old new sz s t ∧ Untouched old sz s t ∧
    (∀ ws, (∀ w ∈ ws, w.1 < PGROUNDUP sz) → ∀ vb, vb < PGROUNDUP sz → seen (userWrites new t ws) old vb = seen t old vb) ∧
    ((∀ va f, user t old va = some f → Outside next t.mem old 2 f) → ∀ ws, (∀ w ∈ ws, w.1 < PGROUNDUP sz) →
      ∀ vb, vb < PGROUNDUP sz → seen (userWrites old t ws) new vb = seen t new vb) := by
  have hsz : sz ≤ MAXVA := by
    by_contra hbig
    exact absurd (hparent MAXVA (Nat.lt_of_not_le hbig)).1 (Nat.lt_irrefl _)
  have htop : PGROUNDUP sz ≤ MAXVA := PGROUNDUP_le hsz (by decide) le_rfl
  have hext : Extended kend new 0 (PGROUNDUP sz) (CopyOf s old) s t := by
    have hok := uvmcopyLoop_ok hapart hsz hfresh (.refl hchild 0) (by decide) (Nat.zero_le _) (enough_rounds 0)
    rw [wp, show uvmcopyLoop kend old new sz rounds 0 s = .ok (0, t) from hrun] at hok
    exact hok rfl
  have hmap := translate_old hapart hext
  -- what the child has is the child's, and what the parent has is not
  have hchildOwns : ∀ va f, va < PGROUNDUP sz → user t new va = some f → Owns s new f := fun va f hva hf => by
    obtain ⟨hlt, flags, hm, -⟩ := user_eq_some hf
    exact (hext.change.owns f).mp (.inr (.inr ⟨va, _, hlt, hm, rfl⟩))
  have hparentOwns : ∀ va f, va < PGROUNDUP sz → user t old va = some f → ¬ Owns s new f := fun va f hva hf => by
    obtain ⟨hlt, flags, hm, -⟩ := user_eq_some hf
    rw [hmap] at hm
    exact hapart.pages va _ hlt hva hm
  have htable : ∀ q f, q.length ≤ 2 → table t old q = some f → ¬ Owns s new f := fun q f hq hf => by
    have hnode : table t old q = table s old q :=
      node_congr (d := 2) (fun q' g _ hq' hg => by rw [hext.change.frame g (hapart.table q' g hq'.le hg)]) hq
    exact hapart.table q f hq (hnode ▸ hf)
  refine ⟨⟨fun va hva => ?_, fun va vb m n hva hvb hm hn heq => ?_⟩, ⟨fun q f hq hf => ?_, hmap, fun va m hva hm => ?_⟩,
    fun ws hws vb hvb => ?_, fun hout ws hws vb hvb => ?_⟩
  · obtain ⟨f, flags, hf, hm, pa, hold, hbytes⟩ := hext.new va (by omega) (Nat.zero_le _) hva
    refine ⟨pa, flags, f, hold, hm, hf, fun j hj => ?_⟩
    rw [byte_page (translate_aligned hm) hj, hbytes j hj]
  · exact hext.change.space.distinct va vb m n (by omega) (by omega) hm hn heq
  · exact hext.change.frame f (hapart.table q f hq hf)
  · exact hext.change.frame _ (hapart.pages va m (by omega) hva hm)
  · have hsame : SameOutside (fun f => ∃ va, va < PGROUNDUP sz ∧ user t new va = some f) t (userWrites new t ws) :=
      userWrites_same (fun va f hva hf => ⟨va, hva, hf⟩) (fun f ⟨va, hva, hf⟩ => by
        obtain ⟨hlt, flags, hm, -⟩ := user_eq_some hf
        exact (hext.change.space.data va _ hlt hm).2) ws hws
    exact seen_same hsame (fun q f hq hf ⟨va, hva, hn⟩ => htable q f hq hf (hchildOwns va f hva hn))
      fun f hf ⟨va, hva, hn⟩ => hparentOwns vb f hvb hf (hchildOwns va f hva hn)
  · have hsame : SameOutside (fun f => ∃ va, va < PGROUNDUP sz ∧ user t old va = some f) t (userWrites old t ws) :=
      userWrites_same (fun va f hva hf => ⟨va, hva, hf⟩) (fun f ⟨va, _, hf⟩ => hout va f hf) ws hws
    exact seen_same hsame (fun q f hq hf ⟨va, hva, hn⟩ => hparentOwns va f hva hn
      ((hext.change.owns f).mp (.inr (.inl ⟨q, hq, hf⟩)))) fun f hf ⟨va, hva, hn⟩ =>
        hparentOwns va f hva hn (hchildOwns vb f hvb hf)

/-- There is a page for the copy, and the page-table pages are there. -/
theorem mapNew_table {fill : Nat → M Unit} {pt a perm b : Nat} (h : AddressSpace kend s pt) (hal : a % PGSIZE = 0)
    (ha : a < MAXVA) (hnew : translate s pt a = none) (hfree : s.free = f :: rest) (hb : table s pt (down a 2) = some b)
    (hfill : ∀ c, ∃ c', fill f (s.hold f rest c) = .ok ((), s.hold f rest c')) :
    ∃ t, mapNew kend pt a perm fill s = .ok (true, t) := by
  obtain ⟨c, hrun⟩ := hfill fun _ => 5 * 0x0101010101010101
  have htable : table (s.hold f rest c) pt (down a 2) = some b := (table_hold h hfree le_rfl).trans hb
  have hentry : ¬ (s.hold f rest c).mem b (PX 0 a) &&& PTE_V ≠ 0 := fun hv => by
    have hmap := (translate_hold (c := c) h hfree a).trans hnew
    rw [translate_eq htable, leaf, if_pos hv] at hmap
    cases hmap
  have hwalk : walk pt a true (s.hold f rest c) = .ok (some (b, PX 0 a), s.hold f rest c) := by
    rw [walk, if_neg (Nat.not_le.mpr ha), walkFrom_eq 2 (p := []) rfl rfl (.inr (by rw [htable]; simp)), htable]
    rfl
  have hpage : mapPage pt a f perm (s.hold f rest c) =
      .ok (true, (s.hold f rest c).store b (PX 0 a) (PA2PTE f ||| perm ||| PTE_V)) := by
    rw [mapPage, bind_ok hwalk]
    exact congrFun (if_neg hentry) _
  refine ⟨(s.hold f rest c).store b (PX 0 a) (PA2PTE f ||| perm ||| PTE_V), ?_⟩
  rw [mapNew, bind_ok (kalloc_cons hfree)]
  simp only
  rw [bind_ok hrun, mappages_page hal ha, bind_ok (a := 0) (by rw [bind_ok hpage]; rfl)]
  rfl

theorem mapNew_copied {pt a perm : Nat} (h : AddressSpace kend s pt) (hal : a % PGSIZE = 0) (ha : a < MAXVA)
    (hnew : translate s pt a = none) (hperm : perm < 2 ^ 10) (hpa : pa % PGSIZE = 0) (hne : pa ∉ s.free)
    (hrun : mapNew kend pt a perm (copyPage pa) s = .ok (true, t)) :
    Extended kend pt a (a + PGSIZE) (fun _ _ _ => True) s t := by
  have hok := mapNew_extended (E := fun _ => False) (C := fun _ _ _ => True) h hal ha hnew hperm fun f rest c hfree => by
    have hf := head_free hfree
    obtain ⟨c', hcopy, -⟩ := copyPage_hold (h.sound.alloc.page f hf).1 hpa (fun heq => hne (heq ▸ hf))
    exact ⟨c', hcopy, fun _ _ => trivial⟩
  rw [wp, hrun] at hok
  rcases hok.2 with ⟨-, hext⟩ | ⟨hr, -⟩
  · exact hext
  · cases hr

/-- A page of the parent has been copied. -/
theorem uvmcopyLoop_step {fuel flags : Nat} (hi : i < sz) (hva : i < MAXVA) (hm : translate s old i = some (pa, flags))
    (hrun : mapNew kend new i flags (copyPage pa) s = .ok (true, t)) :
    uvmcopyLoop kend old new sz (fuel + 1) i s = uvmcopyLoop kend old new sz fuel ((i + PGSIZE) % 2 ^ 64) t := by
  obtain ⟨b, hb⟩ := table_of_translate hm
  rw [translate_eq hb, leaf] at hm
  split at hm
  · rename_i hv
    obtain ⟨rfl, rfl⟩ := Prod.mk.inj (Option.some.inj hm)
    rw [uvmcopyLoop, if_neg (Nat.not_le.mpr hi), bind_ok (walk_eq hva), hb]
    simp only [Option.map_some]
    rw [bind_ok rfl, if_neg hv, bind_ok hrun]
    rfl
  · cases hm

/-- A parent with two pages, an empty table for the child, and four free pages. -/
def forked : State := ⟨[0x87ffa000, 0x87ff9000, 0x87ff8000, 0x87ff7000], twoPages.mem⟩

theorem forked_zero : ∀ i, forked.mem 0x87ffb000 i = 0 := by decide +kernel

theorem forked_map {va : Nat} (hva : va < 2 * PGSIZE) :
    translate forked 0x87fff000 va = some (0x87ff0000 + va / PGSIZE * PGSIZE, PTE_R ||| PTE_W ||| PTE_U ||| PTE_V) := by
  have hmap : translate forked 0x87fff000 va = _ := twoPages_step.map va (Nat.lt_trans hva (by decide))
  rw [hmap, withRange, if_pos ⟨Nat.zero_le _, by omega⟩, Nat.sub_zero]

theorem forked_owns {f : Nat} (h : Owns forked 0x87ffb000 f) :
    f ∈ [0x87ffb000, 0x87ffa000, 0x87ff9000, 0x87ff8000, 0x87ff7000] := by
  rcases h with hin | ⟨q, -, hq⟩ | ⟨va, m, -, hm, -⟩
  · exact List.mem_cons_of_mem _ hin
  · rw [table_zero forked_zero] at hq
    split at hq
    · rw [← Option.some.inj hq]
      exact List.mem_cons_self
    · cases hq
  · rw [translate_zero forked_zero] at hm
    cases hm

theorem forked_apart : Apart 0x87fff000 0x87ffb000 4097 forked := by
  refine ⟨fun q f hq hf ho => ?_, fun va m hlt hva hm ho => ?_⟩
  · have h₁ := twoPages_table hq hf
    have h₂ := forked_owns ho
    simp only [List.mem_cons, List.not_mem_nil, or_false] at h₁ h₂
    omega
  · have hva : va < 2 * PGSIZE := hva
    rw [forked_map hva, Option.some.injEq] at hm
    have h₂ := forked_owns ho
    rw [← hm] at h₂
    simp only [List.mem_cons, List.not_mem_nil, or_false, PGSIZE] at h₂ hva
    omega

theorem forked_space : AddressSpace 0x80020000 forked 0x87ffb000 :=
  addressSpace_zero forked_zero (by unfold RamPage; decide) (by decide) (by decide)

/-- What `uvmcopy` does for a page of the parent. -/
abbrev forkPage (va : Nat) : M Bool :=
  mapNew 0x80020000 0x87ffb000 va (PTE_R ||| PTE_W ||| PTE_U ||| PTE_V) (copyPage (0x87ff0000 + va))

theorem forked_first : (forkPage 0 forked).toOption.map (fun x => (x.1, x.2.free)) = some (true, [0x87ff7000]) := by
  decide +kernel

/-- The second page takes the last page, and the page-table pages of the first. -/
theorem forked_run : ∃ t, uvmcopy 0x80020000 0x87fff000 0x87ffb000 4097 forked = .ok (0, t) := by
  obtain ⟨t, hrun, hfree⟩ : ∃ t, forkPage 0 forked = .ok (true, t) ∧ t.free = [0x87ff7000] := by
    have hfirst := forked_first
    cases heq : forkPage 0 forked with
    | error e =>
      rw [heq] at hfirst
      cases hfirst
    | ok x =>
      obtain ⟨r, t⟩ := x
      rw [heq] at hfirst
      obtain ⟨rfl, hfree⟩ : r = true ∧ t.free = [0x87ff7000] := Prod.mk.inj (Option.some.inj hfirst)
      exact ⟨t, rfl, hfree⟩
  have hext := mapNew_copied forked_space (by decide) (by decide) (translate_zero forked_zero 0) (by decide) (by decide)
    (by decide) hrun
  have hnew : translate t 0x87ffb000 PGSIZE = none :=
    (hext.map PGSIZE (by decide) (.inr le_rfl)).trans (translate_zero forked_zero _)
  obtain ⟨f, flags, -, hm, -⟩ := hext.new 0 (by decide) le_rfl (by decide)
  obtain ⟨b, hb⟩ := table_of_translate hm
  obtain ⟨u, hsecond⟩ : ∃ u, forkPage PGSIZE t = .ok (true, u) := by
    refine mapNew_table hext.change.space (by decide) (by decide) hnew hfree hb fun c => ?_
    obtain ⟨c', hcopy, -⟩ : ∃ c', copyPage 0x87ff1000 0x87ff7000 (t.hold 0x87ff7000 [] c) =
      .ok ((), t.hold 0x87ff7000 [] c') ∧ _ := copyPage_hold (by decide) (by decide) (by decide)
    exact ⟨c', hcopy⟩
  have hmap : translate t 0x87fff000 PGSIZE = some (0x87ff0000 + PGSIZE, PTE_R ||| PTE_W ||| PTE_U ||| PTE_V) :=
    (translate_old forked_apart hext PGSIZE).trans (forked_map (by decide))
  obtain ⟨fuel, hfuel⟩ : ∃ fuel, rounds = fuel + 3 := ⟨rounds - 3, by decide⟩
  have hnext : (0 + PGSIZE) % 2 ^ 64 = PGSIZE := by decide
  refine ⟨u, ?_⟩
  rw [uvmcopy, hfuel, uvmcopyLoop_step (by decide) (by decide) (forked_map (by decide)) hrun, hnext,
    uvmcopyLoop_step (by decide) (by decide) hmap hsecond, uvmcopyLoop, if_pos (by decide)]
  rfl

/-- Two pages are copied. -/
theorem uvmcopy_copies_forked : ∃ t, uvmcopy 0x80020000 0x87fff000 0x87ffb000 4097 forked = .ok (0, t) ∧
    Copies 0x87fff000 0x87ffb000 4097 forked t ∧ Untouched 0x87fff000 4097 forked t := by
  have hparent : ∀ va, va < 4097 → va < MAXVA ∧ ∃ m, translate forked 0x87fff000 va = some m := fun va hva =>
    ⟨Nat.lt_trans hva (by decide), _, forked_map (Nat.lt_trans hva (by decide))⟩
  obtain ⟨t, hrun⟩ := forked_run
  obtain ⟨hcopies, hsame, -⟩ := uvmcopy_copies forked_space hparent (fun va _ => translate_zero forked_zero va) forked_apart hrun
  exact ⟨t, hrun, hcopies, hsame⟩

end Xv6.Sv39
