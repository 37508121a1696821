import Xv6.Kernel.Mem.SyscallSpec

/-! The address spaces of all processes, over sequences of system calls.

    A process makes a system call with an instruction in its memory: the page is mapped, and a user
    may execute it. A process that cannot make one can still be made to exit.

    ```
    [0 … PGROUNDUP(sz))  …………………………………………  TRAPFRAME TRAMPOLINE
    ```
-/

namespace Xv6.Mem

open View Function
open Prog (wp_bind)
open Procs (Slot ProcState initproc)

/-! ### Translation -/

/-- The leaf entry that the processor finds for `va`, from a page-table page of level `level + 1`. -/
def State.leafFrom (s : State) (va : Nat) : Nat → Frame → Option Pte
  | 0, pt =>
    let e := s.pte pt (px 0 va)
    if e.v && e.isLeaf then some e else none
  | level + 1, pt =>
    let e := s.pte pt (px (level + 1) va)
    if !e.v then none else if e.isLeaf then some e else s.leafFrom va level e.ppn

/-- The leaf entry for `va` in the page table with root `R`. -/
def State.leaf (s : State) (R : Frame) (va : Nat) : Option Pte := s.leafFrom va 2 R

/-! ### System calls -/

inductive Call
  | fork (np : Slot)
  | exec (x : Image) (args : List Arg)
  | sbrk (n : Int)
  | wait (np : Slot) (addr : Nat)

def Call.prog (K : Link) (p : Slot) : Call → Kernel Bool
  | fork np => Mem.fork K p np
  | exec x args => sysExec K p x args
  | sbrk n => growproc p n
  | wait np addr => Mem.wait p np addr

/-- `fork` has found a slot that is not in use, `wait` a child that is a zombie. -/
def Call.enabled (s : State) (p : Slot) : Call → Prop
  | fork np => (s.proc np).state = .unused
  | wait np _ => (s.proc np).state = .zombie ∧ (s.proc np).parent = some p
  | _ => True

instance (s : State) (p : Slot) (c : Call) : Decidable (c.enabled s p) := by
  cases c <;> unfold Call.enabled <;> infer_instance

inductive Event
  /-- The process makes a system call at `pc`. -/
  | call (p : Slot) (pc : Nat) (c : Call)
  | exit (p : Slot)

/-- The process is neither gone nor a zombie. -/
def Proc.live (P : Proc) : Prop := P.state ≠ .unused ∧ P.state ≠ .zombie

instance (P : Proc) : Decidable P.live := inferInstanceAs (Decidable (_ ∧ _))

/-- The process can fetch an instruction at `pc`. -/
def State.fetches (s : State) (p : Slot) (pc : Nat) : Prop :=
  pc < 2 ^ 39 ∧ (((s.proc p).pagetable.bind fun R => s.leaf R pc).any fun e => e.perm.x && e.perm.u) = true

instance (s : State) (p : Slot) (pc : Nat) : Decidable (s.fetches p pc) := inferInstanceAs (Decidable (_ ∧ _))

def Event.enabled (s : State) : Event → Prop
  | call p pc c => (s.proc p).live ∧ s.fetches p pc ∧ c.enabled s p
  | exit p => (s.proc p).live ∧ p ≠ initproc

instance (s : State) (e : Event) : Decidable (e.enabled s) := by
  cases e <;> unfold Event.enabled <;> infer_instance

def Event.prog (K : Link) : Event → Kernel Unit
  | call p _ c => do
    let _ ← c.prog K p
    pure ()
  | exit p => Mem.exit p

/-- A panic, or the state after the event. -/
def outcome (K : Link) (s : State) (e : Event) : Except String State :=
  ((e.prog K).run (Op.run K) s).map Prod.snd

def step (K : Link) (s : State) (e : Event) : Option State :=
  if e.enabled s then (outcome K s e).toOption else none

/-- The machine has started the first process; there were frames for it. -/
structure Booted (K : Link) (s : State) : Prop where
  boot : ∃ free pte, free.Nodup ∧ (∀ f ∈ free, K.kend ≤ f ∧ f < PHYSTOP) ∧ 7 ≤ free.length ∧
    (userinit K).run (Op.run K) ⟨free, pte, fun _ => .free⟩ = .ok ((), s)

variable {K : Link} {alone : Bool} {E : String → Prop} {v w : View} {ρ : Frame → Option Cell}
  {π : Slot → Option Proc} {S X : Nat → Prop} {R R₀ f : Frame} {m n va sz : Nat} {p q np : Slot} {P P₀ : Proc}
  {s t : State}

/-! ### The processor and the view -/

theorem Fits.leafFrom (h : Fits K alone v s) (hs : v.stale = none) (va : Nat) {x : Pte} : ∀ {level pt e}, level ≤ 2 →
    v.cell pt = some (.node R (level + 1) (vpn va / 512 ^ (level + 1)) e) →
    (s.leafFrom va level pt = some x ↔
      ∃ f e, v.cell f = some (.node R 1 (vpn va / 512) e) ∧ (e (idx (vpn va))).v = true ∧ e (idx (vpn va)) = x)
  | 0, pt, e, _, hpt => by
    have hpt' : v.cell pt = some (.node R 1 (vpn va / 512) e) := by simpa using hpt
    have hpx : px 0 va = idx (vpn va) := by rw [px_eq]; simp
    rw [State.leafFrom, h.table hpt, hpx]
    constructor
    · intro hx
      split at hx
      · rename_i hv
        exact ⟨pt, e, hpt', (Bool.and_eq_true_iff.mp hv).1, Option.some.inj hx⟩
      · cases hx
    · rintro ⟨f, e', hf, hv, rfl⟩
      obtain rfl := h.good.trees.unique hpt' hf
      obtain ⟨-, -, -, rfl⟩ := node_inj hpt' hf
      obtain ⟨hleaf, -⟩ := h.good.trees.down hf hv (by rw [hs]; nofun)
      rw [hv, hleaf.mpr rfl]
      rfl
  | level + 1, pt, e, hlevel, hpt => by
    have hplace : 512 * (vpn va / 512 ^ (level + 1 + 1)) + ((px (level + 1) va : Fin 512) : Nat) =
        vpn va / 512 ^ (level + 1) := by
      rw [px_eq]
      exact pow_step _ _
    rw [State.leafFrom, h.table hpt]
    by_cases hv : (e (px (level + 1) va)).v = true
    · obtain ⟨hleaf, hsp | ⟨e', he'⟩⟩ := h.good.trees.down hpt hv (by rw [hs]; nofun)
      · exact absurd hsp.1.1 (Nat.succ_ne_zero level)
      · have hno : (e (px (level + 1) va)).isLeaf = false :=
          Bool.eq_false_iff.mpr fun hl => Nat.succ_ne_zero level (hleaf.mp hl)
        simp only [hv, hno, Bool.not_true, Bool.false_eq_true, if_false]
        rw [hplace] at he'
        exact h.leafFrom hs va (by omega) he'
    · have hv := Bool.eq_false_iff.mpr hv
      simp only [hv, Bool.not_false, if_true]
      refine iff_of_false nofun fun ⟨f, e', hf, _⟩ => ?_
      obtain ⟨g, eg, hg⟩ := h.good.trees.ancestor hf level (by omega)
      rw [Nat.div_div_eq_div_mul, ← Nat.pow_succ', Nat.add_comm 1 level] at hg
      exact h.good.trees.no_child hpt hv (by rw [hplace]; exact hg)

/-- The processor sees what the view says. -/
theorem Fits.leaf (h : Fits K alone v s) (hs : v.stale = none) {e : Fin 512 → Pte} (hR : v.cell R = some (.node R 3 0 e))
    (hva : va < 2 ^ 39) {x : Pte} : s.leaf R va = some x ↔
      ∃ f e, v.cell f = some (.node R 1 (vpn va / 512) e) ∧ (e (idx (vpn va))).v = true ∧ e (idx (vpn va)) = x := by
  refine h.leafFrom hs va le_rfl (e := e) ?_
  have h0 : vpn va / 512 ^ (2 + 1) = 0 := by
    unfold vpn PGSIZE
    omega
  rw [h0]
  exact hR

theorem Fits.isSome_leaf (h : Fits K alone v s) (hs : v.stale = none) {e : Fin 512 → Pte}
    (hR : v.cell R = some (.node R 3 0 e)) (hva : va < 2 ^ 39) :
    (s.leaf R va).isSome = true ↔ v.mapped R (vpn va) := by
  rw [Option.isSome_iff_exists]
  constructor
  · rintro ⟨x, hx⟩
    obtain ⟨f, e, hf, hv, -⟩ := (h.leaf hs hR hva).mp hx
    exact ⟨f, e, hf, hv⟩
  · rintro ⟨f, e, hf, hv⟩
    exact ⟨_, (h.leaf hs hR hva).mpr ⟨f, e, hf, hv, rfl⟩⟩

/-! ### One thread -/

/-- The view of a thread that runs alone: it has all processes, and all frames of the set `A` that are
    not on the free list. -/
structure Whole (K : Link) (A : Frame → Prop) (v : View) (s : State) : Prop where
  fits : Fits K true v s
  pool : ∀ f, f ∈ s.free ∨ v.cell f ≠ none ↔ A f
  proc : ∀ q, v.proc q = some (s.proc q)

theorem sound_whole (K : Link) (A : Frame → Prop) : Prog.Sound (Op.wp K true) (Op.run K) (Whole K A) := by
  intro o Q v s h hwp
  obtain ⟨r, t, w, hrun, hfit, hQ, hloc⟩ := h.fits.op o hwp
  refine ⟨r, t, w, hrun, ⟨hfit, fun f => (hloc.pool f).trans (h.pool f), fun q => ?_⟩, hQ⟩
  obtain ⟨P, hP⟩ := Option.ne_none_iff_exists'.mp fun hn => by
    have := (hloc.procs q).mp hn
    rw [h.proc q] at this
    cases this
  rw [hP, hfit.proc hP]

/-- Every process that is in use has its address space. -/
structure Spaces (K : Link) (v : View) : Prop where
  good : Good K v
  stale : v.stale = none
  unused : ∀ {q P}, v.proc q = some P → P.state = .unused → P = .free
  used : ∀ {q P}, v.proc q = some P → P.state ≠ .unused → ∃ R f, P.pagetable = some R ∧ P.tf = some f ∧
    ∀ n, v.mapped R n ↔ upTo (pages P.sz) (Special 0) n

namespace Spaces

/-- The record and the address space of `q` are as they were, or as they should be. -/
theorem step (h : Spaces K v) (hgood : Good K w) (hs : w.stale = none)
    (hown : ∀ {q P}, w.proc q = some P →
      (v.proc q = some P ∧ ∀ R, P.pagetable = some R → v.Same R w) ∨
      (P = .free) ∨ (P.state ≠ .unused ∧ ∃ R f, P.pagetable = some R ∧ P.tf = some f ∧
        ∀ n, w.mapped R n ↔ upTo (pages P.sz) (Special 0) n)) : Spaces K w where
  good := hgood
  stale := hs
  unused hq hst := by
    rcases hown hq with ⟨hv, -⟩ | hfree | ⟨hne, -⟩
    · exact h.unused hv hst
    · exact hfree
    · exact absurd hst hne
  used hq hst := by
    rcases hown hq with ⟨hv, hsame⟩ | rfl | ⟨-, hmap⟩
    · obtain ⟨R, f, hR, hf, hmap⟩ := h.used hv hst
      exact ⟨R, f, hR, hf, fun n => (hsame R hR).mapped.trans (hmap n)⟩
    · exact absurd rfl hst
    · exact hmap

/-- The page table of a process is a node. -/
theorem root (h : Spaces K v) (hq : v.proc q = some P) (hR : P.pagetable = some R) :
    ∃ e, v.cell R = some (.node R 3 0 e) :=
  h.good.held.root hq hR (by rw [h.stale]; nofun)

theorem root_ne (h : Spaces K v) (hq : v.proc q = some P) (hR : P.pagetable = some R) (hnew : v.cell R₀ = none) :
    R ≠ R₀ := by
  rintro rfl
  obtain ⟨e, he⟩ := h.root hq hR
  rw [hnew] at he
  cases he

/-- The trapframe of a process is not a page-table page. -/
theorem same_of_table (h : Spaces K v) (hnew : v.cell R₀ = none) (hq : v.proc q = some P)
    (T : Table K R₀ v.cell π w S) : ∀ R, P.pagetable = some R → v.Same R w :=
  fun _ hR _ _ _ _ => T.node_iff (h.root_ne hq hR hnew)

theorem fork (h : Spaces K v) (hsz : 0 < sz) {r : Bool} (hw : Forked K true p np sz v r w) : Spaces K w := by
  cases hw with
  | none => exact h
  | lost hR T =>
    refine h.step T.good T.stale fun hq => .inl ?_
    rw [T.proc] at hq
    exact ⟨hq, h.same_of_table hR hq T⟩
  | @child f R S w hf hR hS hall T =>
    refine h.step T.good T.stale fun {q P} hq => ?_
    rw [T.proc] at hq
    by_cases hqn : q = np
    · subst hqn
      rw [update_self] at hq
      cases hq
      refine .inr (.inr ⟨nofun, R, f, rfl, rfl, fun n => (T.maps n).trans (or_congr Iff.rfl ?_)⟩)
      exact ⟨hS n, hall rfl hsz n⟩
    · rw [update_of_ne hqn] at hq
      refine .inl ⟨hq, fun R' hR' g l b e => ?_⟩
      rw [T.node_iff (h.root_ne hq hR' hR)]
      by_cases hgf : g = f
      · subst hgf
        rw [update_self, hf]
        exact iff_of_false nofun nofun
      · rw [update_of_ne hgf]

theorem exec (h : Spaces K v) (hp : v.proc p = some P) (hP : P.state ≠ .unused) (hw : Execed K true p P v w) :
    Spaces K w := by
  obtain ⟨R₀, f, hR₀, hf, -⟩ := h.used hp hP
  refine h.step hw.good hw.stale fun {q P'} hq => ?_
  by_cases hqp : q = p
  · subst hqp
    rcases hw.own with ⟨hown, hsame⟩ | ⟨R, sz, X, hR, hown, hsz, hmap, hX, hall⟩
    · cases hown.symm.trans hq
      exact .inl ⟨hp, hsame⟩
    · cases hown.symm.trans hq
      exact .inr (.inr ⟨hP, R, f, rfl, hf, fun n => (hmap n).trans (or_congr Iff.rfl ⟨hX n, hall rfl n⟩)⟩)
  · rw [hw.proc q hqp] at hq
    refine .inl ⟨hq, fun R hR => hw.other R ?_ fun heq => ?_⟩
    · obtain ⟨e, he⟩ := h.root hq hR
      rw [he]
      nofun
    · exact hqp (h.good.held.sole hq hp hR heq)

theorem sbrk (h : Spaces K v) (hp : v.proc p = some P) (hP : P.state ≠ .unused) (hR : P.pagetable = some R)
    (T : Table K R (v.rest R) (update v.proc p (some { P with sz := sz })) w (upTo (pages sz) (Special 0))) :
    Spaces K w := by
  obtain ⟨-, f, -, hf, -⟩ := h.used hp hP
  refine h.step T.good T.stale fun {q P'} hq => ?_
  rw [T.proc] at hq
  by_cases hqp : q = p
  · subst hqp
    rw [update_self] at hq
    cases hq
    exact .inr (.inr ⟨hP, R, f, hR, hf, T.maps⟩)
  · rw [update_of_ne hqp] at hq
    refine .inl ⟨hq, fun R' hR' g l b e => ?_⟩
    have hne : R' ≠ R := fun heq => hqp (h.good.held.sole hq hp (heq ▸ hR') hR)
    rw [T.node_iff hne, rest_node hne]

theorem wait (h : Spaces K v) (hq : v.proc np = some P) (hf : P.tf = some f) (hR : P.pagetable = some R)
    (hw : Gone K R (update (v.rest R) f none) (update v.proc np (some .free)) none n sz w) :
    Spaces K w := by
  have htf : v.cell f = some (.tf np) := h.good.held.tf hq hf (by rw [h.stale]; nofun)
  refine h.step hw.good hw.stale fun {q P'} hq' => ?_
  rw [hw.proc] at hq'
  by_cases hqn : q = np
  · subst hqn
    rw [update_self] at hq'
    exact .inr (.inl (Option.some.inj hq').symm)
  · rw [update_of_ne hqn] at hq'
    refine .inl ⟨hq', fun R' hR' g l b e => ?_⟩
    have hne : R' ≠ R := fun heq => hqn (h.good.held.sole hq' hq (heq ▸ hR') hR)
    rw [hw.node_iff hne]
    by_cases hgf : g = f
    · subst hgf
      rw [update_self, htf]
      exact iff_of_false nofun nofun
    · rw [update_of_ne hgf, rest_node hne]

end Spaces

/-! ### exit -/

/-- A record with the same memory. -/
structure Proc.Like (P P' : Proc) : Prop where
  tf : P'.tf = P.tf
  pagetable : P'.pagetable = P.pagetable
  sz : P'.sz = P.sz
  unused : P'.state = .unused ↔ P.state = .unused
  free : P = .free → P' = .free

/-- The records have the same memory. -/
structure Alike (K : Link) (v w : View) : Prop where
  good : Good K w
  stale : w.stale = none
  cell : w.cell = v.cell
  proc : ∀ q, ∃ P P', v.proc q = some P ∧ w.proc q = some P' ∧ P.Like P'

namespace Alike

theorem trans {u : View} (h : Alike K v u) (h' : Alike K u w) : Alike K v w where
  good := h'.good
  stale := h'.stale
  cell := h'.cell.trans h.cell
  proc q := by
    obtain ⟨P, P₁, hP, hP₁, hlike⟩ := h.proc q
    obtain ⟨P₂, P₃, hP₂, hP₃, hlike'⟩ := h'.proc q
    cases hP₁.symm.trans hP₂
    exact ⟨P, P₃, hP, hP₃, hlike'.tf.trans hlike.tf, hlike'.pagetable.trans hlike.pagetable, hlike'.sz.trans hlike.sz,
      hlike'.unused.trans hlike.unused, fun hf => hlike'.free (hlike.free hf)⟩

theorem set (h : Good K v) (hs : v.stale = none) (htotal : ∀ q, ∃ P, v.proc q = some P) (hq : v.proc q = some P)
    {P' : Proc} (hP : P.Like P') : Sets v q P' (v.record q P') ∧ Alike K v (v.record q P') := by
  have hset := h.record (.inl hs) hq (.inr ⟨hP.tf, by rw [hs]; nofun⟩) (.inr ⟨hP.pagetable, by rw [hs]; nofun⟩)
  refine ⟨hset, h.sets hset, rfl, rfl, fun q' => ?_⟩
  by_cases hqq : q' = q
  · subst hqq
    exact ⟨P, P', hq, update_self .., hP⟩
  · obtain ⟨P₁, hP₁⟩ := htotal q'
    exact ⟨P₁, P₁, hP₁, (update_of_ne hqq ..).trans hP₁, rfl, rfl, rfl, Iff.rfl, id⟩

theorem total (h : Alike K v w) (q : Slot) : ∃ P, w.proc q = some P := by
  obtain ⟨-, P', -, hP', -⟩ := h.proc q
  exact ⟨P', hP'⟩

theorem spaces (h : Spaces K v) (hw : Alike K v w) : Spaces K w := by
  refine h.step hw.good hw.stale fun {q P'} hq => ?_
  obtain ⟨P, P'', hP, hP'', hlike⟩ := hw.proc q
  cases hP''.symm.trans hq
  by_cases hst : P.state = .unused
  · exact .inr (.inl (hlike.free (h.unused hP hst)))
  · obtain ⟨R, f, hR, hf, hmap⟩ := h.used hP hst
    refine .inr (.inr ⟨fun h => hst (hlike.unused.mp h), R, f, hlike.pagetable.trans hR, hlike.tf.trans hf, fun n => ?_⟩)
    rw [hlike.sz, ← hmap n]
    unfold View.mapped
    rw [hw.cell]

end Alike

theorem reparent_spec (h : Good K v) (hs : v.stale = none) (htotal : ∀ q, ∃ P, v.proc q = some P) (p : Slot)
    (slots : List Slot) : Wp K alone E (reparent p slots) (fun _ w => Alike K v w) v := by
  induction slots generalizing v with
  | nil =>
    refine ⟨h, hs, rfl, fun q => ?_⟩
    obtain ⟨P, hP⟩ := htotal q
    exact ⟨P, P, hP, hP, rfl, rfl, rfl, Iff.rfl, id⟩
  | cons q slots ih =>
    obtain ⟨P, hP⟩ := htotal q
    have hlike : P.Like (if P.parent = some p then { P with parent := some initproc } else P) := by
      split
      · rename_i hpar
        refine ⟨rfl, rfl, rfl, Iff.rfl, ?_⟩
        rintro rfl
        cases hpar
      · exact ⟨rfl, rfl, rfl, Iff.rfl, id⟩
    obtain ⟨hset, halike⟩ := Alike.set h hs htotal hP hlike
    rw [reparent]
    refine wp_bind.mpr (wp_setProc hP hset ?_)
    exact (ih halike.good rfl halike.total).mono fun _ w hw => halike.trans hw

theorem exit_spec (h : Good K v) (hs : v.stale = none) (htotal : ∀ q, ∃ P, v.proc q = some P) (hp : v.proc p = some P)
    (hP : P.state ≠ .unused) (hinit : p ≠ initproc) :
    Wp K alone E (exit p) (fun _ w => Alike K v w) v := by
  unfold exit
  rw [if_neg hinit]
  refine (reparent_spec h hs htotal p _).seq fun _ u hu => ?_
  obtain ⟨P₀, P', hP₀, hP', hlike⟩ := hu.proc p
  cases hP₀.symm.trans hp
  have hzombie : P'.Like { P' with state := .zombie } :=
    ⟨rfl, rfl, rfl, iff_of_false nofun fun h => hP (hlike.unused.mp h), fun h => absurd (hlike.unused.mp (by rw [h]; rfl)) hP⟩
  obtain ⟨hset, halike⟩ := Alike.set hu.good hu.stale hu.total hP' hzombie
  exact wp_setProc hP' hset (hu.trans halike)

/-! ### The first process -/

theorem Table.uvminit (T : Table K R ρ π v (Special 0)) (hleft : 3 ≤ v.left) :
    Wp K true E (uvminit R) (fun _ w => Table K R ρ π w (upTo 1 (Special 0))) v := by
  have h0 : ∀ m, (m = 0 ∨ Special 0 m) ↔ upTo 1 (Special 0) m := fun m => or_congr (by omega) Iff.rfl
  refine wp_bind.mpr (wp_kalloc T.stale (fun h => ?_) fun _ f hf hlo hhi => ?_)
  · have := h rfl
    omega
  have hρ : update (update ρ f (some .loose)) f none = ρ := by
    rw [update_idem]
    exact update_eq_self_iff.mpr (T.rest_fresh hf).symm
  have hmap : Wp K true E (mappages R (PGSIZE * 0) PGSIZE f .user) _ (v.take f) :=
    (T.alloc hf hlo hhi).mapAt (by omega) (not_special (by omega)) (not_special (by omega)) (by simp) rfl
  refine hmap.seq fun r w hw => ?_
  obtain ⟨-, ⟨-, T'⟩ | ⟨-, -, hshort⟩⟩ := hw
  · rw [hρ] at T'
    exact T'.maps_congr h0
  · have := (hshort.left rfl).1
    rw [take_left] at this
    omega

theorem userinit_spec (h : Good K v) (hs : v.stale = none) (hfree : ∀ q, v.proc q = some .free) (hleft : 7 ≤ v.left) :
    Wp K true E (userinit K) (fun _ w => Spaces K w) v := by
  refine (allocproc_spec h hs (hfree initproc) rfl rfl fun h1 => ?_).seq fun r w hw => ?_
  · have := h1 rfl
    omega
  rcases hw with ⟨-, -, h0⟩ | ⟨rfl, f, R, S, hm⟩
  · have := h0 rfl
    omega
  have hall : ∀ m, Special 0 m → S m := hm.short.resolve_right fun h => by
    have := (h rfl).2.2.2
    omega
  have T := hm.table.maps_congr fun m => ⟨hm.special m, hall m⟩
  have hP : w.proc initproc = some ⟨.unused, none, some f, some R, 0⟩ := by
    rw [T.proc]
    exact update_self ..
  rw [if_pos rfl]
  refine wp_bind.mpr (wp_getProc hP ((T.uvminit ?_).seq fun _ u Tu => ?_))
  · have := hm.left rfl
    omega
  obtain ⟨t, ht, Tt⟩ := Tu.keep (N := ⟨.unused, none, some f, some R, PGSIZE⟩) (update_self ..)
    rfl rfl
  obtain ⟨t', ht', Tt'⟩ := Tt.keep (q := initproc) (N := ⟨.runnable, none, some f, some R, PGSIZE⟩)
    (update_self ..) rfl rfl
  rw [update_idem, update_idem] at Tt'
  refine wp_bind.mpr (wp_setProc (by rw [Tu.proc]; exact update_self ..) ht
    (wp_setProc (by rw [Tt.proc]; exact update_self ..) ht' ?_))
  refine ⟨Tt'.good, Tt'.stale, fun {q P} hq hst => ?_, fun {q P} hq hst => ?_⟩ <;> rw [Tt'.proc] at hq <;>
  by_cases hqi : q = initproc
  · subst hqi
    rw [update_self] at hq
    cases hq
    cases hst
  · rw [update_of_ne hqi, hfree q] at hq
    exact (Option.some.inj hq).symm
  · subst hqi
    rw [update_self] at hq
    cases hq
    refine ⟨R, f, rfl, rfl, fun n => ?_⟩
    have h1 : pages PGSIZE = 1 := by decide
    rw [h1]
    exact Tt'.maps n
  · rw [update_of_ne hqi, hfree q] at hq
    cases hq
    exact absurd rfl hst

/-! ### Sequences of system calls -/

/-- The panics of system calls. -/
def Panics (msg : String) : Prop :=
  msg = "uvmcreate: out of memory" ∨ msg = "uvmunmap: walk" ∨ msg = "sys_exec kalloc" ∨
    msg = "loadseg: address should exist"

/-- A process that can execute an instruction has memory. -/
theorem Spaces.size_pos {A : Frame → Prop} {pc : Nat} (h : Spaces K v) (hw : Whole K A v s)
    (hpc : s.fetches p pc) (hlive : (s.proc p).state ≠ .unused) : 0 < (s.proc p).sz := by
  obtain ⟨hlt, hany⟩ := hpc
  obtain ⟨R, f, hR, hf, hmap⟩ := h.used (hw.proc p) hlive
  obtain ⟨e, he⟩ := h.root (hw.proc p) hR
  rw [hR, Option.bind_some] at hany
  cases hx : s.leaf R pc with
  | none =>
    rw [hx] at hany
    cases hany
  | some x =>
  rw [hx, Option.any_some] at hany
  obtain ⟨g, eg, hg, hv, rfl⟩ := (hw.fits.leaf h.stale he hlt).mp hx
  have hu : (eg (idx (vpn pc))).perm.u = true := (Bool.and_eq_true_iff.mp hany).2
  obtain ⟨-, ⟨-, hno⟩ | hpage⟩ := h.good.trees.down hg hv (by rw [h.stale]; nofun)
  · rw [hu] at hno
    cases hno
  · obtain ⟨e', he'⟩ := hpage
    obtain ⟨-, -, -, -, -, -, hno⟩ := h.good.trees.up he' (by omega)
    rw [child_eq] at hno
    have hlt := ((hmap _).mp ⟨g, eg, hg, hv⟩).resolve_right hno
    refine Nat.pos_of_ne_zero fun h0 => ?_
    rw [h0] at hlt
    exact absurd hlt (Nat.not_lt_zero _)

/-- An event that may happen panics with one of these messages, or leaves all processes their address
    spaces. -/
theorem Event.spaces {A : Frame → Prop} {e : Event} (h : Spaces K v) (hw : Whole K A v s) (he : e.enabled s) :
    Wp K true Panics (e.prog K) (fun _ w => Spaces K w) v := by
  cases e with
  | exit p =>
    obtain ⟨hlive, hinit⟩ := he
    exact (exit_spec h.good h.stale (fun q => ⟨_, hw.proc q⟩) (hw.proc p) hlive.1 hinit).mono
      fun _ w hw => hw.spaces h
  | call p pc c =>
    obtain ⟨hlive, hpc, hc⟩ := he
    have hsz := h.size_pos hw hpc hlive.1
    obtain ⟨R, f, hR, hf, hmap⟩ := h.used (hw.proc p) hlive.1
    obtain ⟨eR, heR⟩ := h.root (hw.proc p) hR
    have T := (Table.of h.good h.stale heR).maps_congr hmap
    refine wp_bind.mpr ?_
    cases c with
    | fork np =>
      have hfree : v.proc np = some .free := by rw [hw.proc np, h.unused (hw.proc np) hc]
      have hne : p ≠ np := fun heq => hlive.1 (heq ▸ hc)
      exact (fork_spec h.good h.stale (hw.proc p) hR (fun m hm => (hmap m).mpr (.inl hm)) hfree hne
        fun _ => ⟨.inl rfl, .inr (.inl rfl), nofun⟩).mono fun r w hw => h.fork hsz hw
    | exec x args =>
      exact (sysExec_spec h.good h.stale (hw.proc p) hR hmap (fun _ => id) (fun _ _ => id) (.inr (.inr (.inl rfl)))
        (.inl rfl) (.inr (.inl rfl)) nofun (.inr (.inr (.inr rfl))) x args).mono
        fun _ w hw' => h.exec (hw.proc p) hlive.1 hw'
    | sbrk n =>
      refine (T.growproc (fun _ => id) (hw.proc p) hR n).mono fun r w hw' => ?_
      obtain ⟨sz, T', -⟩ := hw'
      exact h.sbrk (hw.proc p) hlive.1 hR T'
    | wait np addr =>
      have hz : (s.proc np).state ≠ .unused := by rw [hc.1]; nofun
      obtain ⟨R', f', hR', hf', hmap'⟩ := h.used (hw.proc np) hz
      obtain ⟨eR', heR'⟩ := h.root (hw.proc np) hR'
      refine (wait_spec ((Table.of h.good h.stale heR').maps_congr hmap') (fun _ => id) (hw.proc p) hR (hw.proc np) hf' hR'
        (fun _ => rfl) addr (.inl fun _ => id)).mono fun r w hw' => ?_
      rcases hw' with ⟨-, rfl⟩ | ⟨-, hgone⟩
      · exact h
      · exact h.wait (hw.proc np) hf' hR' hgone

/-- What holds between system calls. -/
def Shaped (K : Link) (s : State) : Prop := ∃ v A, Spaces K v ∧ Whole K A v s

theorem Shaped.event {e : Event} (h : Shaped K s) (he : e.enabled s) :
    (∃ t, outcome K s e = .ok t ∧ Shaped K t) ∨ ∃ msg, outcome K s e = .error msg ∧ Panics msg := by
  obtain ⟨v, A, hv, hw⟩ := h
  rcases (sound_whole K A).run hw (Event.spaces hv hw he) with ⟨a, t, w, hrun, hfit, hsp⟩ | ⟨msg, hrun, hmsg⟩
  · exact .inl ⟨t, by unfold outcome; rw [hrun]; rfl, w, A, hsp, hfit⟩
  · exact .inr ⟨msg, by unfold outcome; rw [hrun]; rfl, hmsg⟩

theorem Shaped.step {e : Event} (h : Shaped K s) (hstep : Mem.step K s e = some t) : Shaped K t := by
  unfold Mem.step at hstep
  split at hstep
  · rename_i he
    rcases h.event he with ⟨t', ht, hsh⟩ | ⟨msg, hmsg, -⟩
    · rw [ht] at hstep
      exact (Option.some.inj hstep) ▸ hsh
    · rw [hmsg] at hstep
      cases hstep
  · cases hstep

theorem Booted.shaped (h : Booted K s) : Shaped K s := by
  obtain ⟨free, pte, hnodup, hrange, hlen, hrun⟩ := h.boot
  let v : View := ⟨fun _ => none, fun _ => some .free, none, free.length⟩
  have hgood : Good K v := by
    refine ⟨⟨nofun, nofun, nofun⟩, ⟨fun hq htf => ?_, fun hq hR => ?_, fun hq _ hR => ?_⟩, fun hf => absurd rfl hf⟩
    · cases hq
      cases htf
    · cases hq
      cases hR
    · cases hq
      cases hR
  have hw : Whole K (· ∈ free) v ⟨free, pte, fun _ => .free⟩ := by
    refine ⟨⟨hgood, nofun, nofun, fun hq => Option.some.inj hq, fun hf => absurd rfl hf, hnodup, fun hf => hrange _ hf,
      fun _ => rfl⟩, fun f => ?_, fun _ => rfl⟩
    exact or_iff_left fun hf => hf rfl
  rcases (sound_whole K (· ∈ free)).run (E := fun _ => False) hw (userinit_spec hgood rfl (fun _ => rfl) hlen)
    with ⟨a, t, w, hok, hfit, hsp⟩ | ⟨msg, -, hmsg⟩
  · rw [hrun] at hok
    injection hok with hok
    injection hok with _ hok
    exact hok ▸ ⟨w, _, hsp, hfit⟩
  · exact hmsg.elim

theorem Run.shaped {s₀ : State} {es : List Event} (hboot : Booted K s₀)
    (hrun : (System.ofStep (step K)).Run (fun _ _ => True) s₀ es s) : Shaped K s :=
  hrun.step_invariant (fun _ _ _ h _ hstep => h.step hstep) hboot.shaped

/-- In every state between system calls the page table of a process maps the pages below its size,
    the trapframe and the trampoline, and nothing else; so no call panics because a page is missing
    or mapped twice. -/
theorem address_space_shape {s₀ : State} {es : List Event} (hboot : Booted K s₀)
    (hrun : (System.ofStep (step K)).Run (fun _ _ => True) s₀ es s) :
    (∀ p, (s.proc p).state ≠ .unused → ∃ R, (s.proc p).pagetable = some R ∧ ∀ n, n < 2 ^ 27 →
      ((s.leaf R (PGSIZE * n)).isSome = true ↔
        PGSIZE * n < PGROUNDUP (s.proc p).sz ∨ PGSIZE * n = TRAPFRAME ∨ PGSIZE * n = TRAMPOLINE)) ∧
    ∀ e msg, e.enabled s → outcome K s e = .error msg →
      msg ∉ ["uvmcopy: pte should exist", "uvmcopy: page not present", "uvmunmap: not mapped", "remap"] := by
  have hsh := Run.shaped hboot hrun
  constructor
  · intro p hp
    obtain ⟨v, A, h, hw⟩ := hsh
    obtain ⟨R, f, hR, -, hmap⟩ := h.used (hw.proc p) hp
    obtain ⟨e, he⟩ := h.root (hw.proc p) hR
    have hsmall := ((Table.of h.good h.stale he).maps_congr hmap).small
    have hup : PGROUNDUP (s.proc p).sz = PGSIZE * pages (s.proc p).sz := roundup_eq (by unfold PGSIZE; omega)
    refine ⟨R, hR, fun n hn => ?_⟩
    have hva : PGSIZE * n < 2 ^ 39 := by
      unfold PGSIZE
      omega
    rw [hw.fits.isSome_leaf h.stale he hva, vpn_page, hmap n, hup]
    refine or_congr (Nat.mul_lt_mul_left (by decide)).symm ?_
    have h₁ : PGSIZE * n = TRAPFRAME ↔ n = vpn TRAPFRAME := by
      unfold vpn TRAPFRAME TRAMPOLINE MAXVA PGSIZE
      omega
    have h₂ : PGSIZE * n = TRAMPOLINE ↔ n = vpn TRAMPOLINE := by
      unfold vpn TRAMPOLINE MAXVA PGSIZE
      omega
    rw [h₁, h₂]
    exact ⟨fun hsp => hsp.2.symm, fun h => ⟨rfl, h.symm⟩⟩
  · intro e msg he hmsg hmem
    rcases hsh.event he with ⟨t, ht, -⟩ | ⟨msg', hmsg', hpanic⟩
    · rw [ht] at hmsg
      cases hmsg
    · rw [hmsg'] at hmsg
      injection hmsg with hmsg
      subst hmsg
      rcases hpanic with rfl | rfl | rfl | rfl <;> exact absurd hmem (by decide)

/-! ### A machine -/

/-- The trampoline is in the second page. -/
theorem base_second : KERNBASE ≤ (0x80001 : Frame) := by decide

/-- A kernel that leaves 32 pages free. -/
def smallLink : Link := ⟨0x80001, 0x87fe0, base_second, by decide, by decide⟩

/-- The free list that `kinit` makes. -/
def frames (K : Link) : List Frame := (List.range' K.kend (PHYSTOP - K.kend)).reverse

/-- The machine after `userinit`. -/
def boot (K : Link) : Option State :=
  ((userinit K).run (Op.run K) ⟨frames K, fun _ _ => .zero, fun _ => .free⟩).toOption.map Prod.snd

theorem booted_boot (hK : 7 ≤ PHYSTOP - K.kend) (h : boot K = some s) : Booted K s := by
  refine ⟨frames K, fun _ _ => .zero, ?_, fun f hf => ?_, ?_, ?_⟩
  · exact List.nodup_reverse.mpr (List.nodup_range' ..)
  · rw [frames, List.mem_reverse, List.mem_range'_1, Nat.add_sub_cancel' K.ram] at hf
    exact hf
  · rw [frames, List.length_reverse, List.length_range']
    exact hK
  · unfold boot at h
    cases hrun : (userinit K).run (Op.run K) ⟨frames K, fun _ _ => .zero, fun _ => .free⟩ with
    | error msg =>
      rw [hrun] at h
      cases h
    | ok r =>
      rw [hrun] at h
      cases h
      rfl

/-- The state after events from the start, if there is one. -/
def after (K : Link) (es : List Event) : Option State :=
  (boot K).bind fun s => (System.ofStep (step K)).exec (fun _ _ => True) s es

/-- `fork`, and in the child a growth by 5000 bytes, and an `exec` and a growth for which there is no
    memory. -/
def spaceRun : List Event :=
  [.call 0 0 (.fork 1), .call 1 0 (.sbrk 5000), .call 1 0 (.exec ⟨true, [some ⟨true, 0, 300000, 0, fun _ => true⟩]⟩ []),
    .call 1 0 (.sbrk 300000)]

theorem address_space_shape_child : ∃ s, after smallLink spaceRun = some s ∧ (s.proc 1).state ≠ .unused ∧
    (s.proc 1).sz = 9096 ∧ ∃ R, (s.proc 1).pagetable = some R ∧ ∀ n, n < 2 ^ 27 →
      ((s.leaf R (PGSIZE * n)).isSome = true ↔
        PGSIZE * n < PGROUNDUP (s.proc 1).sz ∨ PGSIZE * n = TRAPFRAME ∨ PGSIZE * n = TRAMPOLINE) := by
  have hsome : ((after smallLink spaceRun).any fun s => (s.proc 1).state ≠ .unused ∧ (s.proc 1).sz = 9096) = true := by
    decide +kernel
  cases hboot : boot smallLink with
  | none => simp [after, hboot] at hsome
  | some s₀ =>
    cases hrun : (System.ofStep (step smallLink)).exec (fun _ _ => True) s₀ spaceRun with
    | none => simp [after, hboot, hrun] at hsome
    | some s =>
      have hafter : after smallLink spaceRun = some s := by rw [after, hboot, Option.bind_some, hrun]
      rw [hafter, Option.any_some, decide_eq_true_eq] at hsome
      exact ⟨s, hafter, hsome.1, hsome.2,
        (address_space_shape (booted_boot (by decide) hboot) (System.run_of_exec hrun)).1 1 hsome.1⟩

end Xv6.Mem
