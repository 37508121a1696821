import Xv6.Kernel.Mem.Spaces

/-! What becomes of the frames of a process.

    `proc_freepagetable` calls `uvmfree` only for a size above 0. A child that shrinks to nothing, and
    a child whose pages `uvmcopy` could not get, lose their page-table pages. -/

namespace Xv6.Mem

open View Function
open Procs (Slot ProcState initproc)

variable {K : Link} {A : Frame → Prop} {v w : View} {ρ : Frame → Option Cell} {S : Nat → Prop} {R R₀ f : Frame}
  {p np : Slot} {s t s₀ : State} {es : List Event}

/-- The state after a call that returns something other than -1. -/
def succeed (K : Link) (x : Kernel Bool) (s : State) : Option State :=
  match x.run (Op.run K) s with
  | .ok (true, t) => some t
  | _ => none

/-- `sbrk` calls of `np`, all of which succeed. -/
def sbrks (K : Link) (np : Slot) : List Int → State → Option State
  | [], s => some s
  | n :: ns, s => (succeed K (growproc np n) s).bind (sbrks K np ns)

/-- The life of the child that `p` makes in slot `np`: the size with which it exits, and the state after
    its parent has waited for it. -/
def life (K : Link) (p np : Slot) (ns : List Int) (addr : Nat) (s : State) : Option (Nat × State) := do
  let s₁ ← succeed K (fork K p np) s
  let s₂ ← sbrks K np ns s₁
  let s₃ ← ((exit np).run (Op.run K) s₂).toOption
  let s₄ ← succeed K (wait p np addr) s₃.2
  pure ((s₂.proc np).sz, s₄)

variable {x : Kernel Bool}

theorem succeed_eq (h : succeed K x s = some t) : x.run (Op.run K) s = .ok (true, t) := by
  unfold succeed at h
  split at h
  · rename_i u hu
    rw [hu, Option.some.inj h]
  · cases h

variable {ns : List Int} {addr sz : Nat}

theorem life_eq (h : life K p np ns addr s = some (sz, t)) :
    ∃ s₁ s₂ s₃, (fork K p np).run (Op.run K) s = .ok (true, s₁) ∧ sbrks K np ns s₁ = some s₂ ∧
      (exit np).run (Op.run K) s₂ = .ok ((), s₃) ∧ (wait p np addr).run (Op.run K) s₃ = .ok (true, t) ∧
      (s₂.proc np).sz = sz := by
  simp only [life, Option.bind_eq_bind, Option.bind_eq_some_iff, Option.pure_def, Option.some.injEq, Prod.mk.injEq] at h
  obtain ⟨s₁, h₁, s₂, h₂, s₃, h₃, s₄, h₄, rfl, rfl⟩ := h
  refine ⟨s₁, s₂, s₃.2, succeed_eq h₁, h₂, ?_, succeed_eq h₄, rfl⟩
  cases hrun : (exit np).run (Op.run K) s₂ with
  | error msg =>
    rw [hrun] at h₃
    cases h₃
  | ok r =>
    rw [hrun] at h₃
    cases h₃
    rfl

/-- A run of a program that has a specification. -/
theorem Whole.run {α : Type} {x : Kernel α} {Q : α → View → Prop} {E : String → Prop} {a : α} (h : Whole K A v s)
    (hx : Wp K true E x Q v) (hrun : x.run (Op.run K) s = .ok (a, t)) : ∃ w, Whole K A w t ∧ Q a w := by
  rcases (sound_whole K A).run h hx with ⟨a', t', w, hok, hw, hQ⟩ | ⟨msg, herr, -⟩
  · rw [hrun] at hok
    injection hok with hok
    injection hok with h₁ h₂
    subst h₁ h₂
    exact ⟨w, hw, hQ⟩
  · rw [hrun] at herr
    cases herr

/-- With the same frames in use, the same frames are free. -/
theorem Whole.same_free (h : Whole K A v s) (h' : Whole K A w t) (hcell : w.cell = v.cell) :
    ∀ f, f ∈ t.free ↔ f ∈ s.free := by
  intro f
  have hpool := (h'.pool f).trans (h.pool f).symm
  rw [hcell] at hpool
  constructor
  · exact fun hf => (hpool.mp (.inl hf)).resolve_right fun hne => h'.fits.used (by rw [hcell]; exact hne) hf
  · exact fun hf => (hpool.mpr (.inl hf)).resolve_right fun hne => h.fits.used hne hf

/-- The root of a table that nobody has is lost. -/
theorem Table.lost {π : Slot → Option Proc} (T : Table K R v.cell π w S) (hR : v.cell R = none) (h : Whole K A v s)
    (hw : Whole K A w t) : R ∈ s.free ∧ R ∉ t.free ∧ ∀ f, f ∈ t.free → f ∈ s.free := by
  obtain ⟨e, he⟩ := T.root
  have hroot : w.cell R ≠ none := by rw [he]; nofun
  have hin : ∀ f, A f → v.cell f = none → f ∈ s.free := fun f hf hcell =>
    ((h.pool f).mpr hf).resolve_right fun hne => hne hcell
  refine ⟨hin R ((hw.pool R).mp (.inr hroot)) hR, hw.fits.used hroot, fun f hf => hin f ((hw.pool f).mp (.inl hf)) ?_⟩
  by_contra hne
  obtain ⟨c, hc⟩ := Option.ne_none_iff_exists'.mp hne
  rw [← T.rest] at hc
  exact hw.fits.used (by rw [cell_of_rest hc]; nofun) hf

/-- The child, and the page table of its parent. -/
structure Child (K : Link) (p np : Slot) (f R R₀ : Frame) (ρ : Frame → Option Cell) (S : Nat → Prop) (sz : Nat)
    (w : View) : Prop where
  parent : ∃ P, w.proc p = some P ∧ P.pagetable = some R₀
  child : ∃ P, w.proc np = some P ∧ P.tf = some f ∧ P.pagetable = some R ∧ P.sz = sz ∧ P.state ≠ .unused
  table : Table K R ρ w.proc w (upTo (pages sz) S)

theorem Child.sbrks (hne : p ≠ np) (hS : ∀ m, S m → Special 0 m) (h : Child K p np f R R₀ ρ S sz w)
    (hw : Whole K A w s) (hrun : sbrks K np ns s = some t) :
    ∃ u, Whole K A u t ∧ Child K p np f R R₀ ρ S (t.proc np).sz u := by
  induction ns generalizing w s sz with
  | nil =>
    obtain ⟨P, hP, -, -, hsz, -⟩ := h.child
    cases hrun
    refine ⟨w, hw, ?_⟩
    rw [← Option.some.inj (hP.symm.trans (hw.proc np)), hsz]
    exact h
  | cons n ns ih =>
    obtain ⟨s₁, h₁, hrun⟩ := Option.bind_eq_some_iff.mp hrun
    obtain ⟨P, hP, hf, hR, rfl, hst⟩ := h.child
    obtain ⟨u, hu, sz', T, -⟩ := hw.run (E := fun _ => False) (h.table.growproc hS hP hR n) (succeed_eq h₁)
    refine ih ⟨?_, ⟨{ P with sz := sz' }, ?_, hf, hR, rfl, hst⟩, by rw [T.proc]; exact T⟩ hu hrun
    · obtain ⟨P₀, hP₀, hR₀⟩ := h.parent
      exact ⟨P₀, by rw [T.proc, update_of_ne hne]; exact hP₀, hR₀⟩
    · rw [T.proc, update_self]

/-- `exit` keeps the memory. -/
theorem Child.alike (h : Child K p np f R R₀ ρ S sz v) (hw : Alike K v w) : Child K p np f R R₀ ρ S sz w where
  parent := by
    obtain ⟨P, hP, hR⟩ := h.parent
    obtain ⟨P₁, P', hP₁, hP', hlike⟩ := hw.proc p
    cases hP.symm.trans hP₁
    exact ⟨P', hP', hlike.pagetable.trans hR⟩
  child := by
    obtain ⟨P, hP, hf, hR, hsz, hst⟩ := h.child
    obtain ⟨P₁, P', hP₁, hP', hlike⟩ := hw.proc np
    cases hP.symm.trans hP₁
    exact ⟨P', hP', hlike.tf.trans hf, hlike.pagetable.trans hR, hlike.sz.trans hsz, fun h => hst (hlike.unused.mp h)⟩
  table := by
    refine ⟨hw.good, hw.stale, rfl, ?_, ?_, fun n => ?_⟩
    · rw [← h.table.rest]
      unfold View.rest
      rw [hw.cell]
    · rw [hw.cell]
      exact h.table.root
    · rw [← h.table.maps n]
      unfold View.mapped
      rw [hw.cell]

variable {pc : Nat}

/-- A child gives all its frames back exactly when it exits with a size above 0. -/
theorem frames_restored (hboot : Booted K s₀)
    (hrun : (System.ofStep (step K)).Run (fun _ _ => True) s₀ es s) (hfork : (Event.call p pc (.fork np)).enabled s)
    (hlife : life K p np ns addr s = some (sz, t)) : t.free.length = s.free.length ↔ 0 < sz := by
  obtain ⟨v, A, h, hw⟩ := Run.shaped hboot hrun
  obtain ⟨hlive, hpc, hnp⟩ := hfork
  obtain ⟨s₁, s₂, s₃, h₁, h₂, h₃, h₄, rfl⟩ := life_eq hlife
  obtain ⟨R₀, f₀, hR₀, -, hmap⟩ := h.used (hw.proc p) hlive.1
  have hne : p ≠ np := fun heq => hlive.1 (heq ▸ hnp)
  have hfree : v.proc np = some .free := by rw [hw.proc np, h.unused (hw.proc np) hnp]
  -- fork
  obtain ⟨w₁, hw₁, hfork⟩ := hw.run (E := Panics) (fork_spec h.good h.stale (hw.proc p) hR₀
    (fun m hm => (hmap m).mpr (.inl hm)) hfree hne fun _ => ⟨.inl rfl, .inr (.inl rfl), nofun⟩) h₁
  cases hfork with
  | @child f R S _ hf hR hS hall T =>
  have hall : ∀ m, Special 0 m → S m := hall rfl (h.size_pos hw hpc hlive.1)
  have hchild : Child K p np f R R₀ (update v.cell f (some (.tf np))) S (s.proc p).sz w₁ := by
    refine ⟨⟨s.proc p, ?_, hR₀⟩, ⟨⟨.runnable, some p, some f, some R, (s.proc p).sz⟩,
      by rw [T.proc, update_self], rfl, rfl, rfl, nofun⟩, by rw [T.proc]; exact T⟩
    rw [T.proc, update_of_ne hne]
    exact hw.proc p
  -- sbrk
  obtain ⟨w₂, hw₂, hchild⟩ := hchild.sbrks hne hS hw₁ h₂
  -- exit
  have hinit : np ≠ initproc := by
    rintro rfl
    cases h₃
  obtain ⟨P, hP, -, -, -, hst⟩ := hchild.child
  obtain ⟨w₃, hw₃, halike⟩ := hw₂.run (E := Panics) (exit_spec hchild.table.good hchild.table.stale
    (fun q => ⟨_, hw₂.proc q⟩) hP hst hinit) h₃
  have hchild := hchild.alike halike
  -- wait
  obtain ⟨P₀, hP₀, hR₀⟩ := hchild.parent
  obtain ⟨P', hP', hf', hR', hsz', -⟩ := hchild.child
  have T' := hchild.table
  rw [← hsz', ← T'.rest] at T'
  obtain ⟨w₄, hw₄, ⟨hno, -⟩ | ⟨-, hgone⟩⟩ := hw₃.run (E := Panics) (wait_spec T' hS hP₀ hR₀ hP' hf' hR' (fun _ => rfl) addr
    (.inl hall)) h₄
  · cases hno
  have hback : update (w₃.rest R) f none = v.cell := by
    rw [hchild.table.rest, update_idem, update_eq_self_iff.mpr hf.symm]
  rw [hback, hsz'] at hgone
  rcases Nat.eq_zero_or_pos (s₂.proc np).sz with hzero | hpos
  · obtain ⟨hin, hout, hsub⟩ := (hgone.lost hzero).lost hR hw hw₄
    have hlen := (List.subperm_of_subset (List.nodup_cons.mpr ⟨hout, hw₄.fits.nodup⟩)
      (List.cons_subset.mpr ⟨hin, hsub⟩)).length_le
    rw [List.length_cons] at hlen
    omega
  · have hsame := hw.same_free hw₄ (hgone.all hpos).2.2.2
    exact iff_of_true ((List.perm_ext_iff_of_nodup hw₄.fits.nodup hw.fits.nodup).mpr hsame).length_eq hpos

/-- A child grows, shrinks and exits. -/
theorem frames_restored_small : ∃ s sz t, boot smallLink = some s ∧ life smallLink 0 1 [5000, -4096] 0 s = some (sz, t) ∧
    t.free.length = s.free.length := by
  have h : ((boot smallLink).any fun s => (Event.call 0 0 (.fork 1)).enabled s ∧
      ((life smallLink 0 1 [5000, -4096] 0 s).any fun r => 0 < r.1) = true) = true := by decide +kernel
  obtain ⟨s, hs, h⟩ := (Option.any_eq_true ..).mp h
  obtain ⟨hfork, h⟩ := of_decide_eq_true h
  obtain ⟨⟨sz, t⟩, hlife, hsz⟩ := (Option.any_eq_true ..).mp h
  exact ⟨s, sz, t, hs, hlife,
    (frames_restored (booted_boot (by decide) hs) (.nil s) hfork hlife).mpr (of_decide_eq_true hsz)⟩

/-- A child of one page shrinks to nothing: its five page-table pages are lost. -/
theorem frames_lost_at_zero : ∃ s t, boot smallLink = some s ∧ (Event.call 0 0 (.fork 1)).enabled s ∧
    life smallLink 0 1 [-4096] 0 s = some (0, t) ∧ t.free.length + 5 = s.free.length := by
  have h : ((boot smallLink).any fun s => (Event.call 0 0 (.fork 1)).enabled s ∧
      ((life smallLink 0 1 [-4096] 0 s).any fun r => r.1 = 0 ∧ r.2.free.length + 5 = s.free.length) = true) = true := by
    decide +kernel
  obtain ⟨s, hs, h⟩ := (Option.any_eq_true ..).mp h
  obtain ⟨hfork, h⟩ := of_decide_eq_true h
  obtain ⟨⟨sz, t⟩, hlife, h⟩ := (Option.any_eq_true ..).mp h
  obtain ⟨rfl, hlen⟩ := of_decide_eq_true h
  exact ⟨s, t, hs, hfork, hlife, hlen⟩

/-! ### fork without memory -/

/-- The processor sees the same in a table that is the same. -/
theorem leaf_same {va : Nat} {e : Fin 512 → Pte} (h : Fits K true v s) (hw : Fits K true w t) (hs : v.stale = none)
    (hs' : w.stale = none) (hR : v.cell R = some (.node R 3 0 e)) (hsame : v.Same R w) (hva : va < 2 ^ 39) :
    t.leaf R va = s.leaf R va := by
  refine Option.ext fun x => ?_
  rw [h.leaf hs hR hva, hw.leaf hs' ((hsame _ _ _ _).mpr hR) hva]
  exact exists_congr fun f => exists_congr fun e => and_congr (hsame f 1 _ e) Iff.rfl

/-- The address space of `p` is the same to the processor. -/
def SameSpace (p : Slot) (s t : State) : Prop :=
  ∀ R va, (s.proc p).pagetable = some R → va < 2 ^ 39 → t.leaf R va = s.leaf R va

/-- `uvmcopy` inside `fork` runs out of memory: `allocproc` has its frames, and there is no child. -/
def RunsOut (K : Link) (p np : Slot) (s : State) : Prop :=
  (∃ t, (allocproc K np).run (Op.run K) s = .ok (true, t)) ∧ ∀ t, (fork K p np).run (Op.run K) s ≠ .ok (true, t)

/-- `fork` returns -1, and all processes, the parent's address space and the free frames are as before. -/
def FailsCleanly (K : Link) (p np : Slot) (s : State) : Prop :=
  ∃ t, (fork K p np).run (Op.run K) s = .ok (false, t) ∧ t.proc = s.proc ∧ SameSpace p s t ∧
    ∀ f, f ∈ t.free ↔ f ∈ s.free

theorem allocproc_empty (h : s.free = []) : ∃ t, (allocproc K np).run (Op.run K) s = .ok (false, t) := by
  cases s
  subst h
  exact ⟨_, rfl⟩

/-- No `fork` whose `uvmcopy` runs out of memory is clean: it panics, which takes fewer than seven free frames,
    or it leaves the slot and the parent as they were and loses the root of the child's page table. -/
theorem fork_never_clean (hboot : Booted K s₀) (hrun : (System.ofStep (step K)).Run (fun _ _ => True) s₀ es s)
    (hfork : (Event.call p pc (.fork np)).enabled s) (hout : RunsOut K p np s) :
    ¬ FailsCleanly K p np s ∧
    ((∃ msg, (fork K p np).run (Op.run K) s = .error msg) ∧ s.free.length < 7 ∨
      ∃ t, (fork K p np).run (Op.run K) s = .ok (false, t) ∧ t.proc = s.proc ∧ SameSpace p s t ∧
        ∃ R, R ∈ s.free ∧ R ∉ t.free) := by
  suffices hsuff : _ from ⟨?_, hsuff⟩
  · rintro ⟨t, ht, -, -, hsame⟩
    rcases hsuff with ⟨⟨msg, hmsg⟩, -⟩ | ⟨t', ht', -, -, R, hR, hR'⟩
    · rw [ht] at hmsg
      cases hmsg
    · rw [ht] at ht'
      cases ht'
      exact hR' ((hsame R).mpr hR)
  obtain ⟨v, A, h, hw⟩ := Run.shaped hboot hrun
  obtain ⟨hlive, hpc, hnp⟩ := hfork
  obtain ⟨R₀, f₀, hR₀, -, hmap⟩ := h.used (hw.proc p) hlive.1
  obtain ⟨e₀, he₀⟩ := h.root (hw.proc p) hR₀
  have hne : p ≠ np := fun heq => hlive.1 (heq ▸ hnp)
  have hfree : v.proc np = some .free := by rw [hw.proc np, h.unused (hw.proc np) hnp]
  have hleft := hw.fits.left rfl
  have hspec := fork_spec (E := fun _ => s.free.length < 7) h.good h.stale (hw.proc p) hR₀
    (fun m hm => (hmap m).mpr (.inl hm)) hfree hne fun hlt => ⟨hleft ▸ hlt rfl, hleft ▸ hlt rfl, nofun⟩
  rcases (sound_whole K A).run hw hspec with ⟨r, t, w, hok, hwt, hpost⟩ | ⟨msg, hmsg, hlt⟩
  · refine .inr ⟨t, ?_⟩
    cases hpost with
    | child => exact absurd hok (hout.2 t)
    | none h0 =>
      obtain ⟨u, hu⟩ := hout.1
      have hnil := List.eq_nil_of_length_eq_zero (hleft.trans (h0 rfl))
      obtain ⟨u', hu'⟩ : ∃ t, (allocproc K np).run (Op.run K) s = .ok (false, t) := allocproc_empty hnil
      rw [hu] at hu'
      cases hu'
    | @lost R _ hR T =>
      have hproc : t.proc = s.proc := funext fun q => by
        have hq := hwt.proc q
        rw [T.proc, hw.proc q] at hq
        exact (Option.some.inj hq).symm
      obtain ⟨hin, hnot, -⟩ := T.lost hR hw hwt
      refine ⟨hok, hproc, fun R' va hR' hva => ?_, R, hin, hnot⟩
      cases hR₀.symm.trans hR'
      exact leaf_same hw.fits hwt.fits h.stale T.stale he₀ (h.same_of_table hR (hw.proc p) T R₀ hR₀) hva
  · exact .inl ⟨⟨msg, hmsg⟩, hlt⟩

/-- A machine where seven frames are left once the first process has two pages. -/
def tightLink : Link := ⟨0x80001, 0x87ff1, base_second, by decide, by decide⟩

/-- A machine where four are left at the start. -/
def tinyLink : Link := ⟨0x80001, 0x87ff5, base_second, by decide, by decide⟩

/-- Whether a call returns -1, and the number of free frames then. -/
def failed (K : Link) (x : Kernel Bool) (s : State) : Option Nat :=
  match x.run (Op.run K) s with
  | .ok (false, t) => some t.free.length
  | _ => none

theorem failed_eq {n : Nat} (h : failed K x s = some n) :
    ∃ t, x.run (Op.run K) s = .ok (false, t) ∧ t.free.length = n := by
  unfold failed at h
  split at h
  · rename_i t ht
    exact ⟨t, ht, Option.some.inj h⟩
  · cases h

/-- The panic of a call. -/
def panicked (K : Link) (x : Kernel Bool) (s : State) : Option String :=
  match x.run (Op.run K) s with
  | .ok _ => none
  | .error msg => some msg

theorem panicked_eq {msg : String} (h : panicked K x s = some msg) :
    x.run (Op.run K) s = .error msg := by
  unfold panicked at h
  split at h
  · cases h
  · rename_i m hm
    rw [hm, Option.some.inj h]

theorem after_run (hK : 7 ≤ PHYSTOP - K.kend) (h : after K es = some s) :
    ∃ s₀, Booted K s₀ ∧ (System.ofStep (step K)).Run (fun _ _ => True) s₀ es s := by
  obtain ⟨s₀, hs₀, hrun⟩ := Option.bind_eq_some_iff.mp h
  exact ⟨s₀, booted_boot hK hs₀, System.run_of_exec hrun⟩

theorem fork_never_clean_tight : ∃ s t, after tightLink [.call 0 0 (.sbrk 4096)] = some s ∧ s.free.length = 7 ∧
    RunsOut tightLink 0 1 s ∧ ¬ FailsCleanly tightLink 0 1 s ∧
    (fork tightLink 0 1).run (Op.run tightLink) s = .ok (false, t) ∧ t.proc = s.proc ∧ ∃ R, R ∈ s.free ∧ R ∉ t.free := by
  have h : ((after tightLink [.call 0 0 (.sbrk 4096)]).any fun s => (Event.call 0 0 (.fork 1)).enabled s ∧
      s.free.length = 7 ∧ (succeed tightLink (allocproc tightLink 1) s).isSome ∧
      failed tightLink (fork tightLink 0 1) s = some 2) = true := by decide +kernel
  obtain ⟨s, hs, h⟩ := (Option.any_eq_true ..).mp h
  obtain ⟨hfork, h7, halloc, hfail⟩ := of_decide_eq_true h
  obtain ⟨u, hu⟩ := Option.isSome_iff_exists.mp halloc
  obtain ⟨t, ht, -⟩ := failed_eq hfail
  have hout : RunsOut tightLink 0 1 s := ⟨⟨u, succeed_eq hu⟩, fun t' => by rw [ht]; nofun⟩
  obtain ⟨s₀, hboot, hrun⟩ := after_run (by decide) hs
  obtain ⟨hnot, ⟨-, hlt⟩ | ⟨t', ht', hproc, -, hlost⟩⟩ := fork_never_clean hboot hrun hfork hout
  · omega
  · rw [ht] at ht'
    cases ht'
    exact ⟨s, t, hs, h7, hout, hnot, ht, hproc, hlost⟩

/-- With four frames `fork` panics; with seven, for a process of two pages, it loses five. -/
theorem fork_failure_not_clean :
    (∃ s, boot tinyLink = some s ∧ (Event.call 0 0 (.fork 1)).enabled s ∧ s.free.length = 4 ∧
      (fork tinyLink 0 1).run (Op.run tinyLink) s = .error "uvmunmap: walk") ∧
    ∃ s t, after tightLink [.call 0 0 (.sbrk 4096)] = some s ∧ (Event.call 0 0 (.fork 1)).enabled s ∧
      (fork tightLink 0 1).run (Op.run tightLink) s = .ok (false, t) ∧ t.free.length + 5 = s.free.length := by
  constructor
  · have h : ((boot tinyLink).any fun s => (Event.call 0 0 (.fork 1)).enabled s ∧ s.free.length = 4 ∧
        panicked tinyLink (fork tinyLink 0 1) s = some "uvmunmap: walk") = true := by decide +kernel
    obtain ⟨s, hs, h⟩ := (Option.any_eq_true ..).mp h
    obtain ⟨hfork, h4, hpanic⟩ := of_decide_eq_true h
    exact ⟨s, hs, hfork, h4, panicked_eq hpanic⟩
  · have h : ((after tightLink [.call 0 0 (.sbrk 4096)]).any fun s => (Event.call 0 0 (.fork 1)).enabled s ∧
        s.free.length = 7 ∧ failed tightLink (fork tightLink 0 1) s = some 2) = true := by decide +kernel
    obtain ⟨s, hs, h⟩ := (Option.any_eq_true ..).mp h
    obtain ⟨hfork, h7, hfail⟩ := of_decide_eq_true h
    obtain ⟨t, ht, hlen⟩ := failed_eq hfail
    exact ⟨s, t, hs, hfork, ht, by rw [hlen, h7]⟩

/-! ### Isolation -/

/-- The page that the process reads and writes at `va` in user mode. -/
def State.userPage (s : State) (p : Slot) (va : Nat) : Option Frame :=
  ((s.proc p).pagetable.bind fun R => s.leaf R va).bind fun e => if e.perm.u then some e.ppn else none

/-- The page-table pages on the way to `va`, from one of level `level + 1`. -/
def State.tables (s : State) (va : Nat) : Nat → Frame → List Frame
  | 0, pt => [pt]
  | level + 1, pt =>
    let e := s.pte pt (px (level + 1) va)
    pt :: if e.v && !e.isLeaf then s.tables va level e.ppn else []

theorem Fits.tables (h : Fits K true v s) (hs : v.stale = none) (va : Nat) : ∀ {level pt b e},
    v.cell pt = some (.node R (level + 1) b e) → ∀ f ∈ s.tables va level pt, ∃ l b e, v.cell f = some (.node R (l + 1) b e)
  | 0, pt, b, e, hpt, f, hf => ⟨0, b, e, List.mem_singleton.mp hf ▸ hpt⟩
  | level + 1, pt, b, e, hpt, f, hf => by
    rw [State.tables, h.table hpt, List.mem_cons] at hf
    rcases hf with rfl | hf
    · exact ⟨_, _, _, hpt⟩
    · split at hf
      · rename_i hv
        obtain ⟨-, hsp | ⟨e', he'⟩⟩ := h.good.trees.down hpt (Bool.and_eq_true_iff.mp hv).1 (by simp [hs])
        · exact absurd hsp.1.1 (Nat.succ_ne_zero level)
        · exact h.tables hs va he' f hf
      · simp at hf

theorem Spaces.userPage {va : Nat} (h : Spaces K v) (hw : Whole K A v s) (hva : va < 2 ^ 39)
    (hf : s.userPage p va = some f) : ∃ R e, (s.proc p).pagetable = some R ∧ v.cell f = some (.node R 0 (vpn va) e) := by
  obtain ⟨x, hx, hu⟩ := Option.bind_eq_some_iff.mp hf
  obtain ⟨R, hR, hleaf⟩ := Option.bind_eq_some_iff.mp hx
  obtain ⟨e₀, he₀⟩ := h.root (hw.proc p) hR
  obtain ⟨g, e, hg, hv, rfl⟩ := (hw.fits.leaf h.stale he₀ hva).mp hleaf
  obtain ⟨hu, hf⟩ := Option.ite_none_right_eq_some.mp hu
  cases hf
  obtain ⟨-, ⟨-, hno⟩ | ⟨e', he'⟩⟩ := h.good.trees.down hg hv (by simp [h.stale])
  · simp [hno] at hu
  · rw [child_eq] at he'
    exact ⟨R, e', hR, he'⟩

/-- What a process can access in user mode is in no other process, at no other page, not on the free list,
    and neither a trapframe nor part of a page table. -/
theorem user_pages_private {va : Nat} (hboot : Booted K s₀) (hrun : (System.ofStep (step K)).Run (fun _ _ => True) s₀ es s)
    (hva : va < 2 ^ 39) (hf : s.userPage p va = some f) : f ∉ s.free ∧ K.kend ≤ f ∧ f < PHYSTOP ∧
      ∀ q, (s.proc q).tf ≠ some f ∧ ∀ va', va' < 2 ^ 39 →
        (s.userPage q va' = some f → q = p ∧ vpn va' = vpn va) ∧ ∀ R, (s.proc q).pagetable = some R → f ∉ s.tables va' 2 R := by
  obtain ⟨v, A, h, hw⟩ := Run.shaped hboot hrun
  obtain ⟨R, e, hR, hcell⟩ := h.userPage hw hva hf
  have hsome : v.cell f ≠ none := by simp [hcell]
  refine ⟨hw.fits.used hsome, (h.good.range hsome).1, (h.good.range hsome).2, fun q => ⟨fun htf => ?_, fun va' hva' =>
    ⟨fun hf' => ?_, fun R' hR' hmem => ?_⟩⟩⟩
  · have := h.good.held.tf (hw.proc q) htf (by simp [h.stale])
    simp [hcell] at this
  · obtain ⟨R', e', hR', hcell'⟩ := h.userPage hw hva' hf'
    obtain ⟨rfl, -, hvpn, -⟩ := node_inj hcell hcell'
    exact ⟨h.good.held.sole (hw.proc q) (hw.proc p) hR' hR, hvpn.symm⟩
  · obtain ⟨e₀, he₀⟩ := h.root (hw.proc q) hR'
    obtain ⟨l, b, e', he'⟩ := hw.fits.tables h.stale va' he₀ f hmem
    obtain ⟨-, hl, -⟩ := node_inj hcell he'
    exact absurd hl.symm (Nat.succ_ne_zero l)

theorem user_pages_private_child : ∃ s f, after smallLink spaceRun = some s ∧ s.userPage 1 4096 = some f ∧ f ∉ s.free ∧
    ∀ va, va < 2 ^ 39 → s.userPage 0 va ≠ some f := by
  have h : ((after smallLink spaceRun).any fun s => (s.userPage 1 4096).isSome) = true := by decide +kernel
  obtain ⟨s, hs, h⟩ := (Option.any_eq_true ..).mp h
  obtain ⟨f, hf⟩ := Option.isSome_iff_exists.mp h
  obtain ⟨s₀, hboot, hrun⟩ := after_run (by decide) hs
  obtain ⟨hfree, -, -, hq⟩ := user_pages_private hboot hrun (by decide) hf
  exact ⟨s, f, hs, hf, hfree, fun va hva h0 => absurd (((hq 0).2 va hva).1 h0).1 (by decide)⟩

end Xv6.Mem
