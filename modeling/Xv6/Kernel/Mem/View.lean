import Xv6.Kernel.Mem.Calls

/-! What a thread knows of the frames it has.

    Every frame has one use. A `node` of level 3, 2 or 1 is a page-table page, one of level 0 a page
    of user memory; `R` is the root of the table, and `b` says for which addresses the node is.

    ```
    level 3          level 2               level 1               level 0
    node R 3 0  ──►  node R 2 (va >> 30) ► node R 1 (va >> 21) ► node R 0 (va >> 12)
    ```

    A view is good if every valid entry points to the node that its place demands, and every node
    has the entry that points to it. Only one reference at a time may be stale: the one through
    which the thread has just freed a frame. -/

namespace Xv6.Mem
open Function

open Procs (Slot)

inductive Cell
  | loose
  /-- Filled with zeros. -/
  | blank
  | tf (q : Slot)
  | node (R : Frame) (l b : Nat) (e : Fin 512 → Pte)

/-- A frame that is in nobody's way: not ours, or not in use. -/
def Plain : Option Cell → Prop
  | none | some .loose | some .blank => True
  | _ => False

/-- A place that has the number of a frame. -/
inductive Ref
  | entry (f : Frame) (i : Fin 512)
  | tf (q : Slot)
  | root (q : Slot)

structure View where
  cell : Frame → Option Cell
  proc : Slot → Option Proc
  stale : Option Ref
  /-- The length of the free list, where nobody else runs. -/
  left : Nat

/-- The index of a node among those of its parent. -/
def idx (b : Nat) : Fin 512 := Fin.ofNat 512 b

/-- The number of the page of an address. -/
def vpn (va : Nat) : Nat := va / PGSIZE

/-- The pages that `proc_pagetable` maps, of which the page table does not own the frames. -/
def Special (l n : Nat) : Prop := l = 0 ∧ (n = vpn TRAMPOLINE ∨ n = vpn TRAPFRAME)

namespace View

@[simps -fullyApplied]
def upd (v : View) (f : Frame) (c : Option Cell) : View := { v with cell := update v.cell f c }

/-- After `kalloc` has returned `f`. -/
@[simps -fullyApplied]
def take (v : View) (f : Frame) : View := { v.upd f (some .loose) with left := v.left - 1 }

theorem upd_take (v : View) (f : Frame) : (v.take f).upd f (some .loose) = v.take f := by
  simp [upd, take]

end View

/-- The nodes of a view form page tables. -/
structure Trees (v : View) : Prop where
  level : ∀ {f R l b e}, v.cell f = some (.node R l b e) → l ≤ 3 ∧ (l = 3 → f = R ∧ b = 0)
  down : ∀ {f R l b e i}, v.cell f = some (.node R (l + 1) b e) → (e i).v = true →
    v.stale ≠ some (.entry f i) → ((e i).isLeaf = true ↔ l = 0) ∧
      (Special l (512 * b + i) ∧ (e i).perm.u = false ∨ ∃ e', v.cell (e i).ppn = some (.node R l (512 * b + i) e'))
  up : ∀ {f R l b e}, v.cell f = some (.node R l b e) → l < 3 →
    ∃ g e', v.cell g = some (.node R (l + 1) (b / 512) e') ∧ (e' (idx b)).v = true ∧
      (e' (idx b)).ppn = f ∧ v.stale ≠ some (.entry g (idx b)) ∧ ¬ Special l b

/-- The trapframes and the page tables of processes are among the frames. -/
structure Held (v : View) : Prop where
  tf : ∀ {q P f}, v.proc q = some P → P.tf = some f → v.stale ≠ some (.tf q) → v.cell f = some (.tf q)
  root : ∀ {q P R}, v.proc q = some P → P.pagetable = some R → v.stale ≠ some (.root q) →
    ∃ e, v.cell R = some (.node R 3 0 e)
  sole : ∀ {q q' P P' R}, v.proc q = some P → v.proc q' = some P' → P.pagetable = some R →
    P'.pagetable = some R → q = q'

structure Good (K : Link) (v : View) : Prop where
  trees : Trees v
  held : Held v
  range : ∀ {f}, v.cell f ≠ none → K.kend ≤ f ∧ f < PHYSTOP

variable {K : Link} {v w : View} {f g R : Frame} {i : Fin 512} {l b n : Nat} {e e' : Fin 512 → Pte}

theorem Good.setLeft (h : Good K v) (n : Nat) : Good K { v with left := n } :=
  ⟨⟨h.trees.level, h.trees.down, h.trees.up⟩, ⟨h.held.tf, h.held.root, h.held.sole⟩, h.range⟩

theorem idx_eq (b : Nat) : (idx b : Nat) = b % 512 := rfl

theorem child_div (b : Nat) (i : Fin 512) : (512 * b + i) / 512 = b := by omega

theorem child_idx (b : Nat) (i : Fin 512) : idx (512 * b + i) = i := by
  apply Fin.ext
  rw [idx_eq]
  omega

theorem child_eq (b : Nat) : 512 * (b / 512) + (idx b : Nat) = b := by
  rw [idx_eq]
  omega

theorem ne_of_cell {c c' : Cell} (hf : v.cell f = some c) (hg : v.cell g = some c') (hne : c ≠ c') : f ≠ g := by
  rintro rfl
  exact hne (Option.some.inj (hf.symm.trans hg))

/-- Two descriptions of one node. -/
theorem node_inj {c : Option Cell} {R R' : Frame} {l l' b b' : Nat} {e e' : Fin 512 → Pte}
    (h : c = some (.node R l b e)) (h' : c = some (.node R' l' b' e')) :
    R = R' ∧ l = l' ∧ b = b' ∧ e = e' := by
  rw [h] at h'
  injection h' with h'
  injection h' with h₁ h₂ h₃ h₄
  exact ⟨h₁, h₂, h₃, h₄⟩

/-- There is one node for each place. -/
theorem Trees.unique (h : Trees v) (hf : v.cell f = some (.node R l b e))
    (hg : v.cell g = some (.node R l b e')) : f = g := by
  obtain ⟨d, hd⟩ : ∃ d, l + d = 3 := ⟨3 - l, by have := (h.level hf).1; omega⟩
  induction d generalizing f g l b e e' with
  | zero =>
    obtain rfl : l = 3 := by omega
    rw [((h.level hf).2 rfl).1, ((h.level hg).2 rfl).1]
  | succ d ih =>
    obtain ⟨p, ep, hp, -, hpf, -⟩ := h.up hf (by omega)
    obtain ⟨p', ep', hp', -, hpg, -⟩ := h.up hg (by omega)
    obtain rfl := ih hp hp' (by omega)
    rw [← hpf, ← hpg, (node_inj hp hp').2.2.2]

theorem Plain.ne_node (h : Plain (v.cell f)) : v.cell f ≠ some (.node R l b e) := by
  intro hf
  rw [hf] at h
  exact h

theorem Plain.ne_tf {q : Slot} (h : Plain (v.cell f)) : v.cell f ≠ some (.tf q) := by
  intro hf
  rw [hf] at h
  exact h

end Xv6.Mem
