import Xv6.Kernel.Fs.Accounting
import Xv6.Kernel.Fs.Contents

/-! Regular files refine arrays of bytes.

    ```
    arrays   A ───────spec──────▶ A' ───────spec──────▶ A''
             │                    │                     │
           fileOf               fileOf                fileOf
             │                    │                     │
    disk     s ──readi, writei──▶ t ──readi, writei──▶  u
    ```

    An array for every inode; a call reads or overlays one of them. The disk follows as long as there
    are free blocks for the slots that a write has to fill. -/

namespace Xv6.Fs
open Bytes Hoare Function

/-! ### The arrays -/

/-- A call on a file: `uint` offsets and lengths. -/
inductive Op where
  | read (off n : UInt32)
  | write (off : UInt32) (data : List UInt8) (fits : data.length < 2 ^ 32)

/-- What a call returns; `none` is -1. -/
inductive Reply where
  | bytes (r : Option (List UInt8))
  | count (r : Option Nat)
  deriving DecidableEq

/-- A call on an array. -/
def Op.spec (B : List UInt8) : Op → Reply × List UInt8
  | .read off n =>
    (.bytes (if off.toNat ≤ B.length ∧ off.toNat + n.toNat < 2 ^ 32 then
      some ((B.drop off.toNat).take n.toNat) else none), B)
  | .write off data _ =>
    if Accepts B.length off.toNat data.length then
      (.count (some data.length), overlay B off.toNat data)
    else (.count none, B)

/-- A sequence of calls on the arrays of a file system. -/
def specAll (A : Nat → List UInt8) : List (Nat × Op) → List Reply × (Nat → List UInt8)
  | [] => ([], A)
  | (i, op) :: ops =>
    let rest := specAll (update A i (op.spec (A i)).2) ops
    ((op.spec (A i)).1 :: rest.1, rest.2)

/-! ### The files -/

def Op.run (sb : Superblock) (e : EntryId) : Op → M Reply
  | .read off n => do return .bytes (← readi sb e off.toNat n.toNat)
  | .write off data _ => do
    return .count (← writei sb e (fun j => data[j]?) off.toNat data.length)

def runAll (sb : Superblock) : List (EntryId × Op) → M (List Reply)
  | [] => pure []
  | (e, op) :: ops => do
    let r ← op.run sb e
    let rs ← runAll sb ops
    pure (r :: rs)

/-- There are free blocks for a write that is accepted. -/
def Op.Needs (sb : Superblock) (e : EntryId) (s : State) : Op → Prop
  | .read _ _ => True
  | .write off data _ => Accepts (s.icache e).din.size.toNat off.toNat data.length →
    Room sb e (touched off.toNat data.length) s

/-- Before each call there are free blocks for it. -/
def Enough (sb : Superblock) : List (EntryId × Op) → State → Prop
  | [], _ => True
  | (e, op) :: ops, s => op.Needs sb e s ∧
    match op.run sb e s with
    | .ok r => Enough sb ops r.2
    | .error _ => True

instance (sb : Superblock) (e : EntryId) (K : Finset Nat) (s : State) : Decidable (Room sb e K s) :=
  inferInstanceAs (Decidable (_ ≤ _))

instance (sb : Superblock) (e : EntryId) (s : State) : (op : Op) → Decidable (op.Needs sb e s)
  | .read _ _ => inferInstanceAs (Decidable True)
  | .write _ _ _ => inferInstanceAs (Decidable (_ → _))

instance decidableEnough (sb : Superblock) :
    (ops : List (EntryId × Op)) → (s : State) → Decidable (Enough sb ops s)
  | [], _ => inferInstanceAs (Decidable True)
  | (e, op) :: ops, s => by
    unfold Enough
    have : Decidable (match op.run sb e s with
        | .ok r => Enough sb ops r.2
        | .error _ => True) := by
      cases op.run sb e s with
      | ok r => exact decidableEnough sb ops r.2
      | error _ => exact inferInstanceAs (Decidable True)
    exact inferInstance

/-! ### Refinement -/

variable {sb : Superblock} {X : Option Pid} {l : List EntryId} {L : EntryId → Option Int16}
  {T : Nat → Dinode} {s t : State} {e : EntryId} {A : Nat → List UInt8}

/-- The files of a state are the arrays `A`. -/
def Refines (sb : Superblock) (s : State) (A : Nat → List UInt8) : Prop :=
  ∀ i, i < sb.ninodes → (dinodeAt sb s.view i).type ≠ 0 → fileOf sb s.view i = A i

theorem Refines.entry (h : Refines sb s A) (hs : Inv sb X l L T none [] s) (hL : (L e).isSome = true) :
    contents (s.icache e).din s.view = A (s.icache e).inum := by
  have hed := hs.edit hL
  have hdin := hs.dinodeAt_entry hL
  rw [← h _ hed.inum_lt (by rw [hs.dinodeAt_eq hed.inum_lt]; exact hed.typed), fileOf, hdin]

/-- What a call on a locked inode leaves: the same entries, inodes in use and locks. -/
structure Called (sb : Superblock) (X : Option Pid) (l : List EntryId) (L : EntryId → Option Int16)
    (s t : State) : Prop where
  held : Held sb X l L t
  inum : ∀ e, (t.icache e).inum = (s.icache e).inum
  typed : ∀ i, i < sb.ninodes → ((dinodeAt sb t.view i).type ≠ 0 ↔ (dinodeAt sb s.view i).type ≠ 0)

theorem Written.called {off : Nat} {data : List UInt8} (hw : Written sb X l L e off data s t)
    (h : Inv sb X l L T none [] s) (hL : (L e).isSome = true) : Called sb X l L s t where
  held := hw.held
  inum e' := by
    by_cases he : e' = e
    · rw [he, hw.frame.inum]
    · rw [hw.frame.icache e' he]
  typed i hi := by
    by_cases hie : i = (s.icache e).inum
    · obtain ⟨T', ht⟩ := hw.held
      have h₁ := h.dinodeAt_eq hi ▸ hie ▸ (h.edit hL).typed
      have h₂ := ht.dinodeAt_eq hi ▸ (hie.trans hw.frame.inum.symm) ▸ (ht.edit hL).typed
      exact ⟨fun _ => h₁, fun _ => h₂⟩
    · rw [hw.dinodes i hi hie]

theorem Written.refines {off : Nat} {data : List UInt8} (hw : Written sb X l L e off data s t)
    (h : Inv sb X l L T none [] s) (hL : (L e).isSome = true) (hA : Refines sb s A) :
    Refines sb t (update A (s.icache e).inum (overlay (A (s.icache e).inum) off data)) := by
  intro i hi hty
  by_cases hie : i = (s.icache e).inum
  · obtain ⟨T', ht⟩ := hw.held
    rw [hie, update_self, ← hA.entry h hL, ← hw.self, fileOf, ← hw.frame.inum,
      ht.dinodeAt_entry hL]
  · rw [update_of_ne hie]
    have hty' := ((hw.called h hL).typed i hi).mp hty
    rw [hw.others i hi hie hty', hA i hi hty']

/-- One call. -/
theorem Op.run_ok (op : Op) (h : Inv sb X l L T none [] s) (hL : L e = some T_FILE)
    (hA : Refines sb s A) (hneed : op.Needs sb e s) :
    wp Never (op.run sb e) (fun r t => r = (op.spec (A (s.icache e).inum)).1 ∧ Called sb X l L s t ∧
      Refines sb t (update A (s.icache e).inum (op.spec (A (s.icache e).inum)).2)) s := by
  have hsome : (L e).isSome = true := by rw [hL]; rfl
  have hB := hA.entry h hsome
  have hlen : (A (s.icache e).inum).length = (s.icache e).din.size.toNat := by
    rw [← hB, length_contents]
  have hsame : Called sb X l L s s ∧
      Refines sb s (update A (s.icache e).inum (A (s.icache e).inum)) := by
    rw [update_eq_self]
    exact ⟨⟨⟨T, h⟩, fun _ => rfl, fun _ _ => Iff.rfl⟩, hA⟩
  cases op with
  | read off n =>
    refine (readi_ok h hsome off.toNat_lt n.toNat_lt).seq ?_
    rintro r t ⟨rfl, rfl⟩
    refine ⟨?_, hsame⟩
    simp only [Op.spec, hlen, hB]
  | write off data fits =>
    refine (writei_ok h hsome (fun htd => ?_) off.toNat_lt fits
      fun hacc _ => hneed hacc).seq fun r t ht => ?_
    · have hty := (h.cache.held hL).2.2
      rw [htd] at hty
      exact absurd hty (by decide)
    · by_cases hacc : Accepts (s.icache e).din.size.toNat off.toNat data.length
      · rw [if_pos hacc] at ht
        obtain ⟨rfl, hw⟩ := ht
        simp only [Op.spec, hlen, if_pos hacc]
        exact ⟨rfl, hw.called h hsome, hw.refines h hsome hA⟩
      · rw [if_neg hacc] at ht
        obtain ⟨rfl, rfl⟩ := ht
        simp only [Op.spec, hlen, if_neg hacc]
        exact ⟨rfl, hsame⟩

/-- Sequences of calls on regular files return what they return on arrays of bytes, and change the
    files as they change the arrays. -/
theorem files_refine_byte_arrays (h : Inv sb X l L T none [] s) (ops : List (EntryId × Op))
    (hreg : ∀ x ∈ ops, L x.1 = some T_FILE) (hroom : Enough sb ops s) (hA : Refines sb s A) :
    ∃ t, runAll sb ops s = .ok ((specAll A (ops.map fun x => ((s.icache x.1).inum, x.2))).1, t) ∧
      Called sb X l L s t ∧
      Refines sb t (specAll A (ops.map fun x => ((s.icache x.1).inum, x.2))).2 := by
  induction ops generalizing s T A with
  | nil => exact ⟨s, rfl, ⟨⟨T, h⟩, fun _ => rfl, fun _ _ => Iff.rfl⟩, hA⟩
  | cons x ops ih =>
    obtain ⟨e, op⟩ := x
    obtain ⟨hneed, hrest⟩ := hroom
    obtain ⟨r, t, hrun, rfl, hcalled, ht⟩ :=
      (op.run_ok h (hreg _ List.mem_cons_self) hA hneed).returns
    rw [hrun] at hrest
    obtain ⟨T', hinv⟩ := hcalled.held
    obtain ⟨u, hruns, hcalled', hu⟩ := ih hinv (fun x hx => hreg x (List.mem_cons_of_mem _ hx)) hrest ht
    have hinum : (ops.map fun x => ((t.icache x.1).inum, x.2)) =
        ops.map fun x => ((s.icache x.1).inum, x.2) :=
      List.map_congr_left fun x _ => by rw [hcalled.inum]
    rw [hinum] at hruns hu
    refine ⟨u, ?_, ⟨hcalled'.held, fun e => (hcalled'.inum e).trans (hcalled.inum e), fun i hi =>
      (hcalled'.typed i hi).trans (hcalled.typed i hi)⟩, hu⟩
    change Except.bind (op.run sb e s) (fun r => (runAll sb ops >>= fun rs => pure (r.1 :: rs)) r.2) = _
    rw [hrun]
    change Except.bind (runAll sb ops t) _ = _
    rw [hruns]
    rfl

/-! ### A file on the small image -/

/-- A new file, locked. -/
def newFile (sb : Superblock) : M EntryId := do
  let e ← ialloc sb T_FILE
  ilock sb e
  pure e

theorem newFile_wp (h : Quiet sb s) :
    wp NoDoubleFree (newFile sb) (fun e t =>
      Held sb none [e] (update unlocked e (some T_FILE)) t) s := by
  refine (ialloc_wp h T_FILE).seq fun e t ⟨T, ht, hty⟩ => ?_
  refine (ilock_wp ht).seq fun _ u ⟨_, _, _, hu⟩ => ?_
  rw [hty] at hu
  exact ⟨T, hu⟩

/-- Entry 1 after `newFile` on the small image. -/
def smallState : State :=
  match newFile smallSb (boot smallImage) with
  | .ok r => r.2
  | .error _ => boot smallImage

theorem held_smallState :
    Held smallSb none [1] (update unlocked 1 (some T_FILE)) smallState := by
  have hok : (match newFile smallSb (boot smallImage) with
      | .ok r => decide (r.1 = 1)
      | .error _ => false) = true := by decide +kernel
  have hwp := newFile_wp smallImage_wellFormed.quiet_boot
  unfold wp at hwp
  unfold smallState
  cases hrun : newFile smallSb (boot smallImage) with
  | ok r =>
    rw [hrun] at hok hwp
    have hr : r.1 = 1 := of_decide_eq_true hok
    exact hr ▸ hwp
  | error _ =>
    rw [hrun] at hok
    cases hok

/-- Two bytes are written, the second is overwritten and one is added, and a read stops at the end. -/
theorem files_refine_byte_arrays_small :
    ∃ t, runAll smallSb [(1, .write 0 [72, 73] (by decide)), (1, .write 1 [105, 33] (by decide)),
        (1, .read 0 100)] smallState =
      .ok ([.count (some 2), .count (some 2), .bytes (some [72, 105, 33])], t) := by
  obtain ⟨T, h⟩ := held_smallState
  obtain ⟨t, ht, -⟩ := files_refine_byte_arrays h
    [(1, .write 0 [72, 73] (by decide)), (1, .write 1 [105, 33] (by decide)), (1, .read 0 100)]
    (by simp) (by decide +kernel) fun _ _ _ => rfl
  refine ⟨t, ht.trans (congrArg (fun rs => Except.ok (rs, t)) ?_)⟩
  decide +kernel

end Xv6.Fs
