import Xv6.Kernel.Sleep.Steps

/-! Notes about the last call of every process.

    A note begins when the process enters a call, and every step of the thread in the call may add to it.
    What holds of the note at each place of the thread is kept by the steps of one thread; the steps of
    the others, of handlers and of the scheduler do not change it. -/

namespace Xv6.Sleep

open Procs (Slot)
open State

variable {nc : Nat} {α : Type} {s t : State nc} {c : Fin nc} {q : Slot}

/-- The calls that are made meet the condition. -/
def CallsMeet (ok : Req → Prop) : Act nc → Prop
  | .enter _ r => ok r
  | _ => True

instance (ok : Req → Prop) [DecidablePred ok] : (a : Act nc) → Decidable (CallsMeet ok a)
  | .enter _ r => inferInstanceAs (Decidable (ok r))
  | .call .. | .yield .. | .run .. | .sleep .. | .wakeup .. | .pipealloc .. | .dup .. | .close .. | .go .. |
    .interrupt .. | .handle .. => inferInstanceAs (Decidable True)

/-- How notes are taken: outside the calls, when a call begins, and when the thread takes a step. -/
structure Notes (nc : Nat) (α : Type) where
  idle : α
  start : Req → α
  go : α → State nc → State nc → Slot → α

def Notes.note (N : Notes nc α) (l : Slot → α) (s t : State nc) : Act nc → Slot → α
  | .enter c r => (s.current c).elim l fun q => Function.update l q (N.start r)
  | .close c _ => (s.current c).elim l fun q => Function.update l q N.idle
  | .go c => (s.current c).elim l fun q => Function.update l q (N.go (l q) s t q)
  | _ => l

/-- `P` relates the note of a process to the result of its last call and to the place of its thread. -/
def Keeps (P : α → Int32 → Pos → Prop) (s : State nc) (l : Slot → α) : Prop :=
  ∀ q, P (l q) (s.a0 q) (s.pos q)

/-- The steps of a thread keep `P`. -/
structure Notes.Rule (N : Notes nc α) (ok : Req → Prop) (P : α → Int32 → Pos → Prop) : Prop where
  out : ∀ v, P N.idle v .out
  close : ∀ v x, P N.idle v (.close x)
  enter : ∀ r v, ok r → P (N.start r) v (.enter r.call)
  go : ∀ {s t : State nc} {c : Fin nc} {q : Slot} {m : α}, P m (s.a0 q) (s.pos q) → Go s c q (s.pos q) t →
    P (N.go m s t q) (t.a0 q) (t.pos q)

variable {N : Notes nc α} {ok : Req → Prop} {P : α → Int32 → Pos → Prop} {l : Slot → α} {m : α}

/-- Only the thread of `q` and its note change. -/
theorem Keeps.update (h : Keeps P s l) (hother : ∀ r, r ≠ q → t.pos r = s.pos r ∧ t.a0 r = s.a0 r)
    (hq : P m (t.a0 q) (t.pos q)) : Keeps P t (Function.update l q m) := by
  intro r
  by_cases hr : r = q
  · subst hr
    rwa [Function.update_self]
  · rw [Function.update_of_ne hr, (hother r hr).1, (hother r hr).2]
    exact h r

theorem Keeps.goto (h : Keeps P s l) {k : Pos} (hpos : t.pos = Function.update s.pos q k) (ha0 : t.a0 = s.a0)
    (hq : P m (s.a0 q) k) : Keeps P t (Function.update l q m) := by
  refine h.update (fun r hr => ⟨?_, by rw [ha0]⟩) ?_
  · rw [hpos, Function.update_of_ne hr]
  · rwa [hpos, Function.update_self, ha0]

theorem Notes.Rule.step (hN : N.Rule ok P) (h : Keeps P s l) {a : Act nc} (hok : CallsMeet ok a) (hstep : Step s a t) :
    Keeps P t (N.note l s t a) := by
  cases hstep with
  | under hl => cases hl <;> exact h
  | fork | pipealloc | dup | interrupt => exact h
  | handle _ hh => cases hh <;> exact h
  | drop hpos hx hr hq =>
    simp only [note, hq, Option.elim_some]
    refine h.update (fun r _ => ⟨rfl, rfl⟩) ?_
    rw [setFiles_pos, hpos]
    exact hN.out _
  | close hpos hpc hx hr hq =>
    simp only [note, hq, Option.elim_some]
    exact h.goto rfl rfl (hN.close _ _)
  | pipewrite hpos hpc hx hq | enter hpos hpc hx hr hq =>
    simp only [note, hq, Option.elim_some]
    exact h.goto rfl rfl (hN.enter _ _ hok)
  | go hq hpc hgo =>
    simp only [note, hq, Option.elim_some]
    exact h.update (fun r hr => hgo.other hr) (hN.go (h _) hgo)

end Xv6.Sleep
