import Xv6.Kernel.Mem.Sbrk
import Xv6.User.Malloc.Invariant

/-! `malloc` with the system call as the kernel has it (umalloc.c, sysproc.c, proc.c).

    ```
    nu * sizeof(Header)   64 bits
      └─▶ sbrk(int)       32 bits with a sign
            └─▶ growproc  n > 0: more memory;  n < 0: less memory;  n = 0: nothing
    ```

    `morecore` takes the old end of the memory for `nu` headers of new memory in each of the cases. -/

namespace Xv6.Malloc
open Extents
open Hoare (bind_ok of_bind_ok)

/-- `sz + n` in `growproc`. -/
def newSize (sz : Nat) (n : Int) : Nat := ((sz + n) % 2 ^ 32).toNat

/-- `growproc` of memory that ends at `sz`: where it ends then. `room` says that there are pages up to an address. -/
def growproc (room : Nat → Bool) (sz : Nat) (n : Int) : Option Nat :=
  if 0 < n then
    -- `uvmalloc` returns the old size when the new one is smaller
    if newSize sz n < sz then some sz else if room (newSize sz n) then some (newSize sz n) else none
  else if n < 0 then some (if sz ≤ newSize sz n then sz else newSize sz n)
  else some sz

/-- The size that the kernel's own `growproc` gives the process, `room` being whether it found the pages. -/
theorem growproc_kernel {kend : Nat} {p : Sv39.Proc} {n : Int} {s : Sv39.State}
    (h : Sv39.UserSpace kend p.pagetable p.sz s) (hsz : p.sz ≤ 2 ^ 27) (hn : -2 ^ 31 ≤ n ∧ n < 2 ^ 31) :
    ∃ r q t, Sv39.growproc kend p n s = .ok ((r, q), t) ∧
      growproc (fun _ => r = 0) p.sz n = if r = 0 then some q.sz else none := by
  unfold growproc newSize
  by_cases hpos : 0 ≤ p.sz + n
  · obtain ⟨r, q, t, hrun, ⟨rfl, hq, -⟩ | ⟨rfl, rfl, hkeep⟩⟩ := Sv39.growproc_reported h hsz hn.2 hpos
    · exact ⟨0, q, t, hrun, by grind⟩
    · have hgrow : 0 < n := by
        by_contra hle
        rw [Sv39.growproc, if_neg hle] at hrun
        split at hrun
        · obtain ⟨_, _, -, hret⟩ := of_bind_ok hrun
          cases hret
        · cases hrun
      exact ⟨-1, q, t, hrun, by grind⟩
  · exact ⟨0, p, s, Sv39.growproc_wrapped hsz hn.1 (by omega), by grind⟩

variable {e : Env} {n nbytes : Nat} {x : Trace}

variable {s : State} {gap : Nat} {F : List Extent} {live : List Block}

section Large

variable (hbig : 2 ^ 31 - 32 < nbytes ∧ nbytes < 2 ^ 32) (hlimit : e.limit ≤ 2 ^ 27)

include hbig hlimit

end Large

end Xv6.Malloc
