import Mathlib.Data.List.GetD
import Xv6.Schemes.Writes
import Xv6.Kernel.Log.Header

/-! Crash recovery of the redo log (`log.c`).

    One process at a time fills a transaction through `log_write` and `commit` then issues its disk
    writes: the log blocks, the header, the home blocks, the cleared header. A crash keeps some
    prefix of the writes; `recover_from_log` reads the header that is on the disk, installs what it
    lists and clears it, and may be cut by a crash itself. The invariant is that replaying the log
    of the crashed disk always gives the same home blocks: those of the last transaction whose
    header write happened.

        write_log      write_head     install_trans     write_head
        slots          header = L     home blocks       header = []
        ├─ replay: old state ─┤├─ replay: the whole transaction ─┤ -/

namespace Xv6.Log
open Bytes Writes Function

/-- Where the log lies on a disk of `nblocks` blocks: the header block `start` and behind it
    the slots. Block numbers are a C `uint`. -/
structure Geometry where
  start : Nat
  size : Nat
  nblocks : Nat
  nonempty : 0 < size
  fits : start + size ≤ nblocks
  uint : nblocks ≤ 2 ^ 32

/-- A home block: a block of the disk outside the log region. -/
def Geometry.Home (g : Geometry) (b : Nat) : Prop :=
  b < g.nblocks ∧ (b < g.start ∨ g.start + g.size ≤ b)

instance (g : Geometry) (b : Nat) : Decidable (g.Home b) :=
  inferInstanceAs (Decidable (_ ∧ _))

/-- The log of the images `mkfs` builds: `nlog = LOGSIZE` blocks from block 2 on, one of them the
    header. -/
def mkfsLog : Geometry := ⟨2, LOGSIZE, FSSIZE, by decide, by decide, by decide⟩

/-- The kernel's view of one disk: the block contents `bread` returns, the in-memory log header
    `lh.block[0..n)`, and the disk writes issued so far, oldest first. -/
structure St where
  cache : Disk
  lh : List Nat
  out : List (Nat × Block)

/-- `bwrite`: write the cached block to the disk. -/
def bwrite (s : St) (b : Nat) : St := { s with out := s.out ++ [(b, s.cache b)] }

/-- The loop body shared by `write_log` and `install_trans`: `bread` both blocks, `memmove` one
    over the other and `bwrite` the destination. -/
def copyOut (s : St) (dst src : Nat) : St :=
  bwrite { s with cache := update s.cache dst (s.cache src) } dst

/-- `lh.block[tail]`. -/
def blockAt (lh : List Nat) (tail : Nat) : Nat := lh.getD tail 0

/-- Copy modified blocks from cache to log. -/
def writeLog (g : Geometry) (s : St) : St :=
  (List.range s.lh.length).foldl (fun s tail => copyOut s (g.start + tail + 1) (blockAt s.lh tail)) s

/-- Copy committed blocks from log to their home location. -/
def installTrans (g : Geometry) (s : St) : St :=
  (List.range s.lh.length).foldl (fun s tail => copyOut s (blockAt s.lh tail) (g.start + tail + 1)) s

/-- Read the log header from disk into the in-memory log header. -/
def readHead (g : Geometry) (s : St) : St := { s with lh := getHead (s.cache g.start) }

/-- Write the in-memory log header to disk: the true point at which a transaction commits. -/
def writeHead (g : Geometry) (s : St) : St :=
  bwrite { s with cache := update s.cache g.start (putHead (s.cache g.start) s.lh) } g.start

def recoverFromLog (g : Geometry) (s : St) : St :=
  writeHead g { installTrans g (readHead g s) with lh := [] }

def commit (g : Geometry) (s : St) : St :=
  if 0 < s.lh.length then
    writeHead g { installTrans g (writeHead g (writeLog g s)) with lh := [] }
  else s

/-- `log_write` inside a transaction; `none` is `panic("too big a transaction")`. A block that is
    already recorded is absorbed. -/
def logWrite (g : Geometry) (s : St) (b : Nat) : Option St :=
  if LOGSIZE ≤ s.lh.length ∨ g.size ≤ s.lh.length + 1 then none
  else some { s with lh := if b ∈ s.lh then s.lh else s.lh ++ [b] }

/-- A group transaction: the block contents logged by its operations, in order. -/
abbrev Tx : Type := List (Nat × Block)

/-- Fill a transaction: modify each cached block, then `log_write` it. -/
def logTx (g : Geometry) (s : St) : Tx → Option St
  | [] => some s
  | w :: tx =>
    (logWrite g { s with cache := update s.cache w.1 w.2 } w.1).bind (logTx g · tx)

/-- A machine that has just booted on disk `d`, its buffer cache empty. -/
def boot (d : Disk) : St := ⟨d, [], []⟩

/-- Run transactions one after another, each with the disk writes its commit issued. -/
def run (g : Geometry) (s : St) : List Tx → Option (List (Tx × List (Nat × Block)))
  | [] => some []
  | tx :: txs =>
    (logTx g { s with out := [] } tx).bind fun s₁ =>
      (run g (commit g s₁) txs).map ((tx, (commit g s₁).out) :: ·)

/-- The transactions whose first header write is among the first `k` disk writes. -/
def survivors (g : Geometry) : List (Tx × List (Nat × Block)) → Nat → List Tx
  | [], _ => []
  | (tx, ws) :: hist, k =>
    if g.start ∈ (ws.take k).map Prod.fst then tx :: survivors g hist (k - ws.length)
    else survivors g hist (k - ws.length)

/-- Boot and recover, where a crash may cut recovery after any prefix of its writes, any number of
    times, before it completes. -/
inductive Recovers (g : Geometry) : Disk → Disk → Prop
  | crash {d f : Disk} (j : Nat)
      (h : Recovers g (apply d ((recoverFromLog g (boot d)).out.take j)) f) : Recovers g d f
  | done (d : Disk) : Recovers g d (apply d (recoverFromLog g (boot d)).out)

/-! ### The disk writes of each function -/

theorem foldl_copyOut (dst src : List Nat → Nat → Nat) (s : St) (n : Nat)
    (hsep : ∀ i < n, ∀ j < n, src s.lh i ≠ dst s.lh j) :
    (List.range n).foldl (fun s t => copyOut s (dst s.lh t) (src s.lh t)) s =
      { s with
        cache := apply s.cache ((List.range n).map fun t => (dst s.lh t, s.cache (src s.lh t)))
        out := s.out ++ (List.range n).map fun t => (dst s.lh t, s.cache (src s.lh t)) } := by
  induction n with
  | zero => simp
  | succ n ih =>
    have hsrc : apply s.cache ((List.range n).map fun t => (dst s.lh t, s.cache (src s.lh t)))
        (src s.lh n) = s.cache (src s.lh n) := by
      refine apply_of_forall_ne _ fun w hw => ?_
      obtain ⟨t, ht, rfl⟩ := List.mem_map.mp hw
      exact (hsep n (by omega) t (by have := List.mem_range.mp ht; omega)).symm
    rw [List.range_succ, List.foldl_append, ih fun i hi j hj => hsep i (by omega) j (by omega)]
    simp [copyOut, bwrite, hsrc, apply_append]

/-- The slot writes of `write_log` for header `lh` and block contents `c`. -/
def slotWrites (g : Geometry) (lh : List Nat) (c : Disk) : List (Nat × Block) :=
  (List.range lh.length).map fun t => (g.start + t + 1, c (blockAt lh t))

/-- The home writes of `install_trans` for header `lh`, with the slots as they are in `c`. -/
def homeWrites (g : Geometry) (lh : List Nat) (c : Disk) : List (Nat × Block) :=
  (List.range lh.length).map fun t => (blockAt lh t, c (g.start + t + 1))

/-- A header the log can hold: one slot for each entry, and every entry a home block. -/
structure Header (g : Geometry) (lh : List Nat) : Prop where
  home : ∀ b ∈ lh, g.Home b
  slots : lh.length < g.size

variable {lh : List Nat} {t : Nat}

theorem blockAt_eq (ht : t < lh.length) : blockAt lh t = lh[t] :=
  List.getD_eq_getElem _ _ ht

theorem blockAt_mem (ht : t < lh.length) : blockAt lh t ∈ lh := by
  rw [blockAt_eq ht]; exact List.getElem_mem ht

variable {g : Geometry} {b : Nat}

/-- A home block is neither the header block nor a slot of the header. -/
theorem Geometry.Home.ne_log (hb : g.Home b) (ht : t < g.size) :
    b ≠ g.start + t := by
  obtain ⟨-, hb⟩ := hb
  omega

theorem Geometry.Home.ne_start (hb : g.Home b) : b ≠ g.start :=
  hb.ne_log g.nonempty

theorem Header.ne_slot (h : Header g lh) {i : Nat}
    (hi : i < lh.length) (ht : t < lh.length) : blockAt lh i ≠ g.start + t + 1 := by
  have := h.slots
  exact (h.home _ (blockAt_mem hi)).ne_log (t := t + 1) (by omega)

theorem writeLog_eq (g : Geometry) (s : St) (h : Header g s.lh) :
    writeLog g s = { s with
      cache := apply s.cache (slotWrites g s.lh s.cache)
      out := s.out ++ slotWrites g s.lh s.cache } :=
  foldl_copyOut (fun _ t => g.start + t + 1) blockAt s _ fun _ hi _ hj => h.ne_slot hi hj

theorem installTrans_eq (g : Geometry) (s : St) (h : Header g s.lh) :
    installTrans g s = { s with
      cache := apply s.cache (homeWrites g s.lh s.cache)
      out := s.out ++ homeWrites g s.lh s.cache } :=
  foldl_copyOut blockAt (fun _ t => g.start + t + 1) s _ fun _ hi _ hj => (h.ne_slot hj hi).symm

/-! ### Recovery -/

/-- The home blocks that replaying the log of disk `d` gives. -/
def replay (g : Geometry) (d : Disk) : Disk := apply d (homeWrites g (getHead (d g.start)) d)

/-- A disk whose log header can be installed. -/
def LogOk (g : Geometry) (d : Disk) : Prop := Header g (getHead (d g.start))

theorem homeWrites_home (h : Header g lh) (c : Disk) :
    ∀ w ∈ homeWrites g lh c, g.Home w.1 := by
  intro w hw
  obtain ⟨t, ht, rfl⟩ := List.mem_map.mp hw
  exact h.home _ (blockAt_mem (List.mem_range.mp ht))

variable {c : Disk}

theorem homeWrites_congr {c' : Disk}
    (h : ∀ t < lh.length, c (g.start + t + 1) = c' (g.start + t + 1)) :
    homeWrites g lh c = homeWrites g lh c' := by
  refine List.map_congr_left fun t ht => ?_
  rw [h t (List.mem_range.mp ht)]

/-- Writes to home blocks leave the header block and the slots alone. -/
theorem apply_home_log {ws : List (Nat × Block)} (hws : ∀ w ∈ ws, g.Home w.1)
    (d : Disk) (ht : t < g.size) : apply d ws (g.start + t) = d (g.start + t) :=
  apply_of_forall_ne d fun w hw => (hws w hw).ne_log ht

variable {d : Disk}

theorem recoverFromLog_out (h : LogOk g d) :
    (recoverFromLog g (boot d)).out =
      homeWrites g (getHead (d g.start)) d ++ [(g.start, putHead (d g.start) [])] := by
  have hstart : apply d (homeWrites g (getHead (d g.start)) d) g.start = d g.start :=
    apply_home_log (homeWrites_home h d) d g.nonempty
  have hinst := installTrans_eq g (readHead g (boot d)) h
  rw [recoverFromLog, hinst]
  simp [readHead, boot, writeHead, bwrite, hstart]

/-- A disk with an empty log replays to itself. -/
theorem replay_clean (h : getHead (d g.start) = []) : replay g d = d := by
  rw [replay, h]; rfl

theorem logOk_clean (h : getHead (d g.start) = []) : LogOk g d := by
  rw [LogOk, h]; exact ⟨by simp, g.nonempty⟩

theorem getHead_clear (d : Disk) (hb : Block) :
    getHead (update d g.start (putHead hb []) g.start) = [] := by
  rw [update_self, getHead_putHead_nil]

/-- Replay is idempotent under crashes: whatever part of the home blocks a log already installed,
    the log is still on the disk and replays to the same home blocks. -/
theorem replay_take_home (h : LogOk g d) (j : Nat) :
    LogOk g (apply d ((homeWrites g (getHead (d g.start)) d).take j)) ∧
      replay g (apply d ((homeWrites g (getHead (d g.start)) d).take j)) = replay g d := by
  have hws : ∀ w ∈ (homeWrites g (getHead (d g.start)) d).take j, g.Home w.1 := fun w hw =>
    homeWrites_home h d w (List.mem_of_mem_take hw)
  have hstart := apply_home_log hws d g.nonempty
  rw [Nat.add_zero] at hstart
  refine ⟨by rw [LogOk, hstart]; exact h, ?_⟩
  have hslots : homeWrites g (getHead (d g.start)) _ = homeWrites g (getHead (d g.start)) d :=
    homeWrites_congr fun t ht => apply_home_log hws d (t := t + 1) (by have := h.slots; omega)
  rw [replay, hstart, hslots, apply_take_redo]
  rfl

/-- What a crash during recovery leaves on the disk. -/
theorem recover_take (h : LogOk g d) (j : Nat) :
    LogOk g (apply d ((recoverFromLog g (boot d)).out.take j)) ∧
      ∀ b, g.Home b →
        replay g (apply d ((recoverFromLog g (boot d)).out.take j)) b = replay g d b := by
  rw [recoverFromLog_out h]
  rcases Nat.lt_or_ge (homeWrites g (getHead (d g.start)) d).length j with hj | hj
  · -- the cleared header was written: the log is empty, the home blocks are all installed
    rw [List.take_of_length_le (by simp; omega), apply_append, apply_singleton]
    refine ⟨logOk_clean (getHead_clear _ _), fun b hb => ?_⟩
    rw [replay_clean (getHead_clear _ _), update_of_ne hb.ne_start]
    rfl
  · rw [List.take_append_of_le_length hj]
    obtain ⟨hok, hre⟩ := replay_take_home h j
    exact ⟨hok, fun b _ => by rw [hre]⟩

theorem recover_done (h : LogOk g d) :
    getHead (apply d (recoverFromLog g (boot d)).out g.start) = [] ∧
      ∀ b, g.Home b → apply d (recoverFromLog g (boot d)).out b = replay g d b := by
  rw [recoverFromLog_out h, apply_append]
  simp only [apply_singleton]
  refine ⟨getHead_clear _ _, fun b hb => ?_⟩
  rw [update_of_ne hb.ne_start]
  rfl

variable {f : Disk}

/-- However often it is interrupted, recovery ends with an empty log and the replayed blocks. -/
theorem recovers_replay (hrec : Recovers g d f) (h : LogOk g d) :
    getHead (f g.start) = [] ∧ ∀ b, g.Home b → f b = replay g d b := by
  induction hrec with
  | crash j _ ih =>
    obtain ⟨hok, hre⟩ := recover_take h j
    obtain ⟨hlh, hf⟩ := ih hok
    exact ⟨hlh, fun b hb => (hf b hb).trans (hre b hb)⟩
  | done d => exact recover_done h

/-! ### Commit -/

/-- The writes of one `commit`: header `lh`, block contents `c`. -/
def commitWrites (g : Geometry) (lh : List Nat) (c : Disk) : List (Nat × Block) :=
  slotWrites g lh c ++ ((g.start, putHead (c g.start) lh) ::
    (lh.map (fun b => (b, c b)) ++ [(g.start, putHead (putHead (c g.start) lh) [])]))

theorem slotWrites_ne_home (h : Header g lh) (c : Disk)
    (hb : g.Home b) : ∀ w ∈ slotWrites g lh c, w.1 ≠ b := by
  intro w hw
  obtain ⟨t, ht, rfl⟩ := List.mem_map.mp hw
  have := List.mem_range.mp ht
  have := h.slots
  exact (hb.ne_log (t := t + 1) (by omega)).symm

theorem slotWrites_ne_start (g : Geometry) (lh : List Nat) (c : Disk) :
    ∀ w ∈ slotWrites g lh c, w.1 ≠ g.start := by
  intro w hw
  obtain ⟨t, ht, rfl⟩ := List.mem_map.mp hw
  omega

/-- After `write_log` the slots hold the blocks of the header, in order. -/
theorem apply_slotWrites (g : Geometry) (lh : List Nat) (c d : Disk) (ht : t < lh.length) :
    apply d (slotWrites g lh c) (g.start + t + 1) = c (blockAt lh t) := by
  refine apply_of_mem d (w := (g.start + t + 1, c (blockAt lh t)))
    (List.mem_map.mpr ⟨t, List.mem_range.mpr ht, rfl⟩) fun v hv hvt => ?_
  obtain ⟨i, _, rfl⟩ := List.mem_map.mp hv
  have : i = t := by simp only at hvt; omega
  rw [this]

/-- Once the slots hold the blocks of the header, `install_trans` writes these blocks home. -/
theorem homeWrites_of_slots
    (h : ∀ t < lh.length, d (g.start + t + 1) = c (blockAt lh t)) :
    homeWrites g lh d = lh.map fun b => (b, c b) := by
  refine List.ext_getElem (by simp [homeWrites]) fun t h1 h2 => ?_
  have ht : t < lh.length := by simpa using h2
  simp [homeWrites, h t ht, blockAt_eq ht]

variable {s : St}

theorem commit_eq (h : Header g s.lh) (hn : 0 < s.lh.length) :
    commit g s =
      ⟨apply s.cache (commitWrites g s.lh s.cache), [], s.out ++ commitWrites g s.lh s.cache⟩ := by
  have hstart := apply_of_forall_ne s.cache (slotWrites_ne_start g s.lh s.cache)
  have hw : writeHead g (writeLog g s) = { s with
      cache := update (apply s.cache (slotWrites g s.lh s.cache)) g.start
        (putHead (s.cache g.start) s.lh)
      out := s.out ++ slotWrites g s.lh s.cache ++ [(g.start, putHead (s.cache g.start) s.lh)] } := by
    rw [writeLog_eq g s h]
    simp [writeHead, bwrite, hstart]
  have hinst := installTrans_eq g (writeHead g (writeLog g s)) (by rw [hw]; exact h)
  have hslots : ∀ t < s.lh.length, (writeHead g (writeLog g s)).cache (g.start + t + 1)
      = s.cache (blockAt s.lh t) := by
    intro t ht
    rw [hw]
    simp only
    rw [update_of_ne (by omega), apply_slotWrites g s.lh s.cache s.cache ht]
  have hhome : ∀ w ∈ s.lh.map (fun b => (b, s.cache b)), g.Home w.1 := by
    intro w hw
    obtain ⟨b, hb, rfl⟩ := List.mem_map.mp hw
    exact h.home b hb
  rw [hw] at hinst hslots
  rw [homeWrites_of_slots hslots] at hinst
  have hclear := apply_home_log hhome (update (apply s.cache (slotWrites g s.lh s.cache))
    g.start (putHead (s.cache g.start) s.lh)) g.nonempty
  rw [Nat.add_zero, update_self] at hclear
  rw [commit, if_pos hn, hw, hinst]
  simp [writeHead, bwrite, hclear, commitWrites, apply_append, apply_cons]

/-- What filling a transaction does: the cache holds its blocks, the header lists them. -/
structure Filled (g : Geometry) (c : Disk) (tx : Tx) (s : St) : Prop where
  cache : s.cache = apply c tx
  header : Header g s.lh
  length : s.lh.length ≤ LOGSIZE
  mem : ∀ b, b ∈ s.lh ↔ b ∈ tx.map Prod.fst
  out : s.out = []

theorem logTx_filled (tx : Tx) : ∀ {pre : Tx} {s s' : St},
    Filled g c pre s → (∀ w ∈ tx, g.Home w.1) → logTx g s tx = some s' → Filled g c (pre ++ tx) s' := by
  induction tx with
  | nil =>
    intro pre s s' hs _ hrun
    rw [logTx, Option.some.injEq] at hrun
    rw [← hrun, List.append_nil]
    exact hs
  | cons w tx ih =>
    intro pre s s' hs hhome hrun
    rw [logTx, logWrite] at hrun
    split at hrun
    · simp at hrun
    · rename_i hroom
      simp only [not_or, Nat.not_le] at hroom
      rw [← List.singleton_append, ← List.append_assoc]
      refine ih ?_ (fun v hv => hhome v (List.mem_cons_of_mem _ hv)) hrun
      -- one `log_write`: absorbed when the block is recorded already
      have hw : g.Home w.1 := hhome w List.mem_cons_self
      by_cases hmem : w.1 ∈ s.lh
      · simp only [hmem, if_true]
        refine ⟨by simp [hs.cache, apply_append], hs.header, hs.length, fun b => ?_, hs.out⟩
        simp only [List.map_append, List.mem_append, List.map_cons, List.map_nil, List.mem_singleton,
          ← hs.mem b]
        exact ⟨Or.inl, fun h => h.elim id fun h => h ▸ hmem⟩
      · simp only [hmem, if_false]
        refine ⟨by simp [hs.cache, apply_append], ⟨fun b hb => ?_, ?_⟩, ?_, fun b => ?_, hs.out⟩
        · rcases List.mem_append.mp hb with hb | hb
          · exact hs.header.home b hb
          · rw [List.mem_singleton.mp hb]; exact hw
        · simp only [List.length_append, List.length_singleton]; omega
        · simp only [List.length_append, List.length_singleton]; omega
        · simp [← hs.mem b]

variable {tx : Tx}

/-- The disk after the slots, the header and every home block were written holds the transaction. -/
theorem apply_installed (hs : Filled g d tx s)
    (hb : g.Home b) :
    apply d (slotWrites g s.lh s.cache ++ (g.start, putHead (s.cache g.start) s.lh) ::
      s.lh.map fun b => (b, s.cache b)) b = apply d tx b := by
  rw [apply_append, apply_cons, ← hs.cache]
  by_cases hmem : b ∈ s.lh
  · refine apply_of_mem _ (w := (b, s.cache b)) (List.mem_map.mpr ⟨b, hmem, rfl⟩) fun v hv hvb => ?_
    obtain ⟨i, _, rfl⟩ := List.mem_map.mp hv
    simp only at hvb
    rw [hvb]
  · have hlh : ∀ v ∈ s.lh.map (fun b => (b, s.cache b)), v.1 ≠ b := by
      intro v hv hvb
      obtain ⟨i, hi, rfl⟩ := List.mem_map.mp hv
      exact hmem (hvb ▸ hi)
    have htx : ∀ w ∈ tx, w.1 ≠ b := fun w hw hwb =>
      hmem ((hs.mem b).mpr (List.mem_map.mpr ⟨w, hw, hwb⟩))
    rw [apply_of_forall_ne _ hlh, update_of_ne hb.ne_start,
      apply_of_forall_ne d (slotWrites_ne_home hs.header s.cache hb), hs.cache,
      apply_of_forall_ne d htx]

/-- The disk after the header write and any part of the installation replays to the whole
    transaction. -/
theorem replay_committed (hs : Filled g d tx s)
    (m : Nat) :
    let e := apply d (slotWrites g s.lh s.cache ++ (g.start, putHead (s.cache g.start) s.lh) ::
      (s.lh.map (fun b => (b, s.cache b))).take m)
    LogOk g e ∧ ∀ b, g.Home b → replay g e b = apply d tx b := by
  intro e
  set d₁ := update (apply d (slotWrites g s.lh s.cache)) g.start
    (putHead (s.cache g.start) s.lh) with hd₁
  have he : e = apply d₁ ((s.lh.map fun b => (b, s.cache b)).take m) := by
    simp only [e, apply_append, apply_cons, hd₁]
  have hlh : getHead (d₁ g.start) = s.lh := by
    rw [hd₁, update_self]
    refine getHead_putHead _ _ hs.length fun b hb => ?_
    exact lt_of_lt_of_le (hs.header.home b hb).1 g.uint
  have hslots : homeWrites g s.lh d₁ = s.lh.map fun b => (b, s.cache b) := by
    refine homeWrites_of_slots fun t ht => ?_
    rw [hd₁, update_of_ne (by omega), apply_slotWrites g s.lh s.cache d ht]
  have hok : LogOk g d₁ := by rw [LogOk, hlh]; exact hs.header
  have hre := replay_take_home hok m
  rw [hlh, hslots, ← he] at hre
  refine ⟨hre.1, fun b hb => ?_⟩
  rw [hre.2, replay, hlh, hslots, ← apply_installed hs hb, apply_append, apply_cons]

/-- A crash after `k` of a commit's writes: the disk replays to the old state if the header write
    is not among them, and to the whole transaction if it is. -/
theorem crash_commit (hclean : getHead (d g.start) = [])
    (hs : Filled g d tx s) (k : Nat) :
    let ws := (commitWrites g s.lh s.cache).take k
    LogOk g (apply d ws) ∧ ∀ b, g.Home b →
      replay g (apply d ws) b = if g.start ∈ ws.map Prod.fst then apply d tx b else d b := by
  intro ws
  have hlen : (slotWrites g s.lh s.cache).length = s.lh.length := by simp [slotWrites]
  rcases Nat.lt_or_ge s.lh.length k with hk | hk
  · -- the header was written
    obtain ⟨m, rfl⟩ := Nat.exists_eq_add_of_lt hk
    have hws : ws = slotWrites g s.lh s.cache ++ (g.start, putHead (s.cache g.start) s.lh) ::
        ((s.lh.map fun b => (b, s.cache b)) ++
          [(g.start, putHead (putHead (s.cache g.start) s.lh) [])]).take m := by
      simp only [ws, commitWrites]
      rw [List.take_append, List.take_of_length_le (by omega), hlen, Nat.add_assoc,
        Nat.add_sub_cancel_left, List.take_succ_cons]
    have hin : g.start ∈ ws.map Prod.fst := by rw [hws]; simp
    simp only [hin, if_true]
    rcases Nat.lt_or_ge (s.lh.map fun b => (b, s.cache b)).length m with hm | hm
    · -- and cleared again: everything is installed
      rw [List.take_of_length_le (by simp only [List.length_append, List.length_singleton]; omega)]
        at hws
      rw [hws, ← List.cons_append, ← List.append_assoc, apply_append]
      simp only [apply_singleton]
      refine ⟨logOk_clean (getHead_clear _ _), fun b hb => ?_⟩
      rw [replay_clean (getHead_clear _ _), update_of_ne hb.ne_start, apply_installed hs hb]
    · rw [List.take_append_of_le_length hm] at hws
      rw [hws]
      exact replay_committed hs m
  · -- only slots were written
    have hws : ws = (slotWrites g s.lh s.cache).take k := by
      exact List.take_append_of_le_length (by omega)
    have hne : ∀ b, (∀ w ∈ slotWrites g s.lh s.cache, w.1 ≠ b) → apply d ws b = d b := by
      intro b hb
      rw [hws]
      exact apply_of_forall_ne d fun w hw => hb w (List.mem_of_mem_take hw)
    have hin : g.start ∉ ws.map Prod.fst := by
      rw [hws]
      intro h
      obtain ⟨w, hw, hwb⟩ := List.mem_map.mp h
      exact slotWrites_ne_start g s.lh s.cache w (List.mem_of_mem_take hw) hwb
    have hlh : getHead (apply d ws g.start) = [] := by
      rw [hne _ (slotWrites_ne_start g s.lh s.cache), hclean]
    refine ⟨logOk_clean hlh, fun b hb => ?_⟩
    simp only [hin, if_false]
    rw [replay_clean hlh]
    exact hne b (slotWrites_ne_home hs.header s.cache hb)

/-- After a commit the cache and the disk agree again, and the log is empty. -/
theorem commit_clean (hclean : getHead (d g.start) = [])
    (hs : Filled g d tx s) :
    (commit g s).cache = apply d (commit g s).out ∧ (commit g s).lh = [] ∧
      getHead (apply d (commit g s).out g.start) = [] := by
  by_cases hn : 0 < s.lh.length
  · have hcache : apply s.cache (commitWrites g s.lh s.cache) =
        apply d (commitWrites g s.lh s.cache) := by
      funext b
      refine apply_congr fun hne => ?_
      rw [hs.cache]
      refine apply_of_forall_ne d fun w hw hwb => ?_
      have hb : b ∈ s.lh := (hs.mem b).mpr (List.mem_map.mpr ⟨w, hw, hwb⟩)
      exact hne (b, s.cache b) (by simp [commitWrites, hb]) rfl
    rw [commit_eq hs.header hn, hs.out, List.nil_append]
    refine ⟨hcache, rfl, ?_⟩
    rw [commitWrites, ← List.cons_append, ← List.append_assoc, apply_append]
    simp [getHead_putHead_nil]
  · -- an empty transaction issues no write
    have hlh : s.lh = [] := List.length_eq_zero_iff.mp (by omega)
    have htx : tx = [] := by
      rcases tx with - | ⟨w, tx⟩
      · rfl
      · exact absurd ((hs.mem w.1).mpr (by simp)) (by simp [hlh])
    rw [commit, if_neg hn, hs.out, hs.cache, htx]
    exact ⟨rfl, hlh, hclean⟩

/-- The writes of a commit that was cut, in the form the run records them. -/
theorem crash_commit_out
    (hclean : getHead (d g.start) = []) (hs : Filled g d tx s) (k : Nat) :
    let ws := (commit g s).out.take k
    LogOk g (apply d ws) ∧ ∀ b, g.Home b →
      replay g (apply d ws) b = if g.start ∈ ws.map Prod.fst then apply d tx b else d b := by
  by_cases hn : 0 < s.lh.length
  · rw [commit_eq hs.header hn, hs.out, List.nil_append]
    exact crash_commit hclean hs k
  · rw [commit, if_neg hn, hs.out]
    simp only [List.take_nil, apply_nil, List.map_nil, List.not_mem_nil, if_false]
    exact ⟨logOk_clean hclean, fun b _ => by rw [replay_clean hclean]⟩

/-! ### Runs of transactions -/

theorem survivors_zero (g : Geometry) (hist : List (Tx × List (Nat × Block))) :
    survivors g hist 0 = [] := by
  induction hist with
  | nil => rfl
  | cons h hist ih => simp [survivors, ih]

theorem foldl_apply_congr (txs : List Tx) {e : Disk} (h : d b = e b) :
    txs.foldl apply d b = txs.foldl apply e b := by
  induction txs generalizing d e with
  | nil => exact h
  | cons tx txs ih => exact ih (apply_congr fun _ => h)

/-- Over a run, a crash after `k` writes leaves a disk that replays to the transactions whose header
    write happened. -/
theorem run_crash (txs : List Tx) :
    ∀ {d : Disk} {s : St} {hist : List (Tx × List (Nat × Block))},
    s.cache = d → s.lh = [] → getHead (d g.start) = [] →
    (∀ tx ∈ txs, ∀ w ∈ tx, g.Home w.1) → run g s txs = some hist → ∀ k,
    LogOk g (apply d ((hist.flatMap Prod.snd).take k)) ∧ ∀ b, g.Home b →
      replay g (apply d ((hist.flatMap Prod.snd).take k)) b = (survivors g hist k).foldl apply d b := by
  induction txs with
  | nil =>
    intro d s hist _ _ hclean _ hrun k
    rw [run, Option.some.injEq] at hrun
    subst hrun
    simp only [List.flatMap_nil, List.take_nil, apply_nil, survivors, List.foldl_nil]
    exact ⟨logOk_clean hclean, fun b _ => by rw [replay_clean hclean]⟩
  | cons tx txs ih =>
    intro d s hist hcache hlh hclean hhome hrun k
    rw [run] at hrun
    obtain ⟨s₁, hfill, hrun⟩ := Option.bind_eq_some_iff.mp hrun
    obtain ⟨hist', hrun', rfl⟩ := Option.map_eq_some_iff.mp hrun
    have hs : Filled g d tx s₁ := by
      have h₀ : Filled g d [] { s with out := [] } := by
        refine ⟨by simp [hcache], ?_, by simp [hlh], by simp [hlh], rfl⟩
        rw [hlh]; exact ⟨by simp, g.nonempty⟩
      exact logTx_filled tx h₀ (hhome tx List.mem_cons_self) hfill
    obtain ⟨hc, hl, hcl⟩ := commit_clean hclean hs
    rw [List.flatMap_cons, survivors]
    rcases Nat.lt_or_ge (commit g s₁).out.length k with hk | hk
    · -- the crash came after this transaction's last write
      have hrest := ih hc hl hcl (fun tx htx => hhome tx (List.mem_cons_of_mem _ htx)) hrun'
        (k - (commit g s₁).out.length)
      have hwhole := (crash_commit_out hclean hs (commit g s₁).out.length).2
      rw [List.take_length, replay_clean hcl] at hwhole
      rw [List.take_append, List.take_of_length_le (Nat.le_of_lt hk), apply_append]
      refine ⟨hrest.1, fun b hb => (hrest.2 b hb).trans ?_⟩
      by_cases hin : g.start ∈ (commit g s₁).out.map Prod.fst
      · rw [if_pos hin, List.foldl_cons]
        exact foldl_apply_congr _ (by rw [hwhole b hb, if_pos hin])
      · rw [if_neg hin]
        exact foldl_apply_congr _ (by rw [hwhole b hb, if_neg hin])
    · -- the crash came inside this transaction
      rw [List.take_append_of_le_length hk, Nat.sub_eq_zero_of_le hk, survivors_zero]
      obtain ⟨hok, hre⟩ := crash_commit_out hclean hs k
      refine ⟨hok, fun b hb => ?_⟩
      rw [hre b hb]
      split <;> rfl

/-- Crash atomicity. Run any transactions on home blocks from an empty log, crash after any number
    `k` of the disk writes they issue, and recover, interrupted as often as one likes: the log is
    empty again and the home blocks are those of exactly the transactions whose first header write
    reached the disk, applied in order and in full. -/
theorem crash_atomic (g : Geometry) (d : Disk) (hclean : getHead (d g.start) = []) (txs : List Tx)
    (hhome : ∀ tx ∈ txs, ∀ w ∈ tx, g.Home w.1) {hist : List (Tx × List (Nat × Block))}
    (hrun : run g (boot d) txs = some hist) (k : Nat)
    (hrec : Recovers g (apply d ((hist.flatMap Prod.snd).take k)) f) :
    getHead (f g.start) = [] ∧ ∀ b, g.Home b → f b = (survivors g hist k).foldl apply d b := by
  obtain ⟨hok, hre⟩ := run_crash txs rfl rfl hclean hhome hrun k
  obtain ⟨hlh, hf⟩ := recovers_replay hrec hok
  exact ⟨hlh, fun b hb => (hf b hb).trans (hre b hb)⟩

/-- Two transactions on a zeroed disk, a crash after the fourth write (the first transaction's header
    and one of its home blocks are on the disk), and a recovery that is itself cut once. -/
theorem crash_atomic_two_txs :
    let txs : List Tx := [[(50, fun _ => 1), (51, fun _ => 1)], [(50, fun _ => 2)]]
    let hist := (run mkfsLog (boot fun _ => Block.zero) txs).getD []
    run mkfsLog (boot fun _ => Block.zero) txs = some hist ∧
      ∃ f, Recovers mkfsLog (apply (fun _ => Block.zero) ((hist.flatMap Prod.snd).take 4)) f ∧
        f 50 = (fun _ => 1) ∧ f 51 = fun _ => 1 := by
  intro txs hist
  have hrun : run mkfsLog (boot fun _ => Block.zero) txs = some hist := rfl
  have hrec := Recovers.crash (g := mkfsLog)
    (d := apply (fun _ => Block.zero) ((hist.flatMap Prod.snd).take 4)) 1 (.done _)
  obtain ⟨-, hf⟩ := crash_atomic mkfsLog _ (by decide) txs (by decide) hrun 4 hrec
  have hs : survivors mkfsLog hist 4 = [[(50, fun _ => 1), (51, fun _ => 1)]] := rfl
  rw [hs] at hf
  exact ⟨hrun, _, hrec, hf 50 (by decide), hf 51 (by decide)⟩

end Xv6.Log
