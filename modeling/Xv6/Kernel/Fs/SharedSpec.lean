import Xv6.Schemes.Shuffle
import Xv6.Kernel.Fs.Accounting
import Xv6.Kernel.Fs.Shared

/-! Writers that share a file lose nothing.

    The file holds the chunks that the writers have put into it, one after another. The process that
    has locked the inode may be anywhere in `writei`; then the file it started with is known, and what
    it has written since. All others only count. -/

namespace Xv6.Fs.Shared
open Bytes Hoare Shuffle Function

/-! ### The file under the lock -/

/-- The stops that are admitted: waiting for the lock, and no free block. -/
def Stops (e : Stop) : Prop := e = .hang ∨ e = .panic "balloc: out of blocks"

/-- The bytes that are written next. -/
def chunkAt (data : List UInt8) (i : Nat) : List UInt8 := (data.drop i).take writeMax

@[simp] theorem length_chunkAt (data : List UInt8) (i : Nat) :
    (chunkAt data i).length = chunkLen data i := by
  simp [chunkAt, chunkLen, Nat.min_comm]

/-- Only the inode `e` is locked. -/
def mine (e : EntryId) : EntryId → Option Int16 := update Fs.unlocked e (some T_FILE)

/-- The file `f` is open on the regular file `e`, whose bytes are `B`. -/
structure Settled (sb : Superblock) (f : FileId) (e : EntryId) (X : Option Pid) (l : List EntryId)
    (L : EntryId → Option Int16) (B : List UInt8) (off : Nat) (s : Fs.State) : Prop where
  held : Held sb X l L s
  type : (dinodeAt sb s.view (s.icache e).inum).type = T_FILE
  bytes : fileOf sb s.view (s.icache e).inum = B
  ip : (s.ftable f).ip = e
  inode : (s.ftable f).type = .inode
  writable : (s.ftable f).writable = true
  off : (s.ftable f).off = off

/-- A chunk is being appended to `B`: the bytes up to `off` are written. -/
def Midway (sb : Superblock) (f : FileId) (e : EntryId) (X : Option Pid) (l : List EntryId)
    (B chunk : List UInt8) (off : Nat) (s : Fs.State) : Prop :=
  ∃ s₀, Settled sb f e X l (mine e) B B.length s₀ ∧
    Overwritten sb e (fun p => chunk.getD (p - B.length) 0) B.length off s₀ s ∧ Frame e s₀ s ∧
    (s.icache e).din.size = (s₀.icache e).din.size ∧ Covered e off s ∧
    ∃ T, Editing sb X l (mine e) e T [] s

variable {sb : Superblock} {f : FileId} {e : EntryId} {X : Option Pid} {l : List EntryId}
  {L : EntryId → Option Int16} {B chunk : List UInt8} {off : Nat} {s : Fs.State}

@[simp] theorem isSome_mine (e : EntryId) : (mine e e).isSome = true := by simp [mine]

theorem Settled.used (h : Settled sb f e X l L B off s) : 0 < (s.icache e).ref := by
  obtain ⟨T, hT⟩ := h.held
  have hon : File.isOn e (s.ftable f) = true := by
    simp [File.isOn, h.inode, h.ip]
  have h₁ := hT.handles.refs e
  have h₂ : 0 < files s e := Count.count_pos hon
  omega

/-- The bytes of the locked file. -/
theorem Settled.contents (h : Settled sb f e X l (mine e) B off s) :
    contents (s.icache e).din s.view = B := by
  obtain ⟨T, hT⟩ := h.held
  rw [← hT.dinodeAt_entry (isSome_mine e)]
  exact h.bytes

theorem Settled.size (h : Settled sb f e X l (mine e) B off s) :
    (s.icache e).din.size.toNat = B.length := by
  rw [← h.contents, length_contents]

theorem Settled.lock (h : Settled sb f e X l Fs.unlocked B off s) :
    wp Stops (ilock sb e) (fun _ t => Settled sb f e X l (mine e) B off t) s := by
  obtain ⟨T, hT⟩ := h.held
  have htype := h.type
  rw [hT.dinodeAt_eq (hT.cache.inum h.used)] at htype
  refine (ilock_spec hT (fun h0 => ?_) (fun _ => .inl rfl) fun h0 => ?_).mono ?_
  · exact absurd h.used (by omega)
  · rw [htype] at h0
    exact absurd h0 (by decide)
  · rintro _ t ⟨rfl, -, -, ht⟩
    rw [htype] at ht
    have hinum : ((s.locked T e).icache e).inum = (s.icache e).inum := by simp [State.locked]
    exact ⟨⟨T, ht⟩, by rw [hinum]; exact h.type, by rw [hinum]; exact h.bytes, h.ip, h.inode,
      h.writable, h.off⟩

theorem Settled.unlock (h : Settled sb f e X l (mine e) B off s) :
    wp Stops (iunlock e) (fun _ t => Settled sb f e X l Fs.unlocked B off t) s := by
  obtain ⟨T, hT⟩ := h.held
  refine (iunlock_spec hT fun h0 => ?_).mono ?_
  · simp [mine] at h0
  · rintro _ t ⟨rfl, ht⟩
    rw [mine, update_unlocked] at ht
    have hinum : ((s.setEntry e { s.icache e with lock := false }).icache e).inum = (s.icache e).inum := by
      simp
    exact ⟨⟨T, ht⟩, by rw [hinum]; exact h.type, by rw [hinum]; exact h.bytes, h.ip, h.inode,
      h.writable, h.off⟩

theorem Settled.advance (h : Settled sb f e X l L B off s) (r : Nat) :
    wp Stops (do Fs.advance f (← file f) (some r)) (fun _ t => Settled sb f e X l L B (off + r) t) s := by
  rw [wp_bind, wp_file, Fs.advance, wp_setFile]
  refine ⟨h.held.touchFile rfl rfl rfl id, h.type, h.bytes, ?_, ?_, ?_, ?_⟩
  · simpa [State.setFile] using h.ip
  · simpa [State.setFile] using h.inode
  · simpa [State.setFile] using h.writable
  · simpa [State.setFile] using h.off

theorem Settled.start (h : Settled sb f e X l (mine e) B B.length s) (chunk : List UInt8) :
    Midway sb f e X l B chunk B.length s := by
  obtain ⟨T, hT⟩ := h.held
  have hed := hT.edit (isSome_mine e)
  exact ⟨s, h, Overwritten.refl _ _, Frame.refl e s, rfl, fun m hm => hed.slot_ne_zero (h.size ▸ hm), T, hed⟩

/-- One round of `writei`'s loop. -/
theorem Midway.round {data : List UInt8} {i tot : Nat}
    (h : Midway sb f e X l B (chunkAt data i) (B.length + tot) s) (htot : tot < chunkLen data i)
    (hmax : B.length + chunkLen data i ≤ MAXFILE * BSIZE) :
    wp Stops (writeRound sb e (fun j => data[i + j]?) (chunkLen data i) (B.length + tot) tot)
      (fun r t => ∃ tot', r = some (B.length + tot', tot') ∧ tot' ≤ chunkLen data i ∧
        Midway sb f e X l B (chunkAt data i) (B.length + tot') t) s := by
  obtain ⟨s₀, hs₀, hover, hframe, hsize, hcov, T, hT⟩ := h
  have hregular : (s.icache e).din.type ≠ T_DIR := fun htd => by
    have := hT.held.2.2
    rw [htd, mine, update_self] at this
    exact absurd this (by decide)
  refine (writeRound_ok (K := slotsFor ((B.length + tot) / BSIZE))
    (f := fun p => (chunkAt data i).getD (p - B.length) 0) hT hcov htot
    (fun htd => absurd htd hregular) (fun j hj => ?_) (by omega) (Finset.Subset.refl _)
    fun hE => absurd (.inr rfl) hE).mono ?_
  · have hlt : i + (tot + j) < data.length := by unfold chunkLen at hj; omega
    have hlt' : tot + j < (chunkAt data i).length := by rw [length_chunkAt]; omega
    rw [show B.length + tot + j - B.length = tot + j by omega, List.getElem?_eq_getElem hlt,
      List.getD_eq_getElem _ _ hlt']
    simp [chunkAt]
  · rintro r t ⟨m, rfl, -, hm, -, hround, -, T₁, h₁, hframe₁, hsize₁, hcov₁⟩
    refine ⟨tot + m, by rw [Nat.add_assoc], by omega, s₀, hs₀, ?_, hframe.trans hframe₁,
      hsize₁.trans hsize, by rwa [← Nat.add_assoc], T₁, h₁⟩
    rw [← Nat.add_assoc]
    exact hover.trans hround (by omega) (by omega)

/-- The end of `writei`. -/
theorem Midway.finish (h : Midway sb f e X l B chunk (B.length + chunk.length) s)
    (hpos : 0 < chunk.length) :
    wp Stops (writeiSize sb e (B.length + chunk.length) chunk.length)
      (fun _ t => Settled sb f e X l (mine e) (B ++ chunk) B.length t) s := by
  obtain ⟨s₀, hs₀, hover, hframe, hsize, hcov, T, hT⟩ := h
  obtain ⟨T₀, hT₀⟩ := hs₀.held
  refine ((writeiSize_ok hpos).and (writeiSize_wp hT hcov hpos)).mono ?_
  rintro _ t ⟨ht, T₁, h₁, -⟩
  have hw := (hT₀.edit (isSome_mine e)).written hT h₁ (by rw [hs₀.size]) hover hframe hsize hcov ht
  have hself := hw.self
  rw [hs₀.contents] at hself
  have hdisk := h₁.dinodeAt_entry (isSome_mine e)
  refine ⟨hw.held, ?_, ?_, ?_, ?_, ?_, ?_⟩
  · rw [hdisk]
    exact (h₁.cache.held (show mine e e = some T_FILE by simp [mine])).2.2
  · rw [fileOf, hdisk, hself, overlay]
    simp
  · rw [hw.frame.ftable]; exact hs₀.ip
  · rw [hw.frame.ftable]; exact hs₀.inode
  · rw [hw.frame.ftable]; exact hs₀.writable
  · rw [hw.frame.ftable]; exact hs₀.off

variable {g : Nat → Bool}

theorem Settled.commit (h : Settled sb f e X l L B off s) :
    Settled sb f e X l L B off { s with inlog := g } := by
  obtain ⟨T, hT⟩ := h.held
  exact ⟨⟨T, hT.commit⟩, h.type, h.bytes, h.ip, h.inode, h.writable, h.off⟩

theorem Midway.commit (h : Midway sb f e X l B chunk off s) :
    Midway sb f e X l B chunk off { s with inlog := g } := by
  obtain ⟨s₀, hs₀, ⟨h₁, h₂, h₃, h₄, h₅, h₆⟩, ⟨h₇, h₈, h₉, h₁₀⟩, hsize, hcov, T, hT⟩ := h
  exact ⟨s₀, hs₀, ⟨h₁, h₂, h₃, h₄, h₅, h₆⟩, ⟨h₇, h₈, h₉, h₁₀⟩, hsize, hcov, T, hT.inv.commit,
    hT.locked, hT.mine⟩

/-! ### Who is inside -/

/-- The process holds the lock of the inode. -/
def Pc.inside : Pc → Bool
  | .locked .. | .writing .. | .sizing .. | .wrote .. | .moved .. => true
  | .idle _ | .loop .. | .begun .. | .unlocked .. => false

/-- What a process with the lock knows, when the chunks written so far are `B`. -/
def Holder (sb : Superblock) (f : FileId) (e : EntryId) (X : Option Pid) (l : List EntryId)
    (B : List UInt8) (s : Fs.State) : Pc → Prop
  | .writing data i off tot => off = B.length + tot ∧ tot ≤ chunkLen data i ∧
    B.length + chunkLen data i ≤ MAXFILE * BSIZE ∧ Midway sb f e X l B (chunkAt data i) off s
  | .sizing data i off => off = B.length + chunkLen data i ∧ Midway sb f e X l B (chunkAt data i) off s
  | .wrote data i _ => ∃ B₀, B = B₀ ++ chunkAt data i ∧ Settled sb f e X l (mine e) B B₀.length s
  | _ => Settled sb f e X l (mine e) B B.length s

variable {pc : Pc}

theorem Holder.commit (h : Holder sb f e X l B s pc) :
    Holder sb f e X l B { s with inlog := g } pc := by
  cases pc with
  | writing data i off tot => exact ⟨h.1, h.2.1, h.2.2.1, Midway.commit h.2.2.2⟩
  | sizing data i off => exact ⟨h.1, Midway.commit h.2⟩
  | wrote data i r =>
    obtain ⟨B₀, hB, hs⟩ := h
    exact ⟨B₀, hB, hs.commit⟩
  | idle | loop | begun | locked | moved | unlocked => exact Settled.commit h

/-! ### Chunks -/

/-- The chunks `cs` are the calls' bytes in pieces: each call has a group of chunks. -/
def Chunked (calls cs : List (List UInt8)) : Prop :=
  ∃ groups : List (List (List UInt8)), cs = groups.flatten ∧
    List.Forall₂ (fun data g => g.flatten = data ∧ ∀ c ∈ g, c.length ≤ writeMax) calls groups

/-- The last call, with `data`, has written the first `k` bytes. -/
def Partly (calls cs : List (List UInt8)) (data : List UInt8) (k : Nat) : Prop :=
  ∃ prev cs' g, calls = prev ++ [data] ∧ cs = cs' ++ g ∧ Chunked prev cs' ∧ g.flatten = data.take k ∧
    (∀ c ∈ g, c.length ≤ writeMax) ∧ k ≤ data.length

theorem Chunked.flatten {calls cs : List (List UInt8)} (h : Chunked calls cs) :
    cs.flatten = calls.flatten := by
  obtain ⟨groups, rfl, h⟩ := h
  induction h with
  | nil => rfl
  | cons hx _ ih =>
    rw [List.flatten_cons, List.flatten_append, hx.1, ih, List.flatten_cons]

variable {calls cs : List (List UInt8)} {data : List UInt8} {k : Nat}

theorem Chunked.begin (h : Chunked calls cs) (data : List UInt8) : Partly (calls ++ [data]) cs data 0 :=
  ⟨calls, cs, [], rfl, by simp, h, by simp, by simp, Nat.zero_le _⟩

theorem Partly.next (h : Partly calls cs data k) (hk : k < data.length) :
    Partly calls (cs ++ [chunkAt data k]) data (k + chunkLen data k) := by
  obtain ⟨prev, cs', g, hcalls, hcs, hprev, hg, hmax, hle⟩ := h
  refine ⟨prev, cs', g ++ [chunkAt data k], hcalls, by rw [hcs, List.append_assoc], hprev, ?_, ?_, ?_⟩
  · have hmin : (data.drop k).take writeMax = (data.drop k).take (chunkLen data k) := by
      rw [chunkLen, Nat.min_comm, ← List.length_drop, ← List.take_eq_take_min]
    rw [List.flatten_append, hg, List.flatten_singleton, chunkAt, hmin, List.take_add]
  · intro c hc
    rcases List.mem_append.mp hc with hc | hc
    · exact hmax c hc
    · rw [List.mem_singleton.mp hc, length_chunkAt]
      exact Nat.min_le_right _ _
  · unfold chunkLen
    omega

theorem Partly.done (h : Partly calls cs data k) (hk : data.length ≤ k) : Chunked calls cs := by
  obtain ⟨prev, cs', g, rfl, rfl, ⟨groups, rfl, hgroups⟩, hg, hmax, -⟩ := h
  refine ⟨groups ++ [g], by simp, List.rel_append hgroups (.cons ⟨?_, hmax⟩ .nil)⟩
  rw [hg, List.take_of_length_le hk]

/-- What a call has written is no more than it was given. -/
theorem Partly.weight (h : Partly calls cs data k) :
    Shuffle.weight List.length cs + (data.length - k) = Shuffle.weight List.length calls := by
  obtain ⟨prev, cs', g, rfl, rfl, hprev, hg, -, hle⟩ := h
  have h₁ := congrArg List.length hprev.flatten
  have h₂ := congrArg List.length hg
  simp only [List.length_flatten, List.length_take] at h₁ h₂
  rw [weight_append, weight_append]
  simp only [Shuffle.weight, h₁, h₂, List.map_cons, List.map_nil, List.sum_singleton]
  omega

/-- How far a process is in its call. -/
def Pc.progress : Pc → Option (List UInt8 × Nat)
  | .idle _ => none
  | .loop data i | .begun data i | .locked data i | .writing data i _ _ | .sizing data i _ => some (data, i)
  | .wrote data i _ | .moved data i _ | .unlocked data i _ => some (data, i + chunkLen data i)

/-- The local variables of a process. -/
def Pc.Local : Pc → Prop
  | .idle _ | .loop _ _ => True
  | .begun data i | .locked data i | .writing data i _ _ | .sizing data i _ => i < data.length
  | .wrote data i r | .moved data i r | .unlocked data i r => r = some (chunkLen data i)

/-- The chunks of a process are those of its calls so far. -/
def Tally (calls cs : List (List UInt8)) (pc : Pc) : Prop :=
  pc.Local ∧ match pc.progress with
    | none => Chunked calls cs
    | some (data, k) => Partly calls cs data k

theorem Tally.weight_le (h : Tally calls cs pc) :
    Shuffle.weight List.length cs ≤ Shuffle.weight List.length calls := by
  obtain ⟨-, h⟩ := h
  split at h
  · have := congrArg List.length h.flatten
    simp only [List.length_flatten] at this
    exact this.le
  · have := h.weight
    omega

/-! ### The invariant -/

section

variable {ι : Type}

/-- The bytes of all chunks. -/
def bytes (chunks : List (ι × List UInt8)) : List UInt8 := (chunks.map (·.2)).flatten

theorem length_bytes (chunks : List (ι × List UInt8)) :
    (bytes chunks).length = Shuffle.weight List.length (chunks.map (·.2)) := by
  rw [bytes, List.length_flatten, Shuffle.weight]

theorem bytes_snoc (chunks : List (ι × List UInt8)) (p : ι) (c : List UInt8) :
    bytes (chunks ++ [(p, c)]) = bytes chunks ++ c := by simp [bytes]

theorem endOp_pc (u : State ι) : u.endOp.pc = u.pc := by
  unfold State.endOp
  split <;> rfl

theorem endOp_panicked (u : State ι) : u.endOp.panicked = u.panicked := by
  unfold State.endOp
  split <;> rfl

theorem endOp_fs (u : State ι) :
    u.endOp.fs = u.fs ∨ u.endOp.fs = { u.fs with inlog := fun _ => false } := by
  unfold State.endOp
  split
  · exact .inr rfl
  · exact .inl rfl

/-- The file is as the process inside leaves it, or as the last one has left it. -/
def File (sb : Superblock) (f : FileId) (e : EntryId) (X : Option Pid) (l : List EntryId)
    (B : List UInt8) (pc : ι → Pc) (s : Fs.State) : Option ι → Prop
  | none => Settled sb f e X l Fs.unlocked B B.length s
  | some p => Holder sb f e X l B s (pc p)

variable [DecidableEq ι] {who : Option ι} {chunks given : List (ι × List UInt8)} {p : ι} {u v : State ι}

/-- `given` are the calls so far and `chunks` is what the file holds. -/
structure Good (sb : Superblock) (f : FileId) (e : EntryId) (X : Option Pid) (l : List EntryId)
    (who : Option ι) (chunks given : List (ι × List UInt8)) (s : State ι) : Prop where
  running : s.panicked = none
  inside : ∀ p, (s.pc p).inside = true ↔ who = some p
  file : File sb f e X l (bytes chunks) s.pc s.fs who
  tally : ∀ p, Tally (of p given) (of p chunks) (s.pc p)

variable {chunks' given' : List (ι × List UInt8)} {pc' : Pc}

/-- One process moves. -/
theorem Good.move {who' : Option ι}
    (h : Good sb f e X l who chunks given u) (hpc : v.pc = update u.pc p pc')
    (hrun : v.panicked = none) (hwho : ∀ q, q ≠ p → (who' = some q ↔ who = some q))
    (hin : pc'.inside = true ↔ who' = some p) (hfile : File sb f e X l (bytes chunks') v.pc v.fs who')
    (htally : Tally (of p given') (of p chunks') pc')
    (hothers : ∀ q, q ≠ p → of q given' = of q given ∧ of q chunks' = of q chunks) :
    Good sb f e X l who' chunks' given' v where
  running := hrun
  inside q := by
    rw [hpc]
    by_cases hq : q = p
    · subst hq; rw [update_self, hin]
    · rw [update_of_ne hq, h.inside q, hwho q hq]
  file := hfile
  tally q := by
    rw [hpc]
    by_cases hq : q = p
    · subst hq; rw [update_self]; exact htally
    · rw [update_of_ne hq, (hothers q hq).1, (hothers q hq).2]; exact h.tally q

/-- A process outside moves; the file may be committed meanwhile. -/
theorem Good.outside (h : Good sb f e X l who chunks given u)
    (hpc : v.pc = update u.pc p pc') (hrun : v.panicked = none)
    (hfs : v.fs = u.fs ∨ v.fs = { u.fs with inlog := fun _ => false }) (hout : (u.pc p).inside = false)
    (hout' : pc'.inside = false) (htally : Tally (of p given') (of p chunks) pc')
    (hothers : ∀ q, q ≠ p → of q given' = of q given) : Good sb f e X l who chunks given' v := by
  have hwho : who ≠ some p := fun hw => by
    have := (h.inside p).mpr hw
    rw [hout] at this
    cases this
  refine h.move hpc hrun (fun _ _ => Iff.rfl) ⟨fun hc => ?_, fun hc => absurd hc hwho⟩ ?_ htally
    fun q hq => ⟨hothers q hq, rfl⟩
  · rw [hout'] at hc
    cases hc
  · have hfile := h.file
    cases who with
    | none =>
      rcases hfs with hfs | hfs
      · rw [hfs]; exact hfile
      · rw [hfs]; exact Settled.commit hfile
    | some q =>
      have hq : q ≠ p := fun heq => hwho (congrArg some heq)
      change Holder sb f e X l (bytes chunks) v.fs (v.pc q)
      rw [hpc, update_of_ne hq]
      rcases hfs with hfs | hfs
      · rw [hfs]; exact hfile
      · rw [hfs]; exact Holder.commit hfile

/-- The file stays open on the inode. -/
structure Opened (f : FileId) (e : EntryId) (s : Fs.State) : Prop where
  ip : (s.ftable f).ip = e
  inode : (s.ftable f).type = .inode
  writable : (s.ftable f).writable = true

variable {s : Fs.State}

theorem Midway.opened (h : Midway sb f e X l B chunk off s) : Opened f e s := by
  obtain ⟨s₀, hs₀, -, hframe, -⟩ := h
  constructor <;> rw [hframe.ftable]
  · exact hs₀.ip
  · exact hs₀.inode
  · exact hs₀.writable

theorem Settled.opened (h : Settled sb f e X l L B off s) : Opened f e s :=
  ⟨h.ip, h.inode, h.writable⟩

variable {pc : Pc}

theorem Holder.opened (h : Holder sb f e X l B s pc) : Opened f e s := by
  cases pc with
  | writing => exact Midway.opened h.2.2.2
  | sizing => exact Midway.opened h.2
  | wrote =>
    obtain ⟨B₀, -, hs⟩ := h
    exact hs.opened
  | idle | loop | begun | locked | moved | unlocked => exact Settled.opened h

theorem Good.opened (h : Good sb f e X l who chunks given u) : Opened f e u.fs := by
  have hfile := h.file
  cases who with
  | none => exact Settled.opened hfile
  | some p => exact Holder.opened hfile

/-- There is room in the file for the next chunk of a process. -/
theorem Good.fits {data : List UInt8} {i : Nat} (h : Good sb f e X l who chunks given u)
    (htotal : Shuffle.weight List.length (given.map (·.2)) < MAXFILE * BSIZE)
    (hp : (u.pc p).progress = some (data, i)) :
    (bytes chunks).length + chunkLen data i ≤ MAXFILE * BSIZE := by
  have hpart := (h.tally p).2
  rw [hp] at hpart
  have hw : Shuffle.weight List.length (of p chunks) + (data.length - i) =
      Shuffle.weight List.length (of p given) := Partly.weight hpart
  have := weight_add_le List.length (p := p) (k := data.length - i)
    (fun q => (h.tally q).weight_le) hw.le
  rw [length_bytes]
  unfold chunkLen
  omega

/-- The process inside stays inside. -/
theorem Good.stay
    (h : Good sb f e X l (some p) chunks given u)
    (hothers : ∀ q, q ≠ p → of q chunks' = of q chunks)
    (hpc : v.pc = update u.pc p pc') (hrun : v.panicked = none) (hin : pc'.inside = true)
    (hfile : Holder sb f e X l (bytes chunks') v.fs pc') (htally : Tally (of p given) (of p chunks') pc') :
    Good sb f e X l (some p) chunks' given v := by
  refine h.move hpc hrun (fun _ _ => Iff.rfl) ⟨fun _ => rfl, fun _ => hin⟩ ?_ htally
    fun q hq => ⟨rfl, hothers q hq⟩
  change Holder sb f e X l (bytes chunks') v.fs (v.pc p)
  rw [hpc, update_self]
  exact hfile

theorem ilock_hang (hr : 0 < (s.icache e).ref) (hl : (s.icache e).lock = true) :
    ilock sb e s = .error .hang := by
  have hrun : ilock sb e s = (if (s.icache e).ref < 1 then (panic "ilock" : M Unit)
      else if (s.icache e).lock then throw .hang
      else if (s.icache e).valid then setEntry e { s.icache e with lock := true }
      else do
        let blk ← bread (sb.iblock (s.icache e).inum)
        let din := getDinode blk (64 * ((s.icache e).inum % IPB))
        setEntry e { s.icache e with lock := true, valid := true, din := din }
        if din.type = 0 then panic "ilock: no type" else pure ()) s := rfl
  rw [hrun, if_neg (by omega), if_pos hl]
  rfl

theorem Settled.lock_eq (h : Settled sb f e X l (mine e) B off s) :
    0 < (s.icache e).ref ∧ (s.icache e).lock = true := by
  obtain ⟨T, hT⟩ := h.held
  exact ⟨h.used, by rw [hT.cache.locks e, isSome_mine]⟩

theorem Midway.lock_eq (h : Midway sb f e X l B chunk off s) :
    0 < (s.icache e).ref ∧ (s.icache e).lock = true := by
  obtain ⟨s₀, -, -, -, -, -, T, hT⟩ := h
  exact ⟨hT.held.1, by rw [hT.inv.cache.locks e, isSome_mine]⟩

theorem Holder.lock_eq (h : Holder sb f e X l B s pc) :
    0 < (s.icache e).ref ∧ (s.icache e).lock = true := by
  cases pc with
  | writing => exact Midway.lock_eq h.2.2.2
  | sizing => exact Midway.lock_eq h.2
  | wrote =>
    obtain ⟨B₀, -, hs⟩ := h
    exact hs.lock_eq
  | idle | loop | begun | locked | moved | unlocked => exact Settled.lock_eq h

theorem exec_cases {α : Type} {m : M α} {next : α → Pc} {Q : α → Fs.State → Prop}
    (h : u.exec p m next = some v) (hwp : wp Stops m Q u.fs) :
    (∃ a s, Q a s ∧ v = { u with fs := s }.goto p (next a)) ∨
      v.panicked = some "balloc: out of blocks" := by
  unfold State.exec at h
  unfold wp at hwp
  cases hm : m u.fs with
  | ok r =>
    rw [hm] at h hwp
    exact .inl ⟨r.1, r.2, hwp, (Option.some.inj h).symm⟩
  | error e =>
    rw [hm] at h hwp
    rcases hwp with rfl | rfl
    · cases h
    · rw [← Option.some.inj h]
      exact .inr rfl

/-- What the invariant becomes. -/
def After (sb : Superblock) (f : FileId) (e : EntryId) (X : Option Pid) (l : List EntryId)
    (given : List (ι × List UInt8)) (v : State ι) : Prop :=
  v.panicked = some "balloc: out of blocks" ∨ ∃ who chunks, Good sb f e X l who chunks given v

theorem Good.run (h : Good sb f e X l who chunks given u)
    (htotal : Shuffle.weight List.length (given.map (·.2)) < MAXFILE * BSIZE)
    (hrun : run sb f u p = some v) : After sb f e X l given v := by
  have hopen := h.opened
  have htally := h.tally p
  have hinside := h.inside p
  have hfile := h.file
  unfold Shared.run at hrun
  rw [hopen.ip] at hrun
  -- a process inside is the one that the file is left to
  have hholder : (u.pc p).inside = true → who = some p ∧ Holder sb f e X l (bytes chunks) u.fs (u.pc p) :=
    fun hin => by
      obtain rfl := hinside.mp hin
      exact ⟨rfl, hfile⟩
  cases hpc : u.pc p with
  | idle ret =>
    rw [hpc] at hrun
    cases hrun
  | loop data i =>
    rw [hpc] at hrun htally
    simp only at hrun
    by_cases hi : i < data.length
    · rw [if_pos hi] at hrun
      cases hrun
      exact .inr ⟨who, chunks, h.outside rfl h.running (.inl rfl) (by rw [hpc]; rfl) rfl
        ⟨hi, htally.2⟩ fun _ _ => rfl⟩
    · rw [if_neg hi] at hrun
      cases hrun
      exact .inr ⟨who, chunks, h.outside rfl h.running (.inl rfl) (by rw [hpc]; rfl) rfl
        ⟨trivial, Partly.done htally.2 (by omega)⟩ fun _ _ => rfl⟩
  | begun data i =>
    rw [hpc] at hrun htally
    cases who with
    | some q =>
      obtain ⟨hr, hl⟩ := Holder.lock_eq hfile
      simp only [State.exec, ilock_hang hr hl] at hrun
      cases hrun
    | none =>
      rcases exec_cases hrun (Settled.lock hfile) with ⟨-, s, hs, rfl⟩ | hpanic
      · refine .inr ⟨some p, chunks, h.move rfl h.running (fun q hq => ?_) ⟨fun _ => rfl, fun _ => rfl⟩ ?_
          ⟨htally.1, htally.2⟩ fun _ _ => ⟨rfl, rfl⟩⟩
        · exact ⟨fun heq => absurd (Option.some.inj heq).symm hq, nofun⟩
        · change Holder sb f e X l (bytes chunks) s (update u.pc p _ p)
          rw [update_self]
          exact hs
      · exact .inl hpanic
  | locked data i =>
    obtain ⟨rfl, hs⟩ := hholder (by rw [hpc]; rfl)
    have hfits := h.fits htotal (p := p) (by rw [hpc]; rfl)
    rw [hpc] at hrun htally hs
    have hs : Settled sb f e X l (mine e) (bytes chunks) (bytes chunks).length u.fs := hs
    have henter : enter data i (u.fs.ftable f).off (u.fs.icache e).din.size.toNat =
        .writing data i (bytes chunks).length 0 := by
      have hlt : MAXFILE * BSIZE < 2 ^ 32 := by decide
      rw [hs.off, hs.size, enter, Nat.mod_eq_of_lt (by omega), if_neg (by omega), if_neg (by omega)]
    simp only [henter] at hrun
    cases hrun
    exact .inr ⟨some p, chunks, h.stay (fun _ _ => rfl) rfl h.running rfl ⟨rfl, Nat.zero_le _, hfits, hs.start _⟩
      ⟨htally.1, htally.2⟩⟩
  | writing data i off tot =>
    obtain ⟨rfl, hs⟩ := hholder (by rw [hpc]; rfl)
    rw [hpc] at hrun htally hs
    obtain ⟨rfl, htot, hfits, hmid⟩ := hs
    simp only at hrun
    by_cases hlt : tot < chunkLen data i
    · rw [if_pos hlt] at hrun
      rcases exec_cases hrun (hmid.round hlt hfits) with ⟨-, s, ⟨tot', rfl, htot', hs⟩, rfl⟩ | hpanic
      · exact .inr ⟨some p, chunks, h.stay (fun _ _ => rfl) rfl h.running rfl ⟨rfl, htot', hfits, hs⟩
          ⟨htally.1, htally.2⟩⟩
      · exact .inl hpanic
    · rw [if_neg hlt] at hrun
      cases hrun
      obtain rfl : tot = chunkLen data i := by omega
      exact .inr ⟨some p, chunks, h.stay (fun _ _ => rfl) rfl h.running rfl ⟨rfl, hmid⟩ ⟨htally.1, htally.2⟩⟩
  | sizing data i off =>
    obtain ⟨rfl, hs⟩ := hholder (by rw [hpc]; rfl)
    rw [hpc] at hrun htally hs
    obtain ⟨rfl, hmid⟩ := hs
    have hi : i < data.length := htally.1
    rw [← length_chunkAt] at hmid
    have hpos : 0 < (chunkAt data i).length := by
      rw [length_chunkAt, chunkLen]
      have : 0 < writeMax := by decide
      omega
    have hfinish := hmid.finish hpos
    rw [length_chunkAt] at hfinish
    rcases exec_cases hrun hfinish with ⟨-, s, hs, rfl⟩ | hpanic
    · refine .inr ⟨some p, chunks ++ [(p, chunkAt data i)], h.stay (fun q hq => of_snoc_of_ne hq.symm) rfl
        h.running rfl ?_ ⟨rfl, ?_⟩⟩
      · exact ⟨bytes chunks, bytes_snoc _ _ _, by rw [bytes_snoc]; exact hs⟩
      · rw [of_snoc_self]
        exact Partly.next htally.2 hi
    · exact .inl hpanic
  | wrote data i r =>
    obtain ⟨rfl, hs⟩ := hholder (by rw [hpc]; rfl)
    rw [hpc] at hrun htally hs
    obtain ⟨B₀, hB, hs⟩ := hs
    obtain rfl : r = some (chunkLen data i) := htally.1
    rcases exec_cases hrun (hs.advance (chunkLen data i)) with ⟨-, s, hs, rfl⟩ | hpanic
    · refine .inr ⟨some p, chunks, h.stay (fun _ _ => rfl) rfl h.running rfl ?_ ⟨htally.1, htally.2⟩⟩
      have hlen : B₀.length + chunkLen data i = (bytes chunks).length := by
        rw [hB, List.length_append, length_chunkAt]
      rw [hlen] at hs
      exact hs
    · exact .inl hpanic
  | moved data i r =>
    obtain ⟨rfl, hs⟩ := hholder (by rw [hpc]; rfl)
    rw [hpc] at hrun htally hs
    rcases exec_cases hrun (Settled.unlock hs) with ⟨-, s, hs, rfl⟩ | hpanic
    · refine .inr ⟨none, chunks, h.move rfl h.running (fun q hq => ?_) ⟨nofun, nofun⟩ hs
        ⟨htally.1, htally.2⟩ fun _ _ => ⟨rfl, rfl⟩⟩
      exact ⟨nofun, fun heq => absurd (Option.some.inj heq).symm hq⟩
    · exact .inl hpanic
  | unlocked data i r =>
    rw [hpc] at hrun htally
    obtain rfl : r = some (chunkLen data i) := htally.1
    simp only [State.count, ne_eq, not_true_eq_false, if_false] at hrun
    cases hrun
    refine .inr ⟨who, chunks, h.outside (congrArg (update · p _) (endOp_pc u)) ?_ (endOp_fs u) (by rw [hpc]; rfl) rfl
      ⟨trivial, htally.2⟩ fun _ _ => rfl⟩
    exact (endOp_panicked u).trans h.running

/-! ### Runs -/

/-- The call that an action makes. -/
def Act.call? : Act ι → Option (ι × List UInt8)
  | .call p data => some (p, data)
  | .run _ => none

/-- The calls of a run, with their callers. -/
def callsOf (as : List (Act ι)) : List (ι × List UInt8) := as.filterMap Act.call?

theorem Good.step {a : Act ι} (h : Good sb f e X l who chunks given u)
    (htotal : Shuffle.weight List.length ((given ++ a.call?.toList).map (·.2)) < MAXFILE * BSIZE)
    (hstep : step sb f u a = some v) : After sb f e X l (given ++ a.call?.toList) v := by
  unfold Shared.step at hstep
  rw [if_neg (by rw [h.running]; exact not_not.mpr rfl)] at hstep
  cases a with
  | run p =>
    simp only [Act.call?, Option.toList_none, List.append_nil] at htotal ⊢
    exact h.run htotal hstep
  | call p data =>
    simp only [Act.call?, Option.toList_some]
    cases hpc : u.pc p with
    | idle ret =>
      simp only [hpc, h.opened.writable, h.opened.inode] at hstep
      rw [if_neg (by decide)] at hstep
      cases hstep
      have htally := (h.tally p).2
      rw [hpc] at htally
      refine .inr ⟨who, chunks, h.outside rfl h.running (.inl rfl) (by rw [hpc]; rfl) rfl
        ⟨trivial, ?_⟩ fun q hq => of_snoc_of_ne hq.symm⟩
      rw [of_snoc_self]
      exact Chunked.begin htally data
    | loop | begun | locked | writing | sizing | wrote | moved | unlocked =>
      simp only [hpc] at hstep
      cases hstep

/-- The file is open and empty, and no process is in a call. -/
structure Start (sb : Superblock) (f : FileId) (e : EntryId) (X : Option Pid) (l : List EntryId)
    (s : State ι) : Prop where
  file : Settled sb f e X l Fs.unlocked [] 0 s.fs
  idle : ∀ p, ∃ ret, s.pc p = .idle ret
  running : s.panicked = none

theorem Start.good (h : Start sb f e X l u) : Good sb f e X l none [] [] u where
  running := h.running
  inside p := by
    obtain ⟨ret, hret⟩ := h.idle p
    rw [hret]
    exact ⟨nofun, nofun⟩
  file := h.file
  tally p := by
    obtain ⟨ret, hret⟩ := h.idle p
    rw [hret]
    exact ⟨trivial, [], rfl, .nil⟩

variable {as : List (Act ι)}

theorem run_after (h : Start sb f e X l u) (hrun : Run sb f u as v)
    (htotal : Shuffle.weight List.length ((callsOf as).map (·.2)) < MAXFILE * BSIZE) :
    After sb f e X l (callsOf as) v := by
  induction hrun with
  | nil => exact .inr ⟨none, [], h.good⟩
  | @snoc t as a hrun hg _ ih =>
    have hcalls : callsOf (as ++ [a]) = callsOf as ++ a.call?.toList := by
      rw [callsOf, List.filterMap_append]
      cases a <;> rfl
    obtain ⟨v, hv⟩ := Option.isSome_iff_exists.mp hg
    have hnext : (System.ofStep (step sb f)).next t a = v := by simp [System.ofStep, hv]
    rw [hcalls] at htotal ⊢
    rw [hnext]
    have hless : Shuffle.weight List.length ((callsOf as).map (·.2)) < MAXFILE * BSIZE := by
      rw [List.map_append, weight_append] at htotal
      omega
    rcases ih hless with hpanic | ⟨who, chunks, hgood⟩
    · unfold Shared.step at hv
      rw [if_pos (by rw [hpanic]; exact (by simp))] at hv
      cases hv
    · exact hgood.step htotal hv

/-- Writers that share a file lose nothing: when all calls have returned, the file consists of the
    chunks of all of them, and its size is the offset. -/
theorem shared_writers_lose_nothing (h : Start sb f e X l u)
    (hrun : Run sb f u as v)
    (htotal : Shuffle.weight List.length ((callsOf as).map (·.2)) < MAXFILE * BSIZE) :
    (v.panicked = none ∨ v.panicked = some "balloc: out of blocks") ∧
    (v.panicked = none → (∀ p, ∃ ret, v.pc p = .idle ret) →
      ∃ chunks : List (ι × List UInt8),
        fileOf sb v.fs.view (v.fs.icache e).inum = (chunks.map (·.2)).flatten ∧
        (∀ p, Chunked (of p (callsOf as)) (of p chunks)) ∧
        (v.fs.ftable f).off = (dinodeAt sb v.fs.view (v.fs.icache e).inum).size.toNat) := by
  rcases run_after h hrun htotal with hpanic | ⟨who, chunks, hgood⟩
  · refine ⟨.inr hpanic, fun hnone => ?_⟩
    rw [hpanic] at hnone
    cases hnone
  · refine ⟨.inl hgood.running, fun _ hidle => ⟨chunks, ?_⟩⟩
    have hwho : who = none := by
      cases who with
      | none => rfl
      | some p =>
        obtain ⟨ret, hret⟩ := hidle p
        have := (hgood.inside p).mpr rfl
        rw [hret] at this
        cases this
    subst hwho
    have hfile : Settled sb f e X l Fs.unlocked (bytes chunks) (bytes chunks).length v.fs := hgood.file
    refine ⟨hfile.bytes, fun p => ?_, ?_⟩
    · obtain ⟨ret, hret⟩ := hidle p
      have := (hgood.tally p).2
      rw [hret] at this
      exact this
    · rw [hfile.off, ← hfile.bytes, fileOf, length_contents]

end

/-! ### Two writers -/

/-- The first process has created `/a` on the small image. -/
def created : Except Stop (Unit × Fs.State) :=
  runEvents smallSb [.call 0 (.open [47, 97] (O_CREATE ||| O_WRONLY))] (boot smallImage)

def twoWriters : State Bool where
  fs := match created with
    | .ok r => r.2
    | .error _ => boot smallImage
  outstanding := 0
  pc _ := .idle 0
  panicked := none

theorem start_twoWriters : Start smallSb 0 1 none [] twoWriters := by
  have hheld : Held smallSb none [] Fs.unlocked twoWriters.fs := by
    have hok : created.isOk = true := by decide +kernel
    unfold twoWriters
    cases hc : created with
    | ok r => exact quiet_runEvents smallImage_wellFormed hc
    | error _ =>
      rw [hc] at hok
      cases hok
  refine ⟨⟨hheld, ?_, ?_, ?_, ?_, ?_, ?_⟩, fun _ => ⟨0, rfl⟩, rfl⟩ <;> decide +kernel

/-- Both call `filewrite`; the second waits for the lock while the first writes. -/
def twoWrites : List (Act Bool) :=
  [.call false [72], .call true [105], .run false, .run true] ++
    List.replicate 9 (.run false) ++ List.replicate 9 (.run true)

/-- The call has returned. -/
def Pc.returned : Pc → Bool
  | .idle _ => true
  | _ => false

theorem shared_writers_lose_nothing_two :
    ∃ v chunks, Run smallSb 0 twoWriters twoWrites v ∧
      fileOf smallSb v.fs.view (v.fs.icache 1).inum = (chunks.map (·.2)).flatten ∧
      (∀ p, Chunked (of p (callsOf twoWrites)) (of p chunks)) := by
  have hexec : ((System.ofStep (step smallSb 0)).exec (fun _ _ => True) twoWriters twoWrites).any
      (fun v => v.panicked.isNone && [false, true].all fun p => (v.pc p).returned) = true := by
    decide +kernel
  obtain ⟨v, hv, hidle⟩ := (Option.any_eq_true _ _).mp hexec
  have hrun : Run smallSb 0 twoWriters twoWrites v := System.run_of_exec hv
  rw [Bool.and_eq_true, Option.isNone_iff_eq_none] at hidle
  obtain ⟨chunks, hbytes, hchunks, -⟩ := (shared_writers_lose_nothing start_twoWriters hrun
    (by decide)).2 hidle.1 fun p => by
      have hp := List.all_eq_true.mp hidle.2 p (by cases p <;> simp)
      cases hpc : v.pc p with
      | idle ret => exact ⟨ret, rfl⟩
      | loop | begun | locked | writing | sizing | wrote | moved | unlocked =>
        rw [hpc] at hp
        cases hp
  exact ⟨v, chunks, hrun, hbytes, hchunks⟩

end Xv6.Fs.Shared
