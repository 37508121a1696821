import Xv6.Schemes.Count
import Xv6.Schemes.Update
import Xv6.Kernel.Log.Isolation

/-! What the program counter of a process says about the buffers: which it holds locked, which it
    has a reference to without holding it, and which blocks these are labelled with. -/

namespace Xv6.Bio
open Log (Geometry blockAt getHead)
open Update

variable {np : Nat} {g : Geometry} {s t : State np} {p : Fin np}

/-- The buffer a process has counted in `refcnt` but does not hold: it waits for the lock in `bget`,
    or has released it in `brelse`. -/
def PC.refs : PC np → Option BufId
  | .acquire _ _ b _ => some b
  | .putref b _ => some b
  | _ => none

/-- Calls of `bread` on `b` that no `brelse` has matched: those that wait for the lock or are giving
    the buffer back, and the one that holds it. -/
def holders (s : State np) (b : BufId) : Nat :=
  Count.count s.pc (fun x => decide (x.refs = some b)) + if (s.bufs b).lock = none then 0 else 1

/-- `b` is the buffer that `bget` finds for the block it is labelled with. All buffers start out with
    the label (0, 0) of zeroed memory; those that have not been used are not found under it. -/
def caches (s : State np) (b : BufId) : Prop :=
  lookup s (s.bufs b).dev (s.bufs b).blockno = some b

/-- The block that `b` caches is recorded in the in-memory header. -/
def recorded (s : State np) (b : BufId) : Prop :=
  caches s b ∧ (s.bufs b).dev = ROOTDEV ∧ (s.bufs b).blockno ∈ s.lh

/-- It is, and the running `install_trans` has not yet unpinned it. -/
def pinned (s : State np) (b : BufId) : Prop :=
  caches s b ∧ (s.bufs b).dev = ROOTDEV ∧ (s.bufs b).blockno ∈ s.lh.drop s.unpinned

instance (s : State np) (b : BufId) : Decidable (caches s b) := inferInstanceAs (Decidable (_ = _))

instance (s : State np) (b : BufId) : Decidable (pinned s b) :=
  inferInstanceAs (Decidable (_ ∧ _ ∧ _))

instance (s : State np) (b : BufId) : Decidable (recorded s b) :=
  inferInstanceAs (Decidable (_ ∧ _ ∧ _))

theorem lookup_congr (hlru : t.lru = s.lru) (hlabel : ∀ b, (t.bufs b).dev = (s.bufs b).dev ∧
    (t.bufs b).blockno = (s.bufs b).blockno) (dev bn : Nat) : lookup t dev bn = lookup s dev bn := by
  simp only [lookup, hlru, hlabel]

/-! ### How far `install_trans` has come -/

def Cont.unpins : Cont → Option Nat
  | .instLog _ tail => some tail
  | .instHome _ tail _ => some tail
  | _ => none

def Ret.unpins : Ret → Option Nat
  | .instLog _ tail _ => some (tail + 1)
  | .instHome _ tail => some (tail + 1)
  | _ => none

/-- The number of buffers that `install_trans` has unpinned, for a process inside it. -/
def PC.unpins : PC np → Option Nat
  | .bget _ _ k => k.unpins
  | .acquire _ _ _ k => k.unpins
  | .fill _ _ _ k => k.unpins
  | .release _ k => k.unpins
  | .putref _ k => k.unpins
  | .install _ tail => some tail
  | .installCopy _ tail _ _ => some tail
  | .bunpin _ tail _ _ => some tail
  | _ => none

theorem Cont.goto_unpins (lh : List Nat) (b : BufId) (k : Cont) :
    (k.goto lh b : PC np).unpins = k.unpins := by
  cases k <;> rfl

/-- Only the process that commits, or boots, is inside `install_trans`. -/
theorem PC.phase_of_unpins {x : PC np} {n : Nat} (hx : x.unpins = some n) :
    x.phase.commits = true ∨ x.phase.boots = true := by
  have hc : ∀ k : Cont, k.unpins = some n →
      (k.phase : Phase np).commits = true ∨ (k.phase : Phase np).boots = true := by
    rintro (_ | _ | _ | _ | _ | _ | ⟨_ | _, _⟩ | ⟨_ | _, _, _⟩) hk <;>
      simp_all [Cont.unpins, Cont.phase, Phase.commits, Phase.boots]
  have hr : ∀ k : Ret, k.unpins = some n →
      (k.phase : Phase np).commits = true ∨ (k.phase : Phase np).boots = true := by
    rintro (_ | _ | _ | _ | _ | _ | ⟨_ | _, _, _⟩ | ⟨_ | _, _⟩) hk <;>
      simp_all [Ret.unpins, Ret.phase, Phase.commits, Phase.boots]
  cases x
  case bget | acquire | fill => exact hc _ hx
  case release | putref => exact hr _ hx
  case install boot _ | installCopy boot _ _ _ | bunpin boot _ _ _ =>
    cases boot <;> simp [PC.phase, Phase.commits, Phase.boots]
  all_goals simp [PC.unpins] at hx

/-! ### Frames -/

/-- `b` holds the block `bn` of `dev`. -/
def Labelled (s : State np) (b : BufId) (dev bn : Nat) : Prop :=
  (s.bufs b).dev = dev ∧ (s.bufs b).blockno = bn

/-- And `p` has it locked. -/
def Held (s : State np) (p : Fin np) (b : BufId) (dev bn : Nat) : Prop :=
  (s.bufs b).lock = some p ∧ Labelled s b dev bn

/-- What holds of a `bread` of `(dev, bn)` that returns to `k`. No `bread` returns into the install
    loop of the boot: a boot that finds the log empty does not enter it. -/
def Cont.Frame (g : Geometry) (s : State np) (p : Fin np) (dev bn : Nat) : Cont → Prop
  | .client => True
  | .readsb => dev = ROOTDEV ∧ bn = 1
  | .readHead => dev = ROOTDEV ∧ bn = g.start
  | .logTo tail => (dev = ROOTDEV ∧ bn = g.start + tail + 1) ∧ tail < s.lh.length
  | .logFrom tail dst => (dev = ROOTDEV ∧ bn = blockAt s.lh tail) ∧
      Held s p dst ROOTDEV (g.start + tail + 1) ∧ tail < s.lh.length
  | .head _ => dev = ROOTDEV ∧ bn = g.start
  | .instLog boot tail => (dev = ROOTDEV ∧ bn = g.start + tail + 1) ∧ boot = false
  | .instHome boot tail lbuf => (dev = ROOTDEV ∧ bn = blockAt s.lh tail) ∧
      Held s p lbuf ROOTDEV (g.start + tail + 1) ∧ boot = false

/-- The buffer that the caller of `bread` already holds. -/
def Cont.other : Cont → Option BufId
  | .logFrom _ dst => some dst
  | .instHome _ _ lbuf => some lbuf
  | _ => none

/-- The buffer that the caller of `brelse` still has to release. -/
def Ret.other : Ret → Option BufId
  | .logFrom _ dst => some dst
  | .instLog _ _ dbuf => some dbuf
  | _ => none

def Ret.Frame (s : State np) (p : Fin np) (k : Ret) : Prop :=
  (∀ b, k.other = some b → (s.bufs b).lock = some p) ∧
    ∀ tail, (∀ dbuf, k ≠ .instLog true tail dbuf) ∧ k ≠ .instHome true tail

/-- What holds of a process with a given program counter. -/
def PC.Frame (g : Geometry) (s : State np) (p : Fin np) : PC np → Prop
  | .bget dev bn k => k.Frame g s p dev bn
  | .acquire dev bn b k => k.Frame g s p dev bn ∧ Labelled s b dev bn
  | .fill dev bn b k => k.Frame g s p dev bn ∧ Held s p b dev bn ∧ k.other ≠ some b
  | .release b k => (s.bufs b).lock = some p ∧ k.Frame s p ∧ k.other ≠ some b
  | .putref _ k => k.Frame s p
  | .logWrite b => (s.bufs b).lock = some p ∧ (s.bufs b).dev = ROOTDEV
  | .logCopy tail dst src => Held s p dst ROOTDEV (g.start + tail + 1) ∧
      Held s p src ROOTDEV (blockAt s.lh tail) ∧ dst ≠ src ∧ tail < s.lh.length
  | .headCopy _ hb => Held s p hb ROOTDEV g.start
  | .readHeadCopy hb => Held s p hb ROOTDEV g.start
  | .install boot tail => boot = true → tail = 0
  | .installCopy boot tail lbuf dbuf => Held s p lbuf ROOTDEV (g.start + tail + 1) ∧
      Held s p dbuf ROOTDEV (blockAt s.lh tail) ∧ lbuf ≠ dbuf ∧ boot = false
  | .bunpin boot tail lbuf dbuf => Held s p lbuf ROOTDEV (g.start + tail + 1) ∧
      Held s p dbuf ROOTDEV (blockAt s.lh tail) ∧ lbuf ≠ dbuf ∧ boot = false
  | _ => True

/-- A frame outlives what other processes do: the locks it relies on stay, no buffer that is locked
    or referenced is relabelled, and the header only changes when nobody is inside `commit`. -/
structure Keeps (s t : State np) (p : Fin np) (x : PC np) : Prop where
  lock : ∀ b, (s.bufs b).lock = some p → (t.bufs b).lock = some p
  label : ∀ b, (s.bufs b).lock = some p ∨ x.refs = some b →
    (t.bufs b).dev = (s.bufs b).dev ∧ (t.bufs b).blockno = (s.bufs b).blockno
  lh : t.lh = s.lh ∨ x.phase.commits = false ∧ x.phase.boots = false

theorem Held.keep {x : PC np} (h : Keeps s t p x) {b : BufId} {dev bn : Nat} (hb : Held s p b dev bn) :
    Held t p b dev bn := by
  obtain ⟨hl, hd, hn⟩ := hb
  obtain ⟨hd', hn'⟩ := h.label b (.inl hl)
  exact ⟨h.lock b hl, hd'.trans hd, hn'.trans hn⟩

theorem Cont.Frame.keep {x : PC np} (h : Keeps s t p x) {k : Cont} (hk : x.phase = k.phase)
    {dev bn : Nat} (hf : k.Frame g s p dev bn) : k.Frame g t p dev bn := by
  cases k with
  | logTo tail =>
    have hlh : t.lh = s.lh := h.lh.resolve_right (by rw [hk]; simp [Cont.phase, Phase.commits])
    exact ⟨hf.1, by rw [hlh]; exact hf.2⟩
  | logFrom tail dst =>
    obtain ⟨⟨hd, hn⟩, hh, htail⟩ := hf
    have hlh : t.lh = s.lh := h.lh.resolve_right (by rw [hk]; simp [Cont.phase, Phase.commits])
    exact ⟨⟨hd, by rw [hlh]; exact hn⟩, hh.keep h, by rw [hlh]; exact htail⟩
  | instHome boot tail lbuf =>
    obtain ⟨⟨hd, hn⟩, hh, rfl⟩ := hf
    have hlh : t.lh = s.lh := h.lh.resolve_right (by rw [hk]; simp [Cont.phase, Phase.commits])
    exact ⟨⟨hd, by rw [hlh]; exact hn⟩, hh.keep h, rfl⟩
  | _ => exact hf

theorem Ret.Frame.keep {x : PC np} (h : Keeps s t p x) {k : Ret} (hf : k.Frame s p) : k.Frame t p :=
  ⟨fun b hb => h.lock b (hf.1 b hb), hf.2⟩

theorem PC.Frame.keep {x : PC np} (h : Keeps s t p x) (hf : x.Frame g s p) : x.Frame g t p := by
  cases x with
  | bget dev bn k => exact Cont.Frame.keep h rfl hf
  | acquire dev bn b k =>
    obtain ⟨hk, hd, hn⟩ := hf
    obtain ⟨hd', hn'⟩ := h.label b (.inr rfl)
    exact ⟨Cont.Frame.keep h rfl hk, hd'.trans hd, hn'.trans hn⟩
  | fill dev bn b k => exact ⟨Cont.Frame.keep h rfl hf.1, hf.2.1.keep h, hf.2.2⟩
  | release b k => exact ⟨h.lock b hf.1, hf.2.1.keep h, hf.2.2⟩
  | putref b k => exact Ret.Frame.keep h hf
  | logWrite b =>
    exact ⟨h.lock b hf.1, (h.label b (.inl hf.1)).1.trans hf.2⟩
  | logCopy tail dst src =>
    have hlh : t.lh = s.lh := h.lh.resolve_right (by simp [PC.phase, Phase.commits])
    exact ⟨hf.1.keep h, by rw [hlh]; exact hf.2.1.keep h, hf.2.2.1, by rw [hlh]; exact hf.2.2.2⟩
  | headCopy hd hb | readHeadCopy hb => exact Held.keep h hf
  | installCopy boot tail lbuf dbuf | bunpin boot tail lbuf dbuf =>
    obtain ⟨hl, hd, hne, rfl⟩ := hf
    have hlh : t.lh = s.lh := h.lh.resolve_right (by simp [PC.phase, Phase.commits])
    exact ⟨hl.keep h, by rw [hlh]; exact hd.keep h, hne, rfl⟩
  | _ => exact hf

/-! ### What a step leaves alone -/

/-- The action that gives a buffer another block. -/
def Act.relabels : Act np → Bool
  | .bgetRecycle .. => true
  | _ => false

theorem label_next {a : Act np} (ha : a.relabels = false) (c : BufId) :
    ((next g s a).bufs c).dev = (s.bufs c).dev ∧ ((next g s a).bufs c).blockno = (s.bufs c).blockno := by
  cases a
  case bgetRecycle => simp [Act.relabels] at ha
  case modify | bwrite | bgetHit | acquire | fill | release | putref | logCopy | headCopy | installCopy |
      bunpin =>
    exact ⟨by apply proj_update Buf.dev; rfl, by apply proj_update Buf.blockno; rfl⟩
  case logWriteLocked =>
    simp only [next]
    split
    · exact ⟨rfl, rfl⟩
    · exact ⟨by apply proj_update Buf.dev; rfl, by apply proj_update Buf.blockno; rfl⟩
  all_goals exact ⟨rfl, rfl⟩

/-- The actions that take or give back the lock of a buffer. -/
def Act.locks : Act np → Bool
  | .acquire .. | .release .. => true
  | _ => false

theorem lock_next {a : Act np} (ha : a.locks = false) (c : BufId) :
    ((next g s a).bufs c).lock = (s.bufs c).lock := by
  cases a
  case acquire | release => simp [Act.locks] at ha
  case modify | bwrite | bgetHit | bgetRecycle | fill | putref | logCopy | headCopy | installCopy |
      bunpin =>
    exact by apply proj_update Buf.lock; rfl
  case logWriteLocked =>
    simp only [next]
    split
    · rfl
    · exact by apply proj_update Buf.lock; rfl
  all_goals rfl

/-- The actions that change whether a buffer is valid. -/
def Act.validates : Act np → Bool
  | .bgetRecycle .. | .fill .. => true
  | _ => false

theorem valid_next {a : Act np} (ha : a.validates = false) (c : BufId) :
    ((next g s a).bufs c).valid = (s.bufs c).valid := by
  cases a
  case bgetRecycle | fill => simp [Act.validates] at ha
  case modify | bwrite | bgetHit | acquire | release | putref | logCopy | headCopy | installCopy |
      bunpin =>
    exact by apply proj_update Buf.valid; rfl
  case logWriteLocked =>
    simp only [next]
    split
    · rfl
    · exact by apply proj_update Buf.valid; rfl
  all_goals rfl

end Xv6.Bio
