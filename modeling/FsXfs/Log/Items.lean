import FsXfs.Log.Image

/-!
# The items a record is made of

The builders of `log_write.rs`, `quota.rs`, `buf_write.rs` and `log_items.rs`: every item begins with
a format operation that gives its type and the number of operations it takes. A transaction is a
start, a header, its items' operations and a commit.
-/

namespace FsXfs.Log

open Bytes Quota

set_option autoImplicit false

/-! ## Inode items -/

structure InodeBuffer where
  blkno : ℕ
  len : ℕ
  boffset : ℕ
  deriving DecidableEq, Repr

def InodeBuffer.containing (at_ clusterBytes : ℕ) : InodeBuffer where
  blkno := (at_ - at_ % clusterBytes) / 512
  len := clusterBytes / 512
  boffset := at_ % clusterBytes

-- `xfs_inode_log_format`
def inodeFormat (size ino fields dsize asize : ℕ) (buffer : InodeBuffer) : List UInt8 :=
  leBytes 2 xfsLiInode ++ (leBytes 2 size ++ (leBytes 4 fields ++ (leBytes 2 asize ++
    (leBytes 2 dsize ++ (leBytes 4 0 ++ (leBytes 8 ino ++ (List.replicate 16 0 ++
      (leBytes 8 buffer.blkno ++ (leBytes 4 buffer.len ++ leBytes 4 buffer.boffset)))))))))

def inodeLogFormat (ino fields : ℕ) (buffer : InodeBuffer) : List UInt8 :=
  inodeFormat 2 ino fields 0 0 buffer

def inodeLogFormatWithFork (ino fields : ℕ) (buffer : InodeBuffer) (dsize : ℕ) : List UInt8 :=
  inodeFormat 3 ino fields dsize 0 buffer

def inodeLogFormatWithForks (ino fields : ℕ) (buffer : InodeBuffer) (dsize asize : ℕ) :
    List UInt8 :=
  inodeFormat (2 + (if 0 < dsize then 1 else 0) + (if 0 < asize then 1 else 0)) ino fields dsize
    asize buffer

def forkOp (fork : List UInt8) : List UInt8 :=
  fork.takeD (divCeil fork.length 4 * 4) 0

def inodeOpsWithAttr (ino : ℕ) (buffer : InodeBuffer) (core afork : List UInt8) (afields : ℕ) :
    List (List UInt8) :=
  if afork = [] then [inodeLogFormat ino 1 buffer, core]
  else [inodeLogFormatWithForks ino (1 ||| afields) buffer 0 afork.length, core, forkOp afork]

def icreateBuild (agno agbno count isize length gen : ℕ) : List UInt8 :=
  leBytes 2 xfsLiIcreate ++ (leBytes 2 1 ++ (beBytes 4 agno ++ (beBytes 4 agbno ++
    (beBytes 4 count ++ (beBytes 4 isize ++ (beBytes 4 length ++ beBytes 4 gen))))))

/-! ## Transactions -/

/-- An item the driver logs, as the operations it takes. -/
inductive DriverItem : List (List UInt8) → Prop
  | buffer (item : BufferItem) (h : item.Describable) : DriverItem (item.ops.map Op.data)
  | dquot (item : QuotaLogItem) : DriverItem item.ops
  | icreate (agno agbno count isize length gen : ℕ) :
    DriverItem [icreateBuild agno agbno count isize length gen]
  | core (ino fields : ℕ) (buffer : InodeBuffer) (core : List UInt8) :
    DriverItem [inodeLogFormat ino fields buffer, core]
  | fork (ino fields : ℕ) (buffer : InodeBuffer) (core fork : List UInt8) :
    DriverItem [inodeLogFormatWithFork ino fields buffer fork.length, core, forkOp fork]
  | attr (ino : ℕ) (buffer : InodeBuffer) (core afork : List UInt8) (afields : ℕ) :
    DriverItem (inodeOpsWithAttr ino buffer core afork afields)
  | forks (ino fields : ℕ) (buffer : InodeBuffer) (core fork afork : List UInt8)
    (hfork : fork ≠ []) (hafork : afork ≠ []) :
    DriverItem [inodeLogFormatWithForks ino fields buffer fork.length afork.length, core,
      forkOp fork, forkOp afork]

def checkpointOps (tid itemOps : ℕ) (items : List (List (List UInt8))) : List Op :=
  ⟨xlogStartTrans, []⟩ :: ⟨0, transHeader tid xfsTransCheckpoint itemOps⟩ ::
    (items.flatten.map fun data => ⟨0, data⟩) ++ [⟨xlogCommitTrans, []⟩]

/-! ## Counts -/

/-- A format operation that counts the operations of its own item, and is none of a transaction's
headers. -/
def OwnCount (regions : List (List UInt8)) : Prop :=
  4 ≤ (regions.headD []).length ∧ leValue (slice (regions.headD []) 2 2) = regions.length ∧
    leValue (slice (regions.headD []) 0 4) ≠ xfsTransHeaderMagic

theorem OwnCount.ne_nil {regions : List (List UInt8)} (h : OwnCount regions) : regions ≠ [] := by
  rintro rfl
  exact absurd h.1 (by decide)

theorem ownCount_of_bytes {kind count : ℕ} {tail : List UInt8} {rest : List (List UInt8)}
    (hkind : kind ∈ [xfsLiInode, xfsLiBuf, xfsLiDquot, xfsLiIcreate])
    (hcount : count = rest.length + 1) (hsmall : count < 2 ^ 16) :
    OwnCount ((leBytes 2 kind ++ (leBytes 2 count ++ tail)) :: rest) := by
  refine ⟨by simp; omega, ?_, ?_⟩
  · have hslice : slice (leBytes 2 kind ++ (leBytes 2 count ++ tail)) 2 2 = leBytes 2 count := rfl
    rw [List.headD_cons, hslice, leValue_leBytes, List.length_cons, ← hcount]
    exact Nat.mod_eq_of_lt (lt_of_lt_of_eq hsmall (by norm_num))
  · have hslice : slice (leBytes 2 kind ++ (leBytes 2 count ++ tail)) 0 4 =
        leBytes 2 kind ++ leBytes 2 count := rfl
    have hvalue : ∀ a b : ℕ, leValue (leBytes 2 a ++ leBytes 2 b) =
        a % 256 ^ 2 + 256 ^ 2 * (b % 256 ^ 2) := by
      intro a b
      rw [← leValue_leBytes 2 a, ← leValue_leBytes 2 b]
      simp only [leBytes, leValue, List.cons_append, List.nil_append]
      ring
    rw [List.headD_cons, hslice, hvalue]
    have hne : kind % 256 ^ 2 ≠ xfsTransHeaderMagic % 256 ^ 2 := by
      simp only [List.mem_cons, List.not_mem_nil, or_false] at hkind
      rcases hkind with rfl | rfl | rfl | rfl <;> decide
    intro heq
    apply hne
    rw [← heq, Nat.add_mul_mod_self_left, Nat.mod_mod]

theorem DriverItem.own {regions : List (List UInt8)} (h : DriverItem regions) :
    OwnCount regions := by
  cases h with
  | buffer item hdesc =>
    exact ownCount_of_bytes (by decide) (by simp; omega) hdesc.1
  | dquot item => exact ownCount_of_bytes (by decide) rfl (by decide)
  | icreate agno agbno count isize length gen => exact ownCount_of_bytes (by decide) rfl (by decide)
  | core ino fields buffer core => exact ownCount_of_bytes (by decide) rfl (by decide)
  | fork ino fields buffer core fork => exact ownCount_of_bytes (by decide) rfl (by decide)
  | attr ino buffer core afork afields =>
    unfold inodeOpsWithAttr
    split
    · exact ownCount_of_bytes (by decide) rfl (by decide)
    · next hne =>
      have hpos : 0 < afork.length := List.length_pos_iff.mpr hne
      rw [inodeLogFormatWithForks, if_neg (by decide), if_pos hpos]
      exact ownCount_of_bytes (by decide) rfl (by decide)
  | forks ino fields buffer core fork afork hfork hafork =>
    rw [inodeLogFormatWithForks, if_pos (List.length_pos_iff.mpr hfork),
      if_pos (List.length_pos_iff.mpr hafork)]
    exact ownCount_of_bytes (by decide) rfl (by decide)

end FsXfs.Log
