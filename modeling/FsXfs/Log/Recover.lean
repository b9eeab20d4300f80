import FsXfs.Log.Ring
import FsXfs.Lib.Patch

/-!
# Replaying the log

`log_recover.rs`: the records from the tail of the newest one to the newest itself, the
transactions their operations make, and the two passes over their items. What an operation's bytes
say is left to `decode`, which every definition here takes: the items of a transaction are whatever
it reads out of them.
-/

namespace FsXfs.Log

open Redo

set_option autoImplicit false

/-! ## Items -/

/-- An item of a transaction. `blkno` and `len` name the buffer, or the inode cluster, that a
cancel is matched by. `bb` and `size` are the image the mount's overlay holds for it, and `chunks`
the bytes logged, checksum included, by offset in that image. -/
structure Item where
  blkno : ℕ
  len : ℕ
  cancel : Bool
  bb : ℕ
  size : ℕ
  chunks : List (ℕ × List UInt8)
  deriving DecidableEq, Repr

def chunkPatch (at_ : ℕ) (bytes : List UInt8) : Patch ℕ UInt8 := fun a =>
  if at_ ≤ a ∧ a < at_ + bytes.length then some (bytes.getD (a - at_) 0) else none

namespace Item

def key (item : Item) : ℕ × ℕ :=
  (item.blkno, item.len)

def patches (item : Item) : List (Patch ℕ UInt8) :=
  item.chunks.map fun c => chunkPatch (item.bb * 512 + c.1) c.2

def image (item : Item) (view : ℕ → UInt8) : List UInt8 :=
  (List.range item.size).map fun i => applyAll item.patches view (item.bb * 512 + i)

def Inside (item : Item) : Prop :=
  ∀ c ∈ item.chunks, c.1 + c.2.length ≤ item.size

def Spans (item : Item) (b : ℕ) : Prop :=
  item.bb ≤ b ∧ b < item.bb + divCeil item.size 512

end Item

/-! ## Operations into transactions -/

abbrev InFlight := AList fun _ : ℕ => List Op

-- one operation of `read_ops`, over the open transactions and those handed on
def readOp (tid : ℕ) (st : InFlight × List (List Op)) (op : Op) : InFlight × List (List Op) :=
  if op.isUnmount then st
  else if op.isStart then (st.1.insert tid [], st.2)
  else if op.isCommit then
    match st.1.lookup tid with
    | some ops => (st.1.erase tid, st.2 ++ [ops])
    | none => st
  else
    match st.1.lookup tid with
    | some ops => (st.1.insert tid (ops ++ [op]), st.2)
    | none => st

def readOps (r : LogRecord) (st : InFlight × List (List Op)) : InFlight × List (List Op) :=
  r.ops.foldl (readOp r.tid) st

def isTransHeader (op : Op) : Bool :=
  decide (16 ≤ op.data.length) &&
    decide (Bytes.leValue (Bytes.slice op.data 0 4) = xfsTransHeaderMagic)

-- `add_region` drops empty operations and the header that opens a transaction
def regions (ops : List Op) : List (List UInt8) :=
  ((ops.filter fun op => !op.data.isEmpty).dropWhile isTransHeader).map Op.data

/-! ## From the tail to the newest record -/

def intact (ring : Ring) (total at_ : ℕ) (r : LogRecord) : Bool :=
  (List.range r.blocks).all fun k => decide (ring ((at_ + k) % total) = some (r, k))

def walkFrom (ring : Ring) (total : ℕ) (newest : LogRecord) :
    ℕ → ℕ → InFlight × List (List Op) → Except Error (List (List Op))
  | 0, _, _ => .error (.corruptLog "the log's records loop without ever reaching its newest")
  | fuel + 1, at_, st =>
    match ring at_ with
    | some (r, 0) =>
      if intact ring total at_ r then
        if r.lsn = newest.lsn then .ok (readOps r st).2
        else walkFrom ring total newest fuel ((at_ + r.blocks) % total) (readOps r st)
      else
        .error (.corruptLog s!"the log record at basic block {at_} does not match its checksum")
    | _ => .error (.corruptLog s!"no log record begins at basic block {at_}, where the record before it said the next one would")

def walk (ring : Ring) (total : ℕ) (newest : LogRecord) : Except Error (List (List Op)) :=
  if newest.tailLsn = 0 then
    .error (.corruptLog "the newest log record names no tail, so there is no telling which records still have to be applied")
  else
    let at_ := newest.tailLsn % 2 ^ 32
    if total ≤ at_ then
      .error (.corruptLog s!"the log's tail is at block {at_}, past the {total} blocks of the ring")
    else
      walkFrom ring total newest (total + 1) at_ (∅, [])

/-! ## The two passes -/

abbrev CancelTable := ℕ × ℕ → ℕ

def cancelTable (items : List Item) : CancelTable := fun key =>
  items.countP fun item => item.cancel && decide (item.key = key)

def applyItem (st : CancelTable × (ℕ → UInt8)) (item : Item) : CancelTable × (ℕ → UInt8) :=
  if item.cancel then (Function.update st.1 item.key (st.1 item.key - 1), st.2)
  else if st.1 item.key ≠ 0 then st
  else (st.1, applyAll item.patches st.2)

def replayItems (items : List Item) (home : ℕ → UInt8) : ℕ → UInt8 :=
  (items.foldl applyItem (cancelTable items, home)).2

section

variable (decode : List (List UInt8) → List Item)

def itemsOf (ops : List Op) : List Item :=
  match regions ops with
  | [] => []
  | rs => decode rs

/-- What a mount after a crash reads: the home blocks with everything outstanding replayed. -/
def recover (disk : Disk) (total : ℕ) : Except Error (ℕ → UInt8) :=
  match scanWholeRing disk.ring total with
  | none => .ok disk.home
  | some (_, newest) =>
    if inspect disk.ring total = .needsReplay then do
      let transactions ← walk disk.ring total newest
      pure (replayItems (transactions.flatMap (itemsOf decode)) disk.home)
    else
      .ok disk.home

end

/-! ## Reading a transaction -/

def Op.isPlain (op : Op) : Bool :=
  !op.isStart && !op.isCommit && !op.isUnmount

theorem foldl_readOp_plain (tid : ℕ) (ops : List Op) (seen : List Op) (done : List (List Op))
    (h : ∀ op ∈ ops, op.isPlain = true) :
    ops.foldl (readOp tid) (AList.singleton tid seen, done) =
      (AList.singleton tid (seen ++ ops), done) := by
  induction ops generalizing seen with
  | nil => simp
  | cons op ops ih =>
    have hop := h op List.mem_cons_self
    simp only [Op.isPlain, Bool.and_eq_true, Bool.not_eq_true'] at hop
    have hlook : (AList.singleton tid seen : InFlight).lookup tid = some seen := by
      rw [← AList.insert_empty, AList.lookup_insert]
    have hstep : readOp tid (AList.singleton tid seen, done) op =
        (AList.singleton tid (seen ++ [op]), done) := by
      simp only [readOp, hop, Bool.false_eq_true, if_false, hlook]
      rw [AList.insert_singleton_eq]
    rw [List.foldl_cons, hstep, ih _ (fun op' h' => h op' (List.mem_cons_of_mem _ h'))]
    simp

variable {items : List Item} {a : ℕ}

theorem replayItems_of_no_cancel (h : ∀ item ∈ items, item.cancel = false)
    (home : ℕ → UInt8) :
    replayItems items home = applyAll (items.flatMap Item.patches) home := by
  have htable : cancelTable items = fun _ => 0 := by
    funext key
    rw [cancelTable, List.countP_eq_zero]
    intro item hitem
    simp [h item hitem]
  have hfold : ∀ (l : List Item), (∀ item ∈ l, item.cancel = false) → ∀ home : ℕ → UInt8,
      l.foldl applyItem (fun _ => 0, home) = (fun _ => 0, applyAll (l.flatMap Item.patches) home) := by
    intro l
    induction l with
    | nil => intro _ home; rfl
    | cons item l ih =>
      intro hl home
      have hc := hl item List.mem_cons_self
      have hstep : applyItem (fun _ => 0, home) item = (fun _ => 0, applyAll item.patches home) := by
        simp [applyItem, hc]
      rw [List.foldl_cons, hstep, ih (fun i hi => hl i (List.mem_cons_of_mem _ hi)),
        List.flatMap_cons, applyAll_append]
  rw [replayItems, htable, hfold items h]

/-! ## What cancels keep away -/

def Skipped (a : ℕ) : List Item → Prop
  | [] => True
  | item :: items =>
    (item.cancel = false → Covers item.patches a → ∃ c ∈ items, c.cancel = true ∧ c.key = item.key) ∧
      Skipped a items

theorem skipped_append {as bs : List Item} (has : Skipped a as) (hbs : Skipped a bs) :
    Skipped a (as ++ bs) := by
  induction as with
  | nil => exact hbs
  | cons item as ih =>
    refine ⟨fun hcancel hcov => ?_, ih has.2⟩
    obtain ⟨c, hc, hkey⟩ := has.1 hcancel hcov
    exact ⟨c, List.mem_append_left _ hc, hkey⟩

theorem skipped_of_cancels {as bs : List Item} (hbs : Skipped a bs)
    (h : ∀ item ∈ as, item.cancel = false → Covers item.patches a →
      ∃ c ∈ bs, c.cancel = true ∧ c.key = item.key) : Skipped a (as ++ bs) := by
  induction as with
  | nil => exact hbs
  | cons item as ih =>
    refine ⟨fun hcancel hcov => ?_, ih fun i hi => h i (List.mem_cons_of_mem _ hi)⟩
    obtain ⟨c, hc, hkey⟩ := h item List.mem_cons_self hcancel hcov
    exact ⟨c, List.mem_append_right _ hc, hkey⟩

theorem skipped_of_not_covers
    (h : ∀ item ∈ items, item.cancel = false → ¬Covers item.patches a) : Skipped a items := by
  induction items with
  | nil => trivial
  | cons item items ih =>
    exact ⟨fun hcancel hcov => absurd hcov (h item List.mem_cons_self hcancel),
      ih fun i hi => h i (List.mem_cons_of_mem _ hi)⟩

theorem applyItem_cancelTable {item : Item} (home : ℕ → UInt8)
    (h : Skipped a (item :: items)) :
    ∃ home', applyItem (cancelTable (item :: items), home) item = (cancelTable items, home') ∧
      home' a = home a := by
  unfold applyItem
  by_cases hcancel : item.cancel = true
  · refine ⟨home, ?_, rfl⟩
    rw [if_pos hcancel]
    congr 1
    funext key
    by_cases hkey : key = item.key
    · subst hkey
      simp [cancelTable, hcancel]
    · rw [Function.update_of_ne hkey]
      simp [cancelTable, Ne.symm hkey]
  · have htable : cancelTable (item :: items) = cancelTable items := by
      funext key
      simp [cancelTable, hcancel]
    rw [if_neg hcancel, htable]
    split
    · exact ⟨home, rfl, rfl⟩
    · next hnone =>
      refine ⟨_, rfl, applyAll_of_not_covers fun hcov => hnone ?_⟩
      obtain ⟨c, hc, hcc, hkey⟩ := h.1 (by simpa using hcancel) hcov
      change items.countP _ ≠ 0
      rw [← Nat.pos_iff_ne_zero, List.countP_pos_iff]
      exact ⟨c, hc, by simp [hcc, hkey]⟩

/-- The table a replay carries counts the cancels still to come, so an item that a cancel of its key
follows is not applied. -/
theorem replayItems_of_skipped (h : Skipped a items)
    (home : ℕ → UInt8) : replayItems items home a = home a := by
  unfold replayItems
  induction items generalizing home with
  | nil => rfl
  | cons item items ih =>
    obtain ⟨home', hstep, hsame⟩ := applyItem_cancelTable home h
    rw [List.foldl_cons, hstep, ih h.2, hsame]

end FsXfs.Log
