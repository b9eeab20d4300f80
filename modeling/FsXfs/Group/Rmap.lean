import FsXfs.Basic
import Mathlib.Data.List.TakeWhile
import Mathlib.Data.List.Sort

/-!
# The reverse map

`rmap.rs`: the records that say who owns each run of a group's blocks, and the edits that put one
in, joined to the records it continues, and take one out of the record that holds it.
-/

namespace FsXfs.Group

set_option autoImplicit false

structure Rmap where
  startblock : ℕ
  blockcount : ℕ
  owner : ℤ
  offset : ℕ
  deriving DecidableEq, Repr

namespace Rmap

abbrev ownAg : ℤ := -5
abbrev ownInobt : ℤ := -6
abbrev ownRefc : ℤ := -8

-- `OFF_MASK` is the low 54 bits
abbrev offMask : ℕ := 2 ^ 54

def end_ (r : Rmap) : ℕ :=
  r.startblock + r.blockcount

def Holds (r : Rmap) (b : ℕ) : Prop :=
  r.startblock ≤ b ∧ b < r.end_

instance (r : Rmap) (b : ℕ) : Decidable (r.Holds b) :=
  inferInstanceAs (Decidable (_ ∧ _))

def Names (r : Rmap) (owner : ℤ) (b : ℕ) : Prop :=
  r.owner = owner ∧ r.Holds b

def fileOffset (r : Rmap) : ℕ :=
  r.offset % offMask

def flags (r : Rmap) : ℕ :=
  r.offset / offMask * offMask

def isReservedOwner (r : Rmap) : Bool :=
  decide (r.owner < 0)

-- `OFF_BMBT_BLOCK`
def isBmbtBlock (r : Rmap) : Bool :=
  r.offset.testBit 62

def continuesInto (r other : Rmap) : Bool :=
  decide (r.owner = other.owner) && decide (r.flags = other.flags) &&
    decide (r.end_ = other.startblock) &&
    (r.isReservedOwner || decide (r.fileOffset + r.blockcount = other.fileOffset))

def keyOrder (r : Rmap) : ℕ × ℕ × ℕ :=
  (r.startblock, (r.owner % 2 ^ 64).toNat, if r.offset.testBit 61 then r.offset - 2 ^ 61 else r.offset)

def keyLe (a b : Rmap) : Bool :=
  let (s, o, f) := a.keyOrder
  let (s', o', f') := b.keyOrder
  decide (s < s') || (decide (s = s') && (decide (o < o') || (decide (o = o') && decide (f ≤ f'))))

end Rmap

open Rmap

def checkedCount (what : String) (count : ℕ) : Except Error ℕ := do
  ensure (count < 2 ^ 32) (.unsupportedFeature s!"merging {what} would overflow the block count")
  pure count

def twoRecords : String := "reverse-mapping records"
def threeRecords : String := "three reverse-mapping records"

/-! ## The edits -/

def endsBefore (before record : Rmap) : Except Error Unit :=
  ensure (before.end_ ≤ record.startblock)
    (.unsupportedFeature s!"an extent at group block {record.startblock} overlaps the reverse-mapping record for {before.startblock}..{before.end_} owned by {before.owner}")

def rmapInsert (records : List Rmap) (record : Rmap) : Except Error (List Rmap) := do
  let front := records.takeWhile fun r => decide (r.startblock ≤ record.startblock)
  let back := records.dropWhile fun r => decide (r.startblock ≤ record.startblock)
  front.getLast?.elim (pure ()) fun before => endsBefore before record
  match front.getLast?.filter fun before => before.continuesInto record,
      back.head?.filter fun after => record.continuesInto after with
  | some before, some after => do
    let count ← checkedCount threeRecords (before.blockcount + record.blockcount + after.blockcount)
    pure (front.dropLast ++ { before with blockcount := count } :: back.tail)
  | some before, none => do
    let count ← checkedCount twoRecords (before.blockcount + record.blockcount)
    pure (front.dropLast ++ { before with blockcount := count } :: back)
  | none, some after => do
    let count ← checkedCount twoRecords (after.blockcount + record.blockcount)
    pure (front ++
      { after with blockcount := count, startblock := record.startblock, offset := record.offset } ::
        back.tail)
  | none, none => pure (front ++ record :: back)

def rmapHolds (record r : Rmap) : Bool :=
  decide (r.owner = record.owner) && decide (r.flags = record.flags) &&
    decide (r.startblock ≤ record.startblock) && decide (record.end_ ≤ r.end_)

def linesUp (record r : Rmap) : Bool :=
  r.isReservedOwner || r.isBmbtBlock ||
    decide (r.fileOffset + (record.startblock - r.startblock) = record.fileOffset)

def rmapBefore (whole record : Rmap) : List Rmap :=
  if whole.startblock < record.startblock then
    [{ whole with blockcount := record.startblock - whole.startblock }]
  else []

def rmapAfter (whole record : Rmap) : List Rmap :=
  if record.end_ < whole.end_ then
    [⟨record.end_, whole.end_ - record.end_, whole.owner,
      if whole.isReservedOwner || whole.isBmbtBlock then whole.offset
      else (whole.fileOffset + (record.end_ - whole.startblock)) ||| whole.flags⟩]
  else []

def rmapRemove (records : List Rmap) (record : Rmap) : Except Error (List Rmap) := do
  let at_ ← orElse
    ((records.findIdx? fun r => rmapHolds record r && linesUp record r).or
      (records.findIdx? (rmapHolds record)))
    (.unsupportedFeature s!"freeing {record.blockcount} blocks at group block {record.startblock} owned by {record.owner} but no reverse-mapping record of that owner holds them; the tree and the inode disagree about what this extent is")
  let whole ← orElse records[at_]? (.panicked s!"record {at_} of {records.length}")
  pure ((records.take at_ ++ (rmapBefore whole record ++ rmapAfter whole record) ++
    records.drop (at_ + 1)).insertionSort fun a b => keyLe a b)

def rmapMetadata (r : Rmap) : Bool :=
  r.isReservedOwner || r.isBmbtBlock

def rmapClashes (record r : Rmap) : Bool :=
  decide (r.startblock < record.end_) && decide (record.startblock < r.end_) &&
    (rmapMetadata r || rmapMetadata record ||
      (decide (r.owner = record.owner) && decide (r.flags = record.flags) &&
        decide (r.fileOffset + record.startblock = record.fileOffset + r.startblock)))

def joinFirst (records : List Rmap) (record : Rmap) (test : Rmap → Bool) (join : Rmap → ℕ → Rmap) :
    Except Error (List Rmap × Rmap) :=
  match records.find? test with
  | none => .ok (records, record)
  | some r => do
    let count ← checkedCount twoRecords (r.blockcount + record.blockcount)
    pure (records.eraseP test, join r count)

def rmapInsertShared (records : List Rmap) (record : Rmap) : Except Error (List Rmap) := do
  (records.find? (rmapClashes record)).elim (pure ()) fun clash => .error
    (.unsupportedFeature s!"an extent at group block {record.startblock} overlaps the reverse-mapping record for {clash.startblock}..{clash.end_} owned by {clash.owner}, which no shared mapping can")
  let (records, record) ← joinFirst records record (fun r => r.continuesInto record)
    fun before count => { before with blockcount := count }
  let (records, record) ← joinFirst records record (fun r => record.continuesInto r)
    fun _ count => { record with blockcount := count }
  -- the records are in key order, so `partition_point` is where the keys below this one end
  pure (records.takeWhile (fun r => !keyLe record r) ++ record ::
    records.dropWhile (fun r => !keyLe record r))

/-! ## Who a block is recorded for -/

def Recorded (records : List Rmap) (owner : ℤ) (b : ℕ) : Prop :=
  ∃ r ∈ records, r.Names owner b

section

variable {records records' front back : List Rmap} {record r : Rmap} {owner : ℤ} {b : ℕ}

theorem recorded_append {a c : List Rmap} :
    Recorded (a ++ c) owner b ↔ Recorded a owner b ∨ Recorded c owner b := by
  simp only [Recorded, List.mem_append, or_and_right, exists_or]

theorem recorded_cons :
    Recorded (r :: records) owner b ↔ r.Names owner b ∨ Recorded records owner b := by
  simp [Recorded]

@[simp] theorem not_recorded_nil : ¬Recorded [] owner b := by
  simp [Recorded]

theorem recorded_perm (h : records.Perm records') :
    Recorded records owner b ↔ Recorded records' owner b := by
  simp only [Recorded, h.mem_iff]

theorem continuesInto_iff {other : Rmap} : r.continuesInto other = true ↔
    r.owner = other.owner ∧ r.flags = other.flags ∧ r.end_ = other.startblock ∧
      (r.isReservedOwner = true ∨ r.fileOffset + r.blockcount = other.fileOffset) := by
  simp [continuesInto, and_assoc]

end

/-! ## What a record is joined to -/

def rmapNearest (records : List Rmap) (record : Rmap) : Option Rmap :=
  (records.takeWhile fun r => decide (r.startblock ≤ record.startblock)).getLast?

def rmapFollowing (records : List Rmap) (record : Rmap) : Option Rmap :=
  (records.dropWhile fun r => decide (r.startblock ≤ record.startblock)).head?

/-- A record with the one it continues and the one that continues it. -/
def Rmap.joined (record : Rmap) (pre post : Option Rmap) : Rmap :=
  { pre.getD record with
    blockcount := pre.elim 0 Rmap.blockcount + record.blockcount + post.elim 0 Rmap.blockcount }

structure Joins (records : List Rmap) (record : Rmap) (pre post : Option Rmap)
    (records' : List Rmap) : Prop where
  pre_continues : ∀ r ∈ pre, r.continuesInto record = true
  post_continues : ∀ r ∈ post, record.continuesInto r = true
  perm : ∃ rest, records.Perm (pre.toList ++ (post.toList ++ rest)) ∧
    records'.Perm (record.joined pre post :: rest)

section

variable {records records' : List Rmap} {record r : Rmap} {pre post : Option Rmap}

def Behind (records : List Rmap) (record : Rmap) : Prop :=
  ∃ r ∈ rmapNearest records record, record.startblock < r.end_

def rmapPre (records : List Rmap) (record : Rmap) : Option Rmap :=
  (rmapNearest records record).filter fun r => r.continuesInto record

def rmapPost (records : List Rmap) (record : Rmap) : Option Rmap :=
  (rmapFollowing records record).filter fun r => record.continuesInto r

def Overflows (records : List Rmap) (record : Rmap) : Prop :=
  (rmapPre records record ≠ none ∨ rmapPost records record ≠ none) ∧
    2 ^ 32 ≤ (record.joined (rmapPre records record) (rmapPost records record)).blockcount

theorem checkedCount_eq_ok {what : String} {n count : ℕ} :
    checkedCount what n = .ok count ↔ n < 2 ^ 32 ∧ n = count := by
  simp only [checkedCount, bind_eq_ok, ensure_eq_ok, pure, Except.pure, Except.ok.injEq,
    exists_const]

theorem nearest_checked {u : Unit} :
    ((records.takeWhile fun r => decide (r.startblock ≤ record.startblock)).getLast?.elim (pure ())
      fun before => endsBefore before record) = .ok u ↔ ¬Behind records record := by
  change (rmapNearest records record).elim _ _ = _ ↔ _
  unfold Behind
  cases rmapNearest records record with
  | none => simp [pure, Except.pure]
  | some before => simp [endsBefore]

theorem rmapInsert_eq_ok : rmapInsert records record = .ok records' ↔
    ¬Behind records record ∧ ¬Overflows records record ∧
      ((rmapPre records record).elim id (fun _ => List.dropLast)
          (records.takeWhile fun r => decide (r.startblock ≤ record.startblock)) ++
        record.joined (rmapPre records record) (rmapPost records record) ::
          (rmapPost records record).elim id (fun _ => List.tail)
            (records.dropWhile fun r => decide (r.startblock ≤ record.startblock))) = records' := by
  unfold rmapInsert Overflows rmapPre rmapPost rmapNearest rmapFollowing
  simp only [bind_eq_ok, nearest_checked, exists_const]
  refine and_congr_right fun _ => ?_
  set front := records.takeWhile fun r => decide (r.startblock ≤ record.startblock)
  set back := records.dropWhile fun r => decide (r.startblock ≤ record.startblock)
  cases hpre : front.getLast?.filter fun before => before.continuesInto record with
  | none =>
    cases hpost : back.head?.filter fun after => record.continuesInto after with
    | none => simp [pure, Except.pure, joined]
    | some after =>
      have hjoin := (Option.filter_eq_some_iff.mp hpost).2
      simp [checkedCount_eq_ok, joined, (continuesInto_iff.mp hjoin).1, pure, Except.pure, Nat.add_comm]
  | some before =>
    cases hpost : back.head?.filter fun after => record.continuesInto after with
    | none => simp [checkedCount_eq_ok, joined, pure, Except.pure]
    | some after => simp [checkedCount_eq_ok, joined, pure, Except.pure]

theorem perm_getLast?_filter (l : List Rmap) (t : Rmap → Bool) : l.Perm
    ((l.getLast?.filter t).toList ++ (l.getLast?.filter t).elim id (fun _ => List.dropLast) l) := by
  cases h : l.getLast?.filter t with
  | none => rfl
  | some r =>
    have hlast := List.dropLast_append_getLast? r (Option.filter_eq_some_iff.mp h).1
    exact (List.Perm.of_eq hlast.symm).trans (List.perm_append_singleton r _)

theorem perm_head?_filter (l : List Rmap) (t : Rmap → Bool) : l.Perm
    ((l.head?.filter t).toList ++ (l.head?.filter t).elim id (fun _ => List.tail) l) := by
  cases h : l.head?.filter t with
  | none => rfl
  | some r =>
    obtain ⟨rest, rfl⟩ := List.head?_eq_some_iff.mp (Option.filter_eq_some_iff.mp h).1
    rfl

theorem rmapInsert_joins (h : rmapInsert records record = .ok records') :
    Joins records record (rmapPre records record) (rmapPost records record) records' where
  pre_continues r hr := (Option.filter_eq_some_iff.mp hr).2
  post_continues r hr := (Option.filter_eq_some_iff.mp hr).2
  perm := by
    obtain ⟨-, -, rfl⟩ := rmapInsert_eq_ok.mp h
    refine ⟨_, ?_, List.perm_middle⟩
    have hfront := perm_getLast?_filter (records.takeWhile fun r =>
      decide (r.startblock ≤ record.startblock)) fun r => r.continuesInto record
    have hback := perm_head?_filter (records.dropWhile fun r =>
      decide (r.startblock ≤ record.startblock)) fun r => record.continuesInto r
    have hsplit := hfront.append hback
    rw [List.takeWhile_append_dropWhile, List.append_assoc] at hsplit
    exact hsplit.trans ((List.perm_append_comm_assoc _ _ _).append_left _)

theorem joinFirst_spec {record' : Rmap} {test : Rmap → Bool} {join : Rmap → ℕ → Rmap}
    (h : joinFirst records record test join = .ok (records', record')) :
    records.Perm ((records.find? test).toList ++ records') ∧
      record' = (records.find? test).elim record fun r =>
        join r (r.blockcount + record.blockcount) := by
  unfold joinFirst at h
  cases hfind : records.find? test with
  | none =>
    rw [hfind] at h
    cases h
    exact ⟨.refl _, rfl⟩
  | some r =>
    rw [hfind] at h
    obtain ⟨count, hcount, h⟩ := bind_eq_ok.mp h
    cases h
    obtain ⟨htest, front, back, rfl, hfront⟩ := List.find?_eq_some_iff_append.mp hfind
    have herase : (front ++ r :: back).eraseP test = front ++ back := by
      rw [List.eraseP_append_right _ (by simpa using hfront), List.eraseP_cons_of_pos htest]
    rw [herase]
    exact ⟨List.perm_middle, congrArg (join r) (checkedCount_eq_ok.mp hcount).2.symm⟩

/-- Two records that end at the same block, at the same offset of the same owner. -/
structure EndsAs (a b : Rmap) : Prop where
  owner : a.owner = b.owner
  flags : a.flags = b.flags
  end_ : a.end_ = b.end_
  file : a.isReservedOwner = true ∨ a.fileOffset + a.blockcount = b.fileOffset + b.blockcount

theorem isReservedOwner_congr {a b : Rmap} (h : a.owner = b.owner) :
    a.isReservedOwner = b.isReservedOwner := by
  rw [isReservedOwner, h, isReservedOwner]

theorem EndsAs.continuesInto {a b : Rmap} (h : EndsAs a b) : a.continuesInto r = b.continuesInto r := by
  rw [Bool.eq_iff_iff, continuesInto_iff, continuesInto_iff, h.owner, h.flags, h.end_,
    isReservedOwner_congr h.owner]
  have hfile := h.file
  rw [isReservedOwner_congr h.owner] at hfile
  rcases hfile with hfile | hfile
  · simp [hfile]
  · rw [hfile]

theorem endsAs_add {a b : Rmap} (h : a.continuesInto b = true) :
    EndsAs { a with blockcount := a.blockcount + b.blockcount } b := by
  obtain ⟨howner, hflags, hmeet, hfile⟩ := continuesInto_iff.mp h
  refine ⟨howner, hflags, ?_, hfile.imp id fun hfile => ?_⟩
  · simp only [Rmap.end_] at hmeet ⊢
    omega
  · change a.fileOffset + (a.blockcount + b.blockcount) = _
    omega

@[simp] theorem joined_none_none (record : Rmap) : record.joined none none = record := by
  simp [joined]

theorem joined_endsAs (hpre : ∀ r ∈ pre, r.continuesInto record = true)
    (hpost : ∀ r ∈ post, record.continuesInto r = true) :
    EndsAs (record.joined pre post) (post.getD record) := by
  have hfirst : EndsAs (record.joined pre none) record := by
    cases pre with
    | none =>
      rw [joined_none_none]
      exact ⟨rfl, rfl, rfl, .inr rfl⟩
    | some before => exact endsAs_add (hpre before rfl)
  cases post with
  | none => exact hfirst
  | some after => exact endsAs_add (hfirst.continuesInto.trans (hpost after rfl))

theorem rmapInsertShared_joins (h : rmapInsertShared records record = .ok records') :
    ∃ pre post, Joins records record pre post records' ∧
      (pre = none → ∀ r ∈ records, r.continuesInto record = false) ∧
      (post = none → ∀ r ∈ records, record.continuesInto r = true → r ∈ pre) := by
  obtain ⟨-, -, h⟩ := bind_eq_ok.mp h
  obtain ⟨⟨records₁, record₁⟩, h₁, h⟩ := bind_eq_ok.mp h
  obtain ⟨⟨records₂, record₂⟩, h₂, h⟩ := bind_eq_ok.mp h
  obtain ⟨hperm₁, hrecord₁⟩ := joinFirst_spec h₁
  obtain ⟨hperm₂, hrecord₂⟩ := joinFirst_spec h₂
  set pre := records.find? fun r : Rmap => r.continuesInto record with hpre
  have hjoins : ∀ r ∈ pre, r.continuesInto record = true := fun r hr =>
    List.find?_some (p := fun r : Rmap => r.continuesInto record) hr
  have hone : record₁ = record.joined pre none := by
    rw [hrecord₁]
    cases pre with
    | none => exact (joined_none_none record).symm
    | some before => rfl
  set post := records₁.find? fun r => record₁.continuesInto r with hpost
  have hends : EndsAs (record.joined pre none) record := joined_endsAs hjoins nofun
  have hsame : ∀ r, record₁.continuesInto r = record.continuesInto r := fun r => by
    rw [hone, hends.continuesInto]
  have hboth : record₂ = record.joined pre post := by
    rw [hrecord₂]
    cases post with
    | none => exact hone
    | some after =>
      rw [hone]
      simp only [Option.elim, joined, Rmap.mk.injEq, and_self, and_true, true_and]
      omega
  refine ⟨pre, post, ⟨hjoins, fun r hr => hsame r ▸
    List.find?_some (p := fun r : Rmap => record₁.continuesInto r) hr, records₂,
    hperm₁.trans (hperm₂.append_left _), ?_⟩, fun hnone r hr => ?_, fun hnone r hr hnext => ?_⟩
  · rw [← Except.ok.inj h, ← hboth]
    refine List.perm_middle.trans (.of_eq ?_)
    rw [List.takeWhile_append_dropWhile]
  · simpa using List.find?_eq_none.mp (hpre.symm.trans hnone) r hr
  · rcases List.mem_append.mp (hperm₁.mem_iff.mp hr) with hr | hr
    · exact Option.mem_toList.mp hr
    · exact absurd ((hsame r).trans hnext) (List.find?_eq_none.mp (hpost.symm.trans hnone) r hr)

end

/-! ## What an edit records -/

section

variable {records records' : List Rmap} {record r : Rmap} {pre post : Option Rmap} {owner : ℤ} {b : ℕ}

theorem names_joined (hpre : ∀ r ∈ pre, r.continuesInto record = true)
    (hpost : ∀ r ∈ post, record.continuesInto r = true) :
    (record.joined pre post).Names owner b ↔ Recorded pre.toList owner b ∨
      record.Names owner b ∨ Recorded post.toList owner b := by
  have hbefore : ∀ r ∈ pre, r.owner = record.owner ∧ r.end_ = record.startblock := fun r hr => by
    obtain ⟨howner, -, hmeet, -⟩ := continuesInto_iff.mp (hpre r hr)
    exact ⟨howner, hmeet⟩
  have hafter : ∀ r ∈ post, record.owner = r.owner ∧ record.end_ = r.startblock := fun r hr => by
    obtain ⟨howner, -, hmeet, -⟩ := continuesInto_iff.mp (hpost r hr)
    exact ⟨howner, hmeet⟩
  cases pre with
  | none =>
    cases post with
    | none => simp
    | some after =>
      simp [Recorded, Names, Holds, Rmap.end_, joined] at hafter ⊢
      omega
  | some before =>
    cases post with
    | none =>
      simp [Recorded, Names, Holds, Rmap.end_, joined] at hbefore ⊢
      omega
    | some after =>
      simp [Recorded, Names, Holds, Rmap.end_, joined] at hbefore hafter ⊢
      omega

theorem Joins.recorded (h : Joins records record pre post records') :
    Recorded records' owner b ↔ Recorded records owner b ∨ record.Names owner b := by
  obtain ⟨rest, hbefore, hafter⟩ := h.perm
  rw [recorded_perm hafter, recorded_cons, names_joined h.pre_continues h.post_continues,
    recorded_perm hbefore, recorded_append, recorded_append]
  tauto

theorem recorded_insert (h : rmapInsert records record = .ok records') :
    Recorded records' owner b ↔ Recorded records owner b ∨ record.Names owner b :=
  (rmapInsert_joins h).recorded

theorem rmapHolds_spec (h : rmapHolds record r = true) :
    r.owner = record.owner ∧ r.startblock ≤ record.startblock ∧ record.end_ ≤ r.end_ := by
  simp only [rmapHolds, Bool.and_eq_true, decide_eq_true_eq] at h
  exact ⟨h.1.1.1, h.1.2, h.2⟩

theorem rmapRemove_spec (h : rmapRemove records record = .ok records') :
    ∃ front whole back, records = front ++ whole :: back ∧ rmapHolds record whole = true ∧
      records'.Perm (front ++ (rmapBefore whole record ++ rmapAfter whole record) ++ back) := by
  unfold rmapRemove at h
  simp only [bind_eq_ok, orElse_eq_ok, pure, Except.pure, Except.ok.injEq] at h
  obtain ⟨at_, hat, whole, hwhole, rfl⟩ := h
  obtain ⟨hlt, hget⟩ := List.getElem?_eq_some_iff.mp hwhole
  have hholds : rmapHolds record whole = true := by
    rw [← hget]
    rcases Option.or_eq_some_iff.mp hat with hat | ⟨-, hat⟩
    · obtain ⟨_, hp, -⟩ := List.findIdx?_eq_some_iff_getElem.mp hat
      exact (Bool.and_eq_true _ _ ▸ hp).1
    · obtain ⟨_, hp, -⟩ := List.findIdx?_eq_some_iff_getElem.mp hat
      exact hp
  refine ⟨records.take at_, whole, records.drop (at_ + 1), ?_, hholds, List.perm_insertionSort _ _⟩
  rw [← hget, List.cons_getElem_drop_succ, List.take_append_drop]

theorem recorded_pieces (owner : ℤ) (b : ℕ) {whole : Rmap} (h : rmapHolds record whole = true) :
    (Recorded (rmapBefore whole record ++ rmapAfter whole record) owner b → whole.Names owner b) ∧
      (whole.Names owner b → ¬record.Names owner b →
        Recorded (rmapBefore whole record ++ rmapAfter whole record) owner b) := by
  obtain ⟨howner, hstart, hend⟩ := rmapHolds_spec h
  have hbefore : Recorded (rmapBefore whole record) owner b ↔
      whole.owner = owner ∧ whole.startblock ≤ b ∧ b < record.startblock := by
    unfold rmapBefore
    split
    · rw [recorded_cons, or_iff_left not_recorded_nil]
      simp only [Names, Holds, end_]
      omega
    · rw [iff_false_intro not_recorded_nil, false_iff]
      omega
  have hafter : Recorded (rmapAfter whole record) owner b ↔
      whole.owner = owner ∧ record.end_ ≤ b ∧ b < whole.end_ := by
    unfold rmapAfter
    split
    · rw [recorded_cons, or_iff_left not_recorded_nil]
      simp only [Names, Holds, end_] at *
      omega
    · rw [iff_false_intro not_recorded_nil, false_iff]
      omega
  rw [recorded_append, hbefore, hafter]
  simp only [Names, Holds]
  rw [← howner]
  have hrecord : record.end_ = record.startblock + record.blockcount := rfl
  constructor
  · rintro (⟨ho, hlo, hhi⟩ | ⟨ho, hlo, hhi⟩)
    · exact ⟨ho, by omega, by omega⟩
    · exact ⟨ho, by omega, by omega⟩
  · rintro ⟨ho, hlo, hhi⟩ hnot
    by_cases hlt : b < record.startblock
    · exact .inl ⟨ho, hlo, hlt⟩
    · exact .inr ⟨ho, by by_contra hin; exact hnot ⟨ho, by omega, by omega⟩, hhi⟩

theorem recorded_remove (h : rmapRemove records record = .ok records') :
    (Recorded records' owner b → Recorded records owner b) ∧
      (Recorded records owner b → ¬record.Names owner b → Recorded records' owner b) := by
  obtain ⟨front, whole, back, rfl, hholds, hperm⟩ := rmapRemove_spec h
  obtain ⟨hof, hto⟩ := recorded_pieces owner b hholds
  generalize rmapBefore whole record ++ rmapAfter whole record = pieces at hof hto hperm
  rw [recorded_perm hperm, recorded_append, recorded_append, recorded_append, recorded_cons]
  tauto

end

/-! ## What `insert` refuses -/

section

variable {records : List Rmap} {record : Rmap}

def Covered (records : List Rmap) (record : Rmap) : Prop :=
  ∃ r ∈ records, ∃ b, r.Holds b ∧ record.Holds b

/-- The last record to start no later than the new one reaches past its start. -/
def LastReaches (records : List Rmap) (record : Rmap) : Prop :=
  ∃ front r back, records = front ++ r :: back ∧ r.Holds record.startblock ∧
    ∀ q ∈ back, record.startblock < q.startblock

def StartsInside (records : List Rmap) (record : Rmap) : Prop :=
  ∃ r ∈ records, record.startblock < r.startblock ∧ r.startblock < record.end_ ∧ r.blockcount ≠ 0

/-- What `insert` would have to see is in the one record it compares: either that one reaches past
the new one's start, or neither it nor one further back does and none starts inside. -/
structure SeesOverlap (records : List Rmap) (record : Rmap) : Prop where
  some_block : LastReaches records record → record.blockcount ≠ 0
  nothing_else : ¬LastReaches records record → record.blockcount ≠ 0 →
    ¬StartsInside records record ∧ ∀ r ∈ records, ¬r.Holds record.startblock

theorem covered_iff : Covered records record ↔ record.blockcount ≠ 0 ∧
    (StartsInside records record ∨ ∃ r ∈ records, r.Holds record.startblock) := by
  constructor
  · rintro ⟨r, hr, b, ⟨hlo, hhi⟩, hblo, hbhi⟩
    have hend : r.end_ = r.startblock + r.blockcount := rfl
    have hend' : record.end_ = record.startblock + record.blockcount := rfl
    refine ⟨by omega, ?_⟩
    by_cases hstart : record.startblock < r.startblock
    · exact .inl ⟨r, hr, hstart, by omega, by omega⟩
    · exact .inr ⟨r, hr, by omega, by omega⟩
  · have hend' : record.end_ = record.startblock + record.blockcount := rfl
    rintro ⟨hpos, ⟨r, hr, hlo, hhi, hcount⟩ | ⟨r, hr, hholds⟩⟩
    · exact ⟨r, hr, r.startblock, ⟨le_rfl, Nat.lt_add_of_pos_right (by omega)⟩, hlo.le, hhi⟩
    · exact ⟨r, hr, record.startblock, hholds, le_rfl, by omega⟩

theorem lt_of_mem_dropWhile {r : Rmap} {b : ℕ}
    (hsorted : records.Pairwise fun a b => a.startblock ≤ b.startblock)
    (hr : r ∈ records.dropWhile fun r => decide (r.startblock ≤ b)) : b < r.startblock := by
  set starts := fun r : Rmap => decide (r.startblock ≤ b) with hstarts
  have hback := hsorted.sublist (List.dropWhile_sublist starts)
  have hnot := List.head?_dropWhile_not starts records
  cases hdrop : records.dropWhile starts with
  | nil =>
    rw [hdrop] at hr
    cases hr
  | cons first rest =>
    rw [hdrop] at hnot hr hback
    have hfirst : b < first.startblock := by simpa [hstarts] using hnot
    rcases List.mem_cons.mp hr with rfl | hr
    · exact hfirst
    · exact hfirst.trans_le (List.rel_of_pairwise_cons hback hr)

theorem behind_iff (hsorted : records.Pairwise fun a b => a.startblock ≤ b.startblock) :
    Behind records record ↔ LastReaches records record := by
  set starts := fun r : Rmap => decide (r.startblock ≤ record.startblock) with hstarts
  constructor
  · rintro ⟨r, hr, hlt⟩
    have hfront : (records.takeWhile starts).dropLast ++ [r] = records.takeWhile starts :=
      List.dropLast_append_getLast? r hr
    have hstart : r.startblock ≤ record.startblock := by
      simpa [hstarts] using List.mem_takeWhile_imp (List.mem_of_getLast? hr)
    refine ⟨(records.takeWhile starts).dropLast, r, records.dropWhile starts, ?_, ⟨hstart, hlt⟩,
      fun q hq => ?_⟩
    · rw [List.append_cons, hfront, List.takeWhile_append_dropWhile]
    · exact lt_of_mem_dropWhile hsorted hq
  · rintro ⟨front, r, back, rfl, ⟨hlo, hhi⟩, hback⟩
    have hfront : ∀ q ∈ front ++ [r], starts q = true := by
      intro q hq
      rcases List.mem_append.mp hq with hq | hq
      · have := (List.pairwise_append.mp hsorted).2.2 q hq r List.mem_cons_self
        exact decide_eq_true (this.trans hlo)
      · rw [List.mem_singleton.mp hq]
        exact decide_eq_true hlo
    have hnone : back.takeWhile starts = [] := by
      cases back with
      | nil => rfl
      | cons q rest =>
        rw [List.takeWhile_cons_of_neg]
        simpa [hstarts] using hback q List.mem_cons_self
    refine ⟨r, ?_, hhi⟩
    rw [rmapNearest, List.append_cons, List.takeWhile_append_of_pos hfront, hnone, List.append_nil,
      List.getLast?_concat]
    rfl

theorem not_overflows (hends : ∀ r ∈ record :: records, r.end_ < 2 ^ 32) :
    ¬Overflows records record := by
  rintro ⟨-, hover⟩
  have hrecord : record.startblock + record.blockcount < 2 ^ 32 := hends _ List.mem_cons_self
  have hpre : ∀ r ∈ rmapPre records record, r.startblock + r.blockcount = record.startblock := by
    intro r hr
    exact (continuesInto_iff.mp (Option.filter_eq_some_iff.mp hr).2).2.2.1
  have hpost : ∀ r ∈ rmapPost records record, record.startblock + record.blockcount = r.startblock ∧
      r.startblock + r.blockcount < 2 ^ 32 := by
    intro r hr
    obtain ⟨hmem, hjoin⟩ := Option.filter_eq_some_iff.mp hr
    exact ⟨(continuesInto_iff.mp hjoin).2.2.1, hends r (List.mem_cons_of_mem _
      ((List.dropWhile_sublist _).subset (List.mem_of_head? hmem)))⟩
  cases hp : rmapPre records record <;> cases hq : rmapPost records record <;>
    simp_all [joined] <;> omega

theorem insert_refuses_iff (hsorted : records.Pairwise fun a b => a.startblock ≤ b.startblock)
    (hends : ∀ r ∈ record :: records, r.end_ < 2 ^ 32) :
    ((∀ records', rmapInsert records record ≠ .ok records') ↔ Covered records record) ↔
      SeesOverlap records record := by
  have hrefused : (∀ records', rmapInsert records record ≠ .ok records') ↔
      LastReaches records record := by
    simp only [ne_eq, rmapInsert_eq_ok, behind_iff hsorted, not_overflows hends, not_false_eq_true,
      true_and, not_and]
    exact ⟨fun h => by_contra fun hnot => h _ hnot rfl, fun h _ hnot => absurd h hnot⟩
  rw [hrefused, covered_iff]
  constructor
  · intro h
    refine ⟨fun hlast => (h.mp hlast).1, fun hnot hpos => ⟨fun hin => hnot (h.mpr ⟨hpos, .inl hin⟩), ?_⟩⟩
    exact fun r hr hholds => hnot (h.mpr ⟨hpos, .inr ⟨r, hr, hholds⟩⟩)
  · intro h
    constructor
    · intro hlast
      obtain ⟨front, r, back, rfl, hholds, -⟩ := id hlast
      exact ⟨h.some_block hlast, .inr ⟨r, by simp, hholds⟩⟩
    · rintro ⟨hpos, hin⟩
      by_contra hnot
      obtain ⟨hinside, hback⟩ := h.nothing_else hnot hpos
      rcases hin with hin | ⟨r, hr, hholds⟩
      · exact hinside hin
      · exact hback r hr hholds

/-- Next to a record it is joined to. -/
theorem insert_between : SeesOverlap [⟨10, 4, 131, 0⟩, ⟨20, 2, 132, 7⟩] ⟨16, 4, 132, 3⟩ := by
  refine (insert_refuses_iff (by decide) (by decide)).mp (iff_of_false (fun h => h _ rfl) ?_)
  rw [covered_iff, StartsInside]
  decide

theorem insert_over_following :
    rmapInsert [⟨10, 4, 131, 0⟩] ⟨8, 5, 132, 0⟩ = .ok [⟨8, 5, 132, 0⟩, ⟨10, 4, 131, 0⟩] ∧
      Covered [⟨10, 4, 131, 0⟩] ⟨8, 5, 132, 0⟩ :=
  ⟨rfl, _, List.mem_cons_self, 10, by decide⟩

end

end FsXfs.Group
