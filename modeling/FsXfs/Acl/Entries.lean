import FsXfs.Basic
import Mathlib.Data.List.Sort
import Mathlib.Tactic.IntervalCases

/-!
# The entries of an ACL

`acl.rs` up to the file system's own operations: what a valid ACL is, its stored bytes, and the
permission bits that stand for its owner, group-class and other entries.
-/

namespace FsXfs.Acl

open Bytes

set_option autoImplicit false

/-! ## Entries -/

structure AclEntry where
  tag : UInt32
  id : UInt32
  perm : UInt16
  deriving DecidableEq, Repr

namespace Tag

def userObj : UInt32 := 0x01
def user : UInt32 := 0x02
def groupObj : UInt32 := 0x04
def group : UInt32 := 0x08
def mask : UInt32 := 0x10
def other : UInt32 := 0x20

def names (tag : UInt32) : Bool :=
  tag == user || tag == group

def known (tag : UInt32) : Bool :=
  tag == userObj || tag == user || tag == groupObj || tag == group || tag == mask || tag == other

end Tag

def xfsAttrValueMax : ℕ := 65536
def xfsAclHdrSize : ℕ := 4
def xfsAclEntrySize : ℕ := 12

def xfsAclMaxEntries (v5 : Bool) : ℕ :=
  if v5 then (xfsAttrValueMax - xfsAclHdrSize) / xfsAclEntrySize else 25

/-! ## What a valid ACL is -/

def AclEntry.plain (e : AclEntry) : AclEntry :=
  { e with id := if Tag.names e.tag then e.id else 0 }

def AclEntry.key (e : AclEntry) : ℕ :=
  e.tag.toNat * 2 ^ 32 + e.id.toNat

def count (t : UInt32) (entries : List AclEntry) : ℕ :=
  entries.countP fun e => e.tag == t

def namedTwice : List AclEntry → Bool
  | a :: b :: rest => (a.tag == b.tag && a.id == b.id) || namedTwice (b :: rest)
  | _ => false

def bad (why : String) : Error :=
  .unsupportedFeature s!"not a valid POSIX ACL: {why}"

def ensureOne (sorted : List AclEntry) (t : UInt32) (what : String) : Except Error Unit :=
  ensure (count t sorted = 1) (bad s!"{count t sorted} {what} entries, not one")

def checkEntry (e : AclEntry) : Except Error Unit := do
  ensure (Tag.known e.tag = true) (bad s!"the tag {e.tag}")
  ensure (e.perm ≤ 7) (bad s!"permissions {e.perm}")

def sortedPlain (entries : List AclEntry) : List AclEntry :=
  (entries.map AclEntry.plain).insertionSort fun a b => a.key ≤ b.key

def valid (entries : List AclEntry) (v5 : Bool) : Except Error (List AclEntry) := do
  let sorted := sortedPlain entries
  ensureOne sorted Tag.userObj "owner"
  ensureOne sorted Tag.groupObj "owning group"
  ensureOne sorted Tag.other "other"
  ensure (count Tag.mask sorted ≤ 1) (bad "more than one mask")
  ensure (0 < count Tag.user sorted + count Tag.group sorted → count Tag.mask sorted ≠ 0)
    (bad "named entries without a mask")
  sorted.forM checkEntry
  ensure (namedTwice sorted = false) (bad "a user or group named twice")
  ensure (sorted.length ≤ xfsAclMaxEntries v5) (bad s!"{sorted.length} entries")
  pure sorted

/-- What `valid` asks of the entries, in whatever order they are. -/
structure Legal (entries : List AclEntry) (v5 : Bool) : Prop where
  owner : count Tag.userObj entries = 1
  group : count Tag.groupObj entries = 1
  other : count Tag.other entries = 1
  oneMask : count Tag.mask entries ≤ 1
  masked : 0 < count Tag.user entries + count Tag.group entries → count Tag.mask entries ≠ 0
  checked : ∀ e ∈ entries, Tag.known e.tag = true ∧ e.perm ≤ 7
  distinct : (entries.map fun e => e.plain.key).Nodup
  fits : entries.length ≤ xfsAclMaxEntries v5

theorem key_eq_iff {a b : AclEntry} : a.key = b.key ↔ a.tag = b.tag ∧ a.id = b.id := by
  have ha := a.id.toNat_lt
  have hb := b.id.toNat_lt
  rw [← UInt32.toNat_inj, ← UInt32.toNat_inj]
  unfold AclEntry.key
  omega

variable {entries : List AclEntry} {v5 : Bool}

theorem namedTwice_eq_false_iff
    (h : entries.Pairwise fun a b => a.key ≤ b.key) :
    namedTwice entries = false ↔ (entries.map AclEntry.key).Nodup := by
  induction entries with
  | nil => simp [namedTwice]
  | cons a rest ih =>
    cases rest with
    | nil => simp [namedTwice]
    | cons b rest =>
      obtain ⟨hfirst, hrest⟩ := List.pairwise_cons.mp h
      have hle : ∀ c ∈ rest, b.key ≤ c.key := (List.pairwise_cons.mp hrest).1
      have hstep := ih hrest
      have hab := hfirst b (by simp)
      rw [namedTwice, Bool.or_eq_false_iff, hstep]
      change _ ↔ (a.key :: (b :: rest).map AclEntry.key).Nodup
      rw [List.nodup_cons]
      refine and_congr_left fun _ => ?_
      have hsame : (a.tag == b.tag && a.id == b.id) = false ↔ a.key ≠ b.key := by
        rw [Ne, key_eq_iff]
        simp
      rw [hsame]
      constructor
      · intro hne hmem
        obtain ⟨c, hc, hkey⟩ := List.mem_map.mp hmem
        rcases List.mem_cons.mp hc with rfl | hc
        · exact hne hkey.symm
        · have := hle c hc
          omega
      · intro hnot heq
        exact hnot (List.mem_map.mpr ⟨b, List.mem_cons_self, heq.symm⟩)

theorem count_sortedPlain (t : UInt32) (entries : List AclEntry) :
    count t (sortedPlain entries) = count t entries := by
  unfold count sortedPlain
  rw [(List.perm_insertionSort _ _).countP_eq, List.countP_map]
  rfl

theorem mem_sortedPlain {e : AclEntry} :
    e ∈ sortedPlain entries ↔ ∃ e' ∈ entries, e'.plain = e := by
  rw [sortedPlain, List.mem_insertionSort, List.mem_map]

instance : Std.Total (fun a b : AclEntry => a.key ≤ b.key) :=
  ⟨fun a b => Nat.le_total a.key b.key⟩

instance : IsTrans AclEntry (fun a b : AclEntry => a.key ≤ b.key) :=
  ⟨fun _ _ _ => Nat.le_trans⟩

theorem sortedPlain_sorted (entries : List AclEntry) :
    (sortedPlain entries).Pairwise fun a b => a.key ≤ b.key :=
  List.pairwise_insertionSort _ _

theorem forM_eq_ok {α : Type} {f : α → Except Error Unit} {l : List α} {u : Unit} :
    l.forM f = .ok u ↔ ∀ a ∈ l, f a = .ok () := by
  induction l with
  | nil => simp [pure, Except.pure]
  | cons a l ih =>
    change (f a >>= fun _ => l.forM f) = .ok u ↔ _
    rw [bind_eq_ok, List.forall_mem_cons]
    constructor
    · rintro ⟨_, ha, hl⟩
      exact ⟨ha, ih.mp hl⟩
    · rintro ⟨ha, hl⟩
      exact ⟨(), ha, ih.mpr hl⟩

theorem valid_eq_ok {entries sorted : List AclEntry} :
    valid entries v5 = .ok sorted ↔ Legal entries v5 ∧ sorted = sortedPlain entries := by
  have hnames : namedTwice (sortedPlain entries) = false ↔
      (entries.map fun e => e.plain.key).Nodup := by
    rw [namedTwice_eq_false_iff (sortedPlain_sorted entries), sortedPlain,
      ((List.perm_insertionSort _ _).map AclEntry.key).nodup_iff, List.map_map]
    rfl
  have hchecked : (∀ e ∈ sortedPlain entries, checkEntry e = .ok ()) ↔
      ∀ e ∈ entries, Tag.known e.tag = true ∧ e.perm ≤ 7 := by
    simp only [mem_sortedPlain, checkEntry, bind_eq_ok, ensure_eq_ok, exists_const,
      forall_exists_index, and_imp, forall_apply_eq_imp_iff₂]
    rfl
  have hlength : (sortedPlain entries).length = entries.length := by
    rw [sortedPlain, List.length_insertionSort, List.length_map]
  simp only [valid, ensureOne, bind_eq_ok, ensure_eq_ok, exists_const, forM_eq_ok, hnames, hchecked,
    hlength, count_sortedPlain, pure, Except.pure, Except.ok.injEq]
  constructor
  · rintro ⟨h1, h2, h3, h4, h5, h6, h7, h8, rfl⟩
    exact ⟨⟨h1, h2, h3, h4, h5, h6, h7, h8⟩, rfl⟩
  · rintro ⟨⟨h1, h2, h3, h4, h5, h6, h7, h8⟩, rfl⟩
    exact ⟨h1, h2, h3, h4, h5, h6, h7, h8, rfl⟩

theorem plain_plain (e : AclEntry) : e.plain.plain = e.plain := by
  unfold AclEntry.plain
  split <;> rfl

theorem Legal.sorted (h : Legal entries v5) :
    Legal (sortedPlain entries) v5 where
  owner := (count_sortedPlain _ _).trans h.owner
  group := (count_sortedPlain _ _).trans h.group
  other := (count_sortedPlain _ _).trans h.other
  oneMask := (count_sortedPlain _ _).trans_le h.oneMask
  masked := by
    rw [count_sortedPlain, count_sortedPlain, count_sortedPlain]
    exact h.masked
  checked := by
    intro e he
    obtain ⟨e', he', rfl⟩ := mem_sortedPlain.mp he
    exact h.checked e' he'
  distinct := by
    rw [sortedPlain, ((List.perm_insertionSort _ _).map _).nodup_iff, List.map_map]
    simp only [Function.comp_def, plain_plain]
    exact h.distinct
  fits := by
    rw [sortedPlain, List.length_insertionSort, List.length_map]
    exact h.fits

/-! ## Stored bytes -/

def encodeEntry (e : AclEntry) : List UInt8 :=
  beBytes 4 e.tag.toNat ++ beBytes 4 e.id.toNat ++ beBytes 2 e.perm.toNat ++ [0, 0]

-- `struct xfs_acl`
def encode (entries : List AclEntry) : List UInt8 :=
  beBytes 4 entries.length ++ entries.flatMap encodeEntry

def decodeEntry (bytes : List UInt8) : AclEntry where
  tag := UInt32.ofNat (beValue (slice bytes 0 4))
  id := UInt32.ofNat (beValue (slice bytes 4 4))
  perm := UInt16.ofNat (beValue (slice bytes 8 2))

def decode (stored : List UInt8) : Except Error (List AclEntry) := do
  ensure (xfsAclHdrSize ≤ stored.length)
    (.unsupportedFeature "a stored ACL shorter than its header")
  let count := beValue (slice stored 0 4)
  ensure (stored.length = xfsAclHdrSize + count * xfsAclEntrySize)
    (.unsupportedFeature "a stored ACL whose length is not its count's")
  pure ((List.range count).map fun n =>
    decodeEntry (slice stored (xfsAclHdrSize + xfsAclEntrySize * n) xfsAclEntrySize))

theorem encodeEntry_length (e : AclEntry) : (encodeEntry e).length = xfsAclEntrySize := by
  simp [encodeEntry, xfsAclEntrySize]

theorem encode_length (entries : List AclEntry) :
    (encode entries).length = xfsAclHdrSize + entries.length * xfsAclEntrySize := by
  rw [encode, List.length_append, beBytes_length, List.length_flatMap]
  simp [encodeEntry_length, xfsAclHdrSize]

theorem decodeEntry_encodeEntry (e : AclEntry) : decodeEntry (encodeEntry e) = e := by
  have htag : slice (encodeEntry e) 0 4 = beBytes 4 e.tag.toNat := by
    unfold encodeEntry
    rw [slice_append_left (by simp), slice_append_left (by simp), slice_append_left (by simp),
      slice_all (by simp)]
  have hid : slice (encodeEntry e) 4 4 = beBytes 4 e.id.toNat := by
    unfold encodeEntry
    rw [slice_append_left (by simp), slice_append_left (by simp), slice_append_right (by simp)]
    exact slice_all (by simp)
  have hperm : slice (encodeEntry e) 8 2 = beBytes 2 e.perm.toNat := by
    unfold encodeEntry
    rw [slice_append_left (by simp), slice_append_right (by simp)]
    exact slice_all (by simp)
  have hlt := e.tag.toNat_lt
  have hlt' := e.id.toNat_lt
  have hlt'' := e.perm.toNat_lt
  unfold decodeEntry
  rw [htag, hid, hperm, beValue_beBytes_of_lt (by omega), beValue_beBytes_of_lt (by omega),
    beValue_beBytes_of_lt (by omega), UInt32.ofNat_toNat, UInt32.ofNat_toNat, UInt16.ofNat_toNat]

theorem decode_encode (h : entries.length < 2 ^ 32) : decode (encode entries) = .ok entries := by
  have hcount : beValue (slice (encode entries) 0 4) = entries.length := by
    rw [encode, slice_append_left (by simp), slice_all (by simp), beValue_beBytes_of_lt (by omega)]
  refine bind_eq_ok.mpr ⟨(), ensure_of (by rw [encode_length]; omega), ?_⟩
  simp only [hcount]
  refine bind_eq_ok.mpr ⟨(), ensure_of (encode_length entries), congrArg Except.ok ?_⟩
  refine List.ext_getElem (by simp) fun n hn hlt => ?_
  rw [List.getElem_map, List.getElem_range, encode,
    slice_append_right (by rw [beBytes_length]; exact Nat.le_add_right 4 _), beBytes_length]
  change decodeEntry (slice _ (4 + xfsAclEntrySize * n - 4) _) = _
  rw [Nat.add_sub_cancel_left, slice_flatMap encodeEntry_length entries hlt,
    decodeEntry_encodeEntry]

theorem Legal.length_lt (h : Legal entries v5) : entries.length < 2 ^ 32 := by
  have hfits := h.fits
  unfold xfsAclMaxEntries xfsAttrValueMax xfsAclHdrSize xfsAclEntrySize at hfits
  split at hfits <;> omega

/-! ## The three classes -/

def permOf (t : UInt32) (entries : List AclEntry) : UInt16 :=
  ((entries.find? fun e => e.tag == t).map AclEntry.perm).getD 0

def hasMask (entries : List AclEntry) : Bool :=
  entries.any fun e => e.tag == Tag.mask

def modeBits (owner group other : UInt16) : UInt16 :=
  (owner <<< 6) ||| (group <<< 3) ||| other

def modeOf (entries : List AclEntry) : UInt16 :=
  modeBits (permOf Tag.userObj entries)
    (if hasMask entries then permOf Tag.mask entries else permOf Tag.groupObj entries)
    (permOf Tag.other entries)

-- `group_class`: the tag of the entry the mode's group bits stand for
def groupClass (entries : List AclEntry) : Option UInt32 :=
  if hasMask entries then some Tag.mask
  else if entries.any fun e => e.tag == Tag.groupObj then some Tag.groupObj
  else none

def AclEntry.touch (t : UInt32) (f : UInt16 → UInt16) (e : AclEntry) : AclEntry :=
  if e.tag = t then { e with perm := f e.perm } else e

def touchFirst (t : UInt32) (f : UInt16 → UInt16) : List AclEntry → List AclEntry
  | [] => []
  | e :: rest => if e.tag = t then e.touch t f :: rest else e :: touchFirst t f rest

/-- The owner, group-class and other entries changed, as `narrowed` and `chmod` both do. -/
def withClasses (owner group other : UInt16 → UInt16) (entries : List AclEntry) :
    Except Error (List AclEntry) :=
  let entries := entries.map fun e => (e.touch Tag.userObj owner).touch Tag.other other
  match groupClass entries with
  | some t => .ok (touchFirst t group entries)
  | none => .error (.panicked "a valid ACL has an owning group")

def narrowed (entries : List AclEntry) (mode : UInt16) : Except Error (List AclEntry) :=
  withClasses (fun p => p &&& ((mode >>> 6) &&& 7)) (fun p => p &&& ((mode >>> 3) &&& 7))
    (fun p => p &&& (mode &&& 7)) entries

def withBits (entries : List AclEntry) (bits : UInt16) : Except Error (List AclEntry) :=
  withClasses (fun _ => (bits >>> 6) &&& 7) (fun _ => (bits >>> 3) &&& 7) (fun _ => bits &&& 7) entries

/-! ## Entries changed in place -/

def AclEntry.retouch (f : UInt32 → UInt16 → UInt16) (e : AclEntry) : AclEntry :=
  { e with perm := f e.tag e.perm }

section

variable {entries : List AclEntry} {v5 : Bool} {f : UInt32 → UInt16 → UInt16} {t : UInt32}

theorem count_retouch : count t (entries.map (AclEntry.retouch f)) = count t entries := by
  unfold count
  rw [List.countP_map]
  rfl

theorem hasMask_retouch : hasMask (entries.map (AclEntry.retouch f)) = hasMask entries := by
  unfold hasMask
  rw [List.any_map]
  rfl

theorem hasMask_iff : hasMask entries = true ↔ 0 < count Tag.mask entries := by
  unfold hasMask count
  rw [List.any_eq_true, List.countP_pos_iff]

theorem Legal.retouched (h : Legal entries v5) (hf : ∀ e ∈ entries, f e.tag e.perm ≤ 7) :
    Legal (entries.map (AclEntry.retouch f)) v5 where
  owner := count_retouch.trans h.owner
  group := count_retouch.trans h.group
  other := count_retouch.trans h.other
  oneMask := count_retouch.trans_le h.oneMask
  masked := by
    rw [count_retouch, count_retouch, count_retouch]
    exact h.masked
  checked := by
    intro e he
    obtain ⟨e', he', rfl⟩ := List.mem_map.mp he
    exact ⟨(h.checked e' he').1, hf e' he'⟩
  distinct := by
    rw [List.map_map]
    exact h.distinct
  fits := by
    rw [List.length_map]
    exact h.fits

theorem permOf_retouch (h : 0 < count t entries) :
    permOf t (entries.map (AclEntry.retouch f)) = f t (permOf t entries) := by
  obtain ⟨e, he⟩ := Option.isSome_iff_exists.mp
    (List.find?_isSome.mpr (List.countP_pos_iff.mp h))
  have htag : e.tag = t := by simpa using List.find?_some he
  unfold permOf
  rw [List.find?_map]
  change ((List.find? (fun e => e.tag == t) entries).map _ |>.map _).getD 0 = _
  rw [he, ← htag]
  rfl

theorem permOf_le (h : Legal entries v5) : permOf t entries ≤ 7 := by
  unfold permOf
  cases hfind : entries.find? fun e => e.tag == t with
  | none => exact UInt16.zero_le
  | some e => exact (h.checked e (List.mem_of_find?_eq_some hfind)).2

theorem touchFirst_eq_map {g : UInt16 → UInt16} (h : count t entries ≤ 1) :
    touchFirst t g entries = entries.map (AclEntry.touch t g) := by
  induction entries with
  | nil => rfl
  | cons e rest ih =>
    unfold count at h ih
    rw [List.countP_cons] at h
    rw [touchFirst, List.map_cons]
    by_cases htag : e.tag = t
    · rw [if_pos htag]
      congr 1
      rw [if_pos (beq_iff_eq.mpr htag)] at h
      have hzero : (rest.countP fun e => e.tag == t) = 0 := by omega
      have hnone : ∀ e' ∈ rest, ¬e'.tag = t := by simpa using List.countP_eq_zero.mp hzero
      refine (List.map_id rest).symm.trans (List.map_congr_left fun e' he' => ?_)
      rw [AclEntry.touch, if_neg (hnone e' he')]
      rfl
    · rw [if_neg htag, ih (by omega), AclEntry.touch, if_neg htag]

/-- What a change of the three classes does to one entry, by its tag. -/
def byClass (masked : Bool) (owner group other : UInt16 → UInt16) (t : UInt32) : UInt16 → UInt16 :=
  if t = Tag.userObj then owner
  else if t = Tag.other then other
  else if t = (if masked then Tag.mask else Tag.groupObj) then group
  else id

theorem byClass_le {masked : Bool} {owner group other : UInt16 → UInt16} (howner : ∀ p ≤ 7, owner p ≤ 7)
    (hgroup : ∀ p ≤ 7, group p ≤ 7) (hother : ∀ p ≤ 7, other p ≤ 7) (t : UInt32) {p : UInt16}
    (hp : p ≤ 7) : byClass masked owner group other t p ≤ 7 := by
  unfold byClass
  split_ifs
  · exact howner p hp
  · exact hother p hp
  · exact hgroup p hp
  · exact hp
  · exact hgroup p hp
  · exact hp

theorem count_of_tags {other : List AclEntry} (h : entries.map AclEntry.tag = other.map AclEntry.tag) :
    count t entries = count t other := by
  have hcount : ∀ l : List AclEntry, count t l = (l.map AclEntry.tag).countP (· == t) := by
    intro l
    rw [List.countP_map]
    rfl
  rw [hcount, hcount, h]

theorem groupClass_eq :
    groupClass entries = if 0 < count Tag.mask entries then some Tag.mask
      else if 0 < count Tag.groupObj entries then some Tag.groupObj else none := by
  have hany : ∀ t, (entries.any fun e => e.tag == t) = true ↔ 0 < count t entries := by
    intro t
    rw [List.any_eq_true, count, List.countP_pos_iff]
  unfold groupClass hasMask
  simp only [hany]

section

variable {owner group other : UInt16 → UInt16}

theorem tags_touched : (entries.map fun e => (e.touch Tag.userObj owner).touch Tag.other other).map
    AclEntry.tag = entries.map AclEntry.tag := by
  rw [List.map_map]
  refine List.map_congr_left fun e _ => ?_
  simp only [Function.comp_apply, AclEntry.touch]
  split <;> split <;> rfl

theorem groupClass_touched :
    groupClass (entries.map fun e => (e.touch Tag.userObj owner).touch Tag.other other) =
      groupClass entries := by
  rw [groupClass_eq, groupClass_eq, count_of_tags tags_touched, count_of_tags tags_touched]

theorem withClasses_eq_of_count (hgroup : count Tag.groupObj entries = 1)
    (hmask : count Tag.mask entries ≤ 1) :
    withClasses owner group other entries =
      .ok (entries.map (AclEntry.retouch (byClass (hasMask entries) owner group other))) := by
  have hclass : groupClass entries = some (if hasMask entries then Tag.mask else Tag.groupObj) := by
    rw [groupClass_eq, hgroup]
    simp only [hasMask_iff, Nat.one_pos, if_true]
    split <;> rfl
  have hone : count (if hasMask entries then Tag.mask else Tag.groupObj)
      (entries.map fun e => (e.touch Tag.userObj owner).touch Tag.other other) ≤ 1 := by
    rw [count_of_tags tags_touched]
    split
    · exact hmask
    · exact hgroup.le
  unfold withClasses
  simp only [groupClass_touched, hclass]
  rw [touchFirst_eq_map hone, List.map_map]
  congr 1
  refine List.map_congr_left fun e _ => ?_
  have hapart : Tag.userObj ≠ Tag.other ∧ Tag.userObj ≠ Tag.mask ∧ Tag.userObj ≠ Tag.groupObj ∧
      Tag.other ≠ Tag.mask ∧ Tag.other ≠ Tag.groupObj := by decide
  cases hasMask entries <;>
    · simp only [Function.comp_apply, AclEntry.touch, AclEntry.retouch, byClass]
      split_ifs <;> simp_all

theorem withClasses_eq (h : Legal entries v5) :
    withClasses owner group other entries =
      .ok (entries.map (AclEntry.retouch (byClass (hasMask entries) owner group other))) :=
  withClasses_eq_of_count h.group h.oneMask

end

end

theorem Legal.length_eq (h : Legal entries v5) :
    entries.length = count Tag.userObj entries + count Tag.user entries +
      count Tag.groupObj entries + count Tag.group entries + count Tag.mask entries +
      count Tag.other entries := by
  have hknown := fun e he => (h.checked e he).1
  clear h
  unfold count
  induction entries with
  | nil => rfl
  | cons e rest ih =>
    have hrest := ih fun e' he' => hknown e' (List.mem_cons_of_mem e he')
    have hone := hknown e List.mem_cons_self
    simp only [Tag.known, Bool.or_eq_true, beq_iff_eq] at hone
    rw [List.length_cons, hrest]
    -- The entry's tag is one of the six, and only that tag's count grows.
    rcases hone with ((((he | he) | he) | he) | he) | he <;>
      · simp +decide only [List.countP_cons, he, beq_iff_eq, if_true, if_false]
        omega

theorem Legal.three_le (h : Legal entries v5) : 3 ≤ entries.length := by
  have htotal := h.length_eq
  have howner := h.owner
  have hgroup := h.group
  have hother := h.other
  omega

theorem Legal.hasMask (h : Legal entries v5)
    (hlength : 3 < entries.length) : hasMask entries = true := by
  have htotal := h.length_eq
  have howner := h.owner
  have hgroup := h.group
  have hother := h.other
  have hmasked := h.masked
  rw [hasMask_iff]
  omega

/-! ## Permission bits -/

theorem and_seven_of_le {p : UInt16} (h : p ≤ 7) : p &&& 7 = p := by
  rw [← UInt16.toNat_inj, UInt16.toNat_and]
  have hle : p.toNat ≤ 7 := UInt16.le_iff_toNat_le.mp h
  exact (Nat.and_two_pow_sub_one_eq_mod p.toNat 3).trans (Nat.mod_eq_of_lt (by omega))

theorem and_le_left (p q : UInt16) : p &&& q ≤ p := by
  exact Nat.and_le_left

theorem and_le_right (p q : UInt16) : p &&& q ≤ q := by
  exact Nat.and_le_right

theorem modeBits_of_bits (bits : UInt16) :
    modeBits ((bits >>> 6) &&& 7) ((bits >>> 3) &&& 7) (bits &&& 7) = bits &&& 0o777 := by
  rw [modeBits, ← UInt16.toBitVec_inj]
  ext i hi
  interval_cases i <;> simp

theorem modeBits_classes {owner group other : UInt16} (howner : owner ≤ 7) (hgroup : group ≤ 7)
    (hother : other ≤ 7) : (modeBits owner group other >>> 6) &&& 7 = owner ∧
      (modeBits owner group other >>> 3) &&& 7 = group ∧ modeBits owner group other &&& 7 = other ∧
      modeBits owner group other &&& 0o777 = modeBits owner group other := by
  rw [modeBits, ← and_seven_of_le howner, ← and_seven_of_le hgroup, ← and_seven_of_le hother]
  refine ⟨?_, ?_, ?_, ?_⟩ <;>
    · rw [← UInt16.toBitVec_inj]
      ext i hi
      interval_cases i <;> simp

theorem modeOf_low (h : Legal entries v5) : modeOf entries &&& 0o777 = modeOf entries := by
  refine (modeBits_classes (permOf_le h) ?_ (permOf_le h)).2.2.2
  split <;> exact permOf_le h

end FsXfs.Acl
