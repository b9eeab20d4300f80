import FsXfs.Acl.Store
import FsXfs.Lib.Access
import Mathlib.Data.Fintype.Card

/-!
# What a new inode grants before its ACL is written

A create under a default ACL makes the inode with narrowed permission bits in one record, and writes
the ACL it inherits in another. The group bits of the first stand for the mask of the second, and until
it is written they are the owning group's own.
-/

namespace FsXfs.Acl

open Access Bytes

set_option autoImplicit false

/-! ## What an inode grants -/

def rights (p : UInt16) : Set ℕ :=
  {i | p.toNat.testBit i = true}

def within (a b : UInt16) : Bool :=
  a &&& b == a

theorem rights_and (a b : UInt16) : rights (a &&& b) = rights a ∩ rights b := by
  ext i
  simp [rights, UInt16.toNat_and]

theorem rights_subset_iff {a b : UInt16} : rights a ⊆ rights b ↔ within a b = true := by
  rw [within, beq_iff_eq, ← Set.inter_eq_left, ← rights_and]
  constructor
  · intro h
    rw [← UInt16.toNat_inj]
    refine Nat.eq_of_testBit_eq fun i => ?_
    have hi : i ∈ rights (a &&& b) ↔ i ∈ rights a := by rw [h]
    exact Bool.eq_iff_iff.mpr hi
  · intro h
    rw [h]

def named (t : UInt32) (entries : List AclEntry) (id : UInt32) : Option (Set ℕ) :=
  (entries.find? fun e => e.tag == t && e.id == id).map fun e => rights e.perm

def toAccess (entries : List AclEntry) : AccessList UInt32 UInt32 ℕ where
  owner := rights (permOf Tag.userObj entries)
  user := named Tag.user entries
  group := rights (permOf Tag.groupObj entries)
  namedGroup := named Tag.group entries
  mask := if hasMask entries then rights (permOf Tag.mask entries) else Set.univ
  other := rights (permOf Tag.other entries)

def modeClasses (mode : UInt16) : Classes ℕ :=
  ⟨rights ((mode >>> 6) &&& 7), rights ((mode >>> 3) &&& 7), rights (mode &&& 7)⟩

/-- By the access ACL where one is stored, and by the mode where none is. -/
def Node.Grants (node : Node) (who : Subject UInt32 UInt32) (want : Set ℕ) : Prop :=
  match node.attr accessName with
  | none => (modeClasses node.mode).Grants node.uid node.gid who want
  | some value => ∃ entries, decode value = .ok entries ∧
    (toAccess entries).Grants node.uid node.gid who want

section

variable {entries : List AclEntry} {v5 : Bool} {t id : UInt32}

theorem named_eq_some_iff (h : Legal entries v5) (ht : Tag.names t = true) {p : Set ℕ} :
    named t entries id = some p ↔ ∃ e ∈ entries, e.tag = t ∧ e.id = id ∧ rights e.perm = p := by
  unfold named
  rw [Option.map_eq_some_iff]
  constructor
  · rintro ⟨e, he, rfl⟩
    have hfound := List.find?_some he
    rw [Bool.and_eq_true, beq_iff_eq, beq_iff_eq] at hfound
    exact ⟨e, List.mem_of_find?_eq_some he, hfound.1, hfound.2, rfl⟩
  · rintro ⟨e, he, htag, hid, rfl⟩
    have hsome : (entries.find? fun e => e.tag == t && e.id == id).isSome = true :=
      List.find?_isSome.mpr ⟨e, he, by simp [htag, hid]⟩
    obtain ⟨e', hfind⟩ := Option.isSome_iff_exists.mp hsome
    have hfound := List.find?_some hfind
    rw [Bool.and_eq_true, beq_iff_eq, beq_iff_eq] at hfound
    have hkey : e'.plain.key = e.plain.key := by
      rw [key_eq_iff]
      simp [AclEntry.plain, hfound, htag, hid, ht]
    obtain rfl := List.inj_on_of_nodup_map h.distinct (List.mem_of_find?_eq_some hfind) he hkey
    exact ⟨e', hfind, rfl⟩

theorem exists_unnamed (h : Legal entries v5) (uid : UInt32) :
    ∃ u, u ≠ uid ∧ (toAccess entries).user u = none := by
  have hfits : entries.length ≤ 5461 := by
    refine h.fits.trans ?_
    cases v5 <;> decide
  have hsmall : (uid.toNat :: entries.map fun e => e.id.toNat).toFinset.card <
      (Finset.range (2 ^ 32)).card := by
    refine (List.toFinset_card_le _).trans_lt ?_
    rw [Finset.card_range, List.length_cons, List.length_map]
    omega
  obtain ⟨u, hu, hnot⟩ := Finset.exists_mem_notMem_of_card_lt_card hsmall
  have hlt := Finset.mem_range.mp hu
  rw [List.mem_toFinset, List.mem_cons, not_or] at hnot
  have hback : (UInt32.ofNat u).toNat = u := UInt32.toNat_ofNat_of_lt' hlt
  refine ⟨UInt32.ofNat u, fun heq => hnot.1 ?_, ?_⟩
  · rw [← heq, hback]
  · refine Option.map_eq_none_iff.mpr (List.find?_eq_none.mpr fun e he hfound => hnot.2 ?_)
    rw [Bool.and_eq_true, beq_iff_eq, beq_iff_eq] at hfound
    exact List.mem_map.mpr ⟨e, he, by rw [hfound.2, hback]⟩

end

/-! ## A default narrowed to a mode -/

section

variable {default access : List AclEntry} {v5 : Bool} {mode : UInt16}

def narrowedMask (default : List AclEntry) (mode : UInt16) : UInt16 :=
  permOf Tag.mask default &&& ((mode >>> 3) &&& 7)

def narrowedOther (default : List AclEntry) (mode : UInt16) : UInt16 :=
  permOf Tag.other default &&& (mode &&& 7)

/-- The three classes of a default ACL are narrowed, and its named entries and, beside a mask, its
owning group kept. -/
theorem narrowed_spec (mode : UInt16) (h : Legal default v5) :
    ∃ access, narrowed default mode = .ok access ∧ Legal access v5 ∧ access.length = default.length ∧
      hasMask access = hasMask default ∧
      (∀ t, Tag.names t = true → ∀ e, e.tag = t → (e ∈ access ↔ e ∈ default)) ∧
      permOf Tag.other access = narrowedOther default mode ∧
      (hasMask default = true → permOf Tag.mask access = narrowedMask default mode ∧
        permOf Tag.groupObj access = permOf Tag.groupObj default) := by
  refine ⟨_, withClasses_eq h, ?_, List.length_map _, hasMask_retouch, ?_, ?_, ?_⟩
  · have hle : ∀ q p : UInt16, p ≤ 7 → p &&& q ≤ 7 := fun q p hp => UInt16.le_trans (and_le_left p q) hp
    exact h.retouched fun e he => byClass_le (hle _) (hle _) (hle _) e.tag (h.checked e he).2
  · intro t ht e htag
    have hsame : ∀ e' : AclEntry, e'.tag = t → e'.retouch (byClass (hasMask default)
        (fun p => p &&& ((mode >>> 6) &&& 7)) (fun p => p &&& ((mode >>> 3) &&& 7))
        (fun p => p &&& (mode &&& 7))) = e' := by
      intro e' htag'
      have hclass : byClass (hasMask default) (fun p => p &&& ((mode >>> 6) &&& 7))
          (fun p => p &&& ((mode >>> 3) &&& 7)) (fun p => p &&& (mode &&& 7)) t = id := by
        simp only [Tag.names, Bool.or_eq_true, beq_iff_eq] at ht
        rcases ht with rfl | rfl <;> cases hasMask default <;> rfl
      unfold AclEntry.retouch
      rw [htag', hclass]
      subst htag'
      rfl
    constructor
    · intro he
      obtain ⟨e', he', rfl⟩ := List.mem_map.mp he
      rwa [hsame e' htag]
    · intro he
      exact List.mem_map.mpr ⟨e, he, hsame e htag⟩
  · rw [permOf_retouch (by rw [h.other]; exact Nat.one_pos)]
    cases hasMask default <;> rfl
  · intro hmask
    rw [permOf_retouch (hasMask_iff.mp hmask), permOf_retouch (by rw [h.group]; exact Nat.one_pos), hmask]
    exact ⟨rfl, rfl⟩

/-- No user or group the default names, and not its owning group, has less than its members get from
the narrowed mask and the others' permissions alone. -/
structure KeepsClosed (default : List AclEntry) (mode : UInt16) (uid gid : UInt32) : Prop where
  members : within (narrowedMask default mode) (permOf Tag.groupObj default) = true ∨
    ∃ e ∈ default, e.tag = Tag.group ∧ e.id = gid ∧ within (narrowedMask default mode) e.perm = true
  users : ∀ e ∈ default, e.tag = Tag.user → e.id ≠ uid →
    within (narrowedMask default mode) e.perm = true ∧ within (narrowedOther default mode) e.perm = true ∧
      within (narrowedOther default mode) (narrowedMask default mode) = true
  groups : ∀ e ∈ default, e.tag = Tag.group → e.id ≠ gid →
    within (narrowedOther default mode) e.perm = true ∧
      within (narrowedOther default mode) (narrowedMask default mode) = true

theorem noWider_iff {uid gid : UInt32} (h : Legal default v5) (hmask : hasMask default = true)
    (haccess : narrowed default mode = .ok access) :
    (toAccess access).NoWider uid gid ↔ KeepsClosed default mode uid gid := by
  obtain ⟨access', haccess', hlegal, -, hmask', hnamed, hother, hclasses⟩ := narrowed_spec mode h
  obtain rfl := Except.ok.inj (haccess.symm.trans haccess')
  obtain ⟨hm, hg⟩ := hclasses hmask
  have huser : ∀ t, Tag.names t = true → ∀ id p, named t access id = some p ↔
      ∃ e ∈ default, e.tag = t ∧ e.id = id ∧ rights e.perm = p := by
    intro t ht id p
    rw [named_eq_some_iff hlegal ht]
    refine exists_congr fun e => ⟨?_, ?_⟩
    · rintro ⟨he, htag, hrest⟩
      exact ⟨(hnamed t ht e htag).mp he, htag, hrest⟩
    · rintro ⟨he, htag, hrest⟩
      exact ⟨(hnamed t ht e htag).mpr he, htag, hrest⟩
  have hmaskRights : (toAccess access).mask = rights (narrowedMask default mode) := by
    change (if hasMask access then _ else _) = _
    rw [hmask', hmask, if_pos rfl, hm]
  have hotherRights : (toAccess access).other = rights (narrowedOther default mode) := by
    change rights _ = _
    rw [hother]
  have hgroupRights : (toAccess access).group = rights (permOf Tag.groupObj default) := by
    change rights _ = _
    rw [hg]
  have husers := huser Tag.user rfl
  have hgroups := huser Tag.group rfl
  constructor
  · rintro ⟨hmembers, husers', hgroups'⟩
    rw [hmaskRights, hgroupRights] at hmembers
    rw [hmaskRights, hotherRights] at husers' hgroups'
    refine ⟨?_, fun e he htag hne => ?_, fun e he htag hne => ?_⟩
    · rcases hmembers with hsub | ⟨p, hp, hsub⟩
      · exact .inl (rights_subset_iff.mp hsub)
      · obtain ⟨e, he, htag, hid, rfl⟩ := (hgroups gid p).mp hp
        exact .inr ⟨e, he, htag, hid, rights_subset_iff.mp hsub⟩
    · obtain ⟨h1, h2⟩ := husers' e.id _ hne ((husers e.id _).mpr ⟨e, he, htag, rfl, rfl⟩)
      rw [Set.subset_inter_iff, rights_subset_iff, rights_subset_iff] at h2
      exact ⟨rights_subset_iff.mp h1, h2⟩
    · have h2 := hgroups' e.id _ hne ((hgroups e.id _).mpr ⟨e, he, htag, rfl, rfl⟩)
      rwa [Set.subset_inter_iff, rights_subset_iff, rights_subset_iff] at h2
  · rintro ⟨hmembers, husers', hgroups'⟩
    refine ⟨?_, fun u p hne hp => ?_, fun g p hne hp => ?_⟩
    · rw [hmaskRights, hgroupRights]
      rcases hmembers with hsub | ⟨e, he, htag, hid, hsub⟩
      · exact .inl (rights_subset_iff.mpr hsub)
      · exact .inr ⟨_, (hgroups gid _).mpr ⟨e, he, htag, hid, rfl⟩, rights_subset_iff.mpr hsub⟩
    · obtain ⟨e, he, htag, rfl, rfl⟩ := (husers u p).mp hp
      obtain ⟨h1, h2, h3⟩ := husers' e he htag hne
      rw [hmaskRights, hotherRights, Set.subset_inter_iff, rights_subset_iff, rights_subset_iff,
        rights_subset_iff]
      exact ⟨h1, h2, h3⟩
    · obtain ⟨e, he, htag, rfl, rfl⟩ := (hgroups g p).mp hp
      rw [hmaskRights, hotherRights, Set.subset_inter_iff, rights_subset_iff, rights_subset_iff]
      exact hgroups' e he htag hne

end

/-! ## The records of a create -/

section

variable {s s₁ : State} {ans : Answers} {parent ino : ℕ} {name : List UInt8} {mode : UInt16} {kind : Kind}

def finishedNode (inherited : Inherited) (made : Node) : Node :=
  inherited.toWrite.foldl (fun node p => node.withAttr p.1 (some p.2)) made

theorem create_spec (h : create s ans parent name mode kind = .ok (ino, s₁)) :
    ∃ made typed, typedMode mode kind = .ok typed ∧ ino = ans.slot ∧ s₁ = s.put ans.slot made ∧
      made.mode = typed ∧ made.uid = ans.slotUid ∧ made.gid = ans.slotGid ∧
      ∀ n, isParent n = false → made.attr n = none := by
  obtain ⟨-, -, h⟩ := bind_eq_ok.mp h
  obtain ⟨-, -, h⟩ := bind_eq_ok.mp h
  obtain ⟨typed, htyped, h⟩ := bind_eq_ok.mp h
  obtain ⟨dir, -, h⟩ := bind_eq_ok.mp h
  obtain ⟨-, -, h⟩ := bind_eq_ok.mp h
  obtain ⟨-, -, h⟩ := bind_eq_ok.mp h
  obtain ⟨hino, hs⟩ := Prod.mk.inj (Except.ok.inj h)
  refine ⟨_, typed, htyped, hino.symm, hs.symm, rfl, rfl, rfl, fun n hn => ?_⟩
  unfold Node.attr madeNode
  rw [Option.map_eq_none_iff, List.find?_eq_none]
  intro a ha
  rw [Option.mem_toList] at ha
  split at ha
  · obtain rfl := Option.mem_some_iff.mp ha
    intro heq
    rw [beq_iff_eq] at heq
    have hparent := isParent_parentFork name parent dir.gen
    rw [heq, hn] at hparent
    cases hparent
  · cases ha

theorem or_and (a b mask : UInt16) : (a ||| b) &&& mask = (a &&& mask) ||| (b &&& mask) := by
  rw [← UInt16.toBitVec_inj]
  ext i hi
  simp [Bool.and_or_distrib_right]

theorem masks : (~~~0o7777 &&& 0o777 : UInt16) = 0 ∧ (~~~0o7777 &&& 0o7000 : UInt16) = 0 ∧
    (0o7777 &&& 0o777 : UInt16) = 0o777 ∧ (0o7777 &&& 0o7000 : UInt16) = 0o7000 ∧
    (~~~0o777 &&& 0o777 : UInt16) = 0 ∧ (~~~0o777 &&& 0o7000 : UInt16) = 0o7000 ∧
    (0o777 &&& 0o7000 : UInt16) = 0 := by decide

theorem typedMode_masked {typed mask : UInt16} (h : typedMode mode kind = .ok typed)
    (hmask : 0o170000 &&& mask = 0) : typed &&& mask = mode &&& mask := by
  have hkind : kind.typeBits &&& mask = 0 := by
    have hbits : kind.typeBits = kind.typeBits &&& 0o170000 := by cases kind <;> rfl
    rw [hbits, UInt16.and_assoc, hmask, UInt16.and_zero]
  unfold typedMode at h
  split_ifs at h
  · rw [← Except.ok.inj h, or_and, hkind, UInt16.or_zero]
  · rw [Except.ok.inj h]

theorem low_classes {mode low : UInt16} (h : mode &&& 0o777 = low) :
    (mode >>> 6) &&& (7 : UInt16) = (low >>> 6) &&& 7 ∧
      (mode >>> 3) &&& (7 : UInt16) = (low >>> 3) &&& 7 ∧ mode &&& 7 = low &&& 7 := by
  subst h
  refine ⟨?_, ?_, ?_⟩ <;>
    · rw [← UInt16.toBitVec_inj]
      ext i hi
      interval_cases i <;> simp

theorem modeClasses_eq {access : List AclEntry} {v5 : Bool} (h : Legal access v5)
    (hmask : hasMask access = true) (hlow : mode &&& 0o777 = modeOf access) :
    modeClasses mode = (toAccess access).classes := by
  obtain ⟨howner, hgroup, hother⟩ := low_classes hlow
  have hbits : modeOf access = modeBits (permOf Tag.userObj access) (permOf Tag.mask access)
      (permOf Tag.other access) := by
    rw [modeOf, hmask, if_pos rfl]
  have hclasses := modeBits_classes (permOf_le h (t := Tag.userObj)) (permOf_le h (t := Tag.mask))
    (permOf_le h (t := Tag.other))
  unfold modeClasses AccessList.classes
  rw [howner, hgroup, hother, hbits, hclasses.1, hclasses.2.1, hclasses.2.2.1]
  simp [toAccess, hmask]

theorem writeEach_nodes {todo : List (List UInt8 × List UInt8)} {n : ℕ} {made node : Node} {t : State}
    (hmade : s.node ino = .ok made) (ht : t ∈ (writeEach ans ino n s todo).1)
    (hnode : t.node ino = .ok node) :
    ∃ k < todo.length, node = (todo.take (k + 1)).foldl (fun node p => node.withAttr p.1 (some p.2)) made := by
  induction todo generalizing n s made with
  | nil => exact absurd ht (by simp [writeEach])
  | cons p rest ih =>
    rw [writeEach] at ht
    split at ht
    next => cases ht
    next s' hs' =>
      obtain ⟨made', hmade', rfl⟩ := writeXattr_spec hs'
      obtain rfl := Except.ok.inj (hmade.symm.trans hmade')
      rcases List.mem_cons.mp ht with rfl | ht
      · rw [State.put_self] at hnode
        exact ⟨0, by simp, (Except.ok.inj hnode).symm⟩
      · obtain ⟨k, hk, rfl⟩ := ih (State.put_self ..) ht
        exact ⟨k + 1, by simpa using hk, rfl⟩

theorem narrowed_low (default : List AclEntry) (mode : UInt16) :
    narrowedMask default (mode &&& 0o7777) = narrowedMask default mode ∧
      narrowedOther default (mode &&& 0o7777) = narrowedOther default mode := by
  have hlow : mode &&& 0o777 = (mode &&& 0o7777) &&& 0o777 := by
    rw [UInt16.and_assoc]
    rfl
  obtain ⟨-, hgroup, hother⟩ := low_classes hlow
  obtain ⟨-, hgroup', hother'⟩ := low_classes (show mode &&& 0o7777 &&& 0o777 = _ from rfl)
  unfold narrowedMask narrowedOther
  rw [hgroup', hother', hgroup, hother]
  exact ⟨rfl, rfl⟩

variable {i : Inherited}

theorem inheritedAcl_spec {default : List AclEntry} {isDir : Bool}
    (hdefault : acl s ans parent .default = .ok (some default))
    (h : inheritedAcl s ans parent mode isDir = .ok (some i)) :
    ∃ access, narrowed default mode = .ok access ∧
      i.bits = (mode &&& ~~~0o777 &&& 0o7777) ||| modeOf access ∧
      i.access = (if 3 < access.length then some (encode access) else none) ∧
      i.default = if isDir then some (encode default) else none := by
  unfold inheritedAcl at h
  rw [hdefault] at h
  change (narrowed default mode >>= fun access => _) = _ at h
  obtain ⟨access, haccess, h⟩ := bind_eq_ok.mp h
  obtain rfl := Option.some.inj (Except.ok.inj h)
  exact ⟨access, haccess, rfl, rfl, rfl⟩

theorem inheritedAcl_some {isDir : Bool} (h : inheritedAcl s ans parent mode isDir = .ok (some i)) :
    ∃ default, acl s ans parent .default = .ok (some default) := by
  obtain ⟨found, hfound, h⟩ := bind_eq_ok.mp h
  cases found with
  | none => cases Except.ok.inj h
  | some default => exact ⟨default, hfound⟩

theorem made_low {access : List AclEntry} {v5 : Bool} {typed : UInt16} (hlegal : Legal access v5)
    (hbits : i.bits = (mode &&& 0o7777 &&& ~~~0o777 &&& 0o7777) ||| modeOf access)
    (htyped : typedMode ((mode &&& ~~~0o7777) ||| i.bits) kind = .ok typed) :
    typed &&& 0o777 = modeOf access := by
  rw [typedMode_masked htyped rfl, hbits]
  simp [or_and, UInt16.and_assoc, masks, modeOf_low hlegal]

theorem createInheriting_cases {rest : List State} {done : Except Error ℕ}
    (hinherited : inheritedAcl s ans parent (mode &&& 0o7777) (kind == .directory) = .ok (some i))
    (h : createInheriting s ans parent name mode kind = (s₁ :: rest, done)) :
    create s ans parent name ((mode &&& ~~~0o7777) ||| i.bits) kind = .ok (ans.slot, s₁) ∧
      rest = (writeEach ans ans.slot 1 s₁ i.toWrite).1 := by
  unfold createInheriting at h
  rw [hinherited] at h
  dsimp only [Option.elim_some] at h
  split at h
  next => cases congrArg Prod.fst h
  next ino s' hcreate =>
    obtain ⟨hstates, -⟩ := Prod.mk.inj h
    obtain ⟨rfl, rfl⟩ := List.cons.inj hstates
    obtain ⟨-, -, -, rfl, -⟩ := create_spec hcreate
    exact ⟨hcreate, rfl⟩

section

variable {made : Node} {i : Inherited}

theorem attr_written {k : ℕ} (hk : k < i.toWrite.length) :
    ((i.toWrite.take (k + 1)).foldl (fun node p => node.withAttr p.1 (some p.2)) made).attr accessName =
      (finishedNode i made).attr accessName := by
  have hne : accessName ≠ defaultName := by decide
  obtain ⟨bits, access, default⟩ := i
  unfold Inherited.toWrite at hk ⊢
  cases access <;> cases default
  · cases hk
  · obtain rfl : k = 0 := by simpa using hk
    rfl
  · obtain rfl : k = 0 := by simpa using hk
    rfl
  · have hlt : k < 2 := by simpa using hk
    interval_cases k
    · exact (Node.attr_withAttr_other hne).symm
    · rfl

theorem attr_finished (hmade : made.attr accessName = none) :
    (finishedNode i made).attr accessName = i.access := by
  have hne : accessName ≠ defaultName := by decide
  have hself : isParent accessName = false := by decide
  unfold finishedNode Inherited.toWrite
  cases i.access <;> cases i.default
  · exact hmade
  · exact (Node.attr_withAttr_other hne).trans hmade
  · exact Node.attr_withAttr_self hself
  · exact (Node.attr_withAttr_other hne).trans (Node.attr_withAttr_self hself)

theorem default_finished (hmade : made.attr defaultName = none) :
    (finishedNode i made).attr defaultName = i.default := by
  have hne : defaultName ≠ accessName := by decide
  have hself : isParent defaultName = false := by decide
  unfold finishedNode Inherited.toWrite
  cases i.access <;> cases i.default
  · exact hmade
  · exact Node.attr_withAttr_self hself
  · exact (Node.attr_withAttr_other hne).trans hmade
  · exact Node.attr_withAttr_self hself

theorem foldl_withAttr_core (todo : List (List UInt8 × List UInt8)) (node : Node) :
    (todo.foldl (fun node p => node.withAttr p.1 (some p.2)) node).mode = node.mode ∧
      (todo.foldl (fun node p => node.withAttr p.1 (some p.2)) node).uid = node.uid ∧
      (todo.foldl (fun node p => node.withAttr p.1 (some p.2)) node).gid = node.gid := by
  induction todo generalizing node with
  | nil => exact ⟨rfl, rfl, rfl⟩
  | cons p rest ih => exact ih (node.withAttr p.1 (some p.2))

theorem Node.grants_congr {node node' : Node} (hattr : node.attr accessName = node'.attr accessName)
    (hmode : node.mode = node'.mode) (huid : node.uid = node'.uid) (hgid : node.gid = node'.gid)
    {who : Subject UInt32 UInt32} {want : Set ℕ} (h : node.Grants who want) : node'.Grants who want := by
  unfold Node.Grants at h ⊢
  rwa [← hattr, ← hmode, ← huid, ← hgid]

end

/-- No record of a create under a valid default ACL leaves the inode granting what the finished one
does not, exactly where the default has no more than its three classes or keeps them closed. -/
theorem createInheriting_no_wider_iff {default sorted : List AclEntry} {rest : List State}
    {done : Except Error ℕ} {made : Node} {i : Inherited}
    (hdefault : acl s ans parent .default = .ok (some default)) (hvalid : valid default s.v5 = .ok sorted)
    (hinherited : inheritedAcl s ans parent (mode &&& 0o7777) (kind == .directory) = .ok (some i))
    (hrun : createInheriting s ans parent name mode kind = (s₁ :: rest, done))
    (hmade : s₁.node ans.slot = .ok made) :
    (∀ t ∈ s₁ :: rest, ∀ node, t.node ans.slot = .ok node → ∀ who want,
      node.Grants who want → (finishedNode i made).Grants who want) ↔
      default.length ≤ 3 ∨ KeepsClosed default mode ans.slotUid ans.slotGid := by
  obtain ⟨hlegal, -⟩ := valid_eq_ok.mp hvalid
  obtain ⟨hcreate, rfl⟩ := createInheriting_cases hinherited hrun
  obtain ⟨made', typed, htyped, -, hput, hmode, huid, hgid, hnone⟩ := create_spec hcreate
  rw [hput, State.put_self] at hmade
  obtain rfl := Except.ok.inj hmade
  obtain ⟨access, haccess, hbits, hstored, -⟩ := inheritedAcl_spec hdefault hinherited
  obtain ⟨access', haccess', hlegal', hlength, hmask', -⟩ := narrowed_spec (mode &&& 0o7777) hlegal
  obtain rfl := Except.ok.inj (haccess.symm.trans haccess')
  obtain ⟨hfmode, hfuid, hfgid⟩ := foldl_withAttr_core i.toWrite made'
  have hattr := attr_finished (i := i) (hnone accessName (by decide))
  have hfirst : (∀ t ∈ s₁ :: (writeEach ans ans.slot 1 s₁ i.toWrite).1, ∀ node,
      t.node ans.slot = .ok node → ∀ who want,
        node.Grants who want → (finishedNode i made').Grants who want) ↔
      ∀ who want, made'.Grants who want → (finishedNode i made').Grants who want := by
    have hmade' : s₁.node ans.slot = .ok made' := by rw [hput, State.put_self]
    constructor
    · exact fun h => h s₁ List.mem_cons_self made' hmade'
    · intro h t ht node hnode
      rcases List.mem_cons.mp ht with rfl | ht
      · rwa [Except.ok.inj (hnode.symm.trans hmade')]
      · obtain ⟨k, hk, rfl⟩ := writeEach_nodes hmade' ht hnode
        obtain ⟨hkmode, hkuid, hkgid⟩ := foldl_withAttr_core (i.toWrite.take (k + 1)) made'
        exact fun who want => Node.grants_congr (attr_written hk) (hkmode.trans hfmode.symm)
          (hkuid.trans hfuid.symm) (hkgid.trans hfgid.symm)
  rw [hfirst]
  by_cases hshort : default.length ≤ 3
  · refine iff_of_true (fun who want => Node.grants_congr ?_ hfmode.symm hfuid.symm hfgid.symm)
      (.inl hshort)
    change _ = (finishedNode i made').attr accessName
    rw [hattr, hstored, if_neg (by omega), hnone accessName (by decide)]
  · have hmask := hlegal.hasMask (by omega)
    rw [if_pos (by omega)] at hstored
    have hlow : made'.mode &&& 0o777 = modeOf access := by
      rw [hmode, made_low hlegal' hbits htyped]
    have hmadeGrants : ∀ who want, made'.Grants who want ↔
        (toAccess access).classes.Grants ans.slotUid ans.slotGid who want := by
      intro who want
      unfold Node.Grants
      rw [hnone accessName (by decide), huid, hgid, modeClasses_eq hlegal' (hmask'.trans hmask) hlow]
    have hfinishedGrants : ∀ who want, (finishedNode i made').Grants who want ↔
        (toAccess access).Grants ans.slotUid ans.slotGid who want := by
      intro who want
      unfold Node.Grants
      rw [hattr, hstored]
      have hu : (finishedNode i made').uid = ans.slotUid := hfuid.trans huid
      have hg : (finishedNode i made').gid = ans.slotGid := hfgid.trans hgid
      rw [hu, hg]
      simp [decode_encode hlegal'.length_lt]
    simp only [hmadeGrants, hfinishedGrants]
    rw [AccessList.classes_grant_iff (exists_unnamed hlegal' ans.slotUid), noWider_iff hlegal hmask haccess]
    have hsame : KeepsClosed default (mode &&& 0o7777) ans.slotUid ans.slotGid ↔
        KeepsClosed default mode ans.slotUid ans.slotGid := by
      obtain ⟨hm, ho⟩ := narrowed_low default mode
      constructor
      · rintro ⟨h1, h2, h3⟩
        rw [hm] at h1
        rw [hm, ho] at h2 h3
        exact ⟨h1, h2, h3⟩
      · rintro ⟨h1, h2, h3⟩
        rw [← hm] at h1
        rw [← hm, ← ho] at h2 h3
        exact ⟨h1, h2, h3⟩
    rw [hsame]
    exact (or_iff_right hshort).symm

end

/-! ## Two defaults -/

def parentNode (default : List AclEntry) : Node where
  mode := 0o040755
  version := 3
  uid := 0
  gid := 0
  gen := 1
  attrs := [⟨defaultName, encode default⟩]
  distinct := List.nodup_singleton _

def oneParent (default : List AclEntry) : State where
  v5 := true
  parents := false
  quotaAccounting := false
  node := fun ino => if ino = 128 then .ok (parentNode default) else .error .notFound

def calm : Answers where
  writable := .ok ()
  fork := fun _ => .ok ()
  record := fun _ => .ok ()
  made := .ok ()
  slot := 131
  slotUid := 500
  slotGid := 500
  slotGen := 6

def cutShort : Answers :=
  { calm with record := fun n => if n = 0 then .ok () else .error (.noSpace "the log is full") }

def openGroup : List AclEntry :=
  [⟨Tag.userObj, 0, 7⟩, ⟨Tag.groupObj, 0, 7⟩, ⟨Tag.mask, 0, 5⟩, ⟨Tag.other, 0, 0⟩]

theorem openGroup_inherited :
    inheritedAcl (oneParent openGroup) cutShort 128 (0o770 &&& 0o7777) (Kind.file == .directory) =
      .ok (some ⟨0o750, some (encode openGroup), none⟩) := by
  decide +kernel

theorem openGroup_run : createInheriting (oneParent openGroup) cutShort 128 [97] 0o770 .file =
    ([(oneParent openGroup).put 131 (madeNode cutShort 0o100750 none (by simp))],
      .error (.noSpace "the log is full")) :=
  rfl

theorem createInheriting_open_group :
    (createInheriting (oneParent openGroup) cutShort 128 [97] 0o770 .file).2 =
        .error (.noSpace "the log is full") ∧
      ∀ t ∈ (createInheriting (oneParent openGroup) cutShort 128 [97] 0o770 .file).1, ∀ node,
        t.node 131 = .ok node → ∀ who want, node.Grants who want →
          (finishedNode ⟨0o750, some (encode openGroup), none⟩
            (madeNode cutShort 0o100750 none (by simp))).Grants who want := by
  have hdefault : acl (oneParent openGroup) cutShort 128 .default = .ok (some openGroup) := by
    decide +kernel
  have hvalid : valid openGroup (oneParent openGroup).v5 = .ok openGroup := by decide +kernel
  have hclosed : KeepsClosed openGroup 0o770 cutShort.slotUid cutShort.slotGid :=
    ⟨by decide +kernel, by decide +kernel, by decide +kernel⟩
  exact ⟨rfl, (createInheriting_no_wider_iff hdefault hvalid openGroup_inherited openGroup_run
    (State.put_self ..)).mpr (.inr hclosed)⟩

def closedGroup : List AclEntry :=
  [⟨Tag.userObj, 0, 7⟩, ⟨Tag.user, 1000, 7⟩, ⟨Tag.groupObj, 0, 0⟩, ⟨Tag.mask, 0, 7⟩, ⟨Tag.other, 0, 0⟩]

theorem closedGroup_run : createInheriting (oneParent closedGroup) cutShort 128 [97] 0o770 .file =
    ([(oneParent closedGroup).put 131 (madeNode cutShort 0o100770 none (by simp))],
      .error (.noSpace "the log is full")) :=
  rfl

/-- The owning group has no permission in the ACL, and all of them until it is written. -/
theorem createInheriting_opens_group :
    valid closedGroup true = .ok closedGroup ∧
      inheritedAcl (oneParent closedGroup) cutShort 128 0o770 false =
        .ok (some ⟨0o770, some (encode closedGroup), none⟩) ∧
      ∃ t ∈ (createInheriting (oneParent closedGroup) cutShort 128 [97] 0o770 .file).1, ∃ node,
        t.node 131 = .ok node ∧ node.Grants ⟨1, {500}⟩ {2} ∧
          ¬(finishedNode ⟨0o770, some (encode closedGroup), none⟩ node).Grants ⟨1, {500}⟩ {2} := by
  have hapart : (1 : UInt32) ≠ 500 := by decide
  refine ⟨by decide +kernel, by decide +kernel, _, by rw [closedGroup_run]; exact List.mem_cons_self, _,
    State.put_self .., ?_, ?_⟩
  · refine Classes.Grants.group hapart rfl ?_
    rintro i rfl
    change Nat.testBit ((((0o100770 : UInt16) >>> 3) &&& 7).toNat) 2 = true
    decide +kernel
  · rintro ⟨entries, hentries, hgrants⟩
    rw [decode_encode (by decide)] at hentries
    cases hentries
    have hgroup := (hgrants.of_one_group hapart rfl (.inl rfl)).2
    rcases hgroup with ⟨-, hwithin⟩ | ⟨p, hp, -⟩
    · have hbit : Nat.testBit (permOf Tag.groupObj closedGroup).toNat 2 = true :=
        hwithin (Set.mem_singleton 2)
      exact absurd hbit (by decide +kernel)
    · exact absurd hp (by simp [toAccess, named, closedGroup, Tag.userObj, Tag.user, Tag.groupObj, Tag.mask,
        Tag.other, Tag.group])

end FsXfs.Acl
