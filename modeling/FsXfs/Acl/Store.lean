import FsXfs.Acl.Entries

/-!
# ACLs and modes as the driver writes them

`acl.rs`'s operations, `set_xattr`, `change_attributes` and an inheriting create, over the inodes they
change: a mode, its owners and the extended attributes. Where an attribute fork is laid out, the space
and quota it takes and the log are the answers of the rest of the driver, asked once a record.
-/

namespace FsXfs.Acl

open Bytes

set_option autoImplicit false

/-! ## Attributes -/

structure Xattr where
  name : List UInt8
  value : List UInt8
  deriving DecidableEq, Repr

-- `trusted.SGI_ACL_FILE`
def accessName : List UInt8 :=
  [116, 114, 117, 115, 116, 101, 100, 46, 83, 71, 73, 95, 65, 67, 76, 95, 70, 73, 76, 69]

-- `trusted.SGI_ACL_DEFAULT`
def defaultName : List UInt8 :=
  [116, 114, 117, 115, 116, 101, 100, 46, 83, 71, 73, 95, 65, 67, 76, 95, 68, 69, 70, 65, 85, 76, 84]

-- `system.posix_acl_access`
def posixAccessName : List UInt8 :=
  [115, 121, 115, 116, 101, 109, 46, 112, 111, 115, 105, 120, 95, 97, 99, 108, 95, 97, 99, 99, 101, 115,
    115]

-- `system.posix_acl_default`
def posixDefaultName : List UInt8 :=
  [115, 121, 115, 116, 101, 109, 46, 112, 111, 115, 105, 120, 95, 97, 99, 108, 95, 100, 101, 102, 97,
    117, 108, 116]

-- a NUL and `parent.`
def parentStart : List UInt8 :=
  [0, 112, 97, 114, 101, 110, 116, 46]

def userStart : List UInt8 :=
  [117, 115, 101, 114, 46]

def trustedStart : List UInt8 :=
  [116, 114, 117, 115, 116, 101, 100, 46]

def securityStart : List UInt8 :=
  [115, 101, 99, 117, 114, 105, 116, 121, 46]

def isParent (name : List UInt8) : Bool :=
  parentStart.isPrefixOf name

inductive XattrMode where
  | set
  | create
  | replace
  deriving DecidableEq, Repr

inductive AclKind where
  | access
  | default
  deriving DecidableEq, Repr

def AclKind.name : AclKind → List UInt8
  | .access => accessName
  | .default => defaultName

def nameParts (name : List UInt8) : Except Error (ℕ × List UInt8) := do
  if isParent name then do
    let short := name.drop parentStart.length
    ensure (short ≠ [] ∧ short.length ≤ 255)
      (.unsupportedFeature "a parent pointer's name must be 1..255 bytes")
    pure (8, short)
  else do
    let (namespace_, short) ←
      if userStart.isPrefixOf name then pure (0, name.drop userStart.length)
      else if trustedStart.isPrefixOf name then pure (2, name.drop trustedStart.length)
      else if securityStart.isPrefixOf name then pure (4, name.drop securityStart.length)
      else .error (.unsupportedFeature "supported attribute namespaces are user, trusted and security")
    ensure (short ≠ [] ∧ name.length ≤ 255 ∧ 0 ∉ name)
      (.unsupportedFeature
        "attribute names must contain 1..255 non-NUL bytes including the namespace")
    pure (namespace_, short)

/-! ## Inodes -/

/-- An inode, as far as modes and attributes go. No two attributes but parent pointers share a name. -/
structure Node where
  mode : UInt16
  version : ℕ
  uid : UInt32
  gid : UInt32
  gen : ℕ
  attrs : List Xattr
  distinct : ((attrs.filter fun a => !isParent a.name).map Xattr.name).Nodup

def Node.isDir (node : Node) : Bool :=
  node.mode &&& 0o170000 == 0o040000

def Node.attr (node : Node) (name : List UInt8) : Option (List UInt8) :=
  (node.attrs.find? fun a => a.name == name).map Xattr.value

structure State where
  v5 : Bool
  parents : Bool
  quotaAccounting : Bool
  node : ℕ → Except Error Node

/-- What one call is answered by the rest of the driver. -/
structure Answers where
  writable : Except Error Unit
  fork : ℕ → Except Error Unit
  -- layout, space, quota and the log, for each record of the call
  record : ℕ → Except Error Unit
  made : Except Error Unit
  slot : ℕ
  slotUid : UInt32
  slotGid : UInt32
  slotGen : ℕ

def State.put (s : State) (ino : ℕ) (node : Node) : State :=
  { s with node := Function.update s.node ino (.ok node) }

/-! ## Reading -/

def corrupt (ino : ℕ) (what : String) : Error :=
  .badSuperblock s!"inode {ino}: attribute fork: {what}"

def vfsEntry (ino : ℕ) (e : AclEntry) : Except Error (List UInt8) := do
  let id ←
    if Tag.names e.tag then pure e.id.toNat
    else if Tag.known e.tag then pure (2 ^ 32 - 1)
    else .error (corrupt ino s!"a stored ACL with the tag {e.tag}")
  pure (leBytes 2 e.tag.toNat ++ leBytes 2 e.perm.toNat ++ leBytes 4 id)

def vfsAcl (ino : ℕ) (stored : List UInt8) (v5 : Bool) : Except Error (List UInt8) := do
  ensure (xfsAclHdrSize ≤ stored.length) (corrupt ino s!"a stored ACL of {stored.length} bytes")
  let count := beValue (slice stored 0 4)
  ensure (count ≤ xfsAclMaxEntries v5)
    (corrupt ino s!"a stored ACL of {count} entries, past the {xfsAclMaxEntries v5} allowed")
  ensure (stored.length = xfsAclHdrSize + count * xfsAclEntrySize)
    (corrupt ino s!"a stored ACL of {count} entries in {stored.length} bytes")
  let shown ← (List.range count).mapM fun n =>
    vfsEntry ino (decodeEntry (slice stored (xfsAclHdrSize + xfsAclEntrySize * n) xfsAclEntrySize))
  pure (leBytes 4 2 ++ shown.flatten)

def viewName (name : List UInt8) : Option (List UInt8) :=
  if name = accessName then some posixAccessName
  else if name = defaultName then some posixDefaultName
  else none

def viewOf (ino : ℕ) (v5 : Bool) (a : Xattr) : Except Error (List Xattr) :=
  match viewName a.name with
  | some name => do
    let value ← vfsAcl ino a.value v5
    pure [⟨name, value⟩]
  | none => pure []

def withAclViews (ino : ℕ) (v5 : Bool) : List Xattr → Except Error (List Xattr)
  | [] => pure []
  | a :: rest => do
    let view ← viewOf ino v5 a
    let rest ← withAclViews ino v5 rest
    pure (view ++ a :: rest)

section

variable (s : State) (ans : Answers)

def listXattrs (ino : ℕ) (node : Node) : Except Error (List Xattr) := do
  ans.fork ino
  withAclViews ino s.v5 (node.attrs.filter fun a => !isParent a.name)

def acl (ino : ℕ) (kind : AclKind) : Except Error (Option (List AclEntry)) := do
  let node ← s.node ino
  let listed ← listXattrs s ans ino node
  match listed.find? fun a => a.name == kind.name with
  | some a => do
    let entries ← decode a.value
    pure (some entries)
  | none => pure none

end

/-! ## An attribute or a mode changed -/

theorem filter_eraseP_names_nodup {l : List Xattr} (keep : List UInt8 → Bool) (name : List UInt8)
    (h : ((l.filter fun a => keep a.name).map Xattr.name).Nodup) :
    (((l.eraseP fun a => a.name == name).filter fun a => keep a.name).map Xattr.name).Nodup :=
  h.sublist ((List.eraseP_sublist.filter _).map _)

theorem not_mem_eraseP {l : List Xattr} (keep : List UInt8 → Bool) {name : List UInt8}
    (hkeep : keep name = true) (h : ((l.filter fun a => keep a.name).map Xattr.name).Nodup) {a : Xattr}
    (ha : a ∈ l.eraseP fun a => a.name == name) : a.name ≠ name := by
  induction l with
  | nil => cases ha
  | cons b l ih =>
    by_cases hb : b.name = name
    · rw [List.eraseP_cons_of_pos (by simpa using hb)] at ha
      rw [List.filter_cons_of_pos (by rw [hb]; exact hkeep), List.map_cons, List.nodup_cons] at h
      intro heq
      refine h.1 (List.mem_map.mpr ⟨a, List.mem_filter.mpr ⟨ha, ?_⟩, heq.trans hb.symm⟩)
      rw [heq]
      exact hkeep
    · rw [List.eraseP_cons_of_neg (by simpa using hb)] at ha
      rcases List.mem_cons.mp ha with rfl | ha
      · exact hb
      · refine ih ?_ ha
        exact h.sublist (((List.sublist_cons_self b l).filter _).map _)

/-- The attribute of a name taken out, and one with a new value put at the end. -/
def Node.withAttr (node : Node) (name : List UInt8) (value : Option (List UInt8)) : Node where
  mode := node.mode
  version := node.version
  uid := node.uid
  gid := node.gid
  gen := node.gen
  attrs := (node.attrs.eraseP fun a => a.name == name) ++ value.toList.map fun v => ⟨name, v⟩
  distinct := by
    rw [List.filter_append, List.map_append]
    have hrest := filter_eraseP_names_nodup (fun n => !isParent n) name node.distinct
    cases value with
    | none => simpa using hrest
    | some v =>
      by_cases hparent : isParent name = true
      · simpa [hparent] using hrest
      · have hkeep : (!isParent name) = true := by simpa using hparent
        have hlast : [(⟨name, v⟩ : Xattr)].filter (fun a => !isParent a.name) = [⟨name, v⟩] := by
          simp [hkeep]
        rw [Option.toList_some, List.map_singleton, hlast, List.map_singleton]
        refine List.nodup_append.mpr ⟨hrest, List.nodup_singleton _, ?_⟩
        intro n hn m hm
        obtain ⟨a, ha, rfl⟩ := List.mem_map.mp hn
        obtain rfl := List.mem_singleton.mp hm
        exact not_mem_eraseP (fun n => !isParent n) hkeep node.distinct (List.mem_filter.mp ha).1

def Node.withMode (node : Node) (mode : UInt16) : Node :=
  { node with mode := mode }

section

variable {node : Node} {name other : List UInt8} {value : Option (List UInt8)}

theorem Node.attr_withAttr_self (h : isParent name = false) : (node.withAttr name value).attr name = value := by
  have hnone : (node.attrs.eraseP fun a => a.name == name).find? (fun a => a.name == name) = none := by
    refine List.find?_eq_none.mpr fun a ha => ?_
    simpa using not_mem_eraseP (fun n => !isParent n) (by simp [h]) node.distinct ha
  unfold attr withAttr
  rw [List.find?_append, hnone, Option.none_or]
  cases value with
  | none => rfl
  | some v => simp

theorem Node.attr_withAttr_other (h : other ≠ name) :
    (node.withAttr name value).attr other = node.attr other := by
  unfold attr withAttr
  rw [List.find?_append]
  have hlast : (value.toList.map fun v => (⟨name, v⟩ : Xattr)).find? (fun a => a.name == other) = none := by
    cases value with
    | none => rfl
    | some v => simpa using h.symm
  rw [hlast, Option.or_none]
  congr 1
  induction node.attrs with
  | nil => rfl
  | cons b l ih =>
    by_cases hb : b.name = name
    · rw [List.eraseP_cons_of_pos (by simpa using hb), List.find?_cons_of_neg (by simpa [hb] using h.symm)]
    · rw [List.eraseP_cons_of_neg (by simpa using hb), List.find?_cons, List.find?_cons, ih]

end

@[simp] theorem State.put_self (s : State) (ino : ℕ) (node : Node) :
    (s.put ino node).node ino = .ok node :=
  Function.update_self ..

theorem State.put_other {s : State} {ino other : ℕ} {node : Node} (h : other ≠ ino) :
    (s.put ino node).node other = s.node other :=
  Function.update_of_ne h ..

/-! ## Records -/

section

variable (s : State) (ans : Answers)

def replaced (mode bits : UInt16) : UInt16 :=
  (mode &&& ~~~0o7777) ||| (bits &&& 0o7777)

def writeXattr (n : ℕ) (ino : ℕ) (name : List UInt8) (change : Option (List UInt8 × XattrMode))
    (permissions : Option UInt16) : Except Error State := do
  ans.writable
  ensure (s.v5 = true) (.unsupportedFeature "attribute writes require v5 metadata")
  let _ ← nameParts name
  ensure ((change.all fun c => decide (c.1.length ≤ xfsAttrValueMax)) = true)
    (.unsupportedFeature "attribute values exceed 65536 bytes")
  let node ← s.node ino
  ans.fork ino
  -- `validate_attribute_fork`, to which a parent pointer is an attribute a rewrite would drop
  ensure (∀ a ∈ node.attrs, isParent a.name = false)
    (.unsupportedFeature "unrecognized or incomplete stored attribute")
  match change.map Prod.snd, node.attr name with
  | some .create, some _ => .error .alreadyExists
  | some .replace, none => .error .notFound
  | none, none => .error .notFound
  | _, _ => do
    ans.record n
    pure (s.put ino ((node.withAttr name (change.map Prod.fst)).withMode
      (permissions.elim node.mode (replaced node.mode))))

def setPermissions (n : ℕ) (ino : ℕ) (bits : UInt16) : Except Error State := do
  let node ← s.node ino
  ans.writable
  ans.record n
  pure (s.put ino (node.withMode (replaced node.mode bits)))

end

section

variable {s s' : State} {ans : Answers} {n ino : ℕ}

theorem writeXattr_spec {name : List UInt8} {change : Option (List UInt8 × XattrMode)}
    {permissions : Option UInt16} (h : writeXattr s ans n ino name change permissions = .ok s') :
    ∃ node, s.node ino = .ok node ∧ s' = s.put ino ((node.withAttr name (change.map Prod.fst)).withMode
      (permissions.elim node.mode (replaced node.mode))) := by
  unfold writeXattr at h
  simp only [bind_eq_ok] at h
  obtain ⟨-, -, -, -, -, -, -, -, node, hnode, -, -, -, -, h⟩ := h
  refine ⟨node, hnode, ?_⟩
  split at h
  next => cases h
  next => cases h
  next => cases h
  next =>
    obtain ⟨-, -, h⟩ := bind_eq_ok.mp h
    exact (Except.ok.inj h).symm

theorem find?_withAclViews {v5 : Bool} {l listed : List Xattr} {kind : AclKind}
    (h : withAclViews ino v5 l = .ok listed) :
    (listed.find? fun a => a.name == kind.name) = l.find? fun a => a.name == kind.name := by
  have hview : ∀ {name view : List UInt8}, viewName name = some view → (view == kind.name) = false := by
    intro name view hname
    unfold viewName at hname
    split_ifs at hname <;> obtain rfl := Option.some.inj hname <;> cases kind <;> rfl
  induction l generalizing listed with
  | nil =>
    cases h
    rfl
  | cons a l ih =>
    obtain ⟨view, hv, h⟩ := bind_eq_ok.mp h
    obtain ⟨rest, hrest, h⟩ := bind_eq_ok.mp h
    cases h
    have hnone : view.find? (fun a => a.name == kind.name) = none := by
      unfold viewOf at hv
      split at hv
      next name hname =>
        obtain ⟨value, -, hv⟩ := bind_eq_ok.mp hv
        cases hv
        rw [List.find?_cons, hview hname]
        rfl
      next =>
        cases hv
        rfl
    rw [List.find?_append, hnone, Option.none_or, List.find?_cons, List.find?_cons, ih hrest]

theorem acl_eq {kind : AclKind} {r : Option (List AclEntry)} (h : acl s ans ino kind = .ok r) :
    ∃ node, s.node ino = .ok node ∧
      (node.attr kind.name = none ∧ r = none ∨
        ∃ value entries, node.attr kind.name = some value ∧ decode value = .ok entries ∧ r = some entries) := by
  obtain ⟨node, hnode, h⟩ := bind_eq_ok.mp h
  obtain ⟨listed, hlisted, h⟩ := bind_eq_ok.mp h
  obtain ⟨-, -, hlisted⟩ := bind_eq_ok.mp hlisted
  have hfilter : ((node.attrs.filter fun a => !isParent a.name).find? fun a => a.name == kind.name) =
      node.attrs.find? fun a => a.name == kind.name := by
    rw [List.find?_filter]
    congr 1
    funext a
    by_cases ha : a.name = kind.name
    · rw [ha]
      cases kind <;> rfl
    · simp [ha]
  rw [find?_withAclViews hlisted, hfilter] at h
  refine ⟨node, hnode, ?_⟩
  unfold Node.attr
  split at h
  next a ha =>
    obtain ⟨entries, hentries, h⟩ := bind_eq_ok.mp h
    exact .inr ⟨a.value, entries, by rw [ha]; rfl, hentries, (Except.ok.inj h).symm⟩
  next hnone => exact .inl ⟨by rw [hnone]; rfl, (Except.ok.inj h).symm⟩

end

/-! ## Operations -/

section

variable (s : State) (ans : Answers)

def setAcl (ino : ℕ) (kind : AclKind) (entries : List AclEntry) : Except Error State := do
  let entries ← valid entries s.v5
  let node ← s.node ino
  match kind with
  | .default => do
    ensure (node.isDir = true) .notADirectory
    writeXattr s ans 0 ino defaultName (some (encode entries, .set)) none
  | .access => do
    let bits := (node.mode &&& ~~~0o777 &&& 0o7777) ||| modeOf entries
    let stored ← acl s ans ino .access
    if entries.length = 3 then
      if stored.isSome then writeXattr s ans 0 ino accessName none (some bits)
      else setPermissions s ans 0 ino bits
    else writeXattr s ans 0 ino accessName (some (encode entries, .set)) (some bits)

def removeAcl (ino : ℕ) (kind : AclKind) : Except Error State :=
  writeXattr s ans 0 ino kind.name none none

def chmod (ino : ℕ) (permissions : UInt16) : Except Error State := do
  let bits := permissions &&& 0o7777
  match ← acl s ans ino .access with
  | some entries => do
    let entries ← withBits entries bits
    writeXattr s ans 0 ino accessName (some (encode entries, .replace)) (some bits)
  | none => setPermissions s ans 0 ino bits

-- `set_xattr` and `remove_xattr`
def changeXattr (ino : ℕ) (name : List UInt8) (change : Option (List UInt8 × XattrMode)) :
    Except Error State := do
  ensure (name ≠ accessName ∧ name ≠ defaultName)
    (.unsupportedFeature "ACL attributes require an ACL operation")
  ensure (isParent name = false)
    (.unsupportedFeature "supported attribute namespaces are user, trusted and security")
  writeXattr s ans 0 ino name change none

/-- `AttrChange`, with its three times as whether any is given. -/
structure AttrChange where
  permissions : Option UInt16
  uid : Option UInt32
  gid : Option UInt32
  times : Bool
  deriving DecidableEq, Repr

def AttrChange.isEmpty (change : AttrChange) : Bool :=
  change.permissions.isNone && change.uid.isNone && change.gid.isNone && !change.times

def refuseAttributeChange (ino : ℕ) (node : Node) (change : AttrChange) : Except Error Unit := do
  ensure (s.quotaAccounting = false ∨
      (change.uid.all (· == node.uid)) = true ∧ (change.gid.all (· == node.gid)) = true)
    (.unsupportedFeature s!"changing ownership of inode {ino} while quota accounting is enabled would move its usage; ownership transfer is not implemented")
  ensure (3 ≤ node.version)
    (.unsupportedFeature s!"inode {ino} is version {node.version}, which has no CRC and stores a different core")
  ensure ((change.permissions.all fun perms => perms &&& ~~~0o7777 == 0) = true)
    (.unsupportedFeature s!"inode {ino}: bits outside the permission mask, which would change the file's type")

def applyChange (node : Node) (change : AttrChange) : Node :=
  { node with
    mode := change.permissions.elim node.mode fun perms => (node.mode &&& ~~~0o7777) ||| perms
    uid := change.uid.getD node.uid
    gid := change.gid.getD node.gid }

def logChange (s : State) (n ino : ℕ) (rest : AttrChange) : Except Error State := do
  let node ← s.node ino
  ans.writable
  ans.record n
  pure (s.put ino (applyChange node rest))

def changeAttributes (ino : ℕ) (change : AttrChange) : Except Error State := do
  ans.writable
  ensure (s.v5 = true)
    (.unsupportedFeature
      "logging an attribute change writes v5 metadata; a v4 filesystem is not supported")
  if change.isEmpty then pure s
  else do
    let node ← s.node ino
    refuseAttributeChange s ino node change
    match change.permissions with
    | some perms => do
      if (← acl s ans ino .access).isSome then do
        let s₁ ← chmod s ans ino perms
        let rest := { change with permissions := none }
        if rest.isEmpty then pure s₁ else logChange ans s₁ 1 ino rest
      else logChange ans s 1 ino change
    | none => logChange ans s 1 ino change

end

/-! ## Creating -/

inductive Kind where
  | file
  | directory
  deriving DecidableEq, Repr

def Kind.typeBits : Kind → UInt16
  | .file => 0o100000
  | .directory => 0o040000

def Kind.shown : Kind → String
  | .file => "a regular file"
  | .directory => "a directory"

def typedMode (mode : UInt16) (kind : Kind) : Except Error UInt16 :=
  if mode &&& 0o170000 = 0 then .ok (mode ||| kind.typeBits)
  else if mode &&& 0o170000 = kind.typeBits then .ok mode
  else .error (.unsupportedFeature s!"mode {mode} has type bits {mode &&& 0o170000}, and creating {kind.shown} makes type {kind.typeBits}; pass the permissions alone, or with the matching type")

/-- `Inherited`: the narrowed permission bits, and the two ACLs to write. -/
structure Inherited where
  bits : UInt16
  access : Option (List UInt8)
  default : Option (List UInt8)
  deriving DecidableEq, Repr

section

variable (s : State) (ans : Answers)

def inheritedAcl (parent : ℕ) (mode : UInt16) (isDir : Bool) : Except Error (Option Inherited) := do
  match ← acl s ans parent .default with
  | none => pure none
  | some default => do
    let access ← narrowed default mode
    pure (some
      { bits := (mode &&& ~~~0o777 &&& 0o7777) ||| modeOf access
        access := if 3 < access.length then some (encode access) else none
        default := if isDir then some (encode default) else none })

def parentFork (name : List UInt8) (parent generation : ℕ) : Xattr :=
  ⟨parentStart ++ name, beBytes 8 parent ++ beBytes 4 generation⟩

def madeNode (mode : UInt16) (pointer : Option Xattr) (h : ∀ a ∈ pointer, isParent a.name = true) : Node where
  mode := mode
  version := 3
  uid := ans.slotUid
  gid := ans.slotGid
  gen := (ans.slotGen + 1) % 2 ^ 32
  attrs := pointer.toList
  distinct := by
    cases pointer with
    | none => exact List.nodup_nil
    | some a => simp [h a rfl]

theorem isParent_parentFork (name : List UInt8) (parent generation : ℕ) :
    isParent (parentFork name parent generation).name = true := by
  simp [isParent, parentFork, List.isPrefixOf_iff_prefix]

def create (parent : ℕ) (name : List UInt8) (mode : UInt16) (kind : Kind) : Except Error (ℕ × State) := do
  ans.writable
  ensure (s.v5 = true)
    (.unsupportedFeature "creating writes v5 metadata; a v4 filesystem is not supported")
  let mode ← typedMode mode kind
  let dir ← s.node parent
  ensure (dir.isDir = true) .notADirectory
  ans.made
  let pointer := if s.parents then some (parentFork name parent dir.gen) else none
  let node := madeNode ans mode pointer (by
    intro a ha
    dsimp only [pointer] at ha
    split at ha
    · obtain rfl := Option.mem_some_iff.mp ha
      exact isParent_parentFork name parent dir.gen
    · cases ha)
  pure (ans.slot, s.put ans.slot node)

/-- The states after each of some new attributes, a record each, and whether all were written. -/
def writeEach (ino : ℕ) : ℕ → State → List (List UInt8 × List UInt8) → List State × Except Error Unit
  | _, _, [] => ([], .ok ())
  | n, s, (name, bytes) :: rest =>
    match writeXattr s ans n ino name (some (bytes, .create)) none with
    | .error e => ([], .error e)
    | .ok s₁ =>
      let (states, done) := writeEach ino (n + 1) s₁ rest
      (s₁ :: states, done)

def Inherited.toWrite (inherited : Inherited) : List (List UInt8 × List UInt8) :=
  (inherited.access.toList.map fun bytes => (accessName, bytes)) ++
    inherited.default.toList.map fun bytes => (defaultName, bytes)

def writeInheritedAcl (ino : ℕ) (inherited : Inherited) : List State × Except Error Unit :=
  writeEach ans ino 1 s inherited.toWrite

/-- The states after each record of a create, and the inode it returned. -/
def createInheriting (parent : ℕ) (name : List UInt8) (mode : UInt16) (kind : Kind) :
    List State × Except Error ℕ :=
  match inheritedAcl s ans parent (mode &&& 0o7777) (kind == .directory) with
  | .error e => ([], .error e)
  | .ok inherited =>
    let mode := inherited.elim mode fun i => (mode &&& ~~~0o7777) ||| i.bits
    match create s ans parent name mode kind with
    | .error e => ([], .error e)
    | .ok (ino, s₁) =>
      match inherited with
      | none => ([s₁], .ok ino)
      | some i =>
        let (states, done) := writeInheritedAcl s₁ ans ino i
        (s₁ :: states, done.map fun _ => ino)

end

end FsXfs.Acl
