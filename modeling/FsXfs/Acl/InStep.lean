import FsXfs.Acl.Inherit
import FsXfs.Names.Relinking
import Mathlib.Logic.Relation

/-!
# An access ACL and its mode kept in step

The owner, group-class and other entries of an access ACL are the permission bits of the mode, and
every operation that changes either changes both, or refuses.

What a create inherits is taken as it is stored, so the default ACLs have to be valid too.
-/

namespace FsXfs.Acl

open Bytes Relation

set_option autoImplicit false

/-! ## In step -/

def Stored (v5 : Bool) (value : List UInt8) (entries : List AclEntry) : Prop :=
  decode value = .ok entries ∧ ∃ sorted, valid entries v5 = .ok sorted

def Node.InStep (v5 : Bool) (node : Node) : Prop :=
  ∀ value, node.attr accessName = some value → ∃ entries, Stored v5 value entries ∧
    modeOf entries = node.mode &&& 0o777 ∧ 3 < entries.length

def Node.DefaultValid (v5 : Bool) (node : Node) : Prop :=
  ∀ value, node.attr defaultName = some value → ∃ entries, Stored v5 value entries

def State.InStep (s : State) : Prop :=
  ∀ ino node, s.node ino = .ok node → node.InStep s.v5

def State.DefaultsValid (s : State) : Prop :=
  ∀ ino node, s.node ino = .ok node → node.DefaultValid s.v5

structure State.Sound (s : State) : Prop where
  inStep : s.InStep
  defaults : s.DefaultsValid

section

variable {s : State} {ino : ℕ} {node : Node} {v5 : Bool} {entries : List AclEntry}

theorem State.put_all {P : Node → Prop} (h : ∀ i n, s.node i = .ok n → P n) (hnode : P node) :
    ∀ i n, (s.put ino node).node i = .ok n → P n := by
  intro other node' hnode'
  by_cases heq : other = ino
  · subst heq
    rw [State.put_self] at hnode'
    exact Except.ok.inj hnode' ▸ hnode
  · rw [State.put_other heq] at hnode'
    exact h other node' hnode'

theorem State.Sound.put (h : s.Sound) (hstep : node.InStep s.v5) (hdefault : node.DefaultValid s.v5) :
    (s.put ino node).Sound :=
  ⟨State.put_all h.inStep hstep, State.put_all h.defaults hdefault⟩

theorem stored_encode (h : Legal entries v5) : Stored v5 (encode entries) entries :=
  ⟨decode_encode h.length_lt, sortedPlain entries, valid_eq_ok.mpr ⟨h, rfl⟩⟩

theorem Stored.legal {value : List UInt8} (h : Stored v5 value entries) : Legal entries v5 := by
  obtain ⟨-, sorted, hvalid⟩ := h
  exact (valid_eq_ok.mp hvalid).1

theorem Node.inStep_of_none (h : node.attr accessName = none) : node.InStep v5 := by
  intro value hvalue
  cases h.symm.trans hvalue

theorem Node.inStep_of_encode (h : Legal entries v5) (hlength : 3 < entries.length)
    (hattr : node.attr accessName = some (encode entries)) (hmode : node.mode &&& 0o777 = modeOf entries) :
    node.InStep v5 := by
  intro value hvalue
  obtain rfl := Option.some.inj (hattr.symm.trans hvalue)
  exact ⟨entries, stored_encode h, hmode.symm, hlength⟩

theorem Node.InStep.congr {node' : Node} (h : node.InStep v5)
    (hattr : node'.attr accessName = node.attr accessName) (hmode : node'.mode = node.mode) :
    node'.InStep v5 := by
  intro value hvalue
  rw [hmode]
  exact h value (hattr.symm.trans hvalue)

theorem Node.DefaultValid.congr {node' : Node} (h : node.DefaultValid v5)
    (hattr : node'.attr defaultName = node.attr defaultName) : node'.DefaultValid v5 :=
  fun value hvalue => h value (hattr.symm.trans hvalue)

theorem Node.defaultValid_of_encode (h : Legal entries v5)
    (hattr : node.attr defaultName = some (encode entries)) : node.DefaultValid v5 := by
  intro value hvalue
  obtain rfl := Option.some.inj (hattr.symm.trans hvalue)
  exact ⟨entries, stored_encode h⟩

theorem Node.defaultValid_of_none (h : node.attr defaultName = none) : node.DefaultValid v5 := by
  intro value hvalue
  cases h.symm.trans hvalue

end

/-! ## Bits of a mode -/

theorem replaced_bits (mode bits : UInt16) : replaced mode bits &&& 0o777 = bits &&& 0o777 ∧
    replaced mode bits &&& 0o7000 = bits &&& 0o7000 := by
  simp [replaced, or_and, UInt16.and_assoc, masks]

theorem kept_bits (mode : UInt16) {low : UInt16} (h : low &&& 0o777 = low) :
    ((mode &&& ~~~0o777 &&& 0o7777) ||| low) &&& 0o777 = low ∧
      ((mode &&& ~~~0o777 &&& 0o7777) ||| low) &&& 0o7000 = mode &&& 0o7000 := by
  rw [← h]
  simp [or_and, UInt16.and_assoc, masks]

theorem inherited_special {mode low : UInt16} (h : low &&& 0o777 = low) :
    ((mode &&& ~~~0o7777) ||| ((mode &&& 0o7777 &&& ~~~0o777 &&& 0o7777) ||| low)) &&& 0o7000 =
      mode &&& 0o7000 := by
  rw [← h]
  simp [or_and, UInt16.and_assoc, masks]

theorem withBits_spec {entries : List AclEntry} {v5 : Bool} (h : Legal entries v5) (bits : UInt16) :
    ∃ changed, withBits entries bits = .ok changed ∧ Legal changed v5 ∧
      changed.length = entries.length ∧ modeOf changed = bits &&& 0o777 := by
  refine ⟨_, withClasses_eq h, ?_, List.length_map _, ?_⟩
  · exact h.retouched fun e he => byClass_le (fun _ _ => and_le_right _ _) (fun _ _ => and_le_right _ _)
      (fun _ _ => and_le_right _ _) e.tag (h.checked e he).2
  · have howner : 0 < count Tag.userObj entries := h.owner ▸ Nat.one_pos
    have hgroup : 0 < count Tag.groupObj entries := h.group ▸ Nat.one_pos
    have hother : 0 < count Tag.other entries := h.other ▸ Nat.one_pos
    rw [modeOf, hasMask_retouch, permOf_retouch howner, permOf_retouch hgroup, permOf_retouch hother,
      ← modeBits_of_bits]
    cases hmask : hasMask entries with
    | true =>
      rw [if_pos rfl, permOf_retouch (hasMask_iff.mp hmask)]
      rfl
    | false => rfl

/-! ## Operations -/

section

variable {s s' : State} {ans : Answers} {ino : ℕ}

theorem accessName_facts : isParent accessName = false ∧ isParent defaultName = false ∧
    accessName ≠ defaultName ∧ defaultName ≠ accessName := by
  decide

/-- The special bits of the one inode a call is about, and every other inode as it was. -/
structure Asked (s s' : State) (ino : ℕ) (bits : UInt16) : Prop where
  special : ∀ node, s'.node ino = .ok node → node.mode &&& 0o7000 = bits
  others : ∀ other, other ≠ ino → s'.node other = s.node other

def State.special (s : State) (ino : ℕ) : UInt16 :=
  ((s.node ino).toOption.elim 0 Node.mode) &&& 0o7000

variable {node : Node} {bits : UInt16} {n : ℕ} {name : List UInt8} {entries : List AclEntry}
  {kind : AclKind}

theorem State.special_eq (h : s.node ino = .ok node) : s.special ino = node.mode &&& 0o7000 := by
  unfold special
  rw [h]
  rfl

theorem asked_put (h : node.mode &&& 0o7000 = bits) : Asked s (s.put ino node) ino bits := by
  constructor
  · intro node' hnode'
    rw [State.put_self] at hnode'
    exact Except.ok.inj hnode' ▸ h
  · exact fun other hother => State.put_other hother

theorem writeXattr_removed {permissions : Option UInt16} (hs : s.Sound)
    (h : writeXattr s ans n ino accessName none permissions = .ok s') :
    s'.Sound ∧ Asked s s' ino (permissions.elim (s.special ino) (· &&& 0o7000)) := by
  obtain ⟨hself, -, -, hne⟩ := accessName_facts
  obtain ⟨node, hnode, rfl⟩ := writeXattr_spec h
  refine ⟨hs.put ?_ ?_, asked_put ?_⟩
  · exact Node.inStep_of_none (Node.attr_withAttr_self hself)
  · exact (hs.defaults ino node hnode).congr (Node.attr_withAttr_other hne)
  · cases permissions with
    | none => exact (State.special_eq hnode).symm
    | some bits => exact (replaced_bits node.mode bits).2

theorem writeXattr_access {how : XattrMode}
    (hs : s.Sound) (hlegal : Legal entries s.v5) (hlength : 3 < entries.length)
    (hbits : bits &&& 0o777 = modeOf entries)
    (h : writeXattr s ans n ino accessName (some (encode entries, how)) (some bits) = .ok s') :
    s'.Sound ∧ Asked s s' ino (bits &&& 0o7000) := by
  obtain ⟨hself, -, -, hne⟩ := accessName_facts
  obtain ⟨node, hnode, rfl⟩ := writeXattr_spec h
  obtain ⟨hlow, hspecial⟩ := replaced_bits node.mode bits
  refine ⟨hs.put ?_ ?_, asked_put hspecial⟩
  · exact Node.inStep_of_encode hlegal hlength (Node.attr_withAttr_self hself) (hlow.trans hbits)
  · exact (hs.defaults ino node hnode).congr (Node.attr_withAttr_other hne)

theorem setPermissions_sound (hs : s.Sound)
    (hnone : ∀ node, s.node ino = .ok node → node.attr accessName = none)
    (h : setPermissions s ans n ino bits = .ok s') : s'.Sound ∧ Asked s s' ino (bits &&& 0o7000) := by
  obtain ⟨node, hnode, h⟩ := bind_eq_ok.mp h
  obtain ⟨-, -, h⟩ := bind_eq_ok.mp h
  obtain ⟨-, -, h⟩ := bind_eq_ok.mp h
  cases h
  refine ⟨hs.put (Node.inStep_of_none (hnone node hnode)) ?_, asked_put (replaced_bits node.mode bits).2⟩
  exact (hs.defaults ino node hnode).congr rfl

theorem acl_none (h : acl s ans ino kind = .ok none)
    (hnode : s.node ino = .ok node) : node.attr kind.name = none := by
  obtain ⟨node', hnode', ⟨hnone, -⟩ | ⟨_, _, -, -, hsome⟩⟩ := acl_eq h
  · rwa [Except.ok.inj (hnode.symm.trans hnode')]
  · cases hsome

theorem acl_some (h : acl s ans ino kind = .ok (some entries)) :
    ∃ node value, s.node ino = .ok node ∧ node.attr kind.name = some value ∧ decode value = .ok entries := by
  obtain ⟨node, hnode, ⟨-, hnone⟩ | ⟨value, entries', hvalue, hdecode, hsome⟩⟩ := acl_eq h
  · cases hnone
  · cases hsome
    exact ⟨node, value, hnode, hvalue, hdecode⟩

theorem setAcl_sound (hs : s.Sound)
    (h : setAcl s ans ino kind entries = .ok s') : s'.Sound ∧ Asked s s' ino (s.special ino) := by
  obtain ⟨sorted, hvalid, h⟩ := bind_eq_ok.mp h
  obtain ⟨node, hnode, h⟩ := bind_eq_ok.mp h
  obtain ⟨hlegal, rfl⟩ := valid_eq_ok.mp hvalid
  obtain ⟨hlow, hspecial⟩ := kept_bits node.mode (modeOf_low hlegal.sorted)
  cases kind with
  | default =>
    obtain ⟨-, -, h⟩ := bind_eq_ok.mp h
    obtain ⟨-, hself, hne, -⟩ := accessName_facts
    obtain ⟨node, hnode, rfl⟩ := writeXattr_spec h
    refine ⟨hs.put ?_ ?_, asked_put (State.special_eq hnode).symm⟩
    · exact (hs.inStep ino node hnode).congr (Node.attr_withAttr_other hne) rfl
    · exact Node.defaultValid_of_encode hlegal.sorted (Node.attr_withAttr_self hself)
  | access =>
    obtain ⟨stored, hstored, h⟩ := bind_eq_ok.mp h
    rw [State.special_eq hnode, ← hspecial]
    split_ifs at h with hthree hsome
    · exact writeXattr_removed hs h
    · obtain rfl : stored = none := by simpa using hsome
      exact setPermissions_sound hs (fun _ hnode' => acl_none hstored hnode') h
    · exact writeXattr_access hs hlegal.sorted (Nat.lt_of_le_of_ne hlegal.sorted.three_le (Ne.symm hthree))
        hlow h

theorem removeAcl_sound (hs : s.Sound) (h : removeAcl s ans ino kind = .ok s') :
    s'.Sound ∧ Asked s s' ino (s.special ino) := by
  cases kind with
  | access => exact writeXattr_removed hs h
  | default =>
    obtain ⟨-, hself, hne, -⟩ := accessName_facts
    obtain ⟨node, hnode, rfl⟩ := writeXattr_spec h
    refine ⟨hs.put ?_ ?_, asked_put (State.special_eq hnode).symm⟩
    · exact (hs.inStep ino node hnode).congr (Node.attr_withAttr_other hne) rfl
    · exact Node.defaultValid_of_none (Node.attr_withAttr_self hself)

theorem chmod_sound {permissions : UInt16} (hs : s.Sound) (h : chmod s ans ino permissions = .ok s') :
    s'.Sound ∧ Asked s s' ino (permissions &&& 0o7000) := by
  have hmask : permissions &&& 0o7777 &&& 0o7000 = permissions &&& 0o7000 := by
    rw [UInt16.and_assoc]
    rfl
  obtain ⟨stored, hstored, h⟩ := bind_eq_ok.mp h
  cases stored with
  | none =>
    rw [← hmask]
    exact setPermissions_sound hs (fun _ hnode => acl_none hstored hnode) h
  | some entries =>
    obtain ⟨changed, hchanged, h⟩ := bind_eq_ok.mp h
    obtain ⟨node, value, hnode, hvalue, hdecode⟩ := acl_some hstored
    obtain ⟨entries', hentries', -, hlength⟩ := hs.inStep ino node hnode value hvalue
    obtain rfl := Except.ok.inj (hdecode.symm.trans hentries'.1)
    obtain ⟨changed', hchanged', hlegal, hlength', hbits⟩ :=
      withBits_spec hentries'.legal (permissions &&& 0o7777)
    obtain rfl := Except.ok.inj (hchanged.symm.trans hchanged')
    rw [← hmask]
    exact writeXattr_access hs hlegal (by omega) hbits.symm h

theorem changeXattr_sound {change : Option (List UInt8 × XattrMode)} (hs : s.Sound)
    (h : changeXattr s ans ino name change = .ok s') : s'.Sound ∧ Asked s s' ino (s.special ino) := by
  obtain ⟨_, hnames, h⟩ := bind_eq_ok.mp h
  obtain ⟨-, -, h⟩ := bind_eq_ok.mp h
  obtain ⟨haccess, hdefault⟩ := ensure_eq_ok.mp hnames
  obtain ⟨node, hnode, rfl⟩ := writeXattr_spec h
  refine ⟨hs.put ?_ ?_, asked_put (State.special_eq hnode).symm⟩
  · exact (hs.inStep ino node hnode).congr (Node.attr_withAttr_other (Ne.symm haccess)) rfl
  · exact (hs.defaults ino node hnode).congr (Node.attr_withAttr_other (Ne.symm hdefault))

theorem logChange_sound {rest : AttrChange} (hs : s.Sound)
    (hacl : rest.permissions = none ∨ ∀ node, s.node ino = .ok node → node.attr accessName = none)
    (h : logChange ans s n ino rest = .ok s') :
    s'.Sound ∧ Asked s s' ino (rest.permissions.elim (s.special ino) (· &&& 0o7000)) := by
  obtain ⟨node, hnode, h⟩ := bind_eq_ok.mp h
  obtain ⟨-, -, h⟩ := bind_eq_ok.mp h
  obtain ⟨-, -, h⟩ := bind_eq_ok.mp h
  cases h
  refine ⟨hs.put ?_ ((hs.defaults ino node hnode).congr rfl), asked_put ?_⟩
  · rcases hacl with hnone | hnone
    · refine (hs.inStep ino node hnode).congr rfl ?_
      rw [applyChange, hnone]
      rfl
    · exact Node.inStep_of_none (hnone node hnode)
  · unfold applyChange
    cases rest.permissions with
    | none => exact (State.special_eq hnode).symm
    | some perms =>
      change ((node.mode &&& ~~~0o7777) ||| perms) &&& 0o7000 = perms &&& 0o7000
      simp [or_and, UInt16.and_assoc, masks]

theorem Asked.trans {s₁ : State} (h : Asked s s₁ ino bits)
    (h' : Asked s₁ s' ino (s₁.special ino)) (hnode : s₁.node ino = .ok node) :
    Asked s s' ino bits := by
  constructor
  · intro node' hnode'
    rw [h'.special node' hnode', State.special_eq hnode, h.special node hnode]
  · intro other hother
    rw [h'.others other hother, h.others other hother]

theorem changeAttributes_sound {change : AttrChange} (hs : s.Sound)
    (h : changeAttributes s ans ino change = .ok s') :
    s'.Sound ∧ Asked s s' ino (change.permissions.elim (s.special ino) (· &&& 0o7000)) := by
  obtain ⟨-, -, h⟩ := bind_eq_ok.mp h
  obtain ⟨-, -, h⟩ := bind_eq_ok.mp h
  split at h
  next hempty =>
    cases h
    have hnone : change.permissions = none := by
      simp only [AttrChange.isEmpty, Bool.and_eq_true, Option.isNone_iff_eq_none] at hempty
      exact hempty.1.1.1
    rw [hnone]
    exact ⟨hs, fun node hnode => (State.special_eq hnode).symm, fun _ _ => rfl⟩
  next =>
    obtain ⟨node, -, h⟩ := bind_eq_ok.mp h
    obtain ⟨-, -, h⟩ := bind_eq_ok.mp h
    split at h
    next perms hperms =>
      obtain ⟨stored, hstored, h⟩ := bind_eq_ok.mp h
      split at h
      next =>
        obtain ⟨s₁, hchmod, h⟩ := bind_eq_ok.mp h
        obtain ⟨hs₁, hasked⟩ := chmod_sound hs hchmod
        rw [hperms]
        dsimp only at h
        split at h
        next =>
          cases h
          exact ⟨hs₁, hasked⟩
        next =>
          obtain ⟨hs', hasked'⟩ := logChange_sound hs₁ (.inl rfl) h
          obtain ⟨node₁, hnode₁, -⟩ := bind_eq_ok.mp h
          exact ⟨hs', hasked.trans hasked' hnode₁⟩
      next hsome =>
        obtain rfl : stored = none := by simpa using hsome
        exact logChange_sound hs (.inr fun _ hnode => acl_none hstored hnode) h
    next hperms => exact logChange_sound hs (.inl hperms) h

/-! ## An inheriting create -/

@[simp] theorem State.put_put (s : State) (ino : ℕ) (node node' : Node) :
    (s.put ino node).put ino node' = s.put ino node' := by
  unfold State.put
  simp

theorem writeEach_done {todo : List (List UInt8 × List UInt8)} {made : Node}
    (h : (writeEach ans ino n (s.put ino made) todo).2 = .ok ()) :
    ((writeEach ans ino n (s.put ino made) todo).1.getLast?.getD (s.put ino made)) =
      s.put ino (todo.foldl (fun node p => node.withAttr p.1 (some p.2)) made) := by
  induction todo generalizing n made with
  | nil => rfl
  | cons p rest ih =>
    rw [writeEach] at h ⊢
    split at h
    next => cases h
    next s₁ hs₁ =>
      obtain ⟨made', hmade', rfl⟩ := writeXattr_spec hs₁
      rw [State.put_self] at hmade'
      cases hmade'
      rw [State.put_put] at h ⊢
      have hlast := ih h
      simp only [List.getLast?_cons, Option.getD_some]
      exact hlast

theorem finished_sound {parent : ℕ} {mode typed : UInt16} {kind : Kind} {isDir : Bool} {i : Inherited}
    {made : Node} (hs : s.Sound)
    (hinherited : inheritedAcl s ans parent (mode &&& 0o7777) isDir = .ok (some i))
    (htyped : typedMode ((mode &&& ~~~0o7777) ||| i.bits) kind = .ok typed) (hmode : made.mode = typed)
    (hnone : ∀ n, isParent n = false → made.attr n = none) :
    (s.put ino (finishedNode i made)).Sound ∧
      Asked s (s.put ino (finishedNode i made)) ino (mode &&& 0o7000) := by
  obtain ⟨haccess, hdefault, -, -⟩ := accessName_facts
  obtain ⟨default, hacl⟩ := inheritedAcl_some hinherited
  obtain ⟨access, hnarrowed, hbits, hstored, hcarried⟩ := inheritedAcl_spec hacl hinherited
  obtain ⟨dir, value, hdir, hvalue, hdecode⟩ := acl_some hacl
  obtain ⟨default', hdefault'⟩ := hs.defaults parent dir hdir value hvalue
  obtain rfl := Except.ok.inj (hdecode.symm.trans hdefault'.1)
  obtain ⟨access', hnarrowed', hlegal, -⟩ := narrowed_spec (mode &&& 0o7777) hdefault'.legal
  obtain rfl := Except.ok.inj (hnarrowed.symm.trans hnarrowed')
  have hcore : (finishedNode i made).mode = typed := (foldl_withAttr_core i.toWrite made).1.trans hmode
  refine ⟨hs.put ?_ ?_, asked_put ?_⟩
  · have hattr := attr_finished (i := i) (hnone _ haccess)
    rw [hstored] at hattr
    split at hattr
    next hlength =>
      refine Node.inStep_of_encode hlegal hlength hattr ?_
      rw [hcore]
      exact made_low hlegal hbits htyped
    next => exact Node.inStep_of_none hattr
  · have hattr := default_finished (i := i) (hnone _ hdefault)
    rw [hcarried] at hattr
    split at hattr
    · exact Node.defaultValid_of_encode hdefault'.legal hattr
    · exact Node.defaultValid_of_none hattr
  · rw [hcore, typedMode_masked htyped rfl, hbits]
    exact inherited_special (modeOf_low hlegal)

/-- The last state of a create that returned. -/
def createdState (s : State) (ans : Answers) (parent : ℕ) (name : List UInt8) (mode : UInt16) (kind : Kind) :
    Except Error State :=
  match createInheriting s ans parent name mode kind with
  | (states, .ok _) => .ok (states.getLast?.getD s)
  | (_, .error e) => .error e

theorem createdState_sound {parent : ℕ} {mode : UInt16} {kind : Kind} (hs : s.Sound)
    (h : createdState s ans parent name mode kind = .ok s') :
    s'.Sound ∧ Asked s s' ans.slot (mode &&& 0o7000) := by
  obtain ⟨haccess, hdefault, hne, hne'⟩ := accessName_facts
  unfold createdState createInheriting at h
  split at h
  next states ino hrun =>
    cases h
    split at hrun
    next => cases congrArg Prod.snd hrun
    next inherited hinherited =>
      dsimp only at hrun
      split at hrun
      next => cases congrArg Prod.snd hrun
      next ino' s₁ hcreate =>
        obtain ⟨made, typed, htyped, rfl, rfl, hmode, -, -, hnone⟩ := create_spec hcreate
        cases inherited with
        | none =>
          obtain ⟨rfl, -⟩ := Prod.mk.inj hrun
          refine ⟨hs.put (Node.inStep_of_none (hnone _ haccess))
            (Node.defaultValid_of_none (hnone _ hdefault)), asked_put ?_⟩
          rw [hmode]
          exact typedMode_masked htyped rfl
        | some i =>
          obtain ⟨rfl, hdone⟩ := Prod.mk.inj hrun
          have hwritten : (writeEach ans ans.slot 1 (s.put ans.slot made) i.toWrite).2 = .ok () := by
            obtain ⟨⟨⟩, hok⟩ : ∃ u, (writeEach ans ans.slot 1 (s.put ans.slot made) i.toWrite).2 = .ok u := by
              cases hresult : (writeEach ans ans.slot 1 (s.put ans.slot made) i.toWrite).2 with
              | error e =>
                rw [writeInheritedAcl, hresult] at hdone
                exact absurd hdone (by simp [Except.map])
              | ok u => exact ⟨u, rfl⟩
            exact hok
          rw [List.getLast?_cons, Option.getD_some, writeInheritedAcl, writeEach_done hwritten]
          exact finished_sound hs hinherited htyped hmode hnone
  next => cases h

end

/-! ## Any sequence of calls -/

inductive Op where
  | setAcl (ino : ℕ) (kind : AclKind) (entries : List AclEntry)
  | removeAcl (ino : ℕ) (kind : AclKind)
  | chmod (ino : ℕ) (permissions : UInt16)
  | changeAttributes (ino : ℕ) (change : AttrChange)
  | setXattr (ino : ℕ) (name value : List UInt8) (mode : XattrMode)
  | removeXattr (ino : ℕ) (name : List UInt8)
  | create (parent : ℕ) (name : List UInt8) (mode : UInt16) (kind : Kind)

namespace Op

def run (s : State) (ans : Answers) : Op → Except Error State
  | .setAcl ino kind entries => Acl.setAcl s ans ino kind entries
  | .removeAcl ino kind => Acl.removeAcl s ans ino kind
  | .chmod ino permissions => Acl.chmod s ans ino permissions
  | .changeAttributes ino change => Acl.changeAttributes s ans ino change
  | .setXattr ino name value mode => changeXattr s ans ino name (some (value, mode))
  | .removeXattr ino name => changeXattr s ans ino name none
  | .create parent name mode kind => createdState s ans parent name mode kind

def target (ans : Answers) : Op → ℕ
  | .setAcl ino _ _ => ino
  | .removeAcl ino _ => ino
  | .chmod ino _ => ino
  | .changeAttributes ino _ => ino
  | .setXattr ino _ _ _ => ino
  | .removeXattr ino _ => ino
  | .create _ _ _ _ => ans.slot

/-- The setuid, setgid and sticky bits a call asks for: those of its mode where it has one, and the
ones there are where it has none. -/
def asked (now : UInt16) : Op → UInt16
  | .chmod _ permissions => permissions &&& 0o7000
  | .changeAttributes _ change => change.permissions.elim now (· &&& 0o7000)
  | .create _ _ mode _ => mode &&& 0o7000
  | _ => now

theorem run_sound {s s' : State} {ans : Answers} {op : Op} (hs : s.Sound) (h : op.run s ans = .ok s') :
    s'.Sound ∧ Asked s s' (op.target ans) (op.asked (s.special (op.target ans))) := by
  cases op with
  | setAcl ino kind entries => exact setAcl_sound hs h
  | removeAcl ino kind => exact removeAcl_sound hs h
  | chmod ino permissions => exact chmod_sound hs h
  | changeAttributes ino change => exact changeAttributes_sound hs h
  | setXattr ino name value mode => exact changeXattr_sound hs h
  | removeXattr ino name => exact changeXattr_sound hs h
  | create parent name mode kind => exact createdState_sound hs h

end Op

def Step (s s' : State) : Prop :=
  ∃ (op : Op) (ans : Answers), op.run s ans = .ok s'

theorem steps_sound {s s' : State} (hs : s.Sound) (h : ReflTransGen Step s s') : s'.Sound := by
  induction h with
  | refl => exact hs
  | tail _ hstep ih =>
    obtain ⟨op, ans, hrun⟩ := hstep
    exact (Op.run_sound ih hrun).1

/-- After any sequence of calls that returned, every stored access ACL is valid, implies its inode's
permission bits and says more than they do, and the last call's inode has the special bits asked for. -/
theorem runs_in_step {s t u : State} {op : Op} {ans : Answers} (hstep : s.InStep)
    (hdefaults : s.DefaultsValid) (hruns : ReflTransGen Step s t) (hlast : op.run t ans = .ok u) :
    u.InStep ∧ Asked t u (op.target ans) (op.asked (t.special (op.target ans))) := by
  obtain ⟨hsound, hasked⟩ := Op.run_sound (steps_sound ⟨hstep, hdefaults⟩ hruns) hlast
  exact ⟨hsound.inStep, hasked⟩

/-! ## A valid and an invalid default -/

theorem oneParent_inStep (default : List AclEntry) : (oneParent default).InStep := by
  intro ino node hnode
  change (if ino = 128 then Except.ok (parentNode default) else .error Error.notFound) = .ok node at hnode
  split at hnode
  · cases hnode
    exact Node.inStep_of_none rfl
  · cases hnode

theorem oneParent_defaultsValid {default : List AclEntry} (h : Legal default true) :
    (oneParent default).DefaultsValid := by
  intro ino node hnode
  change (if ino = 128 then Except.ok (parentNode default) else .error Error.notFound) = .ok node at hnode
  split at hnode
  · cases hnode
    exact Node.defaultValid_of_encode h rfl
  · cases hnode

theorem runs_in_step_open_group :
    ∃ u, (Op.create 128 [97] 0o4770 .file).run (oneParent openGroup) calm = .ok u ∧ u.InStep ∧
      Asked (oneParent openGroup) u 131 0o4000 := by
  obtain ⟨u, hrun⟩ : ∃ u, (Op.create 128 [97] 0o4770 .file).run (oneParent openGroup) calm = .ok u := ⟨_, rfl⟩
  have hlegal : Legal openGroup true :=
    (valid_eq_ok.mp (show valid openGroup true = .ok openGroup by decide +kernel)).1
  obtain ⟨hstep, hasked⟩ := runs_in_step (oneParent_inStep openGroup) (oneParent_defaultsValid hlegal)
    .refl hrun
  exact ⟨u, hrun, hstep, hasked⟩

def unmasked : List AclEntry :=
  [⟨Tag.userObj, 0, 7⟩, ⟨Tag.user, 1000, 7⟩, ⟨Tag.groupObj, 0, 5⟩, ⟨Tag.other, 0, 0⟩]

theorem unmasked_inherited :
    (((Op.create 128 [97] 0o770 .file).run (oneParent unmasked) calm).toOption.bind fun u =>
      (u.node 131).toOption.bind fun node => node.attr accessName) = some (encode unmasked) := by
  decide +kernel

/-- An invalid default ACL is handed on as an access ACL, and that is as invalid. -/
theorem create_inherits_invalid :
    (oneParent unmasked).InStep ∧
      ∃ u, (Op.create 128 [97] 0o770 .file).run (oneParent unmasked) calm = .ok u ∧ ¬u.InStep := by
  refine ⟨oneParent_inStep unmasked, ?_⟩
  obtain ⟨u, hu, hnode⟩ := Option.bind_eq_some_iff.mp unmasked_inherited
  obtain ⟨node, hnode, hattr⟩ := Option.bind_eq_some_iff.mp hnode
  refine ⟨u, toOption_eq_some.mp hu, fun hstep => ?_⟩
  obtain ⟨entries, ⟨hdecode, sorted, hvalid⟩, -⟩ :=
    hstep 131 node (toOption_eq_some.mp hnode) _ hattr
  rw [decode_encode (by decide)] at hdecode
  cases hdecode
  have hrefused : ∀ v5, (valid unmasked v5).toOption = none := by decide +kernel
  have hnone := hrefused u.v5
  rw [hvalid] at hnone
  exact absurd hnone (by simp [Except.toOption])

/-! ## A create, as the names have it -/

def Kind.toKind : Kind → FsXfs.Kind
  | .file => .file
  | .directory => .directory

theorem typedMode_toNat (mode : UInt16) (kind : Kind) :
    FsXfs.typedMode mode.toNat kind.toKind = (typedMode mode kind).map UInt16.toNat := by
  have hand : mode.toNat &&& sIfmt = (mode &&& 0o170000).toNat := (UInt16.toNat_and mode 0o170000).symm
  have hbits : kind.toKind.typeBits = kind.typeBits.toNat := by cases kind <;> rfl
  have hshown : kind.toKind.making = kind.shown := by cases kind <;> rfl
  have hzero : (mode &&& 0o170000).toNat = 0 ↔ mode &&& 0o170000 = 0 := UInt16.toNat_inj (b := 0)
  unfold FsXfs.typedMode typedMode
  rw [hand, hbits, hshown]
  simp only [hzero, UInt16.toNat_inj]
  split
  · rw [← UInt16.toNat_or]
    rfl
  · split
    · rfl
    · rfl

/-- Every inode here is one of the names' and has its mode. -/
def SameModes (names : Names.State) (s : State) : Prop :=
  ∀ i node, s.node i = .ok node → i ∈ names.inos ∧ (names.core i).mode = node.mode.toNat

/-- A create of one inode in both keeps them so. -/
theorem create_sameModes {names names' : Names.State} {answers : Names.Answers names} {sb : Superblock}
    {parent ino : ℕ} {name target : List UInt8} {mode : UInt16} {kind : Kind} {s s' : State}
    {ans : Answers} (hsame : SameModes names s)
    (hnames : names.create answers sb parent name mode.toNat kind.toKind target = .ok names')
    (h : create s ans parent name mode kind = .ok (ino, s'))
    (hino : ∃ mid, names.takeInode answers = .ok (mid, ino)) : SameModes names' s' := by
  obtain ⟨made, typed, htyped, rfl, rfl, hmade, -⟩ := create_spec h
  obtain ⟨mid, ino, change, new, htake, hnew, htaken, -, -, -, -, -, -, hre⟩ :=
    Names.State.create_relinked hnames
  obtain ⟨mid', hmid'⟩ := hino
  obtain ⟨rfl, rfl⟩ := Prod.mk.inj (Except.ok.inj (htake.symm.trans hmid'))
  rw [typedMode_toNat, htyped] at hnew
  have hmode : new.mode = typed.toNat := (Except.ok.inj hnew).symm
  intro i node hnode
  rw [hre.eq]
  by_cases hi : i = ans.slot
  · subst hi
    rw [State.put_self] at hnode
    cases hnode
    rw [Names.State.put_core_self, hmade]
    exact ⟨htaken.mem, hmode⟩
  · rw [State.put_other hi] at hnode
    obtain ⟨hmem, hold⟩ := hsame i node hnode
    refine ⟨htaken.sub hmem, ?_⟩
    rw [Names.State.put_core_of_ne hi, Names.State.setCore]
    by_cases hp : i = parent
    · subst hp
      rw [Names.State.put_core_self, hre.mode, htaken.core_eq hmem]
      exact hold
    · rw [Names.State.put_core_of_ne hp, htaken.core_eq hmem]
      exact hold

end FsXfs.Acl
