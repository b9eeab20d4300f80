import Mathlib.Data.Set.Insert

/-!
# Access lists and access classes

Who may do what to an object: by three classes (its owner, its group, everyone else), or by an access
list, which names users and groups of its own and bounds what they and the owning group get by a mask.
-/

namespace FsXfs.Access

set_option autoImplicit false

variable {U G R : Type}

structure Subject (U G : Type) where
  uid : U
  groups : Set G

structure Classes (R : Type) where
  owner : Set R
  group : Set R
  other : Set R

structure AccessList (U G R : Type) where
  owner : Set R
  user : U → Option (Set R)
  group : Set R
  namedGroup : G → Option (Set R)
  mask : Set R
  other : Set R

/-! ## What is granted -/

inductive Classes.Grants (c : Classes R) (owner : U) (group : G) (who : Subject U G) (want : Set R) :
    Prop where
  | owner (is : who.uid = owner) (within : want ⊆ c.owner)
  | group (apart : who.uid ≠ owner) (member : group ∈ who.groups) (within : want ⊆ c.group)
  | other (apart : who.uid ≠ owner) (out : group ∉ who.groups) (within : want ⊆ c.other)

/-- A user the list names is judged by that entry alone. One it does not name gets what some one
entry of a group of theirs gives; who is in none of the groups gets what is left for others. -/
inductive AccessList.Grants (l : AccessList U G R) (owner : U) (group : G) (who : Subject U G)
    (want : Set R) : Prop where
  | owner (is : who.uid = owner) (within : want ⊆ l.owner)
  | user {p : Set R} (apart : who.uid ≠ owner) (named : l.user who.uid = some p)
      (within : want ⊆ p ∩ l.mask)
  | group (apart : who.uid ≠ owner) (unnamed : l.user who.uid = none) (member : group ∈ who.groups)
      (within : want ⊆ l.group ∩ l.mask)
  | namedGroup {g : G} {p : Set R} (apart : who.uid ≠ owner) (unnamed : l.user who.uid = none)
      (member : g ∈ who.groups) (named : l.namedGroup g = some p) (within : want ⊆ p ∩ l.mask)
  | other (apart : who.uid ≠ owner) (unnamed : l.user who.uid = none) (out : group ∉ who.groups)
      (none : ∀ g ∈ who.groups, l.namedGroup g = none) (within : want ⊆ l.other)

namespace AccessList

variable {l : AccessList U G R} {owner : U} {group : G}

def classes (l : AccessList U G R) : Classes R :=
  ⟨l.owner, l.mask, l.other⟩

/-- An entry of the owning group has all that the mask lets through, and every other entry has what
its holders get as members of the owning group or as others. -/
structure NoWider (l : AccessList U G R) (owner : U) (group : G) : Prop where
  members : l.mask ⊆ l.group ∨ ∃ p, l.namedGroup group = some p ∧ l.mask ⊆ p
  users : ∀ u p, u ≠ owner → l.user u = some p → l.mask ⊆ p ∧ l.other ⊆ p ∩ l.mask
  groups : ∀ g p, g ≠ group → l.namedGroup g = some p → l.other ⊆ p ∩ l.mask

theorem NoWider.grants (h : l.NoWider owner group) {who : Subject U G} {want : Set R}
    (hgrants : l.classes.Grants owner group who want) : l.Grants owner group who want := by
  cases hgrants with
  | owner is within => exact .owner is within
  | group apart member within =>
    cases hu : l.user who.uid with
    | none =>
      rcases h.members with hgroup | ⟨p, hp, hmask⟩
      · exact .group apart hu member fun r hr => ⟨hgroup (within hr), within hr⟩
      · exact .namedGroup apart hu member hp fun r hr => ⟨hmask (within hr), within hr⟩
    | some p =>
      exact .user apart hu fun r hr => ⟨(h.users who.uid p apart hu).1 (within hr), within hr⟩
  | other apart out within =>
    cases hu : l.user who.uid with
    | some p => exact .user apart hu (within.trans (h.users who.uid p apart hu).2)
    | none =>
      by_cases hg : ∃ g ∈ who.groups, ∃ p, l.namedGroup g = some p
      · obtain ⟨g, hmem, p, hp⟩ := hg
        have hne : g ≠ group := fun heq => out (heq ▸ hmem)
        exact .namedGroup apart hu hmem hp (within.trans (h.groups g p hne hp))
      · refine .other apart hu out (fun g hmem => ?_) within
        exact Option.eq_none_iff_forall_not_mem.mpr fun p hp => hg ⟨g, hmem, p, hp⟩

theorem Grants.of_named {who : Subject U G} {want p : Set R} (hne : who.uid ≠ owner)
    (hp : l.user who.uid = some p) (h : l.Grants owner group who want) : want ⊆ p ∩ l.mask := by
  cases h with
  | owner is => exact absurd is hne
  | user apart named within => exact Option.some.inj (hp.symm.trans named) ▸ within
  | group apart unnamed => cases hp.symm.trans unnamed
  | namedGroup apart unnamed => cases hp.symm.trans unnamed
  | other apart unnamed => cases hp.symm.trans unnamed

theorem Grants.of_one_group {u : U} {g : G} {want : Set R} (hne : u ≠ owner) (hu : l.user u = none)
    (hg : g = group ∨ ∃ p, l.namedGroup g = some p) (h : l.Grants owner group ⟨u, {g}⟩ want) :
    want ⊆ l.mask ∧ ((g = group ∧ want ⊆ l.group) ∨ ∃ p, l.namedGroup g = some p ∧ want ⊆ p) := by
  cases h with
  | owner is => exact absurd is hne
  | user apart named => cases hu.symm.trans named
  | group apart unnamed member within =>
    exact ⟨within.trans Set.inter_subset_right, .inl ⟨Eq.symm member, within.trans Set.inter_subset_left⟩⟩
  | namedGroup apart unnamed member named within =>
    obtain rfl := Set.mem_singleton_iff.mp member
    exact ⟨within.trans Set.inter_subset_right, .inr ⟨_, named, within.trans Set.inter_subset_left⟩⟩
  | other apart unnamed out none =>
    rcases hg with rfl | ⟨p, hp⟩
    · exact absurd rfl out
    · exact absurd (hp.symm.trans (none g rfl)) (by simp)

/-- The classes in a list's place grant no more than the list, given that someone is neither the owner
nor named by it. -/
theorem classes_grant_iff (hfree : ∃ u, u ≠ owner ∧ l.user u = none) :
    (∀ who want, l.classes.Grants owner group who want → l.Grants owner group who want) ↔
      l.NoWider owner group := by
  refine ⟨fun h => ⟨?_, fun u p hne hp => ⟨?_, ?_⟩, fun g p hne hp => ?_⟩, fun h who want => h.grants⟩
  · obtain ⟨u, hne, hu⟩ := hfree
    have hgrants := h ⟨u, {group}⟩ l.mask (.group hne rfl (Set.Subset.refl _))
    exact (hgrants.of_one_group hne hu (.inl rfl)).2.imp_left And.right
  · have hgrants := h ⟨u, {group}⟩ l.mask (.group hne rfl (Set.Subset.refl _))
    exact (hgrants.of_named hne hp).trans Set.inter_subset_left
  · have hgrants := h ⟨u, ∅⟩ l.other (.other hne (Set.notMem_empty _) (Set.Subset.refl _))
    exact hgrants.of_named hne hp
  · obtain ⟨u, hu_ne, hu⟩ := hfree
    have hgrants := h ⟨u, {g}⟩ l.other (.other hu_ne (Ne.symm hne) (Set.Subset.refl _))
    obtain ⟨hmask, ⟨heq, -⟩ | ⟨p', hp', hwithin⟩⟩ := hgrants.of_one_group hu_ne hu (.inr ⟨p, hp⟩)
    · exact absurd heq hne
    · obtain rfl := Option.some.inj (hp.symm.trans hp')
      exact Set.subset_inter hwithin hmask

end AccessList

end FsXfs.Access
