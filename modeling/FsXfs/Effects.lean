import FsXfs.Commit

/-!
# What a mount's writes do

The disk and the mount's view of it under the events of `Mount` and the changes of the overlay.
-/

namespace FsXfs.Mount

open Log Redo

set_option autoImplicit false

theorem disk_emit (m : Mount) (events : List Event) :
    (m.emit events).disk = events.foldl Event.apply m.disk :=
  List.foldl_append

theorem foldl_apply_home (sectors : List (ℕ × Sector)) (d : Disk) :
    (sectors.map fun s => Event.home s.1 s.2).foldl Event.apply d =
      ⟨d.ring, applyAll (sectors.map fun s => Event.sectorPatch s.1 s.2) d.home⟩ := by
  induction sectors generalizing d with
  | nil => rfl
  | cons s sectors ih => exact ih _

theorem disk_emit_log (m : Mount) (rs : List LogRecord) :
    (m.emit (rs.map .log)).disk = ⟨rs.foldl Ring.writeRecord m.disk.ring, m.disk.home⟩ := by
  rw [disk_emit]
  generalize m.disk = d
  induction rs generalizing d with
  | nil => rfl
  | cons r rs ih => exact ih _

theorem view_emit_log (m : Mount) (rs : List LogRecord) : (m.emit (rs.map .log)).view = m.view := by
  funext a
  change m.overlay.byte (m.emit (rs.map .log)).disk.home a = _
  rw [disk_emit_log]
  rfl

/-! ## The push -/

theorem sectorPatch_pushed {o : Overlay} {inner : ℕ → UInt8} {s : ℕ × Sector} {a : ℕ} {b : UInt8}
    (hs : s ∈ o.pushed) (hb : Event.sectorPatch s.1 s.2 a = some b) : b = o.byte inner a := by
  unfold Event.sectorPatch at hb
  split at hb
  · next hbb =>
    rw [Overlay.byte, hbb, Overlay.mem_pushed.mp hs]
    exact (Option.some.inj hb).symm
  · cases hb

/-- Some of the sectors a push writes leave each byte of the home blocks as it was, or as it is
read through the overlay. -/
theorem home_after_push {o : Overlay} {sectors : List (ℕ × Sector)} (h : sectors <+: o.pushed)
    (home : ℕ → UInt8) (a : ℕ) :
    applyAll (sectors.map fun s => Event.sectorPatch s.1 s.2) home a = home a ∨
      applyAll (sectors.map fun s => Event.sectorPatch s.1 s.2) home a = o.byte home a := by
  by_cases hcov : Covers (sectors.map fun s => Event.sectorPatch s.1 s.2) a
  · right
    refine applyAll_of_agree ?_ hcov
    intro p hp b hb
    obtain ⟨s, hs, rfl⟩ := List.mem_map.mp hp
    exact sectorPatch_pushed (h.subset hs) hb
  · exact .inl (applyAll_of_not_covers hcov)

theorem home_after_whole_push (o : Overlay) (home : ℕ → UInt8) :
    applyAll (o.pushed.map fun s => Event.sectorPatch s.1 s.2) home = o.byte home := by
  funext a
  by_cases hheld : o.Held (a / 512)
  · obtain ⟨sector, hsector⟩ := Option.isSome_iff_exists.mp (AList.lookup_isSome.mpr hheld)
    refine applyAll_of_agree ?_ ⟨Event.sectorPatch (a / 512) sector, ?_, ?_⟩
    · intro p hp b hb
      obtain ⟨s, hs, rfl⟩ := List.mem_map.mp hp
      exact sectorPatch_pushed hs hb
    · exact List.mem_map.mpr ⟨_, Overlay.mem_pushed.mpr hsector, rfl⟩
    · simp [Event.sectorPatch]
  · rw [Overlay.byte_of_not_held hheld]
    apply applyAll_of_not_covers
    rintro ⟨p, hp, hsome⟩
    obtain ⟨s, hs, rfl⟩ := List.mem_map.mp hp
    unfold Event.sectorPatch at hsome
    split at hsome
    · next hbb =>
      apply hheld
      rw [hbb]
      exact AList.lookup_isSome.mp (by rw [Overlay.mem_pushed.mp hs]; rfl)
    · cases hsome

theorem disk_emit_push {m : Mount} {events : List Event} (h : events <+: pushEvents m.overlay) :
    (m.emit events).disk.ring = m.disk.ring ∧
      ∀ a, (m.emit events).disk.home a = m.disk.home a ∨ (m.emit events).disk.home a = m.view a := by
  obtain ⟨sectors, hpre, rfl⟩ := List.prefix_map_iff.mp h
  rw [disk_emit, foldl_apply_home]
  exact ⟨rfl, home_after_push hpre m.disk.home⟩

theorem disk_settle (m : Mount) : m.settle.disk = ⟨m.disk.ring, m.view⟩ := by
  have hdisk : m.settle.disk = (m.emit (pushEvents m.overlay)).disk := rfl
  rw [hdisk, disk_emit, pushEvents, foldl_apply_home, home_after_whole_push]
  rfl

theorem disk_settle_emit (m : Mount) (events : List Event) :
    (m.settle.emit events).disk = (m.emit (pushEvents m.overlay ++ events)).disk := by
  change (m.trace ++ pushEvents m.overlay ++ events).foldl Event.apply m.base = _
  rw [List.append_assoc]
  rfl

theorem view_settle (m : Mount) : m.settle.view = m.view := by
  funext a
  change Overlay.empty.byte m.settle.disk.home a = m.view a
  rw [Overlay.byte_empty, disk_settle]

theorem view_emit {m : Mount} {events : List Event} {a : ℕ}
    (h : (m.emit events).disk.home a = m.disk.home a ∨ (m.emit events).disk.home a = m.view a) :
    (m.emit events).view a = m.view a := by
  change m.overlay.byte (m.emit events).disk.home a = m.overlay.byte m.disk.home a
  by_cases hheld : m.overlay.Held (a / 512)
  · obtain ⟨sector, hsector⟩ := Option.isSome_iff_exists.mp (AList.lookup_isSome.mpr hheld)
    rw [Overlay.byte, Overlay.byte, hsector]
  · have hview : m.view a = m.disk.home a := Overlay.byte_of_not_held hheld
    rw [Overlay.byte_of_not_held hheld, Overlay.byte_of_not_held hheld]
    rcases h with hsame | hnew
    · exact hsame
    · exact hnew.trans hview

theorem view_emit_push {m : Mount} {events : List Event} (h : events <+: pushEvents m.overlay) :
    (m.emit events).view = m.view :=
  funext fun a => view_emit ((disk_emit_push h).2 a)

/-! ## Items in the overlay -/

theorem not_covers_outside {item : Item} (h : item.Inside) {a : ℕ}
    (ha : ¬(item.bb * 512 ≤ a ∧ a < item.bb * 512 + item.size)) : ¬Covers item.patches a := by
  rintro ⟨p, hp, hsome⟩
  obtain ⟨c, hc, rfl⟩ := List.mem_map.mp hp
  have hin := h c hc
  unfold chunkPatch at hsome
  split at hsome
  · next hrange => omega
  · cases hsome

theorem view_loggedItem {item : Item} (h : item.Inside) (m : Mount) :
    (m.loggedItem item).view = applyAll item.patches m.view := by
  funext a
  change (m.overlay.wrote m.disk.home item.bb (item.image m.view)).byte m.disk.home a = _
  have hlen : (item.image m.view).length = item.size := by
    simp [Item.image]
  rw [Overlay.byte_wrote, hlen]
  split
  · next hrange =>
    have hlt : a - item.bb * 512 < item.size := by omega
    rw [Item.image, List.getD_eq_getElem?_getD, List.getElem?_map, List.getElem?_range hlt]
    change applyAll item.patches m.view (item.bb * 512 + (a - item.bb * 512)) = _
    rw [Nat.add_sub_cancel' hrange.1]
  · next hrange =>
    rw [applyAll_of_not_covers (not_covers_outside h hrange)]
    rfl

theorem view_loggedItems {items : List Item} (h : ∀ item ∈ items, item.Inside) (m : Mount) :
    (m.loggedItems items).view = applyAll (items.flatMap Item.patches) m.view := by
  induction items generalizing m with
  | nil => rfl
  | cons item items ih =>
    have hrest := ih (fun i hi => h i (List.mem_cons_of_mem _ hi)) (m.loggedItem item)
    change ((m.loggedItem item).loggedItems items).view = _
    rw [hrest, view_loggedItem (h item List.mem_cons_self), List.flatMap_cons, applyAll_append]

theorem loggedItems_eq (items : List Item) (m : Mount) :
    m.loggedItems items = { m with overlay := (m.loggedItems items).overlay } := by
  induction items generalizing m with
  | nil => rfl
  | cons item items ih => exact ih (m.loggedItem item)

end FsXfs.Mount
