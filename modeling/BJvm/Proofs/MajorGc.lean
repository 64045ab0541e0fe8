import BJvm.Proofs.GcRelocate

/-!
# A whole collection

The phases put together (`majorGc_collects`).
-/

namespace BJvm.Collector

open WellFormed

variable {desc : Nat → Classdesc} {vm : Vm} {objects roots live : List Nat} {o k v : Nat}

/-- The sorted list of the live objects and monitors. -/
def liveKeys (vm : Vm) (live : List Nat) : List Nat :=
  quicksortPointers (live.flatMap (keys vm.mem))

theorem mem_liveKeys : k ∈ liveKeys vm live ↔ ∃ o ∈ live, k ∈ keys vm.mem o := by
  rw [liveKeys, quicksortPointers, (Sorted.quicksort_spec _ _ (Nat.le_refl _)).1.mem_iff,
    List.mem_flatMap]

namespace WellFormed

variable (h : WellFormed desc vm objects roots) (hn : live.Nodup) (hlive : ∀ o ∈ live, o ∈ objects)

include h hn hlive

theorem liveKeys_sorted : (liveKeys vm live).Pairwise (· < ·) := by
  have hnodup : (live.flatMap (keys vm.mem)).Nodup := by
    refine List.nodup_flatMap.mpr ⟨fun o ho => ?_, hn.imp_of_mem fun ho ho' hne k hk hk' =>
      hne (h.key_owner (hlive _ ho) hk (hlive _ ho') hk')⟩
    rw [keys]
    split_ifs with he
    · have := h.monitor o (hlive o ho) he
      simp only [List.nodup_cons, List.mem_singleton, List.not_mem_nil, not_false_eq_true,
        List.nodup_nil, and_true]
      omega
    · exact List.nodup_singleton _
  obtain ⟨hp, hs⟩ := Sorted.quicksort_spec _ _ (Nat.le_refl (live.flatMap (keys vm.mem)).length)
  exact (hs.and (hp.nodup_iff.mpr hnodup)).imp fun h => lt_of_le_of_ne h.1 h.2

omit h hn in
theorem liveKeys_object (hk : k ∈ liveKeys vm live) : ∃ o ∈ objects, k ∈ keys vm.mem o := by
  obtain ⟨o, ho, hk⟩ := mem_liveKeys.mp hk
  exact ⟨o, hlive o ho, hk⟩

theorem liveKeys_separated : Separated desc vm.mem (liveKeys vm live) := by
  refine (h.liveKeys_sorted hn hlive).imp_of_mem fun {k k'} hk hk' hlt => ?_
  obtain ⟨o, ho, hk⟩ := liveKeys_object hlive hk
  obtain ⟨o', ho', hk'⟩ := liveKeys_object hlive hk'
  have hpos := h.span_pos ho' hk'
  have huntag : untag k ≤ k ∧ k' ≤ untag k' + 1 := by
    constructor
    · rcases mem_keys.mp hk with rfl | ⟨he, rfl⟩
      · exact (h.untag_object ho).le
      · rw [h.untag_monitor ho he]
        omega
    · rcases mem_keys.mp hk' with rfl | ⟨he, rfl⟩
      · rw [h.untag_object ho']
        omega
      · rw [h.untag_monitor ho' he]
  rcases h.disjoint o ho k hk o' ho' k' hk' with ⟨-, rfl⟩ | hd | hd
  · omega
  · exact hd
  · omega

omit hn in
/-- The objects among the keys are the live ones. -/
theorem object_mem_liveKeys (ho : o ∈ objects) : o ∈ liveKeys vm live ↔ o ∈ live := by
  refine ⟨fun hk => ?_, fun hl => mem_liveKeys.mpr ⟨o, hl, self_mem_keys⟩⟩
  obtain ⟨o', ho', hk'⟩ := mem_liveKeys.mp hk
  rwa [h.key_owner ho self_mem_keys (hlive o' ho') hk']

omit hn in
theorem inHeap_of_mem_liveKeys (hk : k ∈ liveKeys vm live) : vm.inHeap k = true := by
  obtain ⟨o, ho, hk⟩ := liveKeys_object hlive hk
  have hpos := h.span_pos ho hk
  have huntag : untag k ≤ k ∧ k ≤ untag k + 1 := by
    rcases mem_keys.mp hk with rfl | ⟨he, rfl⟩
    · rw [h.untag_object ho]
      omega
    · rw [h.untag_monitor ho he]
      omega
  exact h.inHeap_block ho hk huntag.1 (by omega)

omit hn in
theorem mem_filter_liveKeys : (o ∈ (liveKeys vm live).filter fun k => !isMonitor k) ↔ o ∈ live := by
  rw [List.mem_filter]
  constructor
  · rintro ⟨hk, hnot⟩
    obtain ⟨o', ho', hk⟩ := mem_liveKeys.mp hk
    rcases mem_keys.mp hk with rfl | ⟨he, rfl⟩
    · exact ho'
    · rw [h.isMonitor_succ (hlive o' ho') he] at hnot
      cases hnot
  · exact fun ho => ⟨mem_liveKeys.mpr ⟨o, ho, self_mem_keys⟩, by
      rw [h.not_isMonitor (hlive o ho)]
      rfl⟩

end WellFormed

/-! ### The phases -/

/-- The new locations of the live objects and monitors. -/
def newLocations (desc : Nat → Classdesc) (vm : Vm) (live : List Nat) : List Nat :=
  locations desc vm.mem vm.heap (liveKeys vm live)

/-- Where the collection moves an object or a monitor. -/
def moved (desc : Nat → Classdesc) (vm : Vm) (live : List Nat) : Nat → Nat :=
  target (liveKeys vm live) (newLocations desc vm live)

/-- The live objects and monitors with their new locations. -/
def moves (desc : Nat → Classdesc) (vm : Vm) (live : List Nat) : List (Nat × Nat) :=
  (liveKeys vm live).zip (newLocations desc vm live)

namespace WellFormed

variable (h : WellFormed desc vm objects roots) (hn : live.Nodup) (hlive : ∀ o ∈ live, o ∈ objects)

include h hn hlive

theorem endOf_liveKeys :
    endOf desc vm.mem vm.heap (liveKeys vm live) ≤ vm.heap + vm.heapUsed := by
  refine endOf_le (h.liveKeys_separated hn hlive) (by omega) fun k hk => ?_
  obtain ⟨o, ho, hk⟩ := liveKeys_object hlive hk
  exact h.inside o ho k hk

theorem relocated_eq_some_iff {n : Nat} :
    relocated (liveKeys vm live) (newLocations desc vm live) v = some n ↔
      (v, n) ∈ moves desc vm live :=
  relocated_eq_some (h.liveKeys_sorted hn hlive) length_locations

theorem relocated_eq_none_iff :
    relocated (liveKeys vm live) (newLocations desc vm live) v = none ↔ v ∉ liveKeys vm live :=
  relocated_eq_none (h.liveKeys_sorted hn hlive)

theorem mem_moves_of_mem (hk : k ∈ liveKeys vm live) : (k, moved desc vm live k) ∈ moves desc vm live := by
  obtain ⟨l, hl⟩ := Option.ne_none_iff_exists'.mp
    (mt (h.relocated_eq_none_iff hn hlive (v := k)).mp (not_not_intro hk))
  rw [moved, target, hl, Option.getD_some]
  exact (h.relocated_eq_some_iff hn hlive).mp hl

theorem moved_of_mem_moves {p : Nat × Nat} (hp : p ∈ moves desc vm live) :
    moved desc vm live p.1 = p.2 := by
  obtain ⟨k, n⟩ := p
  rw [moved, target, (h.relocated_eq_some_iff hn hlive).mpr hp, Option.getD_some]

theorem moved_of_not_mem (hk : k ∉ liveKeys vm live) : moved desc vm live k = k := by
  rw [moved, target, (h.relocated_eq_none_iff hn hlive).mpr hk, Option.getD_none]

theorem forward_moved : forward vm (moved desc vm live) v = moved desc vm live v := by
  rw [forward]
  split_ifs with hin
  · rfl
  · exact (h.moved_of_not_mem hn hlive fun hk =>
      hin (h.inHeap_of_mem_liveKeys hlive hk)).symm

theorem moved_eq_zero : moved desc vm live v = 0 ↔ v = 0 := by
  have hheap := h.heapAligned.1
  by_cases hv : v ∈ liveKeys vm live
  · have hle := (mem_zip_locations (h.mem_moves_of_mem hn hlive hv)).1
    have hin := h.inHeap_of_mem_liveKeys hlive hv
    constructor
    · intro h0
      simp only [h0] at hle
      omega
    · rintro rfl
      rw [h.null_outside] at hin
      cases hin
  · rw [h.moved_of_not_mem hn hlive hv]

end WellFormed

/-- What the phases do: the live objects, and the memory at the end but for the roots. -/
structure Phases (desc : Nat → Classdesc) (vm : Vm) (objects roots live : List Nat)
    (mem' : Nat → Nat) : Prop where
  nodup : live.Nodup
  reachable : ∀ o, o ∈ live ↔ Reachable vm roots (strongOffsets desc vm.mem) o
  monitor : ∀ p ∈ moves desc vm live, isMonitor p.1 = true → ∀ d < span desc vm.mem p.1,
    mem' (p.2 + d) = vm.mem (untag p.1 + d)
  object : ∀ p ∈ moves desc vm live, p.1 ∈ objects → ∃ m m',
    Rewritten desc vm (liveKeys vm live) (newLocations desc vm live) p.1 p.2 m m' ∧
      ∀ d < span desc vm.mem p.1, mem' (p.2 + d) = m' (p.2 + d)
  chain : Chain mem' (mem' vm.referencePendingList)
    ((linkedOf desc vm (liveKeys vm live) (newLocations desc vm live)
      (moves desc vm live)).reverse.map Prod.snd)
    (moved desc vm live (vm.mem vm.referencePendingList))

/-- With the roots. -/
structure Run (desc : Nat → Classdesc) (vm : Vm) (objects roots live : List Nat)
    (mem' : Nat → Nat) : Prop extends Phases desc vm objects roots live mem' where
  root : ∀ r ∈ roots, r ≠ vm.referencePendingList → mem' r = moved desc vm live (vm.mem r)

/-- A collection of the roots in `listed`: those that hold an object, some of them perhaps more than
once.  Outside the heap it changes the roots only. -/
theorem majorGc_phases (h : WellFormed desc vm objects roots) {listed : List Nat}
    (hsub : ∀ r ∈ listed, r ∈ roots)
    (hall : ∀ r ∈ roots, vm.inHeap (vm.mem r) = true → r ∈ listed)
    (hpend : listed.count vm.referencePendingList ≤ 1) :
    ∃ live mem', Phases desc vm objects roots live mem' ∧
      (∀ a, vm.inHeap a = false → a ≠ vm.referencePendingList → listed.count a ≤ 1 →
        mem' a = if a ∈ listed then moved desc vm live (vm.mem a) else vm.mem a) ∧
      majorGc desc vm listed = some { vm with
        mem := mem'
        heapUsed := endOf desc vm.mem vm.heap (liveKeys vm live) - vm.heap } ∧
      keptObjects desc vm listed =
        some (((moves desc vm live).filter fun p => !isMonitor p.1).map Prod.snd) := by
  obtain ⟨live, hn, hreach, hdrain⟩ := h.drain_spec (vm.heapCapacity + 1) _ [] (by simp)
    (h.markInv_roots hsub hall)
  have hlive : ∀ o ∈ live, o ∈ objects := fun o ho => h.object_of_reachable ((hreach o).mp ho)
  have hkeys : ∀ k ∈ liveKeys vm live, ∃ o ∈ objects, k ∈ keys vm.mem o :=
    fun k hk => liveKeys_object hlive hk
  have hend := h.endOf_liveKeys hn hlive
  have hused := h.used
  have hmoved0 : relocated (liveKeys vm live) (newLocations desc vm live) 0 = none :=
    (h.relocated_eq_none_iff hn hlive).mpr fun hk => by
      have := h.inHeap_of_mem_liveKeys hlive hk
      rw [h.null_outside] at this
      cases this
  obtain ⟨copied, hcopy, hcopied, houtside⟩ := h.copy_spec
    (liveKeys vm live) { mem := markedMem vm.mem live, writePtr := vm.heap } h.heapAligned.2
    (h.liveKeys_separated hn hlive) hkeys
    (fun k hk => by obtain ⟨o, ho, hk⟩ := hkeys k hk; exact (h.inside o ho k hk).1)
    (fun o ho hk he => mem_liveKeys.mpr ⟨o, (h.object_mem_liveKeys hlive ho).mp hk,
      mem_keys.mpr (.inr ⟨he, rfl⟩)⟩)
    (fun k _ a _ _ => by
      rw [markedMem_congr fun o => (h.mem_filter_liveKeys hlive (o := o))])
  -- outside the heap nothing is copied
  have hroot : ∀ a, vm.inHeap a = false → copied a = vm.mem a := fun a ha => by
    refine (houtside a ?_).trans (h.markedMem_outside hlive ha)
    simp only [Vm.inHeap, Bool.and_eq_false_iff, decide_eq_false_iff_not] at ha
    refine ha.imp (fun hlt => by simp only; omega) fun hge k hk => ?_
    obtain ⟨o, ho, hk⟩ := hkeys k hk
    have := h.inside o ho k hk
    omega
  have hroots : ∀ a, listed.count a ≤ 1 →
      relocateObjects (liveKeys vm live) (newLocations desc vm live) copied listed a =
        if a ∈ listed then moved desc vm live (copied a) else copied a := fun a ha =>
    relocateObjects_apply hmoved0 _ a ha
  have hblock : ∀ p ∈ moves desc vm live, ∀ d < span desc vm.mem p.1, vm.inHeap (p.2 + d) = true :=
    fun p hp d hd => by
      have := mem_zip_locations hp
      simp only [Vm.inHeap, Bool.and_eq_true, decide_eq_true_eq]
      omega
  have hout : ∀ a, vm.inHeap a = false → ∀ p ∈ moves desc vm live,
      a < p.2 ∨ p.2 + span desc vm.mem p.1 ≤ a := fun a ha p hp => by
    by_contra hin
    have := hblock p hp (a - p.2) (by omega)
    rw [Nat.add_sub_cancel' (by omega), ha] at this
    cases this
  have hheap : ∀ a, vm.inHeap a = true → relocateObjects (liveKeys vm live)
      (newLocations desc vm live) copied listed a = copied a := fun a ha => by
    have hr : a ∉ listed := fun hr => by
      rw [h.rootsOutside a (hsub a hr)] at ha
      cases ha
    rw [hroots a (by rw [List.count_eq_zero.mpr hr]; exact Nat.zero_le 1), if_neg hr]
  have hpk : ∀ p ∈ moves desc vm live, p.1 ∈ liveKeys vm live := fun p hp => (List.of_mem_zip hp).1
  obtain ⟨mem', hfields, h2, h3, h4, h5⟩ := h.relocateInstanceFields_spec
    hmoved0 (fun v => h.moved_eq_zero hn hlive) (moves desc vm live)
    (relocateObjects (liveKeys vm live) (newLocations desc vm live) copied listed)
    (fun p hp => hkeys _ (hpk p hp)) pairwise_locations
    (fun p hp d hd => by
      rw [hheap _ (hblock p hp d hd), hcopied p hp d hd])
    (hout _ h.pending.1)
    (fun p hp ho he => by
      refine Option.ne_none_iff_exists'.mp (mt (h.relocated_eq_none_iff hn hlive).mp ?_)
      exact not_not_intro (mem_liveKeys.mpr ⟨p.1, (h.object_mem_liveKeys hlive ho).mp (hpk p hp),
        mem_keys.mpr (.inr ⟨he, rfl⟩)⟩))
  have hpending : relocateObjects (liveKeys vm live) (newLocations desc vm live) copied listed
      vm.referencePendingList = moved desc vm live (vm.mem vm.referencePendingList) := by
    rw [hroots _ hpend, hroot _ h.pending.1]
    split_ifs with hr
    · rfl
    · refine (h.moved_of_not_mem hn hlive fun hk => ?_).symm
      have hin := h.inHeap_of_mem_liveKeys hlive hk
      rcases h.pending.2 with hp | hp
      · exact hr (hall _ hp hin)
      · rw [hp] at hin
        cases hin
  refine ⟨live, mem', ⟨hn, hreach, fun p hp hmonitor d hd => ?_, h4, hpending ▸ h5⟩,
    fun a ha hne hcount => ?_, ?_, ?_⟩
  · rw [h3 p hp hmonitor d hd, hheap _ (hblock p hp d hd), hcopied p hp d hd]
  · rw [h2 a (hout a ha) hne, hroots a hcount, hroot a ha]
  · have hmod : endOf desc vm.mem vm.heap (liveKeys vm live) % 8 = 0 :=
      endOf_mod _ _ h.heapAligned.2
    have hle : vm.heap ≤ endOf desc vm.mem vm.heap (liveKeys vm live) := le_endOf
    have hheap := h.heapAligned.2
    rw [majorGc, hdrain]
    simp only [Option.bind_eq_bind, Option.bind_some]
    rw [← liveKeys, hcopy]
    simp only [List.nil_append]
    rw [← newLocations, relocateInstanceFields, ← moves, hfields, Option.bind_some,
      alignUp_of_aligned (by omega)]
  · rw [keptObjects, hdrain]
    simp only [Option.bind_eq_bind, Option.bind_some]
    rw [← liveKeys, hcopy]
    rfl

theorem majorGc_run (h : WellFormed desc vm objects roots) :
    ∃ live mem', Run desc vm objects roots live mem' ∧
      majorGc desc vm roots = some { vm with
        mem := mem'
        heapUsed := endOf desc vm.mem vm.heap (liveKeys vm live) - vm.heap } ∧
      keptObjects desc vm roots =
        some (((moves desc vm live).filter fun p => !isMonitor p.1).map Prod.snd) := by
  obtain ⟨live, mem', hp, hout, hrun⟩ := majorGc_phases h (fun _ hr => hr) (fun _ hr _ => hr)
    (List.nodup_iff_count_le_one.mp h.rootsDistinct _)
  refine ⟨live, mem', ⟨hp, fun r hr hne => ?_⟩, hrun⟩
  rw [hout r (h.rootsOutside r hr) hne (List.nodup_iff_count_le_one.mp h.rootsDistinct r), if_pos hr]

/-! ### The result -/

/-- The live references that have been put on the pending list. -/
def linked (desc : Nat → Classdesc) (vm : Vm) (live : List Nat) : List Nat :=
  (linkedOf desc vm (liveKeys vm live) (newLocations desc vm live) (moves desc vm live)).map Prod.fst

namespace WellFormed

variable (h : WellFormed desc vm objects roots) (hn : live.Nodup) (hlive : ∀ o ∈ live, o ∈ objects)

include h hn hlive

theorem mem_linked : o ∈ linked desc vm live ↔ o ∈ live ∧
    Linkable desc vm (liveKeys vm live) (newLocations desc vm live) o := by
  rw [linked, List.mem_map]
  constructor
  · rintro ⟨p, hp, rfl⟩
    obtain ⟨hp, hl⟩ := List.mem_filter.mp hp
    simp only [Bool.and_eq_true, decide_eq_true_eq] at hl
    exact ⟨(h.mem_filter_liveKeys hlive).mp (List.mem_filter.mpr ⟨(List.of_mem_zip hp).1, hl.1⟩),
      hl.2⟩
  · rintro ⟨ho, hl⟩
    refine ⟨_, List.mem_filter.mpr ⟨h.mem_moves_of_mem hn hlive
      (mem_liveKeys.mpr ⟨o, ho, self_mem_keys⟩), ?_⟩, rfl⟩
    simp only [h.not_isMonitor (hlive o ho), hl, Bool.not_false, decide_true, Bool.and_self]

theorem linked_sorted : (linked desc vm live).Pairwise (· < ·) := by
  have hsub : (linked desc vm live).Sublist (liveKeys vm live) := by
    refine (List.filter_sublist.map Prod.fst).trans ?_
    rw [moves, newLocations, List.map_fst_zip (by rw [length_locations])]
  exact (h.liveKeys_sorted hn hlive).sublist hsub

/-- The linked references at their new locations. -/
theorem map_moved_linked : (linked desc vm live).reverse.map (moved desc vm live) =
    (linkedOf desc vm (liveKeys vm live) (newLocations desc vm live)
      (moves desc vm live)).reverse.map Prod.snd := by
  rw [linked, ← List.map_reverse, List.map_map]
  refine List.map_congr_left fun p hp => ?_
  exact h.moved_of_mem_moves hn hlive (List.mem_filter.mp (List.mem_reverse.mp hp)).1

/-- The new blocks do not overlap. -/
theorem moved_disjoint {k' : Nat} (hk : k ∈ liveKeys vm live) (hk' : k' ∈ liveKeys vm live)
    (hne : k ≠ k') :
    moved desc vm live k + span desc vm.mem k ≤ moved desc vm live k' ∨
      moved desc vm live k' + span desc vm.mem k' ≤ moved desc vm live k := by
  have hpair : (moves desc vm live).Pairwise fun p q => p.1 = q.1 ∨
      p.2 + span desc vm.mem p.1 ≤ q.2 ∨ q.2 + span desc vm.mem q.1 ≤ p.2 :=
    pairwise_locations.imp fun hle => .inr (.inl hle)
  have hsymm : ∀ p q : Nat × Nat, (p.1 = q.1 ∨ p.2 + span desc vm.mem p.1 ≤ q.2 ∨
      q.2 + span desc vm.mem q.1 ≤ p.2) → (q.1 = p.1 ∨ q.2 + span desc vm.mem q.1 ≤ p.2 ∨
      p.2 + span desc vm.mem p.1 ≤ q.2) := fun _ _ hpq => hpq.imp Eq.symm Or.symm
  have : Std.Symm fun p q : Nat × Nat => p.1 = q.1 ∨ p.2 + span desc vm.mem p.1 ≤ q.2 ∨
      q.2 + span desc vm.mem q.1 ≤ p.2 := ⟨hsymm⟩
  exact (List.Pairwise.forall_of_forall (fun _ _ => .inl rfl) hpair (h.mem_moves_of_mem hn hlive hk)
    (h.mem_moves_of_mem hn hlive hk')).resolve_left hne

end WellFormed

namespace Phases

variable {mem' : Nat → Nat} (hr : Phases desc vm objects roots live mem')
  (h : WellFormed desc vm objects roots)

include hr h

theorem live_subset : ∀ o ∈ live, o ∈ objects := fun o ho =>
  h.object_of_reachable ((hr.reachable o).mp ho)

theorem object_of_reachable (ho : Reachable vm roots (strongOffsets desc vm.mem) o) :
    o ∈ objects :=
  hr.live_subset h o ((hr.reachable o).mpr ho)

omit h in
theorem mem_liveKeys_of_reachable (ho : Reachable vm roots (strongOffsets desc vm.mem) o)
    (hk : k ∈ keys vm.mem o) : k ∈ liveKeys vm live :=
  mem_liveKeys.mpr ⟨o, (hr.reachable o).mpr ho, hk⟩

theorem mem_moves (ho : Reachable vm roots (strongOffsets desc vm.mem) o)
    (hk : k ∈ keys vm.mem o) : (k, moved desc vm live k) ∈ moves desc vm live :=
  h.mem_moves_of_mem hr.nodup (hr.live_subset h) (hr.mem_liveKeys_of_reachable ho hk)

/-- What is at the new place of a live object. -/
theorem rewritten (ho : Reachable vm roots (strongOffsets desc vm.mem) o) : ∃ m m',
    Rewritten desc vm (liveKeys vm live) (newLocations desc vm live) o (moved desc vm live o) m m' ∧
      ∀ d < span desc vm.mem o, mem' (moved desc vm live o + d) = m' (moved desc vm live o + d) :=
  hr.object _ (hr.mem_moves h ho self_mem_keys) (hr.object_of_reachable h ho)

theorem header (ho : Reachable vm roots (strongOffsets desc vm.mem) o)
    (he : hasExpandedData vm.mem o = false) : mem' (moved desc vm live o) = vm.mem o := by
  have hpos := h.span_pos (hr.object_of_reachable h ho) self_mem_keys
  obtain ⟨m, m', hrew, hsame⟩ := hr.rewritten h ho
  exact (hsame 0 (by omega)).trans (hrew.header he)

theorem monitorOf (ho : Reachable vm roots (strongOffsets desc vm.mem) o)
    (he : hasExpandedData vm.mem o = true) :
    mem' (moved desc vm live o) = moved desc vm live (vm.mem o + 1) ∧
      ∀ d < sizeofMonitorData,
        mem' (moved desc vm live (vm.mem o + 1) + d) = vm.mem (vm.mem o + d) := by
  have hobj := hr.object_of_reachable h ho
  have hpos := h.span_pos hobj self_mem_keys
  have hk : vm.mem o + 1 ∈ keys vm.mem o := mem_keys.mpr (.inr ⟨he, rfl⟩)
  obtain ⟨m, m', hrew, hsame⟩ := hr.rewritten h ho
  constructor
  · refine (hsame 0 (by omega)).trans ?_
    have hmoved : moved desc vm live (vm.mem o + 1) =
        (relocated (liveKeys vm live) (newLocations desc vm live) (vm.mem o + 1)).getD _ := rfl
    rw [hmoved, hrew.monitor he, Option.getD_some, Nat.add_zero]
  · intro d hd
    have := hr.monitor _ (hr.mem_moves h ho hk) (h.isMonitor_succ hobj he) d
      (by rw [h.span_monitor hobj he]; exact hd)
    rwa [h.untag_monitor hobj he] at this

theorem unmarked (ho : Reachable vm roots (strongOffsets desc vm.mem) o) :
    isReachable mem' (moved desc vm live o) = false := by
  have hun := h.unmarked o (hr.object_of_reachable h ho)
  rw [isReachable] at hun ⊢
  rcases getMarkWord_cases vm.mem o with ⟨he, hw⟩ | ⟨he, hw⟩ <;> rw [hw] at hun
  · have hhead := hr.header h ho he
    have hword : getMarkWord mem' (moved desc vm live o) = moved desc vm live o := by
      rw [getMarkWord, hasExpandedData, hhead, ← hasExpandedData, he]
      rfl
    rw [hword, hhead, hun]
  · have hk : vm.mem o + 1 ∈ keys vm.mem o := mem_keys.mpr (.inr ⟨he, rfl⟩)
    have haligned : moved desc vm live (vm.mem o + 1) % 8 = 0 :=
      aligned_locations h.heapAligned.2 (hr.mem_moves h ho hk)
    obtain ⟨hhead, hdata⟩ := hr.monitorOf h ho he
    have hword : getMarkWord mem' (moved desc vm live o) =
        moved desc vm live (vm.mem o + 1) + 8 := by
      rw [getMarkWord, hasExpandedData, hhead, testBit_zero_eq,
        decide_eq_false (show ¬ moved desc vm live (vm.mem o + 1) % 2 = 1 by omega)]
      rfl
    rw [hword, hdata 8 (by decide), hun]

/-- The referent of a live reference object, and whether it is live itself. -/
theorem referent (ho : Reachable vm roots (strongOffsets desc vm.mem) o)
    (href : IsReference desc vm.mem o) :
    mem' (moved desc vm live o + referentOffset) =
      (relocated (liveKeys vm live) (newLocations desc vm live)
        (vm.mem (o + referentOffset))).getD 0 ∧
    (vm.mem (o + referentOffset) ∈ liveKeys vm live ↔
      Reachable vm roots (strongOffsets desc vm.mem) (vm.mem (o + referentOffset))) := by
  have hobj := hr.object_of_reachable h ho
  obtain ⟨m, m', hrew, hsame⟩ := hr.rewritten h ho
  obtain ⟨rest, hoffs, -, -, -⟩ := h.referenceOffsets_reference hobj href
  have hmem : referentOffset ∈ referenceOffsets desc vm.mem o := by
    rw [hoffs]
    exact List.mem_cons_self
  have hin := h.referenceOffsets_inside hobj hmem
  refine ⟨(hsame _ (by omega)).trans (hrew.referent href), fun hk => ?_, fun hv =>
    hr.mem_liveKeys_of_reachable hv self_mem_keys⟩
  have hv := h.references o hobj _ hmem (h.inHeap_of_mem_liveKeys (hr.live_subset h) hk)
  exact (hr.reachable _).mp ((h.object_mem_liveKeys (hr.live_subset h) hv).mp hk)

theorem mem_linked : o ∈ linked desc vm live ↔
    Reachable vm roots (strongOffsets desc vm.mem) o ∧
      Linkable desc vm (liveKeys vm live) (newLocations desc vm live) o := by
  rw [h.mem_linked hr.nodup (hr.live_subset h), hr.reachable]

theorem referentsCleared {vm' : Vm} (hvm : vm'.mem = mem') :
    ReferentsCleared desc vm roots (strongOffsets desc vm.mem) (linked desc vm live)
      (moved desc vm live) vm' := by
  have hn := hr.nodup
  have hlive := hr.live_subset h
  subst hvm
  refine ⟨fun o ho href hv => ?_, fun o ho href hv => ?_, fun o => ?_, h.linked_sorted hn hlive, ?_⟩
  · obtain ⟨heq, hiff⟩ := hr.referent h ho href
    have hmem := h.mem_moves_of_mem hn hlive (hiff.mpr hv)
    rw [heq, (h.relocated_eq_some_iff hn hlive).mpr hmem, Option.getD_some]
  · obtain ⟨heq, hiff⟩ := hr.referent h ho href
    rw [heq, (h.relocated_eq_none_iff hn hlive).mpr (mt hiff.mp hv), Option.getD_none]
  · rw [hr.mem_linked h, Linkable]
    refine and_congr_right fun ho => and_congr_right fun href => and_congr_right fun _ => ?_
    rw [h.relocated_eq_none_iff hn hlive, (hr.referent h ho href).2]
  · rw [h.map_moved_linked hn hlive, h.forward_moved hn hlive]
    exact hr.chain

theorem sameGraph {vm' : Vm} (hvm : vm'.mem = mem') :
    SameGraph desc vm roots (strongOffsets desc vm.mem) (linked desc vm live)
      (moved desc vm live) vm' := by
  have hn := hr.nodup
  have hlive := hr.live_subset h
  subst hvm
  refine ⟨fun o ho d hd hor => ?_, fun o ho d h8 hd hnot => ?_, fun o ho => hr.header h ho,
    fun o ho => hr.monitorOf h ho, fun o ho k hk o' ho' k' hk' => ?_⟩
  · obtain ⟨m, m', hrew, hsame⟩ := hr.rewritten h ho
    have hin := h.referenceOffsets_inside (hr.object_of_reachable h ho) (strongOffsets_subset hd)
    rw [h.forward_moved hn hlive, hsame d (by omega)]
    exact hrew.strong d hd (hor.imp_right fun hno hl => hno ((hr.mem_linked h).mpr ⟨ho, hl⟩))
  · obtain ⟨m, m', hrew, hsame⟩ := hr.rewritten h ho
    rw [hsame d hd, hrew.data d h8 hd hnot]
  · by_cases hkk : k = k'
    · exact .inl ⟨h.key_owner (hr.object_of_reachable h ho) hk (hr.object_of_reachable h ho')
        (hkk ▸ hk'), hkk⟩
    · exact .inr (h.moved_disjoint hn hlive (hr.mem_liveKeys_of_reachable ho hk)
        (hr.mem_liveKeys_of_reachable ho' hk') hkk)

end Phases

theorem Run.collected {mem' : Nat → Nat} (hr : Run desc vm objects roots live mem')
    (h : WellFormed desc vm objects roots) {vm' : Vm} (hvm : vm'.mem = mem')
    (hused : vm'.heapUsed = endOf desc vm.mem vm.heap (liveKeys vm live) - vm.heap) :
    Collected desc vm roots (strongOffsets desc vm.mem) (linked desc vm live)
      (moved desc vm live) vm' := by
  have hn := hr.nodup
  have hlive := hr.live_subset h
  have hstart : vm.heap ≤ endOf desc vm.mem vm.heap (liveKeys vm live) := le_endOf
  have hg := hr.sameGraph h hvm
  subst hvm
  refine ⟨fun r hrm hor => ?_, hg.field, hg.data, hg.header, hg.monitor,
    fun o ho => hr.unmarked h ho, hg.disjoint, fun o ho k hk => ?_, ?_⟩
  · rw [h.forward_moved hn hlive]
    by_cases hpend : r = vm.referencePendingList
    · have hnil : linkedOf desc vm (liveKeys vm live) (newLocations desc vm live)
          (moves desc vm live) = [] :=
        List.map_eq_nil_iff.mp (hor.resolve_left (not_not_intro hpend))
      have hchain := hr.chain
      rw [hnil] at hchain
      rw [hpend]
      exact hchain
    · exact hr.root r hrm hpend
  · obtain ⟨h1, h2⟩ := mem_zip_locations (hr.mem_moves h ho hk)
    exact ⟨h1, by simp only at h2; omega⟩
  · rw [hused]
    by_cases hnil : liveKeys vm live = []
    · refine .inl ⟨by rw [hnil, endOf, Nat.sub_self], fun o ho => ?_⟩
      have := hr.mem_liveKeys_of_reachable ho self_mem_keys
      rw [hnil] at this
      cases this
    · obtain ⟨p, hp, heq⟩ : ∃ p ∈ moves desc vm live, p.2 + span desc vm.mem p.1 =
          endOf desc vm.mem vm.heap (liveKeys vm live) := exists_endOf hnil
      obtain ⟨o, ho, hk⟩ := mem_liveKeys.mp (List.of_mem_zip hp).1
      refine .inr ⟨o, (hr.reachable o).mp ho, p.1, hk, ?_⟩
      rw [h.moved_of_mem_moves hn hlive hp, heq]
      omega

/-- The collection leaves the graph of what is reachable without the referents of reference objects
as it was, at its new place, and clears the other referents. -/
theorem majorGc_collects (h : WellFormed desc vm objects roots) :
    ∃ vm' linked f, majorGc desc vm roots = some vm' ∧
      Collected desc vm roots (strongOffsets desc vm.mem) linked f vm' ∧
      ReferentsCleared desc vm roots (strongOffsets desc vm.mem) linked f vm' := by
  obtain ⟨live, mem', hr, hrun, -⟩ := majorGc_run h
  exact ⟨_, linked desc vm live, moved desc vm live, hrun, hr.collected h rfl rfl,
    hr.referentsCleared h rfl⟩

/-! ### A weak reference -/

/-- The class of the object, and that of the reference object. -/
def weakClasses : Nat → Classdesc
  | 1 => { kind := .ordinary, instanceBytes := 16 }
  | 2 => { kind := .ordinary, instanceBytes := 48, instanceReferences := [2, 3, 4, 5],
           isReference := true }
  | _ => default

/-- The reference object at 80 is a root, and refers to the object at 64. -/
def weakHeap : Vm where
  mem
    | 8 => 80
    | 64 => 1
    | 72 => 1
    | 80 => 1
    | 88 => 2
    | 96 => 64
    | _ => 0
  heap := 64
  heapCapacity := 64
  heapUsed := 64
  referencePendingList := 16

theorem weakHeap_wellFormed : WellFormed weakClasses weakHeap [64, 80] [8] where
  heapAligned := by decide
  used := by decide
  aligned := by decide
  monitor := by decide
  layout o ho := by
    simp only [List.mem_cons, List.not_mem_nil, or_false] at ho
    rcases ho with rfl | rfl <;> constructor <;> decide
  inside := by decide
  disjoint := by decide
  unmarked := by decide
  references := by decide
  rootsDistinct := by decide
  rootsOutside := by decide
  rootTargets := by decide
  pending := by decide

theorem weakHeap_collected : ∃ vm' linked f, majorGc weakClasses weakHeap [8] = some vm' ∧
    Collected weakClasses weakHeap [8] (strongOffsets weakClasses weakHeap.mem) linked f vm' ∧
    ReferentsCleared weakClasses weakHeap [8] (strongOffsets weakClasses weakHeap.mem) linked f
      vm' :=
  majorGc_collects weakHeap_wellFormed

/-- The referent is null after the collection, though it could be reached through the reference
object. -/
theorem weakHeap_cleared : WellFormed weakClasses weakHeap [64, 80] [8] ∧
    ¬ ∃ vm' f, majorGc weakClasses weakHeap [8] = some vm' ∧
      Collected weakClasses weakHeap [8] (referenceOffsets weakClasses weakHeap.mem) [] f vm' := by
  refine ⟨weakHeap_wellFormed, ?_⟩
  rintro ⟨vm', f, hrun, hc⟩
  have hmem : (majorGc weakClasses weakHeap [8]).map (fun vm => (vm.mem 8, vm.mem 80)) =
      some (64, 0) := by decide
  rw [hrun, Option.map_some, Option.some.injEq, Prod.mk.injEq] at hmem
  have hroot : Reachable weakHeap [8] (referenceOffsets weakClasses weakHeap.mem) 80 :=
    .root (r := 8) (by simp) (by decide)
  have hobject : Reachable weakHeap [8] (referenceOffsets weakClasses weakHeap.mem) 64 :=
    .field (d := 16) hroot (by decide) (by decide)
  have hmoved : f 80 = 64 := (hc.root 8 (by simp) (.inr rfl)).symm.trans hmem.1
  have hnull := hc.field 80 hroot 16 (by decide) (.inr (by simp))
  rw [hmoved, hmem.2] at hnull
  have hinside := (hc.inside 64 hobject 64 self_mem_keys).1
  rw [show f 64 = 0 from hnull.symm] at hinside
  exact absurd hinside (by decide)

end BJvm.Collector
