import BJvm.Gc.References
import BJvm.Proofs.MajorGc

/-!
# References over a run

A collection leaves a well-formed heap, and a reference with a `discovered` field that is not null has
no referent.  So no reference is linked twice, and the list of the pending ones stays a list
(`references_of_run`).
-/

namespace BJvm.Collector

open WellFormed

variable {desc : Nat → Classdesc} {vm : Vm} {objects roots live old : List Nat} {mem mem' : Nat → Nat}
  {o k d v head tail : Nat} {s s' : HeapState}

/-! ### Lists of references -/

theorem chain_unique : ∀ {l l' : List Nat} {head : Nat}, (∀ o ∈ l, o ≠ 0) → (∀ o ∈ l', o ≠ 0) →
    Chain mem head l 0 → Chain mem head l' 0 → l = l'
  | [], [], _, _, _, _, _ => rfl
  | [], o :: _, _, _, h0, hl, hl' => absurd (hl'.1.symm.trans hl) (h0 o List.mem_cons_self)
  | o :: _, [], _, h0, _, hl, hl' => absurd (hl.1.symm.trans hl') (h0 o List.mem_cons_self)
  | o :: l, o' :: l', _, h0, h0', hl, hl' => by
    obtain rfl : o = o' := hl.1.symm.trans hl'.1
    rw [chain_unique (fun x hx => h0 x (List.mem_cons_of_mem _ hx))
      (fun x hx => h0' x (List.mem_cons_of_mem _ hx)) hl.2 hl'.2]

theorem chain_suffix : ∀ {l l' : List Nat} {head : Nat}, Chain mem head (l ++ o :: l') tail →
    Chain mem o (o :: l') tail
  | [], _, _, h => ⟨rfl, h.2⟩
  | _ :: _, _, _, h => chain_suffix h.2

/-- A list that ends comes to no reference twice. -/
theorem chain_nodup : ∀ {l : List Nat} {head : Nat}, (∀ o ∈ l, o ≠ 0) → Chain mem head l 0 → l.Nodup
  | [], _, _, _ => .nil
  | o :: l, _, h0, h => by
    have h0' : ∀ x ∈ l, x ≠ 0 := fun x hx => h0 x (List.mem_cons_of_mem _ hx)
    refine List.nodup_cons.mpr ⟨fun ho => ?_, chain_nodup h0' h.2⟩
    obtain ⟨l₁, l₂, rfl⟩ := List.append_of_mem ho
    have heq := chain_unique (fun x hx => h0' x (List.mem_append_right _ hx)) h0
      (chain_suffix h.2) ⟨rfl, h.2⟩
    have := congrArg List.length heq
    simp only [List.length_cons, List.length_append] at this
    omega

theorem chain_prefix : ∀ {l l' : List Nat} {head : Nat}, Chain mem head (l ++ o :: l') tail →
    Chain mem head (l ++ [o]) (mem (o + discoveredOffset))
  | [], _, _, h => ⟨h.1, rfl⟩
  | _ :: _, _, _, h => ⟨h.1, chain_prefix h.2⟩

theorem chain_join : ∀ {l l' : List Nat} {head mid : Nat}, Chain mem head l mid →
    Chain mem mid l' tail → Chain mem head (l ++ l') tail
  | [], _, _, _, h, h' => (show _ = _ from h) ▸ h'
  | _ :: _, _, _, _, h, h' => ⟨h.1, chain_join h.2 h'⟩

/-- The successors of the elements of a list are elements of it, or its end. -/
theorem chain_next : ∀ {l : List Nat} {head : Nat}, Chain mem head l tail → o ∈ l →
    mem (o + discoveredOffset) ∈ l ∨ mem (o + discoveredOffset) = tail
  | [x], _, h, ho => by
    rw [List.mem_singleton.mp ho]
    exact .inr h.2
  | x :: y :: l, _, h, ho => by
    rcases List.mem_cons.mp ho with rfl | ho
    · exact .inl (by rw [h.2.1]; simp)
    · exact (chain_next h.2 ho).imp_left (List.mem_cons_of_mem _)

theorem chain_head : ∀ {l : List Nat} {head : Nat}, Chain mem head l tail → head ∈ l ∨ head = tail
  | [], _, h => .inr h
  | _ :: _, _, h => .inl (by rw [h.1]; exact List.mem_cons_self)

/-! ### The heap after a collection -/

/-- The new places of the live objects. -/
def survivors (desc : Nat → Classdesc) (vm : Vm) (live : List Nat) : List Nat :=
  ((moves desc vm live).filter fun p => !isMonitor p.1).map Prod.snd

/-- A monitor or an object at its new place. -/
def movedKey (desc : Nat → Classdesc) (vm : Vm) (live : List Nat) (k : Nat) : Nat :=
  if isMonitor k then moved desc vm live k + 1 else moved desc vm live k

namespace WellFormed

variable (h : WellFormed desc vm objects roots) (hn : live.Nodup) (hlive : ∀ o ∈ live, o ∈ objects)

include h hn hlive

theorem mem_survivors : v ∈ survivors desc vm live ↔ ∃ o ∈ live, moved desc vm live o = v := by
  rw [survivors, List.mem_map]
  constructor
  · rintro ⟨p, hp, rfl⟩
    obtain ⟨hp, hnot⟩ := List.mem_filter.mp hp
    exact ⟨p.1, (h.mem_filter_liveKeys hlive).mp (List.mem_filter.mpr ⟨(List.of_mem_zip hp).1, hnot⟩),
      h.moved_of_mem_moves hn hlive hp⟩
  · rintro ⟨o, ho, rfl⟩
    exact ⟨_, List.mem_filter.mpr ⟨h.mem_moves_of_mem hn hlive (mem_liveKeys.mpr
      ⟨o, ho, self_mem_keys⟩), by simp [h.not_isMonitor (hlive o ho)]⟩, rfl⟩

/-- The objects and monitors stay in order. -/
theorem moved_lt {k' : Nat} (hk : k ∈ liveKeys vm live) (hk' : k' ∈ liveKeys vm live) (hlt : k < k') :
    moved desc vm live k < moved desc vm live k' := by
  have hsorted : (moves desc vm live).Pairwise fun p q => p.1 < q.1 := by
    refine List.Pairwise.of_map Prod.fst (fun _ _ => id) ?_
    rw [moves, newLocations, List.map_fst_zip (by rw [length_locations])]
    exact h.liveKeys_sorted hn hlive
  have hpair : (moves desc vm live).Pairwise fun p q => p.1 < q.1 ∧
      p.2 + span desc vm.mem p.1 ≤ q.2 := hsorted.and pairwise_locations
  obtain ⟨i, hi, hik⟩ := List.getElem_of_mem (h.mem_moves_of_mem hn hlive hk)
  obtain ⟨j, hj, hjk⟩ := List.getElem_of_mem (h.mem_moves_of_mem hn hlive hk')
  obtain ⟨o, ho, hko⟩ := liveKeys_object hlive hk
  have hpos := h.span_pos ho hko
  rcases Nat.lt_trichotomy i j with hij | rfl | hij
  · have := (List.pairwise_iff_getElem.mp hpair i j hi hj hij).2
    rw [hik, hjk] at this
    simp only at this
    omega
  · rw [hik, Prod.mk.injEq] at hjk
    omega
  · have := (List.pairwise_iff_getElem.mp hpair j i hj hi hij).1
    rw [hik, hjk] at this
    simp only at this
    omega

end WellFormed

namespace Run

variable (hr : Run desc vm objects roots live mem') (h : WellFormed desc vm objects roots)

include hr h

theorem moved_aligned (ho : o ∈ live) (hk : k ∈ keys vm.mem o) : moved desc vm live k % 8 = 0 :=
  aligned_locations h.heapAligned.2 (hr.mem_moves h ((hr.reachable o).mp ho) hk)

/-- What is not a reference is what it was. -/
theorem data (ho : o ∈ live) (h8 : 8 ≤ d) (hd : d < span desc vm.mem o)
    (hnot : d ∉ referenceOffsets desc vm.mem o) :
    mem' (moved desc vm live o + d) = vm.mem (o + d) := by
  have hg : SameGraph desc vm roots _ _ _ { vm with mem := mem' } := hr.sameGraph h rfl
  exact hg.data o ((hr.reachable o).mp ho) d h8 hd hnot

theorem descriptor_moved (ho : o ∈ live) :
    descriptor desc mem' (moved desc vm live o) = descriptor desc vm.mem o :=
  h.descriptor_congr (hr.live_subset h o ho) fun _ h8 hd hnot => hr.data h ho h8 hd hnot

theorem expanded_moved (ho : o ∈ live) :
    hasExpandedData mem' (moved desc vm live o) = hasExpandedData vm.mem o := by
  have hreach := (hr.reachable o).mp ho
  rcases he : hasExpandedData vm.mem o with _ | _
  · rw [hasExpandedData, hr.header h hreach he, ← hasExpandedData, he]
  · have haligned := hr.moved_aligned h ho (mem_keys.mpr (.inr ⟨he, rfl⟩))
    rw [hasExpandedData, (hr.monitorOf h hreach he).1, testBit_zero_eq]
    simp only [Bool.not_eq_true', decide_eq_false_iff_not]
    omega

/-- The object and its monitor are at their new places. -/
theorem keys_moved (ho : o ∈ live) {k' : Nat} (hk' : k' ∈ keys mem' (moved desc vm live o)) :
    ∃ k ∈ keys vm.mem o, k' = movedKey desc vm live k ∧ untag k' = moved desc vm live k ∧
      span desc mem' k' = span desc vm.mem k := by
  have hobj := hr.live_subset h o ho
  have hreach := (hr.reachable o).mp ho
  rcases mem_keys.mp hk' with rfl | ⟨he', rfl⟩
  · have haligned := hr.moved_aligned h ho self_mem_keys
    have hnot : isMonitor (moved desc vm live o) = false := by
      rw [← Bool.not_eq_true, isMonitor_iff]
      omega
    refine ⟨o, self_mem_keys, ?_, untag_of_even (by omega), ?_⟩
    · rw [movedKey, h.not_isMonitor hobj]
      rfl
    · rw [h.span_object hobj, span, hnot, if_neg (by simp),
        h.sizeOfObject_congr hobj fun _ h8 hd hn => hr.data h ho h8 hd hn]
  · rw [hr.expanded_moved h ho] at he'
    have hk : vm.mem o + 1 ∈ keys vm.mem o := mem_keys.mpr (.inr ⟨he', rfl⟩)
    have haligned := hr.moved_aligned h ho hk
    have hhead := (hr.monitorOf h hreach he').1
    have hmonitor : isMonitor (moved desc vm live (vm.mem o + 1) + 1) = true := by
      rw [isMonitor_iff]
      omega
    rw [hhead]
    refine ⟨_, hk, ?_, untag_succ (by omega), ?_⟩
    · rw [movedKey, if_pos (h.isMonitor_succ hobj he')]
    · rw [h.span_monitor hobj he', span, if_pos hmonitor]
      rfl

theorem moved_mem_survivors (ho : Reachable vm roots (strongOffsets desc vm.mem) o) :
    moved desc vm live o ∈ survivors desc vm live :=
  (h.mem_survivors hr.nodup (hr.live_subset h)).mpr ⟨o, (hr.reachable o).mpr ho, rfl⟩

theorem forward_mem_survivors
    (hv : vm.inHeap v = true → Reachable vm roots (strongOffsets desc vm.mem) v)
    (hin : vm.inHeap (forward vm (moved desc vm live) v) = true) :
    forward vm (moved desc vm live) v ∈ survivors desc vm live := by
  rw [forward] at hin ⊢
  split_ifs at hin ⊢ with hheap
  · exact hr.moved_mem_survivors h (hv hheap)
  · exact absurd hin hheap

/-- The list of the pending references leads to objects. -/
theorem pending_mem_survivors (hpend : vm.referencePendingList ∈ roots)
    (hv : v ∈ (linked desc vm live).reverse.map (moved desc vm live) ∨
      v = forward vm (moved desc vm live) (vm.mem vm.referencePendingList))
    (hin : vm.inHeap v = true) : v ∈ survivors desc vm live := by
  rcases hv with hv | rfl
  · obtain ⟨o, ho, rfl⟩ := List.mem_map.mp hv
    exact hr.moved_mem_survivors h ((hr.mem_linked h).mp (List.mem_reverse.mp ho)).1
  · exact hr.forward_mem_survivors h (.root hpend) hin

/-- The references of what has been moved. -/
theorem references (hpend : vm.referencePendingList ∈ roots) (ho : o ∈ live)
    (hd : d ∈ referenceOffsets desc vm.mem o)
    (hin : vm.inHeap (mem' (moved desc vm live o + d)) = true) :
    mem' (moved desc vm live o + d) ∈ survivors desc vm live := by
  have hobj := hr.live_subset h o ho
  have hreach := (hr.reachable o).mp ho
  have hg : SameGraph desc vm roots _ _ _ { vm with mem := mem' } := hr.sameGraph h rfl
  have hc : ReferentsCleared desc vm roots _ _ _ { vm with mem := mem' } := hr.referentsCleared h rfl
  by_cases hstrong : d ∈ strongOffsets desc vm.mem o
  · by_cases hlink : d ≠ discoveredOffset ∨ o ∉ linked desc vm live
    · have hfield : mem' (moved desc vm live o + d) = _ := hg.field o hreach d hstrong hlink
      rw [hfield] at hin ⊢
      exact hr.forward_mem_survivors h (.field hreach hstrong) hin
    · simp only [ne_eq, not_or, not_not] at hlink
      obtain ⟨rfl, hlinked⟩ := hlink
      exact hr.pending_mem_survivors h hpend
        (chain_next hc.pending (List.mem_map_of_mem (List.mem_reverse.mpr hlinked))) hin
  · -- only the referent is not strong
    have href : IsReference desc vm.mem o := by
      by_contra hnot
      rw [strongOffsets, if_neg hnot] at hstrong
      exact hstrong hd
    obtain ⟨rest, hoffs, hrest, -, -⟩ := h.referenceOffsets_reference hobj href
    obtain rfl : d = referentOffset := by
      rw [hoffs] at hd
      exact (List.mem_cons.mp hd).resolve_right (hrest ▸ hstrong)
    by_cases hv : Reachable vm roots (strongOffsets desc vm.mem) (vm.mem (o + referentOffset))
    · have hkept : mem' (moved desc vm live o + referentOffset) = _ := hc.kept o hreach href hv
      rw [hkept]
      exact hr.moved_mem_survivors h hv
    · have hclear : mem' (moved desc vm live o + referentOffset) = 0 := hc.cleared o hreach href hv
      rw [hclear, h.null_outside] at hin
      cases hin

/-- A collection leaves a well-formed heap. -/
theorem wellFormed (hpend : vm.referencePendingList ∈ roots) :
    WellFormed desc { vm with
      mem := mem'
      heapUsed := endOf desc vm.mem vm.heap (liveKeys vm live) - vm.heap }
      (survivors desc vm live) roots := by
  have hn := hr.nodup
  have hlive := hr.live_subset h
  have hstart : vm.heap ≤ endOf desc vm.mem vm.heap (liveKeys vm live) := le_endOf
  have hend := h.endOf_liveKeys hn hlive
  have hused := h.used
  have hsurvivor := fun o => (h.mem_survivors hn hlive (v := o)).mp
  have hkey : ∀ o ∈ live, ∀ k ∈ keys vm.mem o, k ∈ liveKeys vm live := fun o ho k hk =>
    mem_liveKeys.mpr ⟨o, ho, hk⟩
  refine ⟨h.heapAligned, by simp only; omega, fun v hv => ?_, fun v hv he => ?_, fun v hv => ?_,
    fun v hv k hk => ?_, fun v hv k hk v' hv' k' hk' => ?_, fun v hv => ?_, fun v hv d hd => ?_,
    h.rootsDistinct, h.rootsOutside, fun r hrm => ?_, h.pending.1, .inl hpend⟩
  · obtain ⟨o, ho, rfl⟩ := hsurvivor v hv
    exact hr.moved_aligned h ho self_mem_keys
  · obtain ⟨o, ho, rfl⟩ := hsurvivor v hv
    have he : hasExpandedData vm.mem o = true := (hr.expanded_moved h ho) ▸ he
    have hk : vm.mem o + 1 ∈ keys vm.mem o := mem_keys.mpr (.inr ⟨he, rfl⟩)
    have hlt := (h.monitor o (hlive o ho) he).2
    have hhead : mem' (moved desc vm live o) = moved desc vm live (vm.mem o + 1) :=
      (hr.monitorOf h ((hr.reachable o).mp ho) he).1
    simp only [hhead]
    exact ⟨hr.moved_aligned h ho hk,
      h.moved_lt hn hlive (hkey o ho o self_mem_keys) (hkey o ho _ hk) (by omega)⟩
  · obtain ⟨o, ho, rfl⟩ := hsurvivor v hv
    simp only [hr.descriptor_moved h ho]
    exact h.layout o (hlive o ho)
  · obtain ⟨o, ho, rfl⟩ := hsurvivor v hv
    obtain ⟨k₀, hk₀, -, huntag, hspan⟩ := hr.keys_moved h ho hk
    obtain ⟨h1, h2⟩ := mem_zip_locations (hr.mem_moves h ((hr.reachable o).mp ho) hk₀)
    simp only [huntag, hspan] at h1 h2 ⊢
    exact ⟨h1, by omega⟩
  · obtain ⟨o, ho, rfl⟩ := hsurvivor v hv
    obtain ⟨o', ho', rfl⟩ := hsurvivor v' hv'
    obtain ⟨k₀, hk₀, hkey₀, huntag, hspan⟩ := hr.keys_moved h ho hk
    obtain ⟨k₁, hk₁, hkey₁, huntag', hspan'⟩ := hr.keys_moved h ho' hk'
    simp only [huntag, hspan, huntag', hspan']
    by_cases hne : k₀ = k₁
    · subst hne
      exact .inl ⟨congrArg _ (h.key_owner (hlive o ho) hk₀ (hlive o' ho') hk₁), hkey₀.trans hkey₁.symm⟩
    · exact .inr (h.moved_disjoint hn hlive (hkey o ho _ hk₀) (hkey o' ho' _ hk₁) hne)
  · obtain ⟨o, ho, rfl⟩ := hsurvivor v hv
    exact hr.unmarked h ((hr.reachable o).mp ho)
  · obtain ⟨o, ho, rfl⟩ := hsurvivor v hv
    simp only [h.referenceOffsets_congr (hlive o ho) fun d h8 hlt hnot =>
      hr.data h ho h8 hlt hnot] at hd
    exact hr.references h hpend ho hd
  · by_cases hne : r = vm.referencePendingList
    · subst hne
      have hc : ReferentsCleared desc vm roots _ _ _ { vm with mem := mem' } :=
        hr.referentsCleared h rfl
      exact hr.pending_mem_survivors h hpend (chain_head hc.pending)
    · have hroot : mem' r = forward vm (moved desc vm live) (vm.mem r) := by
        rw [h.forward_moved hn hlive, hr.root r hrm hne]
      simp only [hroot]
      exact hr.forward_mem_survivors h (.root hrm)

/-- A list of references without referents is a list at the new places, and in reach. -/
theorem chain_moved : ∀ {l : List Nat} {head : Nat}, Chain vm.mem head l 0 →
    (∀ o ∈ l, o ∈ objects ∧ IsReference desc vm.mem o ∧ vm.mem (o + referentOffset) = 0) →
    (vm.inHeap head = true → Reachable vm roots (strongOffsets desc vm.mem) head) →
    Chain mem' (forward vm (moved desc vm live) head) (l.map (moved desc vm live)) 0 ∧
      ∀ o ∈ l, Reachable vm roots (strongOffsets desc vm.mem) o
  | [], _, hl, _, _ => by
    rw [show _ = 0 from hl, forward, h.null_outside]
    exact ⟨rfl, fun o ho => absurd ho List.not_mem_nil⟩
  | o :: l, _, hl, hrefs, hhead => by
    obtain ⟨rfl, hl⟩ := hl
    obtain ⟨hobj, href, hnull⟩ := hrefs _ List.mem_cons_self
    have hin := h.inHeap_object hobj
    have hreach := hhead hin
    obtain ⟨rest, -, hstrong, hdisc, -⟩ := h.referenceOffsets_reference hobj href
    have hd : discoveredOffset ∈ strongOffsets desc vm.mem _ := hstrong ▸ hdisc
    have hg : SameGraph desc vm roots _ _ _ { vm with mem := mem' } := hr.sameGraph h rfl
    have hnot : _ ∉ linked desc vm live := fun hlink => ((hr.mem_linked h).mp hlink).2.2.1 hnull
    obtain ⟨hchain, hall⟩ := chain_moved hl (fun o ho => hrefs o (List.mem_cons_of_mem _ ho))
      (.field hreach hd)
    refine ⟨⟨by rw [forward, hin]; rfl, ?_⟩, fun o ho => ?_⟩
    · have hnext : mem' (moved desc vm live _ + discoveredOffset) = _ :=
        hg.field _ hreach _ hd (.inr hnot)
      rw [hnext]
      exact hchain
    · rcases List.mem_cons.mp ho with rfl | ho
      · exact hreach
      · exact hall o ho

end Run

/-! ### The invariant -/

/-- The list of the pending references is `old`, none of which has a referent; and a reference that
is followed by another one in a list has none either. -/
structure PendingInv (desc : Nat → Classdesc) (s : HeapState) (old : List Nat) : Prop where
  valid : s.Valid desc
  list : Chain s.vm.mem s.pendingHead old 0
  pending : ∀ o ∈ old, o ∈ s.objects ∧ IsReference desc s.vm.mem o ∧
    s.vm.mem (o + referentOffset) = 0
  discovered : ∀ o ∈ s.objects, IsReference desc s.vm.mem o →
    s.vm.mem (o + discoveredOffset) ≠ 0 → s.vm.mem (o + referentOffset) = 0

/-- The part of a list whose elements are still pending is as it was. -/
theorem chain_kept : ∀ {l : List Nat} (front : List Nat) {mid : Nat}, Chain mem' head front mid →
    Chain mem mid l 0 →
    (∀ o ∈ l, mem' (o + discoveredOffset) = mem (o + discoveredOffset) ∨
      ¬ ∃ front tail, Chain mem' head (front ++ [o]) tail) →
    Chain mem' mid l 0
  | [], _, _, _, h, _ => h
  | _ :: _, front, _, hfront, h, hkeep => by
    obtain ⟨rfl, h⟩ := h
    have hsame := (hkeep _ List.mem_cons_self).resolve_right
      (not_not_intro ⟨front, _, chain_append hfront rfl⟩)
    refine ⟨rfl, ?_⟩
    rw [hsame]
    exact chain_kept (front ++ [_]) (chain_append hfront hsame) h fun x hx =>
      hkeep x (List.mem_cons_of_mem _ hx)

theorem PendingInv.mutate (hi : PendingInv desc s old) (hm : Mutates desc s s') :
    ∃ old', PendingInv desc s' old' := by
  have hdisc : ∀ o ∈ s'.objects, IsReference desc s'.vm.mem o →
      s'.vm.mem (o + discoveredOffset) ≠ 0 → s'.vm.mem (o + referentOffset) = 0 :=
    fun o ho href hne => by
      by_cases hold : o ∈ s.objects
      · have href' : IsReference desc s.vm.mem o := by
          rw [IsReference, ← (hm.objects o hold).2]
          exact href
        have hsame := (hm.discovered o hold href').resolve_right fun hz => hne hz.1
        rcases hm.referent o hold href' with heq | h0 | hset
        · rw [heq]
          exact hi.discovered o hold href' (hsame ▸ hne)
        · exact h0
        · exact absurd hset.1 hne
      · exact absurd (hm.new o ho hold href) hne
  rcases hm.pending with hhead | hhead
  · have hnil : Chain s'.vm.mem s'.pendingHead [] s'.pendingHead := rfl
    have hlist := chain_kept [] hnil (hhead ▸ hi.list) fun o ho =>
        (hm.discovered o (hi.pending o ho).1 (hi.pending o ho).2.1).imp_right And.right
    refine ⟨old, hm.valid, hlist, fun o ho => ?_, hdisc⟩
    obtain ⟨hobj, href, hnull⟩ := hi.pending o ho
    refine ⟨(hm.objects o hobj).1, ?_, ?_⟩
    · rw [IsReference, (hm.objects o hobj).2]
      exact href
    · obtain ⟨l₁, l₂, rfl⟩ := List.append_of_mem ho
      have hpend : s'.Pending o := ⟨l₁, _, chain_prefix hlist⟩
      rcases hm.referent o hobj href with heq | h0 | hset
      · rw [heq, hnull]
      · exact h0
      · exact absurd hpend hset.2
  · exact ⟨[], hm.valid, hhead, fun o ho => absurd ho List.not_mem_nil, hdisc⟩

/-- A collection handles the references, and keeps the invariant. -/
theorem PendingInv.collect (hi : PendingInv desc s old) :
    ∃ vm' objects linked f, majorGc desc s.vm s.roots = some vm' ∧
      keptObjects desc s.vm s.roots = some objects ∧
      ReferencesHandled desc s old linked f vm' ∧
      PendingInv desc ⟨vm', objects, s.roots⟩ ((linked.reverse ++ old).map f) := by
  obtain ⟨h, hpend⟩ := hi.valid
  obtain ⟨live, mem', hr, hrun, hkept⟩ := majorGc_run h
  have hn := hr.nodup
  have hlive := hr.live_subset h
  have hwf := hr.wellFormed h hpend
  obtain ⟨vm', hvm⟩ : ∃ vm' : Vm, vm' = { s.vm with
    mem := mem'
    heapUsed := endOf desc s.vm.mem s.vm.heap (liveKeys s.vm live) - s.vm.heap } := ⟨_, rfl⟩
  rw [← hvm] at hrun hwf
  have hmem' : vm'.mem = mem' := by rw [hvm]
  have hc := hr.collected h hmem' (by rw [hvm])
  have hclear := hr.referentsCleared h hmem'
  have hlist : vm'.referencePendingList = s.vm.referencePendingList := by rw [hvm]
  clear hvm
  subst hmem'
  have hnull : ¬ Reachable s.vm s.roots (strongOffsets desc s.vm.mem) 0 := fun h0 => by
    have := h.inHeap_object (h.object_of_reachable h0)
    rw [h.null_outside] at this
    cases this
  have hreach : ∀ o, s.Reaches desc o → o ∈ live := fun o => (hr.reachable o).mpr
  obtain ⟨hold, hin⟩ := hr.chain_moved h hi.list hi.pending (.root hpend)
  have hpending := chain_join hclear.pending hold
  rw [← List.map_append] at hpending
  -- the elements of the new list
  have hmem : ∀ o ∈ (linked desc s.vm live).reverse ++ old, s.Reaches desc o ∧
      IsReference desc s.vm.mem o ∧ vm'.mem (moved desc s.vm live o + referentOffset) = 0 :=
    fun o ho => by
      rcases List.mem_append.mp ho with ho | ho
      · obtain ⟨hro, href, -, hnot, -⟩ := (hclear.mem_linked o).mp (List.mem_reverse.mp ho)
        exact ⟨hro, href, hclear.cleared o hro href hnot⟩
      · obtain ⟨hobj, href, h0⟩ := hi.pending o ho
        exact ⟨hin o ho, href, hclear.cleared o (hin o ho) href (h0 ▸ hnull)⟩
  have hne : ∀ v ∈ ((linked desc s.vm live).reverse ++ old).map (moved desc s.vm live), v ≠ 0 :=
    fun v hv => by
      obtain ⟨o, ho, rfl⟩ := List.mem_map.mp hv
      intro h0
      rw [h.moved_eq_zero hn hlive] at h0
      exact hnull (h0 ▸ (hmem o ho).1)
  refine ⟨_, _, linked desc s.vm live, moved desc s.vm live, hrun, hkept,
    ⟨hc, fun o ho href => ⟨fun h0 hv => ?_, hclear.cleared o ho href⟩, hclear.kept, fun o => ?_,
      hi.list, hpending, chain_nodup hne hpending⟩,
    ⟨hwf, hlist ▸ hpend⟩, ?_, fun v hv => ?_, fun v hv href hd => ?_⟩
  · rw [hclear.kept o ho href hv, h.moved_eq_zero hn hlive] at h0
    exact hnull (h0 ▸ hv)
  · rw [hclear.mem_linked]
    refine ⟨fun ⟨ho, href, hv, hnot, _⟩ => ⟨ho, href, hv, hnot⟩, fun ⟨ho, href, hv, hnot⟩ =>
      ⟨ho, href, hv, hnot, ?_⟩⟩
    by_contra hd
    exact hv (hi.discovered o (h.object_of_reachable ho) href hd)
  · rw [HeapState.pendingHead, hlist]
    exact hpending
  · obtain ⟨o, ho, rfl⟩ := List.mem_map.mp hv
    obtain ⟨hro, href, h0⟩ := hmem o ho
    refine ⟨hr.moved_mem_survivors h hro, ?_, h0⟩
    rw [IsReference, hr.descriptor_moved h (hreach o hro)]
    exact href
  · obtain ⟨o, ho, rfl⟩ := (h.mem_survivors hn hlive).mp hv
    have hro := (hr.reachable o).mp ho
    rw [IsReference, hr.descriptor_moved h ho] at href
    by_cases hlink : o ∈ linked desc s.vm live
    · exact (hmem o (List.mem_append_left _ (List.mem_reverse.mpr hlink))).2.2
    · obtain ⟨rest, -, hstrong, hdisc, -⟩ := h.referenceOffsets_reference (hlive o ho) href
      rw [hc.field o hro _ (hstrong ▸ hdisc) (.inr hlink), h.forward_moved hn hlive, ne_eq,
        h.moved_eq_zero hn hlive] at hd
      have h0 := hi.discovered o (hlive o ho) href hd
      exact hclear.cleared o hro href (h0 ▸ hnull)

theorem HeapRun.pendingInv (run : HeapRun desc s) : ∃ old, PendingInv desc s old := by
  induction run with
  | start hv hhead hdisc =>
    exact ⟨[], hv, hhead, fun o ho => absurd ho List.not_mem_nil, fun o ho href hne =>
      absurd (hdisc o ho href) hne⟩
  | mutate _ hm ih =>
    obtain ⟨old, hi⟩ := ih
    exact hi.mutate hm
  | collect _ hrun hkept ih =>
    obtain ⟨old, hi⟩ := ih
    obtain ⟨vm', objects, linked, f, hrun', hkept', -, hi'⟩ := hi.collect
    obtain rfl := Option.some.inj (hrun.symm.trans hrun')
    obtain rfl := Option.some.inj (hkept.symm.trans hkept')
    exact ⟨_, hi'⟩

/-- In every heap that the program and collections reach, the next collection clears the referents
that are reached through referents only, and puts the references that have lost theirs in front of
the pending ones. -/
theorem references_of_run (run : HeapRun desc s) : ∃ vm' old linked f,
    majorGc desc s.vm s.roots = some vm' ∧ ReferencesHandled desc s old linked f vm' := by
  obtain ⟨old, hi⟩ := run.pendingInv
  obtain ⟨vm', -, linked, f, hrun, -, hhandled, -⟩ := hi.collect
  exact ⟨vm', old, linked, f, hrun, hhandled⟩

/-! ### A weak reference -/

theorem weakHeap_valid : HeapState.Valid weakClasses ⟨weakHeap, [64, 80], [8, 16]⟩ where
  wellFormed := { weakHeap_wellFormed with
    rootsDistinct := by decide
    rootsOutside := by decide
    rootTargets := by decide
    pending := by decide }
  pendingRoot := by decide

theorem weakHeap_references : HeapRun weakClasses ⟨weakHeap, [64, 80], [8, 16]⟩ ∧
    ∃ vm' old linked f, majorGc weakClasses weakHeap [8, 16] = some vm' ∧
      ReferencesHandled weakClasses ⟨weakHeap, [64, 80], [8, 16]⟩ old linked f vm' :=
  ⟨.start weakHeap_valid rfl (by decide), references_of_run (.start weakHeap_valid rfl (by decide))⟩

end BJvm.Collector
