import BJvm.Proofs.GcCopy

/-!
# Rewriting the references

The list of what is live and that of the new locations together are a map (`relocated_eq_some`).  A
slot is rewritten once, and what is rewritten at the new place of an object stays in its block, but
for the list of pending references (`relocateFieldsOf_spec`).
-/

namespace BJvm.Collector

variable {desc : Nat → Classdesc} {vm : Vm} {objects roots : List Nat} {mem : Nat → Nat}
  {S N slots : List Nat} {o k a d n w v : Nat} {p : Nat × Nat}

/-! ### The new locations -/

theorem mem_zip_locations : ∀ {S : List Nat} {w : Nat}, p ∈ S.zip (locations desc mem w S) →
    w ≤ p.2 ∧ p.2 + span desc mem p.1 ≤ endOf desc mem w S
  | k :: S, w, hp => by
    rw [locations, List.zip_cons_cons] at hp
    rcases List.mem_cons.mp hp with rfl | hp
    · exact ⟨Nat.le_refl _, le_endOf⟩
    · obtain ⟨h1, h2⟩ := mem_zip_locations hp
      exact ⟨by omega, h2⟩

theorem aligned_locations : ∀ {S : List Nat} {w : Nat}, w % 8 = 0 →
    p ∈ S.zip (locations desc mem w S) → p.2 % 8 = 0
  | k :: S, w, hw, hp => by
    rw [locations, List.zip_cons_cons] at hp
    rcases List.mem_cons.mp hp with rfl | hp
    · exact hw
    · exact aligned_locations (by rw [Nat.add_mod, hw, span_mod]) hp

theorem pairwise_locations : ∀ {S : List Nat} {w : Nat},
    (S.zip (locations desc mem w S)).Pairwise fun p q => p.2 + span desc mem p.1 ≤ q.2
  | [], _ => .nil
  | k :: S, w => by
    rw [locations, List.zip_cons_cons]
    exact List.pairwise_cons.mpr ⟨fun q hq => (mem_zip_locations hq).1, pairwise_locations⟩

theorem endOf_le {bound : Nat} : ∀ {S : List Nat} {w : Nat}, Separated desc mem S → w ≤ bound →
    (∀ k ∈ S, w ≤ untag k ∧ untag k + span desc mem k ≤ bound) → endOf desc mem w S ≤ bound
  | [], _, _, hw, _ => hw
  | k :: S, w, hs, _, hb => by
    obtain ⟨hhead, hs'⟩ := List.pairwise_cons.mp hs
    have hk := hb k List.mem_cons_self
    refine endOf_le (S := S) hs' (by omega) fun k' hk' => ?_
    have := hhead k' hk'
    have := hb k' (List.mem_cons_of_mem _ hk')
    omega

/-- The end is that of the last block. -/
theorem exists_endOf : ∀ {S : List Nat} {w : Nat}, S ≠ [] →
    ∃ p ∈ S.zip (locations desc mem w S), p.2 + span desc mem p.1 = endOf desc mem w S
  | [k], w, _ => ⟨(k, w), by simp [locations], rfl⟩
  | k :: k' :: S, w, _ => by
    obtain ⟨p, hp, heq⟩ := exists_endOf (S := k' :: S) (w := w + span desc mem k)
      (List.cons_ne_nil _ _)
    exact ⟨p, by rw [locations, List.zip_cons_cons]; exact List.mem_cons_of_mem _ hp, heq⟩

theorem relocated_eq_some (hS : S.Pairwise (· < ·)) (hlen : N.length = S.length) :
    relocated S N v = some n ↔ (v, n) ∈ S.zip N := by
  rw [relocated, Option.map_eq_some_iff, List.mem_iff_getElem?]
  simp only [Sorted.binarySearch_eq_some hS, List.getElem?_zip_eq_some]
  refine exists_congr fun i => and_congr_right fun hi => ?_
  have hlt : i < N.length := hlen ▸ (List.getElem?_eq_some_iff.mp hi).1
  rw [List.getD_eq_getElem?_getD, List.getElem?_eq_getElem hlt, Option.getD_some,
    Option.some.injEq]

theorem relocated_eq_none (hS : S.Pairwise (· < ·)) : relocated S N v = none ↔ v ∉ S := by
  rw [relocated, Option.map_eq_none_iff, Sorted.binarySearch_eq_none hS]

/-! ### Slots -/

/-- What a reference is rewritten to. -/
def target (S N : List Nat) (v : Nat) : Nat := (relocated S N v).getD v

theorem relocateObject_eq (h0 : relocated S N 0 = none) (mem : Nat → Nat) (slot : Nat) :
    (relocateObject S N mem slot).2 = Function.update mem slot (target S N (mem slot)) := by
  rw [relocateObject, target]
  split_ifs with hv
  · rw [hv, h0, Option.getD_none, ← hv, Function.update_eq_self]
  · cases relocated S N (mem slot) with
    | none => exact (Function.update_eq_self slot mem).symm
    | some location => rfl

/-- A slot that is listed once is relocated once. -/
theorem relocateObjects_apply (h0 : relocated S N 0 = none) :
    ∀ {slots : List Nat} (mem : Nat → Nat) (a : Nat), slots.count a ≤ 1 →
      relocateObjects S N mem slots a = if a ∈ slots then target S N (mem a) else mem a
  | [], mem, _, _ => rfl
  | slot :: slots, mem, a, hn => by
    rw [List.count_cons] at hn
    have hcount : slots.count a ≤ 1 := by omega
    have ih := relocateObjects_apply h0 (relocateObject S N mem slot).2 a hcount
    rw [relocateObjects, List.foldl_cons, ← relocateObjects, ih, relocateObject_eq h0,
      Function.update_apply]
    by_cases ha : a = slot
    · subst ha
      have hnot : a ∉ slots := by
        rw [← List.count_eq_zero]
        simpa using hn
      simp [hnot]
    · simp [ha]

/-- What becomes of a reference object whose referent is `mem (n + referentOffset)`. -/
theorem relocateReferent_spec (mem : Nat → Nat) {pending : Nat} (h0 : relocated S N 0 = none)
    (hp1 : pending ≠ n + referentOffset) (hp2 : pending ≠ n + discoveredOffset) :
    let mem' := relocateReferent S N pending mem n (n + referentOffset)
    let linked := mem (n + referentOffset) ≠ 0 ∧
      relocated S N (mem (n + referentOffset)) = none ∧ mem (n + discoveredOffset) = 0
    (∀ a, a ≠ n + referentOffset → a ≠ n + discoveredOffset → a ≠ pending → mem' a = mem a) ∧
      mem' (n + referentOffset) = (relocated S N (mem (n + referentOffset))).getD 0 ∧
      (linked → mem' pending = n ∧ mem' (n + discoveredOffset) = mem pending) ∧
      (¬ linked → mem' pending = mem pending ∧
        mem' (n + discoveredOffset) = mem (n + discoveredOffset)) := by
  have hne : n + referentOffset ≠ n + discoveredOffset := by
    simp only [referentOffset, discoveredOffset]
    omega
  intro mem' linked
  by_cases hv : mem (n + referentOffset) = 0
  · have hmem : mem' = mem := by
      simp only [mem', relocateReferent, relocateObject, if_pos hv, if_true]
    rw [hmem, hv, h0]
    exact ⟨fun _ _ _ _ => rfl, rfl, fun hl => absurd hv hl.1, fun _ => ⟨rfl, rfl⟩⟩
  · cases hr : relocated S N (mem (n + referentOffset)) with
    | some l =>
      have hobj : relocateObject S N mem (n + referentOffset) =
          (true, Function.update mem (n + referentOffset) l) := by
        rw [relocateObject, if_neg hv, hr]
      have hmem : mem' = Function.update mem (n + referentOffset) l := by
        simp only [mem', relocateReferent, hobj, if_true]
      rw [hmem]
      exact ⟨fun a ha _ _ => Function.update_of_ne ha _ _, Function.update_self ..,
        fun hl => by simp [linked, hr] at hl,
        fun _ => ⟨Function.update_of_ne hp1 _ _, Function.update_of_ne hne.symm _ _⟩⟩
    | none =>
      have hobj : relocateObject S N mem (n + referentOffset) = (false, mem) := by
        rw [relocateObject, if_neg hv, hr]
      by_cases hd : mem (n + discoveredOffset) = 0
      · have hmem : mem' = Function.update (Function.update (Function.update mem
            (n + referentOffset) 0) (n + discoveredOffset) (mem pending)) pending n := by
          simp only [mem', relocateReferent, hobj, Bool.false_eq_true, if_false,
            Function.update_of_ne hne.symm, hd, if_true, Function.update_of_ne hp1]
        rw [hmem]
        refine ⟨fun a h1 h2 h3 => ?_, ?_, fun _ => ⟨Function.update_self .., ?_⟩, fun hnot =>
          absurd ⟨hv, hr, hd⟩ hnot⟩
        · rw [Function.update_of_ne h3, Function.update_of_ne h2, Function.update_of_ne h1]
        · rw [Function.update_of_ne hp1.symm, Function.update_of_ne hne, Function.update_self]
          rfl
        · rw [Function.update_of_ne hp2.symm, Function.update_self]
      · have hmem : mem' = Function.update mem (n + referentOffset) 0 := by
          simp only [mem', relocateReferent, hobj, Bool.false_eq_true, if_false,
            Function.update_of_ne hne.symm, hd]
        rw [hmem]
        exact ⟨fun a h1 _ _ => Function.update_of_ne h1 _ _, Function.update_self .., fun hl =>
          absurd hl.2.2 hd, fun _ => ⟨Function.update_of_ne hp1 _ _,
          Function.update_of_ne hne.symm _ _⟩⟩

/-- The referent of a reference object that is not live, when it is in no list. -/
def Linkable (desc : Nat → Classdesc) (vm : Vm) (S N : List Nat) (o : Nat) : Prop :=
  IsReference desc vm.mem o ∧ vm.mem (o + referentOffset) ≠ 0 ∧
    relocated S N (vm.mem (o + referentOffset)) = none ∧ vm.mem (o + discoveredOffset) = 0

instance : DecidablePred (Linkable desc vm S N) := fun _ => inferInstanceAs (Decidable (_ ∧ _))

/-- The object at `n` is what `o` was, with its references rewritten. -/
structure Rewritten (desc : Nat → Classdesc) (vm : Vm) (S N : List Nat) (o n : Nat)
    (mem mem' : Nat → Nat) : Prop where
  frame : ∀ a, (a < n ∨ n + span desc vm.mem o ≤ a) → a ≠ vm.referencePendingList → mem' a = mem a
  header : hasExpandedData vm.mem o = false → mem' n = vm.mem o
  monitor : hasExpandedData vm.mem o = true → relocated S N (vm.mem o + 1) = some (mem' n)
  strong : ∀ d ∈ strongOffsets desc vm.mem o, d ≠ discoveredOffset ∨ ¬ Linkable desc vm S N o →
    mem' (n + d) = target S N (vm.mem (o + d))
  referent : IsReference desc vm.mem o → mem' (n + referentOffset) =
    (relocated S N (vm.mem (o + referentOffset))).getD 0
  data : ∀ d, 8 ≤ d → d < span desc vm.mem o → d ∉ referenceOffsets desc vm.mem o →
    mem' (n + d) = vm.mem (o + d)
  linked : Linkable desc vm S N o → mem' vm.referencePendingList = n ∧
    mem' (n + discoveredOffset) = mem vm.referencePendingList
  notLinked : ¬ Linkable desc vm S N o → mem' vm.referencePendingList = mem vm.referencePendingList

namespace WellFormed

variable (h : WellFormed desc vm objects roots)

include h

theorem referenceOffsets_nodup (ho : o ∈ objects) : (referenceOffsets desc vm.mem o).Nodup := by
  have hl := h.layout o ho
  rw [referenceOffsets]
  cases hk : (descriptor desc vm.mem o).kind
  · exact (hl.distinct hk).map fun a b hab => by omega
  · exact .nil
  · exact List.nodup_range.map fun a b hab => by omega
  · exact .nil

/-- A reference object has the offsets of `native_Reference`. -/
theorem referenceOffsets_reference (ho : o ∈ objects) (hr : IsReference desc vm.mem o) :
    ∃ rest, referenceOffsets desc vm.mem o = referentOffset :: rest ∧
      strongOffsets desc vm.mem o = rest ∧ discoveredOffset ∈ rest ∧ referentOffset ∉ rest := by
  have htake := (h.layout o ho).reference hr.1 hr.2
  have hnodup := h.referenceOffsets_nodup ho
  obtain ⟨rest, hrefs⟩ : ∃ rest, (descriptor desc vm.mem o).instanceReferences =
      2 :: 3 :: 4 :: 5 :: rest := ⟨_, by
    rw [← List.take_append_drop 4 (descriptor desc vm.mem o).instanceReferences, htake]
    rfl⟩
  have heq : referenceOffsets desc vm.mem o = 16 :: 24 :: 32 :: 40 :: rest.map (· * 8) := by
    rw [referenceOffsets, hr.1, hrefs]
    rfl
  rw [heq] at hnodup
  refine ⟨24 :: 32 :: 40 :: rest.map (· * 8), heq, ?_, by simp [discoveredOffset],
    (List.nodup_cons.mp hnodup).1⟩
  rw [strongOffsets, if_pos hr, heq, List.drop_one, List.tail_cons]

theorem strongOffsets_nodup (ho : o ∈ objects) : (strongOffsets desc vm.mem o).Nodup := by
  rw [strongOffsets]
  split_ifs
  · exact (h.referenceOffsets_nodup ho).sublist (List.drop_sublist _ _)
  · exact h.referenceOffsets_nodup ho

theorem remapMonitor_eq (ho : o ∈ objects) (hn : mem n = vm.mem o)
    (hmon : hasExpandedData vm.mem o = true → ∃ l, relocated S N (vm.mem o + 1) = some l) :
    ∃ mem₁, remapMonitor S N mem n = some mem₁ ∧ (∀ a, a ≠ n → mem₁ a = mem a) ∧
      (hasExpandedData vm.mem o = false → mem₁ n = vm.mem o) ∧
      (hasExpandedData vm.mem o = true → relocated S N (vm.mem o + 1) = some (mem₁ n)) := by
  have he : hasExpandedData mem n = hasExpandedData vm.mem o := by
    rw [hasExpandedData, hn, hasExpandedData]
  rw [remapMonitor, he, hn]
  split_ifs with hx
  · obtain ⟨l, hl⟩ := hmon hx
    rw [lor_one (by have := (h.monitor o ho hx).1; omega), hl]
    refine ⟨Function.update mem n l, rfl, fun a ha => Function.update_of_ne ha _ _,
      fun hf => absurd hx (by simp [hf]), fun _ => ?_⟩
    rw [Function.update_self]
  · exact ⟨mem, rfl, fun _ _ => rfl, fun _ => hn, fun ht => absurd ht hx⟩

/-- The references of an object, from a copy of it. -/
theorem relocateFieldsOf_eq {mem₁ : Nat → Nat} (ho : o ∈ objects)
    (hstep : remapMonitor S N mem n = some mem₁)
    (hbody : ∀ d, 8 ≤ d → d < span desc vm.mem o → mem₁ (n + d) = vm.mem (o + d)) :
    relocateFieldsOf desc vm S N mem o n = some
      (let mem₂ := relocateObjects S N mem₁ ((strongOffsets desc vm.mem o).map (n + ·))
      if IsReference desc vm.mem o then
        relocateReferent S N vm.referencePendingList mem₂ n (n + referentOffset)
      else mem₂) := by
  have hl := h.layout o ho
  rw [relocateFieldsOf, if_neg (by simp [h.not_isMonitor ho]), hstep, Option.map_some]
  have hdata := fun d h8 hd (_ : d ∉ referenceOffsets desc vm.mem o) => hbody d h8 hd
  simp only [fieldSlots, h.descriptor_congr ho hdata]
  cases hk : (descriptor desc vm.mem o).kind with
  | ordinary =>
    rw [if_pos rfl]
    by_cases hr : (descriptor desc vm.mem o).isReference = true
    · obtain ⟨rest, heq, hstrong, -, -⟩ := h.referenceOffsets_reference ho ⟨hk, hr⟩
      have hslots : (descriptor desc vm.mem o).instanceReferences.map (fun slot => n + slot * 8) =
          (referentOffset :: rest).map (n + ·) := by
        rw [← heq, referenceOffsets, hk, List.map_map]
        rfl
      rw [if_pos hr, if_pos hr, if_pos ⟨hk, hr⟩, hstrong, hslots]
      rfl
    · have hnot : ¬ IsReference desc vm.mem o := fun hi => hr hi.2
      rw [if_neg hr, if_neg hr, if_neg hnot, strongOffsets, if_neg hnot, referenceOffsets, hk,
        List.map_map]
      rfl
  | primitive => exact absurd hk hl.notPrimitive
  | ordinaryArray =>
    have hnot : ¬ IsReference desc vm.mem o := fun hi => by rw [hi.1] at hk; cases hk
    rw [if_neg (by simp), if_pos (by simp), elementSlots,
      h.arrayLength_congr ho (by simp [hk]) hdata, strongOffsets, if_neg hnot, if_neg hnot,
      referenceOffsets, hk]
    simp [Function.comp_def, Nat.add_assoc]
  | primitiveArray =>
    have hnot : ¬ IsReference desc vm.mem o := fun hi => by rw [hi.1] at hk; cases hk
    have := hl.oneDimension hk
    rw [if_neg (by simp), if_neg (by simpa using this), strongOffsets, if_neg hnot, if_neg hnot,
      referenceOffsets, hk]
    rfl

theorem relocateFieldsOf_spec (ho : o ∈ objects) (h0 : relocated S N 0 = none)
    (hN : ∀ v, target S N v = 0 ↔ v = 0)
    (hm : ∀ d < span desc vm.mem o, mem (n + d) = vm.mem (o + d))
    (hmon : hasExpandedData vm.mem o = true → ∃ l, relocated S N (vm.mem o + 1) = some l)
    (hp : vm.referencePendingList < n ∨ n + span desc vm.mem o ≤ vm.referencePendingList) :
    ∃ mem', relocateFieldsOf desc vm S N mem o n = some mem' ∧
      Rewritten desc vm S N o n mem mem' := by
  have hpos := h.span_pos ho self_mem_keys
  obtain ⟨mem₁, hstep, hframe, hhead, hexp⟩ := h.remapMonitor_eq ho (n := n)
    (show mem n = vm.mem o from hm 0 (by omega)) hmon
  have hbody : ∀ d, 8 ≤ d → d < span desc vm.mem o → mem₁ (n + d) = vm.mem (o + d) :=
    fun d h8 hd => by rw [hframe _ (by omega), hm d hd]
  have hinside := fun d hd => h.referenceOffsets_inside ho (d := d) hd
  have hsub : ∀ d ∈ strongOffsets desc vm.mem o, d ∈ referenceOffsets desc vm.mem o :=
    fun d hd => strongOffsets_subset hd
  have honce := List.nodup_iff_count_le_one.mp <|
    (h.strongOffsets_nodup ho).map fun a b (hab : n + a = n + b) => by omega
  -- the memory when the strong references have been rewritten
  generalize hmem₂ : relocateObjects S N mem₁ ((strongOffsets desc vm.mem o).map (n + ·)) = mem₂
  have hout : ∀ a, (∀ d ∈ strongOffsets desc vm.mem o, a ≠ n + d) → mem₂ a = mem₁ a :=
    fun a ha => by
      rw [← hmem₂, relocateObjects_apply h0 _ a (honce a), if_neg]
      rintro hmem
      obtain ⟨d, hd, rfl⟩ := List.mem_map.mp hmem
      exact ha d hd rfl
  have hin : ∀ d ∈ strongOffsets desc vm.mem o, mem₂ (n + d) = target S N (vm.mem (o + d)) :=
    fun d hd => by
      have := hinside d (hsub d hd)
      rw [← hmem₂, relocateObjects_apply h0 _ _ (honce _), if_pos (List.mem_map_of_mem hd),
        hbody d (by omega) (by omega)]
  have hhead₂ : mem₂ n = mem₁ n := hout n fun d hd => by
    have := hinside d (hsub d hd)
    omega
  have hpend₂ : mem₂ vm.referencePendingList = mem vm.referencePendingList := by
    rw [hout _ fun d hd => by have := hinside d (hsub d hd); omega, hframe _ (by omega)]
  have hframe₂ : ∀ a, (a < n ∨ n + span desc vm.mem o ≤ a) → mem₂ a = mem a := fun a ha => by
    rw [hout _ fun d hd => by have := hinside d (hsub d hd); omega, hframe _ (by omega)]
  rw [h.relocateFieldsOf_eq ho hstep hbody]
  simp only [hmem₂]
  refine ⟨_, rfl, ?_⟩
  split_ifs with href
  · obtain ⟨rest, hoffs, hstrong, hdisc, hreferent⟩ := h.referenceOffsets_reference ho href
    have hd16 := hinside referentOffset (by rw [hoffs]; exact List.mem_cons_self)
    have hd40 := hinside discoveredOffset (by rw [hoffs]; exact List.mem_cons_of_mem _ hdisc)
    have hv : mem₂ (n + referentOffset) = vm.mem (o + referentOffset) := by
      rw [hout _ fun d hd => ?_, hbody _ (by omega) (by omega)]
      rintro heq
      obtain rfl : referentOffset = d := by omega
      exact hreferent (hstrong ▸ hd)
    have hdv : mem₂ (n + discoveredOffset) = target S N (vm.mem (o + discoveredOffset)) :=
      hin _ (hstrong ▸ hdisc)
    obtain ⟨s1, s2, s3, s4⟩ := relocateReferent_spec mem₂ h0
      (show vm.referencePendingList ≠ n + referentOffset by omega)
      (show vm.referencePendingList ≠ n + discoveredOffset by omega)
    have hlink : (mem₂ (n + referentOffset) ≠ 0 ∧
        relocated S N (mem₂ (n + referentOffset)) = none ∧ mem₂ (n + discoveredOffset) = 0) ↔
        Linkable desc vm S N o := by
      rw [hv, hdv, hN, Linkable]
      exact ⟨fun hx => ⟨href, hx⟩, fun hx => hx.2⟩
    have h16 : ∀ d, d ≠ referentOffset → n + d ≠ n + referentOffset := fun d hd => by omega
    have h40 : ∀ d, d ≠ discoveredOffset → n + d ≠ n + discoveredOffset := fun d hd => by omega
    refine ⟨fun a ha hap => ?_, fun he => ?_, fun he => ?_, fun d hd hor => ?_, fun _ => ?_,
      fun d h8 hlt hd => ?_, fun hl => ?_, fun hl => ?_⟩
    · rw [s1 a (by omega) (by omega) hap, hframe₂ a ha]
    · rw [s1 n (by omega) (by omega) (by omega), hhead₂, hhead he]
    · rw [s1 n (by omega) (by omega) (by omega), hhead₂, hexp he]
    · by_cases hd' : d = discoveredOffset
      · subst hd'
        rw [(s4 fun hx => (hor.resolve_left (by simp)) (hlink.mp hx)).2, hdv]
      · have := hinside d (hsub d hd)
        rw [s1 _ (h16 d fun heq => hreferent (hstrong ▸ heq ▸ hd)) (h40 d hd') (by omega), hin d hd]
    · rw [s2, hv]
    · have h1 : d ≠ referentOffset := fun heq => hd (by rw [hoffs, heq]; exact List.mem_cons_self)
      have h2 : d ≠ discoveredOffset := fun heq =>
        hd (by rw [hoffs, heq]; exact List.mem_cons_of_mem _ hdisc)
      rw [s1 _ (h16 d h1) (h40 d h2) (by omega), hout _ fun d' hd' heq => ?_, hbody d h8 hlt]
      obtain rfl : d = d' := by omega
      exact hd (hsub d hd')
    · obtain ⟨h1, h2⟩ := s3 (hlink.mpr hl)
      exact ⟨h1, by rw [h2, hpend₂]⟩
    · rw [(s4 fun hx => hl (hlink.mp hx)).1, hpend₂]
  · have hnot : ¬ Linkable desc vm S N o := fun hl => href hl.1
    refine ⟨fun a ha _ => hframe₂ a ha, fun he => by rw [hhead₂, hhead he], fun he => by
      rw [hhead₂, hexp he], fun d hd _ => hin d hd, fun hr => absurd hr href,
      fun d h8 hlt hd => ?_, fun hl => absurd hl hnot, fun _ => hpend₂⟩
    rw [hout _ fun d' hd' heq => ?_, hbody d h8 hlt]
    obtain rfl : d = d' := by omega
    exact hd (hsub d hd')

/-- The objects that are linked, among blocks with their new locations. -/
def linkedOf (desc : Nat → Classdesc) (vm : Vm) (S N : List Nat) (ps : List (Nat × Nat)) :
    List (Nat × Nat) :=
  ps.filter fun p => !isMonitor p.1 && decide (Linkable desc vm S N p.1)

omit h in
theorem chain_append {mem : Nat → Nat} {tail : Nat} : ∀ {l : List Nat} {head : Nat},
    Chain mem head l n → mem (n + discoveredOffset) = tail → Chain mem head (l ++ [n]) tail
  | [], _, hl, ht => ⟨hl, ht⟩
  | _ :: _, _, hl, ht => ⟨hl.1, chain_append hl.2 ht⟩

/-- The loop over blocks at their new locations. -/
theorem relocateInstanceFields_spec (h0 : relocated S N 0 = none)
    (hN : ∀ v, target S N v = 0 ↔ v = 0) : ∀ (ps : List (Nat × Nat)) (mem : Nat → Nat),
    (∀ p ∈ ps, ∃ o ∈ objects, p.1 ∈ keys vm.mem o) →
    ps.Pairwise (fun p q => p.2 + span desc vm.mem p.1 ≤ q.2) →
    (∀ p ∈ ps, ∀ d < span desc vm.mem p.1, mem (p.2 + d) = vm.mem (untag p.1 + d)) →
    (∀ p ∈ ps, vm.referencePendingList < p.2 ∨
      p.2 + span desc vm.mem p.1 ≤ vm.referencePendingList) →
    (∀ p ∈ ps, p.1 ∈ objects → hasExpandedData vm.mem p.1 = true →
      ∃ l, relocated S N (vm.mem p.1 + 1) = some l) →
    ∃ mem', ps.foldlM (fun mem p => relocateFieldsOf desc vm S N mem p.1 p.2) mem = some mem' ∧
      (∀ a, (∀ p ∈ ps, a < p.2 ∨ p.2 + span desc vm.mem p.1 ≤ a) → a ≠ vm.referencePendingList →
        mem' a = mem a) ∧
      (∀ p ∈ ps, isMonitor p.1 = true → ∀ d < span desc vm.mem p.1,
        mem' (p.2 + d) = mem (p.2 + d)) ∧
      (∀ p ∈ ps, p.1 ∈ objects → ∃ m m', Rewritten desc vm S N p.1 p.2 m m' ∧
        ∀ d < span desc vm.mem p.1, mem' (p.2 + d) = m' (p.2 + d)) ∧
      Chain mem' (mem' vm.referencePendingList)
        ((linkedOf desc vm S N ps).reverse.map Prod.snd) (mem vm.referencePendingList)
  | [], mem, _, _, _, _, _ => ⟨mem, rfl, fun _ _ _ => rfl, by simp, by simp, rfl⟩
  | (k, n) :: ps, mem, hkeys, hpair, hcont, hpend, hmon => by
    obtain ⟨hfirst, hpair'⟩ := List.pairwise_cons.mp hpair
    obtain ⟨o, ho, (hk : k ∈ keys vm.mem o)⟩ := hkeys _ List.mem_cons_self
    have hpos := h.span_pos ho hk
    have hp := hpend _ List.mem_cons_self
    have hkeys' := fun p hp => hkeys p (List.mem_cons_of_mem _ hp)
    have hpend' := fun p hp => hpend p (List.mem_cons_of_mem _ hp)
    have hmon' := fun p hp => hmon p (List.mem_cons_of_mem _ hp)
    have hbehind : ∀ d < span desc vm.mem k, ∀ p ∈ ps,
        n + d < p.2 ∨ p.2 + span desc vm.mem p.1 ≤ n + d := fun d hd p hp => by
      have := hfirst p hp
      simp only at this
      omega
    have hnot : ∀ d < span desc vm.mem k, n + d ≠ vm.referencePendingList := fun d hd => by
      simp only at hp
      omega
    rw [List.foldlM_cons]
    rcases mem_keys.mp hk with rfl | ⟨he, rfl⟩
    · have hm : ∀ d < span desc vm.mem k, mem (n + d) = vm.mem (k + d) := fun d hd => by
        have := hcont _ List.mem_cons_self d hd
        rwa [h.untag_object ho] at this
      obtain ⟨mem₁, hstep, hrew⟩ := h.relocateFieldsOf_spec ho h0 hN hm
        (hmon _ List.mem_cons_self ho) hp
      simp only [hstep]
      obtain ⟨mem', h1, h2, h3, h4, h5⟩ := relocateInstanceFields_spec h0 hN ps
        mem₁ hkeys' hpair' (fun p hp d hd => by
          have hle : n + span desc vm.mem k ≤ p.2 := hfirst p hp
          have := hpend' p hp
          rw [hrew.frame _ (.inr (by omega)) (by omega)]
          exact hcont p (List.mem_cons_of_mem _ hp) d hd) hpend' hmon'
      have hsame : ∀ d < span desc vm.mem k, mem' (n + d) = mem₁ (n + d) := fun d hd =>
        h2 _ (hbehind d hd) (hnot d hd)
      refine ⟨mem', h1, fun a ha hap => ?_, fun p hp hmonitor d hd => ?_, fun p hp hobj => ?_, ?_⟩
      · rw [h2 a (fun p hp => ha p (List.mem_cons_of_mem _ hp)) hap,
          hrew.frame a (ha _ List.mem_cons_self) hap]
      · rcases List.mem_cons.mp hp with rfl | hp
        · rw [h.not_isMonitor ho] at hmonitor
          cases hmonitor
        · have hle : n + span desc vm.mem k ≤ p.2 := hfirst p hp
          have := hpend' p hp
          rw [h3 p hp hmonitor d hd, hrew.frame _ (.inr (by omega)) (by omega)]
      · rcases List.mem_cons.mp hp with rfl | hp
        · exact ⟨mem, mem₁, hrew, hsame⟩
        · exact h4 p hp hobj
      · by_cases hl : Linkable desc vm S N k
        · obtain ⟨hpn, hdisc⟩ := hrew.linked hl
          obtain ⟨rest, hoffs, -, hd, -⟩ := h.referenceOffsets_reference ho hl.1
          have hd40 := h.referenceOffsets_inside ho
            (show discoveredOffset ∈ _ by rw [hoffs]; exact List.mem_cons_of_mem _ hd)
          rw [linkedOf, List.filter_cons_of_pos (by simp [h.not_isMonitor ho, hl]),
            List.reverse_cons, List.map_append, List.map_singleton]
          refine chain_append (hpn ▸ h5) ?_
          rw [hsame _ (by omega), hdisc]
        · rw [linkedOf, List.filter_cons_of_neg (by simp [hl]), ← linkedOf,
            ← hrew.notLinked hl]
          exact h5
    · have hmonitor := h.isMonitor_succ ho he
      rw [show relocateFieldsOf desc vm S N mem (vm.mem o + 1) n = some mem by
        rw [relocateFieldsOf, if_pos hmonitor]]
      obtain ⟨mem', h1, h2, h3, h4, h5⟩ := relocateInstanceFields_spec h0 hN ps
        mem hkeys' hpair' (fun p hp => hcont p (List.mem_cons_of_mem _ hp)) hpend' hmon'
      refine ⟨mem', h1, fun a ha hap => h2 a (fun p hp => ha p (List.mem_cons_of_mem _ hp)) hap,
        fun p hp hmonitor d hd => ?_, fun p hp hobj => ?_, ?_⟩
      · rcases List.mem_cons.mp hp with rfl | hp
        · exact h2 _ (hbehind d hd) (hnot d hd)
        · exact h3 p hp hmonitor d hd
      · rcases List.mem_cons.mp hp with rfl | hp
        · simp only at hobj
          rw [h.not_isMonitor hobj] at hmonitor
          cases hmonitor
        · exact h4 p hp hobj
      · rw [linkedOf, List.filter_cons_of_neg (by simp [hmonitor]), ← linkedOf]
        exact h5

end WellFormed

end BJvm.Collector
