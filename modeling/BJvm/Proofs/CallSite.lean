import BJvm.Interpreter.CallSite
import BJvm.Proofs.Vtable

/-!
# Calls through a rewritten instruction

Linking a class leaves the tables of the classes linked before as they were (`linkClass_keeps`), so
what an instruction has cached stays what the lookup gives.  A kind the instruction is rewritten to
agrees with the direct lookup except where it has fixed a method for all receivers, or goes by the
index of the method cached for the first receiver and not by that of the resolved one
(`calls_agree_iff`).
-/

namespace BJvm.Interp

open Linkage Relation

variable {classes : Nat → Classdesc} {linked : List Nat} {t t' t'' : Tables} {a b c d : Nat}
  {m r s x : MethodPtr} {insn : Insn} {kind first : InsnKind} {receiver : Option Nat}
  {attempt : Option MethodPtr} {calls : List Call} {P Q : Nat → Prop}

/-! ### Tables of other classes -/

/-- The tables of the classes other than `c`, and the indices of their methods, are the same. -/
structure KeepsOthers (c : Nat) (t t' : Tables) : Prop where
  vtable : ∀ d, d ≠ c → t'.vtable d = t.vtable d
  itables : ∀ d, d ≠ c → t'.itables d = t.itables d
  vtableIndex : ∀ m : MethodPtr, m.myClass ≠ c → t'.vtableIndex m = t.vtableIndex m
  itableIndex : ∀ m : MethodPtr, m.myClass ≠ c → t'.itableIndex m = t.itableIndex m

namespace KeepsOthers

theorem refl (c : Nat) (t : Tables) : KeepsOthers c t t :=
  ⟨fun _ _ => rfl, fun _ _ => rfl, fun _ _ => rfl, fun _ _ => rfl⟩

theorem trans (h : KeepsOthers c t t') (h' : KeepsOthers c t' t'') : KeepsOthers c t t'' :=
  ⟨fun d hd => (h'.vtable d hd).trans (h.vtable d hd),
    fun d hd => (h'.itables d hd).trans (h.itables d hd),
    fun m hm => (h'.vtableIndex m hm).trans (h.vtableIndex m hm),
    fun m hm => (h'.itableIndex m hm).trans (h.itableIndex m hm)⟩

theorem foldl {f : Tables → MethodPtr → Tables} (hf : ∀ t m, KeepsOthers c t (f t m)) :
    ∀ (l : List MethodPtr) (t : Tables), KeepsOthers c t (l.foldl f t)
  | [], t => refl c t
  | m :: l, t => (hf t m).trans (foldl hf l (f t m))

theorem pushVtable (c : Nat) (t : Tables) (m : MethodPtr) : KeepsOthers c t (t.pushVtable c m) :=
  ⟨fun _ hd => Function.update_of_ne hd .., fun _ _ => rfl, fun _ _ => rfl, fun _ _ => rfl⟩

theorem setIndex (t : Tables) (hx : x.myClass = c) (i : Nat) (o : MethodPtr → Bool) :
    KeepsOthers c t { t with vtableIndex := Function.update t.vtableIndex x i, overrides := o } :=
  ⟨fun _ _ => rfl, fun _ _ => rfl,
    fun _ hm => Function.update_of_ne (fun heq => hm (by rw [heq, hx])) .., fun _ _ => rfl⟩

theorem copyVtable (slots : List MethodPtr) (t : Tables) :
    KeepsOthers c t (copyVtable classes c slots t) := by
  refine foldl (fun t s => ?_) slots t
  split
  · rename_i x hx
    split_ifs
    · exact (setIndex t (lookupOwn_some hx).1 _ _).trans (pushVtable c _ x)
    · exact pushVtable c t s
  · exact pushVtable c t s

theorem setupItables (super : Nat) (t : Tables) :
    KeepsOthers c t (setupItables classes super c t) :=
  ⟨fun _ _ => rfl, fun _ hd => Function.update_of_ne hd .., fun _ _ => rfl, fun _ _ => rfl⟩

theorem pushOwnItable (t : Tables) : KeepsOthers c t (pushOwnItable classes c t) := by
  refine ⟨fun _ _ => rfl, fun _ hd => Function.update_of_ne hd .., fun _ _ => rfl, fun m hm => ?_⟩
  rw [Linkage.pushOwnItable]
  exact if_neg fun hmem => hm (mem_methodsOf.mp (List.mem_filter.mp hmem).1).1

theorem pushNewMethods (t : Tables) : KeepsOthers c t (pushNewMethods classes c t) := by
  rw [Linkage.pushNewMethods]
  -- the methods of the loop are those of the class
  have hmem : ∀ m ∈ methodsOf classes c, m.myClass = c := fun m hm => (mem_methodsOf.mp hm).1
  generalize methodsOf classes c = l at hmem
  induction l generalizing t with
  | nil => exact refl c t
  | cons m l ih =>
    obtain ⟨hm, hl⟩ := List.forall_mem_cons.mp hmem
    rw [List.foldl_cons]
    refine trans ?_ (ih _ hl)
    split_ifs
    · exact (setIndex t hm _ _).trans (pushVtable c _ m)
    · exact refl c t

end KeepsOthers

/-- Linking a class changes no other one's tables. -/
theorem linkClass_keeps (c : Nat) (t : Tables) : KeepsOthers c t (linkClass classes t c) := by
  rw [linkClass, setUpFunctionTables]
  have hsuper : KeepsOthers c t (setupSuperHierarchy classes c t) :=
    ⟨fun _ _ => rfl, fun _ _ => rfl, fun _ _ => rfl, fun _ _ => rfl⟩
  refine hsuper.trans (.trans ?_ (.pushNewMethods _))
  generalize setupSuperHierarchy classes c t = t₀
  have hown : ∀ t₁ : Tables, KeepsOthers c t₁
      (if (classes c).accessFlags.isInterface then pushOwnItable classes c t₁ else t₁) := by
    intro t₁
    split_ifs
    · exact .pushOwnItable _
    · exact .refl c _
  cases (classes c).superClass with
  | none => exact hown t₀
  | some super => exact .trans (.trans (.copyVtable _ _) (.setupItables _ _)) (hown _)

/-! ### What one execution does -/

section

variable (classes t)

/-- What the instruction becomes, and what is invoked, when the resolved method is `m`. -/
def settle (kind : InsnKind) (insn : Insn) (c : Nat) (m : MethodPtr) : Insn × Outcome :=
  if (methodAt classes m).isSignaturePolymorphic = true ∧
      (kind = .invokevirtual ∨ (classes m.myClass).accessFlags.isInterface = false) then
    ({ kind := .invokesigpoly m, resolved := some m }, .invoke m)
  else if (classes m.myClass).accessFlags.isInterface then
    match itableLookup t c m.myClass (t.itableIndex m) with
    | none =>
      ({ kind := if kind = .invokevirtual then .invokeinterface else insn.kind, resolved := some m },
        .abstractMethodError m)
    | some s =>
      if (methodAt classes m).accessFlags.isFinal then
        ({ kind := .invokespecialResolved m, resolved := some m }, .invoke m)
      else ({ kind := .invokeitableMonomorphic s c, resolved := some m }, .invoke s)
  else if (methodAt classes m).accessFlags.isFinal then
    ({ kind := .invokespecialResolved m, resolved := some m }, .invoke m)
  else
    ({ kind := .invokevtableMonomorphic (vtableLookup t c (t.vtableIndex m)) c, resolved := some m },
      invokeEntry (vtableLookup t c (t.vtableIndex m)))

end

theorem execute_first (hk : kind = .invokevirtual ∨ kind = .invokeinterface) :
    execute classes t kind insn (some c) attempt =
      match insn.resolved.or attempt with
      | none => ({ insn with resolved := none }, .resolutionError)
      | some m => settle classes t kind insn c m := by
  cases hres : insn.resolved.or attempt with
  | none =>
    rcases hk with rfl | rfl <;>
      simp only [execute, runHandlers, handle, invokevirtualImpl, invokeinterfaceImpl,
        resolveMethodref, hres]
  | some m =>
    cases hp : (methodAt classes m).isSignaturePolymorphic <;>
    cases hi : (classes m.myClass).accessFlags.isInterface <;>
    cases hf : (methodAt classes m).accessFlags.isFinal <;>
    cases hl : itableLookup t c m.myClass (t.itableIndex m) <;>
    rcases hk with rfl | rfl <;>
    simp [execute, runHandlers, handle, invokevirtualImpl, invokeinterfaceImpl, resolveMethodref,
      settle, hres, hp, hi, hf, hl]

theorem execute_vtableMonomorphic (ic : Option MethodPtr) (d : Nat) :
    execute classes t (.invokevtableMonomorphic ic d) insn (some c) attempt =
      if c = d then (insn, invokeEntry ic)
      else ({ insn with kind := .invokevtablePolymorphic (ic.map t.vtableIndex) },
        invokeEntry ((ic.map t.vtableIndex).bind (vtableLookup t c))) := by
  by_cases h : c = d <;>
    simp [execute, runHandlers, handle, makeInvokevtablePolymorphic, h]

theorem execute_itableMonomorphic (ic : MethodPtr) (d : Nat) (hr : insn.resolved = some m) :
    execute classes t (.invokeitableMonomorphic ic d) insn (some c) attempt =
      if c = d then (insn, .invoke ic)
      else ({ insn with kind := .invokeitablePolymorphic m.myClass (t.itableIndex m) },
        invokeitablePolymorphicImpl t insn m.myClass (t.itableIndex m) c) := by
  by_cases h : c = d <;>
    simp [execute, runHandlers, handle, makeInvokeitablePolymorphic, invokeitablePolymorphicImpl,
      h, hr]

/-! ### What an instruction has cached -/

section

variable (classes t linked first m P)

/-- The site calls its resolved method as a signature-polymorphic one. -/
def CallsSigpoly : Prop :=
  (methodAt classes m).isSignaturePolymorphic = true ∧
    (first = .invokevirtual ∨ (classes m.myClass).accessFlags.isInterface = false)

/-- A class whose objects may have reached the site. -/
def Receives (c : Nat) : Prop := P c ∧ c ∈ linked

/-- What the kinds that an instruction is rewritten to have cached. -/
def Cached : InsnKind → Prop
  | .invokevirtual => first = .invokevirtual ∨ (classes m.myClass).accessFlags.isInterface = false
  | .invokeinterface => first = .invokeinterface ∨
      (classes m.myClass).accessFlags.isInterface = true ∧ ¬ CallsSigpoly classes m first
  | .invokesigpoly ic => ic = m ∧ CallsSigpoly classes m first
  | .invokespecialResolved ic => ic = m ∧ ¬ CallsSigpoly classes m first ∧
      (methodAt classes m).accessFlags.isFinal = true ∧
      ((classes m.myClass).accessFlags.isInterface = true →
        ∃ c s, Receives linked P c ∧ itableLookup t c m.myClass (t.itableIndex m) = some s)
  | .invokevtableMonomorphic ic c => Receives linked P c ∧ ¬ CallsSigpoly classes m first ∧
      (methodAt classes m).accessFlags.isFinal = false ∧
      (classes m.myClass).accessFlags.isInterface = false ∧
      ic = vtableLookup t c (t.vtableIndex m)
  | .invokeitableMonomorphic ic c => Receives linked P c ∧
      (classes m.myClass).accessFlags.isInterface = true ∧
      itableLookup t c m.myClass (t.itableIndex m) = some ic
  | .invokevtablePolymorphic i => ¬ CallsSigpoly classes m first ∧
      (methodAt classes m).accessFlags.isFinal = false ∧
      (classes m.myClass).accessFlags.isInterface = false ∧
      ∃ c d, Receives linked P c ∧ Receives linked P d ∧ d ≠ c ∧
        i = (vtableLookup t c (t.vtableIndex m)).map t.vtableIndex
  | .invokeitablePolymorphic c i => (classes m.myClass).accessFlags.isInterface = true ∧
      c = m.myClass ∧ i = t.itableIndex m

/-- The instruction between two calls. -/
structure SiteInv (insn : Insn) : Prop where
  resolved : ∀ r ∈ insn.resolved, r = m ∧ m.myClass ∈ linked
  unresolved : insn.resolved = none → insn.kind = first
  cached : Cached classes linked t m first P insn.kind

/-- What the direct lookup finds for the receivers of the classes `Q`, where the site may miss
it. -/
structure SiteAgrees (Q : Nat → Prop) : Prop where
  sigpoly : CallsSigpoly classes m first → ∀ c, Q c →
    direct classes t (some c) (some m) = .invoke m
  final : ¬ CallsSigpoly classes m first → (methodAt classes m).accessFlags.isFinal = true →
    (classes m.myClass).accessFlags.isInterface = false → ∀ c, Q c →
    direct classes t (some c) (some m) = .invoke m
  finalInterface : ¬ CallsSigpoly classes m first →
    (methodAt classes m).accessFlags.isFinal = true →
    (classes m.myClass).accessFlags.isInterface = true → ∀ c d s, Q c → Q d →
    direct classes t (some c) (some m) = .invoke s → direct classes t (some d) (some m) = .invoke m
  index : ¬ CallsSigpoly classes m first → (methodAt classes m).accessFlags.isFinal = false →
    (classes m.myClass).accessFlags.isInterface = false → ∀ b c d, Q b → Q c → Q d → c ≠ b →
    (vtableLookup t b (t.vtableIndex m)).bind (fun s => vtableLookup t d (t.vtableIndex s)) =
      vtableLookup t d (t.vtableIndex m)

end

theorem takesSigpoly_iff (hk : kind = .invokevirtual ∨ kind = .invokeinterface)
    (hf : first = .invokevirtual ∨ first = .invokeinterface)
    (hc : Cached classes linked t m first P kind) :
    ((methodAt classes m).isSignaturePolymorphic = true ∧
      (kind = .invokevirtual ∨ (classes m.myClass).accessFlags.isInterface = false)) ↔
      CallsSigpoly classes m first := by
  rw [CallsSigpoly]
  refine and_congr_right fun hp => ?_
  rcases hk with rfl | rfl
  · simp only [Cached] at hc
    simpa using hc
  · simp only [Cached, CallsSigpoly, hp, true_and, not_or, Bool.not_eq_false] at hc
    rcases hc with rfl | ⟨hi, hne, -⟩
    · simp
    · simp [hi, hne]

theorem settle_inv (hk : kind = .invokevirtual ∨ kind = .invokeinterface)
    (hf : first = .invokevirtual ∨ first = .invokeinterface)
    (hi : SiteInv classes linked t m first P insn) (hc : Cached classes linked t m first P kind)
    (hr : Receives linked P c) (hm : m.myClass ∈ linked) :
    SiteInv classes linked t m first P (settle classes t kind insn c m).1 ∧
      (SiteAgrees classes t m first (Receives linked P) →
        (settle classes t kind insn c m).2 = direct classes t (some c) (some m)) := by
  have hres : ∀ k, Cached classes linked t m first P k →
      SiteInv classes linked t m first P { kind := k, resolved := some m } := fun k hk =>
    ⟨fun r h => ⟨(Option.some.inj h).symm, hm⟩, fun h => (Option.some_ne_none _ h).elim, hk⟩
  rw [settle]
  by_cases hp : CallsSigpoly classes m first
  · rw [if_pos ((takesSigpoly_iff hk hf hc).mpr hp)]
    exact ⟨hres _ ⟨rfl, hp⟩, fun ha => (ha.sigpoly hp c hr).symm⟩
  rw [if_neg (mt (takesSigpoly_iff hk hf hc).mp hp)]
  cases hint : (classes m.myClass).accessFlags.isInterface with
  | true =>
    rw [if_pos rfl]
    cases hl : itableLookup t c m.myClass (t.itableIndex m) with
    | none =>
      refine ⟨hres _ ?_, fun _ => by simp only [direct, hint, hl, if_true]⟩
      split_ifs
      · exact .inr ⟨hint, hp⟩
      · exact hi.cached
    | some s =>
      have hd : direct classes t (some c) (some m) = .invoke s := by
        simp only [direct, hint, hl, if_true]
      simp only
      split_ifs with hfin
      · exact ⟨hres _ ⟨rfl, hp, hfin, fun _ => ⟨c, s, hr, hl⟩⟩, fun ha =>
          (ha.finalInterface hp hfin hint c c s hr hr hd).symm⟩
      · exact ⟨hres _ ⟨hr, hint, hl⟩, fun _ => hd.symm⟩
  | false =>
    rw [if_neg Bool.false_ne_true]
    split_ifs with hfin
    · exact ⟨hres _ ⟨rfl, hp, hfin, fun h => absurd (hint.symm.trans h) Bool.false_ne_true⟩,
        fun ha => (ha.final hp hfin hint c hr).symm⟩
    · exact ⟨hres _ ⟨hr, hp, by simpa using hfin, hint, rfl⟩,
        fun _ => by simp [direct, hint]⟩

theorem direct_vtable (hint : (classes m.myClass).accessFlags.isInterface = false) :
    direct classes t (some c) (some m) = invokeEntry (vtableLookup t c (t.vtableIndex m)) := by
  simp [direct, hint]

theorem direct_itable (hint : (classes m.myClass).accessFlags.isInterface = true)
    (hres : insn.resolved = some m) : direct classes t (some c) (some m) =
      invokeitablePolymorphicImpl t insn m.myClass (t.itableIndex m) c := by
  simp only [direct, hint, if_true, invokeitablePolymorphicImpl, hres]

/-- The kinds that an instruction is rewritten to. -/
theorem rewritten_inv (hi : SiteInv classes linked t m first P insn)
    (hres : insn.resolved = some m) (hr : Receives linked P c)
    (hinit : ¬ (insn.kind = .invokevirtual ∨ insn.kind = .invokeinterface)) :
    SiteInv classes linked t m first P (execute classes t insn.kind insn (some c) attempt).1 ∧
      (SiteAgrees classes t m first (Receives linked P) →
        (execute classes t insn.kind insn (some c) attempt).2 =
          direct classes t (some c) (some m)) := by
  have hnew : ∀ k, Cached classes linked t m first P k →
      SiteInv classes linked t m first P { insn with kind := k } := fun k hk =>
    ⟨hi.resolved, fun h => (Option.some_ne_none _ (hres.symm.trans h)).elim, hk⟩
  have hc := hi.cached
  cases hkind : insn.kind with
  | invokevirtual => exact absurd (.inl hkind) hinit
  | invokeinterface => exact absurd (.inr hkind) hinit
  | invokesigpoly ic =>
    rw [hkind] at hc
    obtain ⟨rfl, hp⟩ := hc
    exact ⟨hi, fun ha => (ha.sigpoly hp c hr).symm⟩
  | invokespecialResolved ic =>
    rw [hkind] at hc
    obtain ⟨rfl, hp, hfin, hfound⟩ := hc
    refine ⟨hi, fun ha => ?_⟩
    cases hint : (classes ic.myClass).accessFlags.isInterface with
    | true =>
      obtain ⟨d, s, hd, hs⟩ := hfound hint
      exact (ha.finalInterface hp hfin hint d c s hd hr
        (by simp only [direct, hint, hs, if_true])).symm
    | false => exact (ha.final hp hfin hint c hr).symm
  | invokevtableMonomorphic ic d =>
    rw [hkind] at hc
    obtain ⟨hd, hp, hfin, hint, rfl⟩ := hc
    rw [execute_vtableMonomorphic, direct_vtable hint]
    split_ifs with heq
    · exact ⟨hi, fun _ => by rw [heq]⟩
    · refine ⟨hnew _ ⟨hp, hfin, hint, d, c, hd, hr, heq, rfl⟩, fun ha => ?_⟩
      have := ha.index hp hfin hint d c c hd hr hr heq
      rw [← this, Option.bind_map]
      rfl
  | invokeitableMonomorphic ic d =>
    rw [hkind] at hc
    obtain ⟨hd, hint, hic⟩ := hc
    rw [execute_itableMonomorphic _ _ hres]
    split_ifs with heq
    · exact ⟨hi, fun _ => by simp only [direct, hint, heq, hic, if_true]⟩
    · exact ⟨hnew _ ⟨hint, rfl, rfl⟩, fun _ => (direct_itable hint hres).symm⟩
  | invokevtablePolymorphic i =>
    rw [hkind] at hc
    obtain ⟨hp, hfin, hint, d, d', hd, hd', hne, rfl⟩ := hc
    refine ⟨hi, fun ha => ?_⟩
    have := ha.index hp hfin hint d d' c hd hd' hr hne
    rw [direct_vtable hint, ← this]
    simp only [execute, runHandlers, handle, Option.bind_map]
    rfl
  | invokeitablePolymorphic d i =>
    rw [hkind] at hc
    obtain ⟨hint, rfl, rfl⟩ := hc
    exact ⟨hi, fun _ => (direct_itable hint hres).symm⟩

/-- One execution keeps what the instruction has cached, and invokes what the lookup finds. -/
theorem execute_inv (hf : first = .invokevirtual ∨ first = .invokeinterface)
    (hi : SiteInv classes linked t m first P insn) (hk : kind = insn.kind ∨ kind = first)
    (hr : ∀ c ∈ receiver, Receives linked P c)
    (hm : ∀ r ∈ attempt, r = m ∧ m.myClass ∈ linked) :
    SiteInv classes linked t m first P (execute classes t kind insn receiver attempt).1 ∧
      ((m.myClass ∈ linked → SiteAgrees classes t m first (Receives linked P)) →
        (execute classes t kind insn receiver attempt).2 =
          direct classes t receiver (insn.resolved.or attempt)) := by
  cases receiver with
  | none => exact ⟨hi, fun _ => rfl⟩
  | some c =>
    have hr := hr c rfl
    have hfirst : Cached classes linked t m first P first := by
      rcases hf with rfl | rfl <;> exact .inl rfl
    have hc : Cached classes linked t m first P kind := by
      rcases hk with rfl | rfl
      · exact hi.cached
      · exact hfirst
    by_cases hinit : kind = .invokevirtual ∨ kind = .invokeinterface
    · rw [execute_first hinit]
      cases hor : insn.resolved.or attempt with
      | none =>
        obtain ⟨hn, -⟩ := Option.or_eq_none_iff.mp hor
        exact ⟨⟨fun _ h => absurd h (by simp), fun _ => hi.unresolved hn, hi.cached⟩, fun _ => rfl⟩
      | some r =>
        obtain ⟨rfl, hml⟩ : r = m ∧ m.myClass ∈ linked := by
          rcases Option.or_eq_some_iff.mp hor with h | ⟨-, h⟩
          · exact hi.resolved r h
          · exact hm r h
        exact (settle_inv hinit hf hi hc hr hml).imp_right fun h ha => h (ha hml)
    · -- the instruction has been rewritten, so that the method is resolved
      have hkind : kind = insn.kind := hk.resolve_right fun h => hinit (h ▸ hf)
      obtain ⟨r, hres⟩ := Option.ne_none_iff_exists'.mp fun hn =>
        hinit (hkind.trans (hi.unresolved hn) ▸ hf)
      obtain ⟨rfl, hml⟩ := hi.resolved r hres
      rw [hres, Option.some_or, hkind]
      exact (rewritten_inv hi hres hr (hkind ▸ hinit)).imp_right fun h ha => h (ha hml)

/-! ### Runs -/

theorem Run.isLinked (h : Run classes first m P linked t insn calls) : Linked classes linked t := by
  induction h with
  | start h => exact h
  | link _ hc hs hi ih => exact .link ih hc hs hi
  | resolve _ _ ih => exact ih
  | call _ _ _ _ ih => exact ih

/-- Linking a class keeps the direct lookups of the classes linked before. -/
theorem KeepsOthers.direct (hk : KeepsOthers d t t') (hd : d ∉ linked) (hc : c ∈ linked)
    (hm : m.myClass ∈ linked) :
    direct classes t' (some c) (some m) = direct classes t (some c) (some m) := by
  have hcd : c ≠ d := fun heq => hd (heq ▸ hc)
  have hmd : m.myClass ≠ d := fun heq => hd (heq ▸ hm)
  simp only [Interp.direct, itableLookup, vtableLookup, hk.vtable c hcd, hk.itables c hcd,
    hk.vtableIndex m hmd, hk.itableIndex m hmd]

theorem KeepsOthers.cached (hk : KeepsOthers d t t') (hd : d ∉ linked)
    (hl : Linked classes linked t) (hm : m.myClass ∈ linked)
    (hc : Cached classes linked t m first P kind) :
    Cached classes (d :: linked) t' m first P kind := by
  have hne : ∀ c, Receives linked P c → c ≠ d := fun c hc heq => hd (heq ▸ hc.2)
  have hmd : m.myClass ≠ d := fun heq => hd (heq ▸ hm)
  have hmono : ∀ c, Receives linked P c → Receives (d :: linked) P c := fun c hc =>
    ⟨hc.1, List.mem_cons_of_mem _ hc.2⟩
  have hvt : ∀ c, Receives linked P c → vtableLookup t' c (t'.vtableIndex m) =
      vtableLookup t c (t.vtableIndex m) := fun c hc => by
    rw [vtableLookup, vtableLookup, hk.vtable c (hne c hc), hk.vtableIndex m hmd]
  have hit : ∀ c, Receives linked P c → itableLookup t' c m.myClass (t'.itableIndex m) =
      itableLookup t c m.myClass (t.itableIndex m) := fun c hc => by
    rw [itableLookup, itableLookup, hk.itables c (hne c hc), hk.itableIndex m hmd]
  cases kind with
  | invokevirtual => exact hc
  | invokeinterface => exact hc
  | invokesigpoly ic => exact hc
  | invokespecialResolved ic =>
    obtain ⟨h1, h2, h3, h4⟩ := hc
    refine ⟨h1, h2, h3, fun hint => ?_⟩
    obtain ⟨c, s, hc, hs⟩ := h4 hint
    exact ⟨c, s, hmono c hc, (hit c hc).trans hs⟩
  | invokevtableMonomorphic ic c =>
    obtain ⟨h1, h2, h3, h4, h5⟩ := hc
    exact ⟨hmono c h1, h2, h3, h4, h5.trans (hvt c h1).symm⟩
  | invokeitableMonomorphic ic c =>
    obtain ⟨h1, h2, h3⟩ := hc
    exact ⟨hmono c h1, h2, (hit c h1).trans h3⟩
  | invokevtablePolymorphic i =>
    obtain ⟨h1, h2, h3, c, c', hc, hc', hcc, h4⟩ := hc
    refine ⟨h1, h2, h3, c, c', hmono c hc, hmono c' hc', hcc, ?_⟩
    rw [h4, hvt c hc]
    refine Option.map_congr fun s hs => (hk.vtableIndex s fun heq => hd ?_).symm
    exact heq ▸ (vtableInv_of_linked hl).myClass_mem hc.2 (List.mem_of_getElem? hs)
  | invokeitablePolymorphic c i =>
    exact ⟨hc.1, hc.2.1, hc.2.2.trans (hk.itableIndex m hmd).symm⟩

/-- What the lookups agree on behind a later stage of linking, they agree on before. -/
theorem SiteAgrees.before (hk : KeepsOthers d t t') (hd : d ∉ linked)
    (hl : Linked classes linked t) (hm : m.myClass ∈ linked)
    (ha : SiteAgrees classes t' m first (Receives (d :: linked) P)) :
    SiteAgrees classes t m first (Receives linked P) := by
  have hmono : ∀ c, Receives linked P c → Receives (d :: linked) P c := fun c hc =>
    ⟨hc.1, List.mem_cons_of_mem _ hc.2⟩
  have hdir : ∀ c, Receives linked P c →
      direct classes t' (some c) (some m) = direct classes t (some c) (some m) := fun c hc =>
    hk.direct hd hc.2 hm
  refine ⟨fun hp c hc => ?_, fun hp hf hint c hc => ?_, fun hp hf hint c c' s hc hc' hs => ?_,
    fun hp hf hint b c c' hb hc hc' hcb => ?_⟩
  · rw [← hdir c hc]
    exact ha.sigpoly hp c (hmono c hc)
  · rw [← hdir c hc]
    exact ha.final hp hf hint c (hmono c hc)
  · rw [← hdir c' hc']
    exact ha.finalInterface hp hf hint c c' s (hmono c hc) (hmono c' hc') ((hdir c hc).trans hs)
  · have hne : ∀ a ∈ linked, a ≠ d := fun a ha heq => hd (heq ▸ ha)
    have := ha.index hp hf hint b c c' (hmono b hb) (hmono c hc) (hmono c' hc') hcb
    simp only [vtableLookup, hk.vtable b (hne b hb.2), hk.vtable c' (hne c' hc'.2),
      hk.vtableIndex m (hne _ hm)] at this ⊢
    rw [← this]
    refine Option.bind_congr fun s hs => ?_
    rw [hk.vtableIndex s (hne _ ((vtableInv_of_linked hl).myClass_mem hb.2
      (List.mem_of_getElem? hs)))]

/-- The invariant of a run. -/
theorem Run.inv (hf : first = .invokevirtual ∨ first = .invokeinterface)
    (h : Run classes first m P linked t insn calls) :
    SiteInv classes linked t m first P insn ∧
      ((m.myClass ∈ linked → SiteAgrees classes t m first (Receives linked P)) →
        ∀ call ∈ calls, call.outcome = call.direct) := by
  induction h with
  | start =>
    refine ⟨⟨fun _ h => absurd h (by simp), fun _ => rfl, ?_⟩, fun _ => by simp⟩
    rcases hf with rfl | rfl <;> exact .inl rfl
  | @link linked t insn calls cd h hcd _ _ ih =>
    obtain ⟨hi, hok⟩ := ih
    have hk : KeepsOthers cd t (linkClass classes t cd) := linkClass_keeps cd t
    refine ⟨⟨fun r hr => (hi.resolved r hr).imp_right (List.mem_cons_of_mem _), hi.unresolved, ?_⟩,
      fun ha => hok fun hm => (ha (List.mem_cons_of_mem _ hm)).before hk hcd h.isLinked hm⟩
    cases hres : insn.resolved with
    | none =>
      rw [hi.unresolved hres]
      rcases hf with rfl | rfl <;> exact .inl rfl
    | some r => exact hk.cached hcd h.isLinked (hi.resolved r hres).2 hi.cached
  | resolve _ hm ih =>
    obtain ⟨hi, hok⟩ := ih
    exact ⟨⟨fun r hr => ⟨(Option.some.inj hr).symm, hm⟩, fun h => absurd h (by simp), hi.cached⟩, hok⟩
  | call _ hk hr hm ih =>
    obtain ⟨hi, hok⟩ := ih
    obtain ⟨hi', hcall⟩ := execute_inv hf hi hk hr hm
    exact ⟨hi', fun ha => List.forall_mem_cons.mpr ⟨hcall ha, hok ha⟩⟩

theorem invokeEntry_inj {e e' : Option MethodPtr} (h : invokeEntry e = invokeEntry e') :
    e = e' := by
  cases e <;> cases e' <;> simp_all [invokeEntry]

/-- The next call of a run. -/
theorem Run.next (h : Run classes first m P linked t insn calls) (hP : ∀ c, P c → c ∈ linked)
    (hm : m.myClass ∈ linked) (hc : P c) :
    Run classes first m P linked t (execute classes t insn.kind insn (some c) (some m)).1
      ({ receiver := some c, outcome := (execute classes t insn.kind insn (some c) (some m)).2,
         direct := direct classes t (some c) (insn.resolved.or (some m)) } :: calls) := by
  refine .call h (.inl rfl) ?_ ?_
  · rintro _ ⟨⟩
    exact ⟨hc, hP c hc⟩
  · rintro _ ⟨⟩
    exact ⟨rfl, hm⟩

theorem settle_sigpoly (hp : CallsSigpoly classes m first)  :
    settle classes t first insn c m =
      ({ kind := .invokesigpoly m, resolved := some m }, .invoke m) := if_pos hp

theorem settle_final (hp : ¬ CallsSigpoly classes m first)
    (hfin : (methodAt classes m).accessFlags.isFinal = true)
    (hint : (classes m.myClass).accessFlags.isInterface = false) :
    settle classes t first insn c m =
      ({ kind := .invokespecialResolved m, resolved := some m }, .invoke m) := by
  rw [CallsSigpoly] at hp
  rw [settle, if_neg hp, hint, if_neg Bool.false_ne_true, if_pos hfin]

theorem settle_finalInterface (hp : ¬ CallsSigpoly classes m first)
    (hfin : (methodAt classes m).accessFlags.isFinal = true)
    (hint : (classes m.myClass).accessFlags.isInterface = true)
    (hs : direct classes t (some c) (some m) = .invoke s) :
    settle classes t first insn c m =
      ({ kind := .invokespecialResolved m, resolved := some m }, .invoke m) := by
  rw [CallsSigpoly] at hp
  rw [settle, if_neg hp, if_pos hint]
  cases hl : itableLookup t c m.myClass (t.itableIndex m) with
  | none => simp [direct, hint, hl] at hs
  | some s => simp [hfin]

theorem settle_vtable (hp : ¬ CallsSigpoly classes m first)
    (hfin : (methodAt classes m).accessFlags.isFinal = false)
    (hint : (classes m.myClass).accessFlags.isInterface = false) :
    settle classes t first insn c m =
      ({ kind := .invokevtableMonomorphic (vtableLookup t c (t.vtableIndex m)) c,
         resolved := some m }, invokeEntry (vtableLookup t c (t.vtableIndex m))) := by
  rw [CallsSigpoly] at hp
  rw [settle, if_neg hp, hint, if_neg Bool.false_ne_true, hfin, if_neg Bool.false_ne_true]

/-- Every call at the site comes to what the direct lookup of the resolved method on its receiver's
class comes to, in every run, if and only if the lookup finds, for every receiver, a
signature-polymorphic or final method itself, and, for receivers of more than one class, the method
at the index of what it finds for another. -/
theorem calls_agree_iff (h : Linked classes linked t) (hm : m.myClass ∈ linked)
    (hP : ∀ c, P c → c ∈ linked) (hf : first = .invokevirtual ∨ first = .invokeinterface) :
    (∀ insn calls, Run classes first m P linked t insn calls →
      ∀ call ∈ calls, call.outcome = call.direct) ↔ SiteAgrees classes t m first P := by
  constructor
  · intro hall
    -- the first call of a run, and its second
    have hone : ∀ c, P c → Run classes first m P linked t
        (settle classes t first { kind := first } c m).1
        [⟨some c, (settle classes t first { kind := first } c m).2,
          direct classes t (some c) (some m)⟩] := fun c hc => by
      have hrun : Run classes first m P linked t { kind := first } [] := .start h
      have hnext := hrun.next hP hm hc
      rwa [execute_first hf, Option.none_or] at hnext
    refine ⟨fun hp c hc => ?_, fun hp hfin hint c hc => ?_, fun hp hfin hint c d s hc hd hs => ?_,
      fun hp hfin hint b c d hb hc hd hcb => ?_⟩
    · have hcall := hall _ _ (hone c hc) _ (.head _)
      rw [settle_sigpoly hp] at hcall
      exact hcall.symm
    · have hcall := hall _ _ (hone c hc) _ (.head _)
      rw [settle_final hp hfin hint] at hcall
      exact hcall.symm
    · have hrun := hone c hc
      rw [settle_finalInterface hp hfin hint hs] at hrun
      exact (hall _ _ (hrun.next hP hm hd) _ (.head _)).symm
    · have hrun := hone b hb
      rw [settle_vtable hp hfin hint] at hrun
      have hsecond := hrun.next hP hm hc
      rw [execute_vtableMonomorphic, if_neg hcb] at hsecond
      have hcall := hall _ _ (hsecond.next hP hm hd) _ (.head _)
      simp only [Option.some_or, direct_vtable hint] at hcall
      have hentry := invokeEntry_inj hcall
      rwa [Option.bind_map] at hentry
  · intro ha insn calls hrun
    refine (hrun.inv hf).2 fun _ => ?_
    have heq : Receives linked P = P := funext fun c => propext (and_iff_left_of_imp (hP c))
    rwa [heq]

/-! ### Receivers of two classes -/

theorem twoClasses_siteAgrees : SiteAgrees (twoClasses { isPublic := true })
    (twoClassesTables { isPublic := true }) ⟨1, 0⟩ .invokevirtual (· ∈ [1, 2]) := by
  refine ⟨fun hp => absurd hp.1 (by decide), fun _ hfin => absurd hfin (by decide),
    fun _ hfin => absurd hfin (by decide), fun _ _ _ b c d hb _ hd _ => ?_⟩
  simp only [List.mem_cons, List.not_mem_nil, or_false] at hb hd
  rcases hb with rfl | rfl <;> rcases hd with rfl | rfl <;> decide

/-- A call on a `q/B`, whose method is cached, and then one on a `p/A`. -/
theorem twoClasses_agree :
    (execute (twoClasses { isPublic := true }) (twoClassesTables { isPublic := true })
      (.invokevtableMonomorphic (some ⟨2, 0⟩) 2)
      { kind := .invokevtableMonomorphic (some ⟨2, 0⟩) 2, resolved := some ⟨1, 0⟩ }
      (some 1) (some ⟨1, 0⟩)).2 =
    direct (twoClasses { isPublic := true }) (twoClassesTables { isPublic := true }) (some 1)
      (some ⟨1, 0⟩) := by
  have hrun : Run (twoClasses { isPublic := true }) .invokevirtual ⟨1, 0⟩ (· ∈ [1, 2]) [2, 1, 0]
      (twoClassesTables { isPublic := true }) { kind := .invokevirtual } [] :=
    .start (twoClasses_linked _)
  have hfirst := hrun.next (by simp) (by simp) (show 2 ∈ [1, 2] by simp)
  have hsecond := hfirst.next (by simp) (by simp) (show 1 ∈ [1, 2] by simp)
  exact (calls_agree_iff (twoClasses_linked _) (by simp) (by simp) (.inl rfl)).mpr
    twoClasses_siteAgrees _ _ hsecond _ (.head _)

/-- `p/A` and `q/B extends p/A` with package-private methods `f`, and `q/C extends q/B` with a public
one. -/
def threeClasses : Nat → Classdesc
  | 0 => { name := ['O'] }
  | 1 => { name := ['p', '/', 'A'], superClass := some 0,
           methods := [{ name := ['f'], unparsedDescriptor := ['(', ')', 'V'] }] }
  | 2 => { name := ['q', '/', 'B'], superClass := some 1,
           methods := [{ name := ['f'], unparsedDescriptor := ['(', ')', 'V'] }] }
  | 3 => { name := ['q', '/', 'C'], superClass := some 2,
           methods := [{ name := ['f'], unparsedDescriptor := ['(', ')', 'V'],
                         accessFlags := { isPublic := true } }] }
  | _ => default

def threeClassesTables : Tables := [0, 1, 2, 3].foldl (linkClass threeClasses) {}

theorem threeClasses_linked : Linked threeClasses [3, 2, 1, 0] threeClassesTables := by
  refine .link (.link (.link (.link .nil ?_ ?_ ?_) ?_ ?_ ?_) ?_ ?_ ?_) ?_ ?_ ?_ <;>
    simp [threeClasses]

/-- The method of `q/C` has the slots of both the others, and the index of the second. -/
theorem threeClasses_wrong : Linked threeClasses [3, 2, 1, 0] threeClassesTables ∧
    ¬ ∀ insn calls, Run threeClasses .invokevirtual ⟨1, 0⟩ (· ∈ [2, 3]) [3, 2, 1, 0]
      threeClassesTables insn calls → ∀ call ∈ calls, call.outcome = call.direct := by
  refine ⟨threeClasses_linked, fun hall => ?_⟩
  have hrun : Run threeClasses .invokevirtual ⟨1, 0⟩ (· ∈ [2, 3]) [3, 2, 1, 0] threeClassesTables
      { kind := .invokevirtual } [] := .start threeClasses_linked
  have hfirst := hrun.next (by simp) (by simp) (show 3 ∈ [2, 3] by simp)
  have hsecond := hfirst.next (by simp) (by simp) (show 2 ∈ [2, 3] by simp)
  exact absurd (hall _ _ hsecond _ (.head _)) (by decide)

end BJvm.Interp
