import BJvm.Linkage.ClassLoading
import Mathlib.Data.List.Chain

/-!
# Runs of class loading

What a step leaves alone, whose class a call is about, and what a lookup has returned to the call
that waits for it.  Every class has one loader, the one that `define_class` was given for it.
-/

namespace BJvm.Loading

variable {w w' : World} {t : ThreadId} {th : Thread} {definer definer' : ClassId → LoaderId}
  {c : ClassId} {i : Nat} {rest : List Activation}

/-! ### What the operations change -/

namespace World

@[simp] theorem setThread_classes (w : World) (t : ThreadId) (th : Thread) :
    (w.setThread t th).classes = w.classes := rfl

@[simp] theorem setThread_info (w : World) (t : ThreadId) (th : Thread) :
    (w.setThread t th).info = w.info := rfl

theorem setThread_thread (w : World) (t : ThreadId) (th : Thread) (t' : ThreadId) :
    (w.setThread t th).thread t' = if t' = t then th else w.thread t' := by
  unfold setThread
  simp [Function.update_apply]

theorem info_setInfo (w : World) (c : ClassId) (i : Nat) (x : CpClassInfo) (d : ClassId)
    (j : Nat) : (w.setInfo c i x).info d j =
      if d = c ∧ j = i then (w.info c i).map fun _ => x else w.info d j := by
  unfold info setInfo setClass
  simp only [Function.update_apply]
  by_cases hd : d = c
  · subst hd
    by_cases hj : j = i
    · subst hj
      simp [List.getElem?_set_self', Option.map_eq_map]
      rfl
    · simp [hj, List.getElem?_set_ne (Ne.symm hj)]
  · simp [hd]

theorem setInfo_classloader (w : World) (c : ClassId) (i : Nat) (x : CpClassInfo) (d : ClassId) :
    ((w.setInfo c i x).classes d).classloader = (w.classes d).classloader := by
  unfold setInfo setClass
  simp only [Function.update_apply]
  split_ifs with h
  · rw [h]
  · rfl

theorem setInfo_name (w : World) (c : ClassId) (i : Nat) (x : CpClassInfo) (d : ClassId) :
    ((w.setInfo c i x).classes d).name = (w.classes d).name := by
  unfold setInfo setClass
  simp only [Function.update_apply]
  split_ifs with h
  · rw [h]
  · rfl

theorem setInfo_file (w : World) (c : ClassId) (i : Nat) (x : CpClassInfo) (d : ClassId) :
    ((w.setInfo c i x).classes d).file = (w.classes d).file := by
  unfold setInfo setClass
  simp only [Function.update_apply]
  split_ifs with h
  · rw [h]
  · rfl

end World

/-- What later states keep of a state: its classes with their names and, once they are defined,
their loaders; the names of the entries; the loaders; what has been asked and answered. -/
structure Extends (definer definer' : ClassId → LoaderId) (w w' : World) : Prop where
  count : w.classCount ≤ w'.classCount
  loaders : w.loaderCount ≤ w'.loaderCount
  definer : ∀ c < w.classCount, definer' c = definer c
  name : ∀ c < w.classCount, (w'.classes c).name = (w.classes c).name
  classloader : ∀ c < w.classCount, ∀ l, (w.classes c).classloader = some l →
    (w'.classes c).classloader = some l
  infoName : ∀ c < w.classCount, ∀ i, (w'.info c i).map (·.name) = (w.info c i).map (·.name)
  asked : ∀ r ∈ w.asked, r ∈ w'.asked
  answered : ∀ a ∈ w.answered, a ∈ w'.answered

namespace Extends

variable {w'' : World} {definer'' : ClassId → LoaderId}

theorem refl (definer : ClassId → LoaderId) (w : World) : Extends definer definer w w :=
  ⟨le_rfl, le_rfl, fun _ _ => rfl, fun _ _ => rfl, fun _ _ _ h => h, fun _ _ _ => rfl,
    fun _ h => h, fun _ h => h⟩

theorem trans (h : Extends definer definer' w w') (h' : Extends definer' definer'' w' w'') :
    Extends definer definer'' w w'' where
  count := h.count.trans h'.count
  loaders := h.loaders.trans h'.loaders
  definer c hc := (h'.definer c (hc.trans_le h.count)).trans (h.definer c hc)
  name c hc := (h'.name c (hc.trans_le h.count)).trans (h.name c hc)
  classloader c hc l hl := h'.classloader c (hc.trans_le h.count) l (h.classloader c hc l hl)
  infoName c hc i := (h'.infoName c (hc.trans_le h.count) i).trans (h.infoName c hc i)
  asked r hr := h'.asked r (h.asked r hr)
  answered a ha := h'.answered a (h.answered a ha)

end Extends

/-! ### The invariant -/

/-- An entry that is resolved is the class itself, or what a lookup has returned that the entry
was asked for. -/
def Answered (w : World) (c : ClassId) (i : Nat) (info : CpClassInfo) (d : ClassId) : Prop :=
  (i = (w.classes c).file.self ∧ d = c) ∨ ∃ r ∈ w.asked, r.owner = c ∧ r.index = i ∧
    ∃ l, r.loader = some l ∧ (l, info.name, some d) ∈ w.answered

/-- Classes, constant pools and requests. -/
structure PoolsOk (definer : ClassId → LoaderId) (w : World) : Prop where
  loader : ∀ {c l}, (w.classes c).classloader = some l → definer c = l ∧ l < w.loaderCount
  owner : ∀ r ∈ w.asked, r.owner < w.classCount
  byNative : ∀ r ∈ w.asked, ∀ fn, r.origin = .native fn →
    r.loader = some bootstrapClassloader ∧ (w.classes r.owner).classloader.isSome
  byClass : ∀ r ∈ w.asked, (∀ fn, r.origin ≠ .native fn) → r.loader = some (definer r.owner)
  cached : ∀ {c i info d}, w.info c i = some info → info.classdesc = some d → Answered w c i info d

/-- What holds of a call in progress. -/
def CallOk (definer : ClassId → LoaderId) (w : World) : Activation → Prop
  | .frame c => Published w c
  | .classNative _ desc _ => Published w desc
  | .lookupClass cl _ _ => cl < w.loaderCount
  | .awaitLoad cl _ _ _ _ => cl < w.loaderCount
  | .awaitLookup request => request ∈ w.asked
  | .defineClass cl _ _ => cl < w.loaderCount
  | .resolveSupers cl _ c _ => cl < w.loaderCount ∧ c < w.classCount ∧ definer c = cl

/-- The call is a lookup of the name by the loader. -/
def LooksUp (cl : LoaderId) (name : Name) : Activation → Prop
  | .lookupClass cl' name' _ => cl' = cl ∧ name' = name
  | .awaitLoad cl' name' _ _ _ => cl' = cl ∧ name' = name
  | _ => False

/-- The call defines a class of the bootstrap loader. -/
def DefinesBootstrap : Activation → Prop
  | .defineClass cl _ _ => cl = bootstrapClassloader
  | .resolveSupers cl _ _ _ => cl = bootstrapClassloader
  | _ => False

/-- What a caller that waits is waiting for is the callee. -/
def Calls (w : World) (callee : Activation) : Activation → Prop
  | .awaitLookup request => ∃ cl name, request.loader = some cl ∧
      (w.info request.owner request.index).map (·.name) = some name ∧ LooksUp cl name callee
  | .awaitLoad cl _ _ _ _ =>
    if cl = bootstrapClassloader then DefinesBootstrap callee else ∃ c, callee = .frame c
  | _ => True

/-- What the call on top has got. -/
def Got (w : World) : List Activation → Option (Option ClassId) → Prop
  | .awaitLookup request :: _, some r => ∃ cl name, request.loader = some cl ∧
      (w.info request.owner request.index).map (·.name) = some name ∧ (cl, name, r) ∈ w.answered
  | .awaitLookup _ :: _, none => False
  | .awaitLoad cl _ _ _ _ :: _, some (some c) => Published w c ∧
      (cl = bootstrapClassloader → (w.classes c).classloader = some bootstrapClassloader)
  | .awaitLoad cl _ _ _ _ :: _, none => cl ≠ bootstrapClassloader
  | _, _ => True

structure ThreadOk (definer : ClassId → LoaderId) (w : World) (th : Thread) : Prop where
  calls : ∀ call ∈ th.control, CallOk definer w call
  chain : th.control.IsChain (Calls w)
  got : Got w th.control th.returned

structure LoadingInv (definer : ClassId → LoaderId) (w : World) : Prop where
  pools : PoolsOk definer w
  threads : ∀ t, ThreadOk definer w (w.thread t)

/-! ### What later states keep -/

section

variable (hext : Extends definer definer' w w')
include hext

theorem Published.mono (h : Published w c) : Published w' c := by
  obtain ⟨l, hl⟩ := Option.isSome_iff_exists.mp h.2
  exact ⟨h.1.trans_le hext.count, Option.isSome_iff_exists.mpr ⟨l, hext.classloader c h.1 l hl⟩⟩

theorem CallOk.mono {call : Activation} (h : CallOk definer w call) :
    CallOk definer' w' call := by
  cases call <;> unfold CallOk at h ⊢
  case frame => exact h.mono hext
  case classNative => exact h.mono hext
  case awaitLookup => exact hext.asked _ h
  case resolveSupers =>
    exact ⟨h.1.trans_le hext.loaders, h.2.1.trans_le hext.count,
      (hext.definer _ h.2.1).trans h.2.2⟩
  all_goals exact lt_of_lt_of_le h hext.loaders

theorem Calls.mono {callee caller : Activation} (hp : PoolsOk definer w)
    (hcaller : CallOk definer w caller) (h : Calls w callee caller) : Calls w' callee caller := by
  cases caller <;> unfold Calls at h ⊢
  case awaitLookup request =>
    obtain ⟨cl, name, hcl, hname, hlook⟩ := h
    exact ⟨cl, name, hcl, (hext.infoName _ (hp.owner _ hcaller) _).trans hname, hlook⟩
  all_goals exact h

theorem Got.mono {calls : List Activation} {r : Option (Option ClassId)} (hp : PoolsOk definer w)
    (hcalls : ∀ call ∈ calls, CallOk definer w call) (h : Got w calls r) : Got w' calls r := by
  rcases calls with - | ⟨call, rest⟩
  · trivial
  have hcall := hcalls call List.mem_cons_self
  cases call <;> rcases r with - | r <;> try unfold Got at h ⊢
  all_goals try exact h
  case awaitLoad.some cl _ _ _ _ =>
    rcases r with - | c
    · trivial
    · exact ⟨h.1.mono hext, fun hcl => hext.classloader _ h.1.1 _ (h.2 hcl)⟩
  case awaitLookup.some request =>
    obtain ⟨cl, name, hcl, hname, hmem⟩ := h
    exact ⟨cl, name, hcl, (hext.infoName _ (hp.owner _ hcall) _).trans hname,
      hext.answered _ hmem⟩

theorem ThreadOk.mono (hp : PoolsOk definer w) (h : ThreadOk definer w th) :
    ThreadOk definer' w' th where
  calls call hcall := (h.calls call hcall).mono hext
  chain := by
    refine List.IsChain.imp_of_mem_imp ?_ h.chain
    intro callee caller _ hcaller hcalls
    exact hcalls.mono hext hp (h.calls caller hcaller)
  got := h.got.mono hext hp h.calls

end

/-! ### Stacks -/

/-- The call on top waits neither for a lookup nor for a load. -/
def Free : List Activation → Prop
  | .awaitLookup _ :: _ => False
  | .awaitLoad .. :: _ => False
  | _ => True

theorem Free.got {calls : List Activation} (h : Free calls) (r : Option (Option ClassId)) :
    Got w calls r := by
  rcases calls with - | ⟨call, rest⟩
  · trivial
  · cases call <;> first | exact h.elim | trivial

theorem Free.calls {calls : List Activation} (h : Free calls) (callee : Activation) :
    ∀ caller ∈ calls.head?, Calls w callee caller := by
  rcases calls with - | ⟨call, rest⟩
  · simp
  · intro caller hcaller
    obtain rfl : call = caller := by simpa using hcaller
    cases call <;> first | exact h.elim | trivial

theorem free_of_userCode {calls : List Activation} (h : userCode calls) : Free calls := by
  rcases calls with - | ⟨call, rest⟩
  · trivial
  · cases call <;> first | exact absurd h Bool.false_ne_true | trivial

/-- A caller of anything but a lookup, a definition or a method waits for neither. -/
theorem free_of_chain {callee : Activation} (h : (callee :: rest).IsChain (Calls w))
    (hlook : ∀ cl name, ¬ LooksUp cl name callee) (hdef : ¬ DefinesBootstrap callee)
    (hframe : ∀ c, callee ≠ .frame c) : Free rest := by
  rcases rest with - | ⟨call, rest⟩
  · trivial
  have hcalls : Calls w callee call := (List.isChain_cons_cons.mp h).1
  cases call with
  | awaitLookup request =>
    obtain ⟨cl, name, -, -, hl⟩ := hcalls
    exact hlook cl name hl
  | awaitLoad cl _ _ _ _ =>
    simp only [Calls] at hcalls
    split_ifs at hcalls
    · exact hdef hcalls
    · obtain ⟨c, hc⟩ := hcalls
      exact hframe c hc
  | _ => trivial

namespace ThreadOk

/-- The thread makes a call. -/
theorem push {calls : List Activation} {call : Activation} {e : Option Exception}
    (hcalls : ∀ call ∈ calls, CallOk definer w call) (hchain : calls.IsChain (Calls w))
    (hcall : CallOk definer w call) (hcaller : ∀ caller ∈ calls.head?, Calls w call caller)
    (hgot : Got w (call :: calls) none) :
    ThreadOk definer w { control := call :: calls, returned := none, exception := e } where
  calls c hc := by
    rcases List.mem_cons.mp hc with rfl | hc
    · exact hcall
    · exact hcalls c hc
  chain := List.isChain_cons.mpr ⟨hcaller, hchain⟩
  got := hgot

/-- The call on top returns. -/
theorem pop {call : Activation} {r : Option (Option ClassId)} {e : Option Exception}
    (h : ThreadOk definer w th) (hcontrol : th.control = call :: rest) (hgot : Got w rest r) :
    ThreadOk definer w { control := rest, returned := r, exception := e } where
  calls c hc := h.calls c (hcontrol ▸ List.mem_cons_of_mem _ hc)
  chain := by
    have := h.chain
    rw [hcontrol] at this
    exact this.tail
  got := hgot

/-- The call on top goes on. -/
theorem replace {call call' : Activation} {r : Option (Option ClassId)} {e : Option Exception}
    (h : ThreadOk definer w th) (hcontrol : th.control = call :: rest)
    (hcall : CallOk definer w call') (hcaller : ∀ caller ∈ rest.head?, Calls w call' caller)
    (hgot : Got w (call' :: rest) r) :
    ThreadOk definer w { control := call' :: rest, returned := r, exception := e } where
  calls c hc := by
    rcases List.mem_cons.mp hc with rfl | hc
    · exact hcall
    · exact h.calls c (hcontrol ▸ List.mem_cons_of_mem _ hc)
  chain := by
    have := h.chain
    rw [hcontrol] at this
    exact List.isChain_cons.mpr ⟨hcaller, this.tail⟩
  got := hgot

theorem free {call : Activation} (h : ThreadOk definer w th) (hcontrol : th.control = call :: rest)
    (hlook : ∀ cl name, ¬ LooksUp cl name call) (hdef : ¬ DefinesBootstrap call)
    (hframe : ∀ c, call ≠ .frame c) : Free rest :=
  free_of_chain (hcontrol ▸ h.chain) hlook hdef hframe

theorem head_ok {call : Activation} (h : ThreadOk definer w th)
    (hcontrol : th.control = call :: rest) : CallOk definer w call :=
  h.calls call (hcontrol ▸ List.mem_cons_self)

theorem caller {call : Activation} (h : ThreadOk definer w th)
    (hcontrol : th.control = call :: rest) : ∀ caller ∈ rest.head?, Calls w call caller := by
  have := h.chain
  rw [hcontrol] at this
  exact (List.isChain_cons.mp this).1

end ThreadOk

/-! ### The pools -/

namespace PoolsOk

theorem congr (h : PoolsOk definer w) (hcount : w.classCount ≤ w'.classCount)
    (hloaders : w.loaderCount ≤ w'.loaderCount)
    (hloader : ∀ c, (w'.classes c).classloader = (w.classes c).classloader)
    (hfile : ∀ c, (w'.classes c).file = (w.classes c).file)
    (hinfo : ∀ c i, w'.info c i = w.info c i) (hasked : w'.asked = w.asked)
    (hanswered : ∀ a ∈ w.answered, a ∈ w'.answered) : PoolsOk definer w' where
  loader hl := by
    obtain ⟨h1, h2⟩ := h.loader ((hloader _).symm.trans hl)
    exact ⟨h1, h2.trans_le hloaders⟩
  owner r hr := (h.owner r (hasked ▸ hr)).trans_le hcount
  byNative r hr fn hfn := by
    rw [hloader]
    exact h.byNative r (hasked ▸ hr) fn hfn
  byClass r hr := h.byClass r (hasked ▸ hr)
  cached {c i info d} hi hd := by
    rw [hinfo] at hi
    unfold Answered
    rw [hfile, hasked]
    refine (h.cached hi hd).imp_right ?_
    rintro ⟨r, hr, ho, hx, l, hl, hmem⟩
    exact ⟨r, hr, ho, hx, l, hl, hanswered _ hmem⟩

end PoolsOk

theorem extends_of_same (hcount : w'.classCount = w.classCount)
    (hloaders : w.loaderCount ≤ w'.loaderCount)
    (hname : ∀ c, (w'.classes c).name = (w.classes c).name)
    (hloader : ∀ c, (w'.classes c).classloader = (w.classes c).classloader)
    (hinfo : ∀ c i, (w'.info c i).map (·.name) = (w.info c i).map (·.name))
    (hasked : ∀ r ∈ w.asked, r ∈ w'.asked)
    (hanswered : ∀ a ∈ w.answered, a ∈ w'.answered) : Extends definer definer w w' where
  count := hcount.ge
  loaders := hloaders
  definer _ _ := rfl
  name c _ := hname c
  classloader c _ _ hl := (hloader c).trans hl
  infoName c _ i := hinfo c i
  asked := hasked
  answered := hanswered

theorem World.classes_allocate (w : World) (desc : Classdesc) (c : ClassId) :
    (w.allocate desc).classes c = if c = w.classCount then desc else w.classes c := by
  unfold World.allocate
  simp only [Function.update_apply]

theorem World.info_allocate (w : World) (desc : Classdesc) (c : ClassId) (i : Nat) :
    (w.allocate desc).info c i = if c = w.classCount then desc.classInfos[i]? else w.info c i := by
  unfold World.info World.allocate
  simp only [Function.update_apply]
  split_ifs <;> rfl

theorem extends_allocate (w : World) (desc : Classdesc) (l : LoaderId) :
    Extends definer (Function.update definer w.classCount l) w (w.allocate desc) := by
  have hclass : ∀ c < w.classCount, (w.allocate desc).classes c = w.classes c := by
    intro c hc
    rw [World.classes_allocate, if_neg hc.ne]
  refine ⟨Nat.le_succ _, le_rfl, ?_, ?_, ?_, ?_, fun _ h => h, fun _ h => h⟩
  · intro c hc
    simp [hc.ne]
  · intro c hc
    rw [hclass c hc]
  · intro c hc l hl
    rw [hclass c hc]
    exact hl
  · intro c hc i
    rw [World.info_allocate, if_neg hc.ne]

/-- A new class has nothing resolved. -/
theorem PoolsOk.allocate {desc : Classdesc} {l : LoaderId} (h : PoolsOk definer w)
    (hloader : ∀ l', desc.classloader = some l' → l = l' ∧ l' < w.loaderCount)
    (hinfos : ∀ info ∈ desc.classInfos, info.classdesc = none) :
    PoolsOk (Function.update definer w.classCount l) (w.allocate desc) where
  loader {c l'} hl := by
    rw [World.classes_allocate] at hl
    rw [Function.update_apply]
    split_ifs at hl ⊢
    · exact hloader l' hl
    · exact h.loader hl
  owner r hr := (h.owner r hr).trans (Nat.lt_succ_self _)
  byNative r hr fn hfn := by
    rw [World.classes_allocate, if_neg (h.owner r hr).ne]
    exact h.byNative r hr fn hfn
  byClass r hr hfn := by
    rw [Function.update_of_ne (h.owner r hr).ne]
    exact h.byClass r hr hfn
  cached {c i info d} hi hd := by
    rw [World.info_allocate] at hi
    split_ifs at hi with hc
    · rw [hinfos info (List.mem_of_getElem? hi)] at hd
      cases hd
    · refine (h.cached hi hd).imp_left fun hself => ?_
      rw [World.classes_allocate, if_neg hc]
      exact hself

namespace PoolsOk

/-- An entry is given an outcome. -/
theorem setInfo {info x : CpClassInfo} (h : PoolsOk definer w) (hinfo : w.info c i = some info)
    (hname : x.name = info.name) (hx : ∀ d, x.classdesc = some d → Answered w c i x d) :
    PoolsOk definer (w.setInfo c i x) ∧ Extends definer definer w (w.setInfo c i x) := by
  constructor
  · refine ⟨fun hl => h.loader (by rwa [World.setInfo_classloader] at hl), h.owner,
      fun r hr fn hfn => ?_, h.byClass, fun {d j y e} hi hd => ?_⟩
    · rw [World.setInfo_classloader]
      exact h.byNative r hr fn hfn
    · unfold Answered
      rw [World.setInfo_file]
      rw [World.info_setInfo] at hi
      split_ifs at hi with heq
      · obtain ⟨rfl, rfl⟩ := heq
        rw [hinfo] at hi
        obtain rfl : x = y := by simpa using hi
        exact hx e hd
      · exact h.cached hi hd
  · refine extends_of_same rfl le_rfl (fun d => World.setInfo_name w c i x d)
      (fun d => World.setInfo_classloader w c i x d) (fun d j => ?_) (fun _ h => h) fun _ h => h
    rw [World.info_setInfo]
    split_ifs with heq
    · obtain ⟨rfl, rfl⟩ := heq
      rw [hinfo]
      simp [hname]
    · rfl

/-- A class is defined, by the loader that it was made for. -/
theorem publish {cl : LoaderId} (h : PoolsOk definer w) (hc : definer c = cl)
    (hcl : cl < w.loaderCount) :
    PoolsOk definer (w.setClass c ((w.classes c).publish c cl)) ∧
      Extends definer definer w (w.setClass c ((w.classes c).publish c cl)) := by
  have hclass : ∀ d, (w.setClass c ((w.classes c).publish c cl)).classes d =
      if d = c then (w.classes c).publish c cl else w.classes d := by
    intro d
    unfold World.setClass
    simp only [Function.update_apply]
  have hinfo : ∀ d i, (w.setClass c ((w.classes c).publish c cl)).info d i =
      if d = c ∧ (w.classes c).file.self = i then
        (w.info c i).map fun info => { info with classdesc := some c }
      else w.info d i := by
    intro d i
    unfold World.info
    rw [hclass]
    by_cases hd : d = c
    · subst hd
      unfold Classdesc.publish
      rw [if_pos rfl, List.getElem?_modify]
      by_cases hi : (w.classes d).file.self = i
      · simp [hi]
      · simp [hi]
    · simp [hd]
  constructor
  · refine ⟨fun {d l} hl => ?_, h.owner, fun r hr fn hfn => ?_, h.byClass,
      fun {d i info e} hi hd => ?_⟩
    · rw [hclass] at hl
      split_ifs at hl with heq
      · obtain rfl : cl = l := Option.some.inj hl
        exact ⟨heq ▸ hc, hcl⟩
      · exact h.loader hl
    · rw [hclass]
      split_ifs
      · exact ⟨(h.byNative r hr fn hfn).1, rfl⟩
      · exact h.byNative r hr fn hfn
    · unfold Answered
      rw [hinfo] at hi
      rw [hclass]
      split_ifs at hi with heq
      · obtain ⟨rfl, hself⟩ := heq
        rw [Option.map_eq_some_iff] at hi
        obtain ⟨info', -, rfl⟩ := hi
        rw [if_pos rfl]
        exact Or.inl ⟨hself.symm, (Option.some.inj hd).symm⟩
      · refine (h.cached hi hd).imp_left fun hself => ?_
        split_ifs with hdc
        · subst hdc
          exact hself
        · exact hself
  · refine ⟨le_rfl, le_rfl, fun _ _ => rfl, fun d _ => ?_, fun d _ l hl => ?_, fun d _ i => ?_,
      fun _ h => h, fun _ h => h⟩
    · rw [hclass]
      split_ifs with heq
      · rw [heq]
        rfl
      · rfl
    · rw [hclass]
      split_ifs with heq
      · rw [← (h.loader hl).1, heq, hc]
        rfl
      · exact hl
    · rw [hinfo]
      split_ifs with heq
      · obtain ⟨rfl, -⟩ := heq
        cases w.info d i <;> rfl
      · rfl

end PoolsOk

/-! ### What the calls do to the pools -/

namespace LoadingInv

theorem of_extends (h : LoadingInv definer w) (hext : Extends definer definer' w w')
    (hp : PoolsOk definer' w') (hthread : w'.thread = w.thread) : LoadingInv definer' w' :=
  ⟨hp, fun t => by rw [hthread]; exact (h.threads t).mono hext h.pools⟩

/-- The tables and the `inchoate_classes` do not matter to the invariant. -/
theorem of_tables (h : LoadingInv definer w) (loaded initiating : LoaderId → Name → Option ClassId)
    (inchoate : Name → Bool) (leftChain : Bool) (bound : List (LoaderId × Name × ClassId)) :
    LoadingInv definer { w with
      loaded := loaded, initiating := initiating, inchoate := inchoate, leftChain := leftChain,
      bound := bound } :=
  h.of_extends (extends_of_same rfl le_rfl (fun _ => rfl) (fun _ => rfl) (fun _ _ => rfl)
      (fun _ h => h) fun _ h => h)
    (h.pools.congr le_rfl le_rfl (fun _ => rfl) (fun _ => rfl) (fun _ _ => rfl) rfl fun _ h => h)
    rfl

/-- Only one thread's calls change. -/
theorem setThread (h : LoadingInv definer w) (hok : ThreadOk definer w th) :
    LoadingInv definer (w.setThread t th) := by
  refine ⟨h.pools.congr le_rfl le_rfl (fun _ => rfl) (fun _ => rfl) (fun _ _ => rfl) rfl
    fun _ h => h, fun t' => ?_⟩
  have hext : Extends definer definer w (w.setThread t th) := extends_of_same rfl le_rfl
    (fun _ => rfl) (fun _ => rfl) (fun _ _ => rfl) (fun _ h => h) fun _ h => h
  rw [World.setThread_thread]
  split_ifs
  · exact hok.mono hext h.pools
  · exact (h.threads t').mono hext h.pools

/-- A lookup has an answer. -/
theorem answer (h : LoadingInv definer w) (cl : LoaderId) (name : Name) (r : Option ClassId) :
    LoadingInv definer (w.answer cl name r) :=
  h.of_extends (extends_of_same rfl le_rfl (fun _ => rfl) (fun _ => rfl) (fun _ _ => rfl)
      (fun _ h => h) fun _ h => List.mem_cons_of_mem _ h)
    (h.pools.congr le_rfl le_rfl (fun _ => rfl) (fun _ => rfl) (fun _ _ => rfl) rfl
      fun _ h => List.mem_cons_of_mem _ h)
    rfl

end LoadingInv

/-- Array classes are made and nothing else is. -/
structure Derives (definer : ClassId → LoaderId) (w w' : World) : Prop where
  pools : ∃ definer', PoolsOk definer' w' ∧ Extends definer definer' w w'
  thread : w'.thread = w.thread
  initiating : w'.initiating = w.initiating
  bound : w'.bound = w.bound
  leftChain : w'.leftChain = w.leftChain
  parent : w'.parent = w.parent
  loaderCount : w'.loaderCount = w.loaderCount

theorem arrayClassdesc_classloader (desc : Classdesc) :
    (arrayClassdesc desc).classloader = desc.classloader := by
  unfold arrayClassdesc
  split <;> rfl

theorem arrayClassdesc_classInfos (desc : Classdesc) : (arrayClassdesc desc).classInfos = [] := by
  unfold arrayClassdesc
  split <;> rfl

/-- Setting the array type of a class leaves its name, its loader and its entries. -/
theorem setClass_arrayType (w : World) (c : ClassId) (array : Option ClassId) (d : ClassId) :
    ((w.setClass c { w.classes c with arrayType := array }).classes d) =
      { w.classes d with
        arrayType := if d = c then array else (w.classes d).arrayType } := by
  unfold World.setClass
  simp only [Function.update_apply]
  split_ifs with h
  · rw [h]
  · rfl

theorem PoolsOk.getOrCreateArrayClassdesc (h : PoolsOk definer w) (c : ClassId) :
    Derives definer w (getOrCreateArrayClassdesc w c).1 := by
  unfold Loading.getOrCreateArrayClassdesc
  split
  · exact ⟨⟨definer, h, .refl _ _⟩, rfl, rfl, rfl, rfl, rfl, rfl⟩
  · refine ⟨⟨Function.update definer w.classCount (definer c), ?_, ?_⟩, rfl, rfl, rfl, rfl, rfl, rfl⟩
    · have halloc : PoolsOk (Function.update definer w.classCount (definer c))
          (w.allocate (arrayClassdesc (w.classes c))) := by
        refine h.allocate (fun l hl => ?_) fun info hinfo => ?_
        · rw [arrayClassdesc_classloader] at hl
          exact h.loader hl
        · rw [arrayClassdesc_classInfos] at hinfo
          simp at hinfo
      refine halloc.congr le_rfl le_rfl (fun d => ?_) (fun d => ?_) (fun d i => ?_) rfl fun _ h => h
      · rw [setClass_arrayType]
      · rw [setClass_arrayType]
      · unfold World.info
        rw [setClass_arrayType]
    · refine (extends_allocate w (arrayClassdesc (w.classes c)) (definer c)).trans
        (extends_of_same rfl le_rfl (fun d => ?_) (fun d => ?_) (fun d i => ?_) (fun _ h => h)
          fun _ h => h)
      · rw [setClass_arrayType]
      · rw [setClass_arrayType]
      · unfold World.info
        rw [setClass_arrayType]

theorem PoolsOk.deriveArray (h : PoolsOk definer w) (c : ClassId) (n : Nat) :
    Derives definer w (deriveArray w c n).1 := by
  induction n generalizing w c definer with
  | zero => exact ⟨⟨definer, h, .refl _ _⟩, rfl, rfl, rfl, rfl, rfl, rfl⟩
  | succ n ih =>
    have h₁ := h.getOrCreateArrayClassdesc c
    obtain ⟨definer₁, hp₁, hext₁⟩ := h₁.pools
    have h₂ := ih hp₁ (Loading.getOrCreateArrayClassdesc w c).2
    obtain ⟨definer₂, hp₂, hext₂⟩ := h₂.pools
    exact ⟨⟨definer₂, hp₂, hext₁.trans hext₂⟩, h₂.thread.trans h₁.thread,
      h₂.initiating.trans h₁.initiating, h₂.bound.trans h₁.bound,
      h₂.leftChain.trans h₁.leftChain, h₂.parent.trans h₁.parent,
      h₂.loaderCount.trans h₁.loaderCount⟩

/-- Recording initiating loaders changes the tables only. -/
theorem recordInitiating_eq (name : Name) (c : ClassId) (target : Option LoaderId) (fuel : Nat)
    (curr : Option LoaderId) (w : World) : ∃ initiating bound leftChain,
      recordInitiating name c target fuel curr w =
        { w with initiating := initiating, bound := bound, leftChain := leftChain } := by
  induction fuel generalizing curr w with
  | zero =>
    cases curr <;> unfold recordInitiating
    · split_ifs
      · exact ⟨_, _, _, rfl⟩
      · exact ⟨_, _, _, rfl⟩
    · exact ⟨_, _, _, rfl⟩
  | succ fuel ih =>
    cases curr with
    | none =>
      unfold recordInitiating
      split_ifs
      · exact ⟨_, _, _, rfl⟩
      · exact ⟨_, _, _, rfl⟩
    | some curr =>
      unfold recordInitiating
      split_ifs
      · exact ⟨_, _, _, rfl⟩
      · obtain ⟨i, b, l, heq⟩ := ih (w.parent curr) (w.bind curr name c)
        exact ⟨i, b, l, heq⟩

theorem LooksUp.unique {cl cl' : LoaderId} {name name' : Name} {call : Activation}
    (h : LooksUp cl name call) (h' : LooksUp cl' name' call) : cl = cl' ∧ name = name' := by
  cases call <;> simp only [LooksUp] at h h' <;> simp_all

theorem LooksUp.not_defines {cl : LoaderId} {name : Name} {call : Activation}
    (h : LooksUp cl name call) : ¬ DefinesBootstrap call := by
  cases call <;> simp only [LooksUp] at h <;> exact fun h' => h'

theorem LooksUp.ne_frame {cl : LoaderId} {name : Name} {call : Activation}
    (h : LooksUp cl name call) (c : ClassId) : call ≠ .frame c := by
  rintro rfl
  exact h

/-- A lookup returns to the call that waits for it. -/
theorem ThreadOk.got_of_lookup {call : Activation} {cl : LoaderId} {name : Name}
    {r : Option ClassId} (h : ThreadOk definer w th) (hcontrol : th.control = call :: rest)
    (hlook : LooksUp cl name call) (hmem : (cl, name, r) ∈ w.answered) : Got w rest (some r) := by
  rcases rest with - | ⟨caller, rest⟩
  · trivial
  have hcaller := h.caller hcontrol caller rfl
  cases caller with
  | awaitLookup request =>
    obtain ⟨cl', name', hcl, hname, hlook'⟩ := hcaller
    obtain ⟨rfl, rfl⟩ := hlook.unique hlook'
    exact ⟨cl, name, hcl, hname, hmem⟩
  | awaitLoad =>
    simp only [Calls] at hcaller
    split_ifs at hcaller
    · exact absurd hcaller hlook.not_defines
    · obtain ⟨c, hc⟩ := hcaller
      exact absurd hc (hlook.ne_frame c)
  | _ => trivial

/-- A definition that goes on is called by the same call. -/
theorem Calls.definition {callee caller : Activation} {cl : LoaderId} {chars : Name}
    {todo : List Nat} (h : Calls w callee caller)
    (hcall : (∃ chars file, callee = .defineClass cl chars file) ∨
      ∃ chars c todo, callee = .resolveSupers cl chars c todo) :
    Calls w (.resolveSupers cl chars c todo) caller := by
  cases caller with
  | awaitLookup request =>
    obtain ⟨_, _, _, _, hlook⟩ := h
    rcases hcall with ⟨_, _, rfl⟩ | ⟨_, _, _, rfl⟩ <;> exact hlook.elim
  | awaitLoad =>
    simp only [Calls] at h ⊢
    split_ifs at h ⊢
    · rcases hcall with ⟨_, _, rfl⟩ | ⟨_, _, _, rfl⟩ <;> exact h
    · obtain ⟨c, hc⟩ := h
      rcases hcall with ⟨_, _, rfl⟩ | ⟨_, _, _, rfl⟩ <;> cases hc
  | _ => trivial

/-- A definition returns to the call that waits for it. -/
theorem ThreadOk.got_of_definition {call : Activation} {cl : LoaderId} {r : Option ClassId}
    (h : ThreadOk definer w th) (hcontrol : th.control = call :: rest)
    (hcall : (∃ chars file, call = .defineClass cl chars file) ∨
      ∃ chars c todo, call = .resolveSupers cl chars c todo)
    (hr : ∀ c, r = some c → Published w c ∧ (w.classes c).classloader = some cl) :
    Got w rest (some r) := by
  rcases rest with - | ⟨caller, rest⟩
  · trivial
  have hcaller := h.caller hcontrol caller rfl
  cases caller with
  | awaitLookup request =>
    obtain ⟨cl', name', -, -, hlook⟩ := hcaller
    rcases hcall with ⟨chars, file, rfl⟩ | ⟨chars, c, todo, rfl⟩ <;> exact hlook.elim
  | awaitLoad cl' =>
    simp only [Calls] at hcaller
    split_ifs at hcaller with hcl
    · have heq : cl = cl' := by
        rcases hcall with ⟨chars, file, rfl⟩ | ⟨chars, c, todo, rfl⟩ <;> rw [hcl] <;> exact hcaller
      rcases r with - | c
      · trivial
      · exact ⟨(hr c rfl).1, fun h => by rw [(hr c rfl).2, heq, h]⟩
    · obtain ⟨c, hc⟩ := hcaller
      rcases hcall with ⟨chars, file, rfl⟩ | ⟨chars, c, todo, rfl⟩ <;> cases hc
  | _ => trivial

/-! ### The calls -/

/-- A request for an entry of a class that exists, to the loader that its origin gives. -/
structure RequestOk (definer : ClassId → LoaderId) (w : World) (r : Request) : Prop where
  loader : ∃ cl, r.loader = some cl ∧ cl < w.loaderCount
  owner : r.owner < w.classCount
  byNative : ∀ fn, r.origin = .native fn →
    r.loader = some bootstrapClassloader ∧ (w.classes r.owner).classloader.isSome
  byClass : (∀ fn, r.origin ≠ .native fn) → r.loader = some (definer r.owner)

namespace LoadingInv

variable {call : Activation} {cl : LoaderId} {name classname chars : Name} {raise : Bool}

theorem lookupFound (h : LoadingInv definer w) (hcontrol : (w.thread t).control = call :: rest)
    (hlook : LooksUp cl name call) (c : ClassId) (n : Nat) :
    ∃ definer', LoadingInv definer' (lookupFound w t rest cl name c n) := by
  have hd := h.pools.deriveArray c n
  obtain ⟨definer', hp, hext⟩ := hd.pools
  have h' := (h.of_extends hext hp hd.thread).answer cl name (some (deriveArray w c n).2)
  have hcontrol' : (((deriveArray w c n).1.answer cl name
      (some (deriveArray w c n).2)).thread t).control = call :: rest := by
    rw [← hcontrol, ← hd.thread]
    rfl
  exact ⟨definer', h'.setThread ((h'.threads t).pop hcontrol'
    ((h'.threads t).got_of_lookup hcontrol' hlook List.mem_cons_self))⟩

theorem lookupFailed (h : LoadingInv definer w) (hcontrol : (w.thread t).control = call :: rest)
    (hlook : LooksUp cl name call)
    (hstep : lookupFailed w t rest cl name classname raise = some w') : LoadingInv definer w' := by
  have h' := h.answer cl name none
  have hgot := (h'.threads t).got_of_lookup hcontrol hlook List.mem_cons_self
  unfold Loading.lookupFailed at hstep
  simp only [] at hstep
  split_ifs at hstep <;> simp only [Option.some.injEq] at hstep <;> subst hstep <;>
    exact h'.setThread ((h'.threads t).pop hcontrol hgot)

theorem lookupClass {classpath : Name → Option (Except Name ClassFile)}
    (h : LoadingInv definer w) (hcontrol : (w.thread t).control = .lookupClass cl name raise :: rest)
    (hstep : lookupClass classpath w t rest cl name raise = some w') :
    ∃ definer', LoadingInv definer' w' := by
  have hlook : LooksUp cl name (.lookupClass cl name raise) := ⟨rfl, rfl⟩
  unfold Loading.lookupClass at hstep
  split at hstep
  · rw [Option.map_eq_some_iff] at hstep
    obtain ⟨k, -, rfl⟩ := hstep
    exact h.lookupFound hcontrol hlook k _
  · rename_i dimensions classname _
    split at hstep
    · cases hstep
      exact h.lookupFound hcontrol hlook _ _
    · have h' : LoadingInv definer (w.setInchoate classname true) := h.of_tables _ _ _ _ _
      have hcl : cl < w.loaderCount := (h.threads t).head_ok hcontrol
      have hcaller : ∀ caller ∈ rest.head?, Calls w
          (.awaitLoad cl name classname raise (some dimensions)) caller := by
        intro caller hmem
        have := (h.threads t).caller hcontrol caller hmem
        cases caller <;> try trivial
        case awaitLoad =>
          simp only [Calls] at this
          split_ifs at this
          · exact this.elim
          · obtain ⟨c, hc⟩ := this
            cases hc
      simp only [] at hstep
      split_ifs at hstep with hboot
      · split at hstep
        · cases hstep
          exact ⟨definer, h'.setThread ((h'.threads t).replace hcontrol hcl hcaller trivial)⟩
        · cases hstep
          refine ⟨definer, h'.setThread ?_⟩
          have hawait : ThreadOk definer (w.setInchoate classname true)
              { control := .awaitLoad cl name classname raise (some dimensions) :: rest
                returned := some none, exception := none } :=
            (h'.threads t).replace hcontrol hcl hcaller trivial
          refine ThreadOk.push hawait.calls hawait.chain (hboot ▸ hcl) (fun caller hmem => ?_) trivial
          cases hmem
          simp only [Calls]
          rw [if_pos hboot]
          rfl
      · cases hstep
        exact ⟨definer, h'.setThread ((h'.threads t).replace hcontrol hcl hcaller hboot)⟩

theorem lookupResume {dimensions : Option Nat} {returned : Option ClassId}
    {junk : Nat × Option ClassId} (h : LoadingInv definer w)
    (hcontrol : (w.thread t).control = .awaitLoad cl name classname raise dimensions :: rest)
    (hstep : lookupResume w t rest cl name classname raise dimensions returned junk = some w') :
    ∃ definer', LoadingInv definer' w' := by
  have hlook : LooksUp cl name (.awaitLoad cl name classname raise dimensions) := ⟨rfl, rfl⟩
  have h' : LoadingInv definer (w.setInchoate classname false) := h.of_tables _ _ _ _ _
  unfold Loading.lookupResume at hstep
  simp only [] at hstep
  generalize (if cl ≠ bootstrapClassloader ∧ (w.thread t).exception ≠ none then
    (if dimensions = none then junk.2 else none) else returned) = found at hstep
  cases found with
  | none => exact ⟨definer, h'.lookupFailed hcontrol hlook hstep⟩
  | some c =>
    simp only [Option.some.injEq] at hstep
    subst hstep
    obtain ⟨i, b, l, heq⟩ := recordInitiating_eq classname c
      ((w.setInchoate classname false).classes c).classloader
      ((w.setInchoate classname false).loaderCount + 1) (some cl) (w.setInchoate classname false)
    rw [heq]
    have h'' := h'.of_tables (w.setInchoate classname false).loaded i
      (w.setInchoate classname false).inchoate l b
    exact h''.lookupFound hcontrol hlook c _

theorem resolveClassImpl {calls : List Activation} {request : Request} (h : LoadingInv definer w)
    (hcontrol : (w.thread t).control = calls) (hfree : Free calls)
    (hreq : RequestOk definer w request)
    (hstep : resolveClassImpl w t calls request = some w') : LoadingInv definer w' := by
  unfold Loading.resolveClassImpl at hstep
  rw [Option.map_eq_some_iff] at hstep
  obtain ⟨info, hinfo, hw'⟩ := hstep
  have hok := h.threads t
  obtain ⟨cl, hcl, hlt⟩ := hreq.loader
  split at hw'
  · subst hw'
    exact h.setThread ⟨hcontrol ▸ hok.calls, hcontrol ▸ hok.chain, hfree.got _⟩
  · subst hw'
    exact h.setThread ⟨hcontrol ▸ hok.calls, hcontrol ▸ hok.chain, hfree.got _⟩
  · simp_all
  · rename_i cl' _ _ hcl'
    obtain rfl : cl' = cl := by simpa [hcl'] using hcl
    subst hw'
    have hext : Extends definer definer w { w with asked := request :: w.asked } :=
      extends_of_same rfl le_rfl (fun _ => rfl) (fun _ => rfl) (fun _ _ => rfl)
        (fun _ h => List.mem_cons_of_mem _ h) fun _ h => h
    have hp : PoolsOk definer { w with asked := request :: w.asked } := by
      refine ⟨h.pools.loader, fun r hr => ?_, fun r hr => ?_, fun r hr => ?_, fun hi hd => ?_⟩
      · rcases List.mem_cons.mp hr with rfl | hr
        · exact hreq.owner
        · exact h.pools.owner r hr
      · rcases List.mem_cons.mp hr with rfl | hr
        · exact hreq.byNative
        · exact h.pools.byNative r hr
      · rcases List.mem_cons.mp hr with rfl | hr
        · exact hreq.byClass
        · exact h.pools.byClass r hr
      · refine (h.pools.cached hi hd).imp_right ?_
        rintro ⟨r, hr, hrest⟩
        exact ⟨r, List.mem_cons_of_mem _ hr, hrest⟩
    have h' := h.of_extends hext hp rfl
    have hok' := h'.threads t
    refine h'.setThread ⟨fun call hmem => ?_, ?_, trivial⟩
    · rcases List.mem_cons.mp hmem with rfl | hmem
      · exact hlt
      · rcases List.mem_cons.mp hmem with rfl | hmem
        · exact List.mem_cons_self
        · exact hok'.calls call (hcontrol ▸ hmem)
    · refine List.isChain_cons_cons.mpr ⟨⟨cl', info.name, hcl', ?_, rfl, rfl⟩,
        List.isChain_cons.mpr ⟨hfree.calls _, hcontrol ▸ hok'.chain⟩⟩
      exact congrArg (Option.map (·.name)) hinfo

theorem resolveResume {request : Request} {returned : Option ClassId} (h : LoadingInv definer w)
    (hcontrol : (w.thread t).control = .awaitLookup request :: rest)
    (hreturned : (w.thread t).returned = some returned)
    (hstep : resolveResume w t rest request returned = some w') : LoadingInv definer w' := by
  have hok := h.threads t
  have hgot := hok.got
  rw [hcontrol, hreturned] at hgot
  obtain ⟨cl, name, hcl, hname, hmem⟩ := hgot
  have hfree : Free rest := hok.free hcontrol (fun _ _ h => h) (fun h => h) nofun
  unfold Loading.resolveResume at hstep
  rw [Option.map_eq_some_iff] at hstep
  obtain ⟨info, hinfo, rfl⟩ := hstep
  rw [hinfo] at hname
  obtain rfl : info.name = name := by simpa using hname
  have hset := h.pools.setInfo (x := info.settle returned (w.thread t).exception) hinfo
    (by cases returned <;> rfl) (by
      intro d hd
      cases returned with
      | none => cases hd
      | some c =>
        obtain rfl : c = d := Option.some.inj hd
        exact Or.inr ⟨request, hok.head_ok hcontrol, rfl, rfl, cl, hcl, hmem⟩)
  have h' := h.of_extends hset.2 hset.1 rfl
  exact h'.setThread ((h'.threads t).pop hcontrol (hfree.got _))

theorem defineClass {file : Except Name ClassFile} (h : LoadingInv definer w)
    (hcontrol : (w.thread t).control = .defineClass cl chars file :: rest) :
    ∃ definer', LoadingInv definer' (defineClass w t rest cl chars file) := by
  have hok := h.threads t
  have hgot : Got w rest (some none) := hok.got_of_definition hcontrol (Or.inl ⟨_, _, rfl⟩) (by simp)
  have hcl : cl < w.loaderCount := hok.head_ok hcontrol
  unfold Loading.defineClass
  split
  · exact ⟨definer, h.setThread (hok.pop hcontrol hgot)⟩
  · exact ⟨definer, h.setThread (hok.pop hcontrol hgot)⟩
  · rename_i file _
    have hext : Extends definer (Function.update definer w.classCount cl) w
        (w.allocate file.classdesc) := extends_allocate w file.classdesc cl
    have hp : PoolsOk (Function.update definer w.classCount cl) (w.allocate file.classdesc) := by
      refine h.pools.allocate (fun l hl => by cases hl) fun info hinfo => ?_
      unfold ClassFile.classdesc at hinfo
      simp only [List.mem_map] at hinfo
      obtain ⟨name, -, rfl⟩ := hinfo
      rfl
    have h' := h.of_extends hext hp rfl
    refine ⟨_, h'.setThread ((h'.threads t).replace hcontrol ?_ (fun caller hmem => ?_) trivial)⟩
    · refine ⟨hcl, Nat.lt_succ_self _, ?_⟩
      simp
    · exact ((h'.threads t).caller hcontrol caller hmem).definition (Or.inl ⟨_, _, rfl⟩)

/-- A definition that goes on. -/
theorem replace_resolveSupers {todo todo' : List Nat} (h : LoadingInv definer w)
    (hcontrol : (w.thread t).control = .resolveSupers cl chars c todo :: rest) :
    LoadingInv definer (w.proceed t (.resolveSupers cl chars c todo' :: rest)) := by
  have hok := h.threads t
  have hcall : CallOk definer w (.resolveSupers cl chars c todo) := hok.head_ok hcontrol
  refine h.setThread (hok.replace hcontrol hcall (fun caller hmem => ?_) trivial)
  exact (hok.caller hcontrol caller hmem).definition (Or.inr ⟨_, _, _, rfl⟩)

theorem defineNext {todo : List Nat} (h : LoadingInv definer w)
    (hcontrol : (w.thread t).control = .resolveSupers cl chars c todo :: rest)
    (hstep : defineNext w t rest cl chars c todo = some w') : LoadingInv definer w' := by
  have hok := h.threads t
  obtain ⟨hcl, hc, hd⟩ := hok.head_ok hcontrol
  have hcall : (∃ chars' file, Activation.resolveSupers cl chars c todo =
      .defineClass cl chars' file) ∨ ∃ chars' c' todo', Activation.resolveSupers cl chars c todo =
      .resolveSupers cl chars' c' todo' := Or.inr ⟨_, _, _, rfl⟩
  cases todo with
  | nil =>
    unfold Loading.defineNext at hstep
    simp only [Option.some.injEq] at hstep
    subst hstep
    obtain ⟨hp, hext⟩ := h.pools.publish hd hcl
    have h₁ := h.of_extends hext hp rfl
    set w₁ := w.setClass c ((w.classes c).publish c cl) with hw₁
    have h₂ : LoadingInv definer ((w₁.load cl chars c).bind cl chars c) := h₁.of_tables _ _ _ _ _
    refine h₂.setThread ((h₂.threads t).pop hcontrol
      ((h₂.threads t).got_of_definition hcontrol hcall ?_))
    intro d hd'
    obtain rfl : c = d := Option.some.inj hd'
    have hcls : (((w₁.load cl chars c).bind cl chars c).classes c).classloader = some cl := by
      show (w₁.classes c).classloader = some cl
      rw [hw₁]
      unfold World.setClass Classdesc.publish
      simp
    exact ⟨⟨hc, by rw [hcls]; rfl⟩, hcls⟩
  | cons i todo =>
    unfold Loading.defineNext at hstep
    rw [Option.bind_eq_some_iff] at hstep
    obtain ⟨info, -, hstep⟩ := hstep
    split_ifs at hstep
    · cases hstep
      exact h.setThread (hok.pop hcontrol (hok.got_of_definition hcontrol hcall (by simp)))
    · refine h.resolveClassImpl hcontrol trivial ⟨⟨cl, rfl, hcl⟩, hc, ?_, ?_⟩ hstep
      · intro fn hfn
        cases hfn
      · exact fun _ => congrArg some hd.symm

theorem defineResume {todo : List Nat} {returned : Option ClassId} (h : LoadingInv definer w)
    (hcontrol : (w.thread t).control = .resolveSupers cl chars c todo :: rest)
    (hstep : defineResume w t rest cl chars c returned todo = some w') : LoadingInv definer w' := by
  have hok := h.threads t
  have hgot : Got w rest (some none) :=
    hok.got_of_definition hcontrol (Or.inr ⟨_, _, _, rfl⟩) (by simp)
  cases todo with
  | nil => cases hstep
  | cons i todo =>
    unfold Loading.defineResume at hstep
    rw [Option.map_eq_some_iff] at hstep
    obtain ⟨info, -, rfl⟩ := hstep
    split
    · exact h.setThread (hok.pop hcontrol hgot)
    · split_ifs
      · exact h.replace_resolveSupers hcontrol
      · exact h.setThread (hok.pop hcontrol hgot)

theorem advance {classpath : Name → Option (Except Name ClassFile)}
    {junk : Nat × Option ClassId} (h : LoadingInv definer w)
    (hstep : advance classpath w t junk = some w') : ∃ definer', LoadingInv definer' w' := by
  have hok := h.threads t
  unfold Loading.advance at hstep
  split at hstep
  · rename_i hcontrol _
    exact h.lookupClass hcontrol hstep
  · rename_i hcontrol _
    exact h.lookupResume hcontrol hstep
  · rename_i hcontrol hreturned
    exact ⟨definer, h.resolveResume hcontrol hreturned hstep⟩
  · rename_i hcontrol _
    cases hstep
    exact h.defineClass hcontrol
  · rename_i hcontrol _
    exact ⟨definer, h.defineNext hcontrol hstep⟩
  · rename_i hcontrol _
    exact ⟨definer, h.defineResume hcontrol hstep⟩
  · rename_i fn desc i todo rest hcontrol _
    have hpub : Published w desc := hok.head_ok hcontrol
    obtain ⟨l, hl⟩ := Option.isSome_iff_exists.mp hpub.2
    refine ⟨definer, h.resolveClassImpl hcontrol trivial ⟨⟨bootstrapClassloader, rfl, ?_⟩, hpub.1,
      fun _ _ => ⟨rfl, hpub.2⟩, fun hfn => absurd rfl (hfn fn)⟩ hstep⟩
    exact (Nat.zero_le _).trans_lt (h.pools.loader hl).2
  · rename_i fn desc i todo rest returned hcontrol _
    have hfree : Free rest := hok.free hcontrol (fun _ _ h => h) (fun h => h) nofun
    have hpub : Published w desc := hok.head_ok hcontrol
    split_ifs at hstep
    · cases hstep
      exact ⟨definer, h.setThread (hok.pop hcontrol (hfree.got _))⟩
    · cases hstep
      exact ⟨definer, h.setThread (hok.replace hcontrol hpub (hfree.calls _) trivial)⟩
  · rename_i rest hcontrol _
    have hfree : Free rest := hok.free hcontrol (fun _ _ h => h) (fun h => h) nofun
    cases hstep
    exact ⟨definer, h.setThread (hok.pop hcontrol (hfree.got _))⟩
  · cases hstep

/-- A thread that runs user code makes a call. -/
theorem proceed (h : LoadingInv definer w) (huser : userCode (w.thread t).control)
    (hcall : CallOk definer w call) (hgot : Got w (call :: (w.thread t).control) none) :
    LoadingInv definer (w.proceed t (call :: (w.thread t).control)) :=
  h.setThread (.push (h.threads t).calls (h.threads t).chain hcall ((free_of_userCode huser).calls _) hgot)

theorem register (h : LoadingInv definer w) (parent : LoaderId) :
    LoadingInv definer (w.register parent) :=
  h.of_extends (extends_of_same rfl (Nat.le_succ _) (fun _ => rfl) (fun _ => rfl) (fun _ _ => rfl)
      (fun _ h => h) fun _ h => h)
    (h.pools.congr le_rfl (Nat.le_succ _) (fun _ => rfl) (fun _ => rfl) (fun _ _ => rfl) rfl
      fun _ h => h)
    rfl

/-- The locals of a lookup do not matter to the invariant. -/
theorem suspend (h : LoadingInv definer w)
    (hcontrol : (w.thread t).control = .frame c :: rest) :
    LoadingInv definer
      (w.setThread t { w.thread t with control := (w.thread t).control.map loseLocals }) := by
  have hok := h.threads t
  refine h.setThread ⟨fun call hmem => ?_, (List.isChain_map loseLocals).mpr (hok.chain.imp ?_), ?_⟩
  · obtain ⟨call', hmem', rfl⟩ := List.mem_map.mp hmem
    have hcall := hok.calls call' hmem'
    cases call' <;> exact hcall
  · intro callee caller hcalls
    cases caller with
    | awaitLookup request =>
      obtain ⟨cl, name, hcl, hname, hlook⟩ := hcalls
      refine ⟨cl, name, hcl, hname, ?_⟩
      cases callee <;> exact hlook
    | awaitLoad =>
      simp only [Calls, loseLocals] at hcalls ⊢
      split_ifs at hcalls ⊢
      · cases callee <;> exact hcalls
      · obtain ⟨c, rfl⟩ := hcalls
        exact ⟨c, rfl⟩
    | _ => trivial
  · rw [hcontrol]
    trivial

/-- A method is called, by user code or by `lookup_class`. -/
theorem invoke (h : LoadingInv definer w) (hpub : Published w c)
    (hmay : mayInvoke (w.thread t)) :
    LoadingInv definer (w.proceed t (.frame c :: (w.thread t).control)) := by
  have hok := h.threads t
  refine h.setThread (.push hok.calls hok.chain hpub (fun caller hcaller => ?_) trivial)
  unfold mayInvoke at hmay
  split at hmay
  · rename_i hcontrol hreturned
    have hgot := hok.got
    rw [hcontrol, hreturned] at hgot
    rw [hcontrol] at hcaller
    cases hcaller
    simp only [Calls]
    rw [if_neg hgot]
    exact ⟨c, rfl⟩
  · exact (free_of_userCode hmay).calls _ caller hcaller

/-- A method returns. -/
theorem returns {value : Option ClassId} {exception : Option Exception} (h : LoadingInv definer w)
    (hcontrol : (w.thread t).control = .frame c :: rest) (hvalue : ∀ d ∈ value, Published w d) :
    LoadingInv definer
      (w.setThread t { control := rest, returned := some value, exception := exception }) := by
  have hok := h.threads t
  refine h.setThread (hok.pop hcontrol ?_)
  rcases rest with - | ⟨caller, rest⟩
  · trivial
  have hcaller := hok.caller hcontrol caller rfl
  cases caller with
  | awaitLookup request =>
    obtain ⟨_, _, _, _, hlook⟩ := hcaller
    exact hlook.elim
  | awaitLoad cl =>
    simp only [Calls] at hcaller
    rcases value with - | d
    · trivial
    · split_ifs at hcaller with hcl
      · exact hcaller.elim
      · exact ⟨hvalue d rfl, fun h => absurd h hcl⟩
  | _ => trivial

/-- A lookup ends before its load. -/
theorem outOfMemory {dimensions : Option Nat} {exception : Option Exception}
    (h : LoadingInv definer w)
    (hcontrol : (w.thread t).control = .awaitLoad cl name classname raise dimensions :: rest) :
    LoadingInv definer ((w.answer cl name none).setThread t
      { control := rest, returned := some none, exception }) := by
  have h' := h.answer cl name none
  have hgot := (h'.threads t).got_of_lookup hcontrol ⟨rfl, rfl⟩ List.mem_cons_self
  exact h'.setThread ((h'.threads t).pop hcontrol hgot)

/-- What a step keeps. -/
theorem step {classpath : Name → Option (Except Name ClassFile)} {e : Event}
    (h : LoadingInv definer w) (hstep : step classpath w t e = some w') :
    ∃ definer', LoadingInv definer' w' := by
  have hok := h.threads t
  cases e with
  | advance junk => exact h.advance hstep
  | resolveClass index =>
    simp only [Loading.step] at hstep
    split at hstep
    · rename_i cd rest hcontrol
      have hpub : Published w cd := hok.head_ok hcontrol
      obtain ⟨l, hl⟩ := Option.isSome_iff_exists.mp hpub.2
      obtain ⟨rfl, hlt⟩ := h.pools.loader hl
      exact ⟨definer, h.resolveClassImpl hcontrol trivial
        ⟨⟨_, hl, hlt⟩, hpub.1, fun fn hfn => (by cases hfn), fun _ => hl⟩ hstep⟩
    · cases hstep
  | returns value exception =>
    simp only [Loading.step] at hstep
    split at hstep
    · rename_i hcontrol
      split_ifs at hstep with hvalue
      cases hstep
      exact ⟨definer, h.returns hcontrol hvalue⟩
    · cases hstep
  | catches =>
    simp only [Loading.step] at hstep
    split at hstep
    · cases hstep
      exact ⟨definer, h.setThread ⟨hok.calls, hok.chain, hok.got⟩⟩
    · cases hstep
  | suspend =>
    simp only [Loading.step] at hstep
    split at hstep
    · rename_i hcontrol
      split_ifs at hstep
      cases hstep
      exact ⟨definer, hcontrol ▸ h.suspend hcontrol⟩
    · cases hstep
  | outOfMemory =>
    simp only [Loading.step] at hstep
    split at hstep
    · rename_i hcontrol _
      cases hstep
      exact ⟨definer, h.outOfMemory hcontrol⟩
    · cases hstep
  | newLoader parent =>
    simp only [Loading.step] at hstep
    split_ifs at hstep
    cases hstep
    exact ⟨definer, h.register parent⟩
  | invoke cd =>
    simp only [Loading.step] at hstep
    split_ifs at hstep with hmay
    cases hstep
    exact ⟨definer, h.invoke hmay.1 hmay.2⟩
  | classNative fn desc =>
    simp only [Loading.step] at hstep
    split_ifs at hstep with hmay
    cases hstep
    exact ⟨definer, h.proceed hmay.2 hmay.1 trivial⟩
  | lookupClass cl name raise =>
    simp only [Loading.step] at hstep
    split_ifs at hstep with hmay
    cases hstep
    exact ⟨definer, h.proceed hmay.2 hmay.1 trivial⟩
  | defineClass cl chars file =>
    simp only [Loading.step] at hstep
    split_ifs at hstep with hmay
    cases hstep
    exact ⟨definer, h.proceed hmay.2 hmay.1 trivial⟩

theorem start : LoadingInv (fun _ => bootstrapClassloader) World.start where
  pools := by
    refine ⟨fun {c l} hl => ?_, fun r hr => ?_, fun r hr => ?_, fun r hr => ?_,
      fun {c i info d} hi hd => ?_⟩
    · unfold World.start at hl
      simp only [] at hl
      split at hl
      · obtain rfl : bootstrapClassloader = l := Option.some.inj hl
        exact ⟨rfl, Nat.zero_lt_one⟩
      · cases hl
    · exact absurd hr List.not_mem_nil
    · exact absurd hr List.not_mem_nil
    · exact absurd hr List.not_mem_nil
    · unfold World.info World.start at hi
      simp only [] at hi
      split at hi <;> cases hi
  threads _ := ⟨fun _ h => absurd h List.not_mem_nil, .nil, trivial⟩

end LoadingInv

theorem run_stepAll {classpath : Name → Option (Except Name ClassFile)}
    {events : List (ThreadId × Event)} (h : Run classpath (fun _ _ _ _ => True) w)
    (hall : stepAll classpath w events = some w') : Run classpath (fun _ _ _ _ => True) w' := by
  induction events generalizing w with
  | nil =>
    cases hall
    exact h
  | cons te events ih =>
    unfold stepAll at hall
    rw [Option.bind_eq_some_iff] at hall
    obtain ⟨w₁, hstep, hall⟩ := hall
    exact ih (h.step te.1 hstep trivial) hall

/-- The invariant holds in every reachable state. -/
theorem loadingInv_of_run {classpath : Name → Option (Except Name ClassFile)}
    {P : ThreadId → World → Event → World → Prop} (h : Run classpath P w) :
    ∃ definer, LoadingInv definer w := by
  induction h with
  | start => exact ⟨_, .start⟩
  | step t _ hstep _ ih =>
    obtain ⟨definer, ih⟩ := ih
    exact ih.step hstep

end BJvm.Loading
