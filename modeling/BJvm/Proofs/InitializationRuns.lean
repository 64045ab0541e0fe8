import Mathlib.Data.List.Chain
import BJvm.Linkage.Initialization
import BJvm.Proofs.LinkEffects

/-!
# Runs of class initialization

A class is being initialized by one thread from the step that finds it linked to the end of that
thread's call, and exactly the classes that a thread is initializing have a call of it.  When a call
goes on behind its superclass the superclass is finished, or a caller is at it.
-/

namespace BJvm.Initialization

open Linker (State StatesKept SupersNotLoaded)

variable {classes : Classes} {strict : Prop} {w₀ w w' : World} {t t' : ThreadId} {n m s : Nat}
  {env : Env} {c c' : Activation} {calls rest post : List Activation} {error : Bool}

/-! ### The invariant -/

/-- The classes that the calls have begun to initialize. -/
def active (calls : List Activation) : List Nat := calls.filterMap Activation.initializing

/-- The class that a call of `initialize_class` is about. -/
def Activation.target : Activation → Option Nat
  | .user => none
  | .initializeClass n | .awaitInitialized n | .awaitSuper n | .awaitInterface n _
  | .awaitClinit n _ => some n

/-- What the caller waits for is the callee. -/
def Calls (classes : Classes) (callee : Activation) : Activation → Prop
  | .awaitSuper n => ∃ s, classes.superClass n = some s ∧ callee.target = some s
  | .awaitInterface n i => ∃ m, (classes.interfaces n)[i]? = some m ∧ callee.target = some m
  | .awaitClinit _ _ => callee = .user
  | _ => True

/-- The call has not got to `<clinit>` yet. -/
def BeforeClinit (n : Nat) (call : Activation) : Prop :=
  call = .awaitSuper n ∨ ∃ i, call = .awaitInterface n i

/-- The class is finished, when `strict` without a failure, or one of the callers is at it. -/
def Ready (strict : Prop) (w : World) (callers : List Activation) (s : Nat) : Prop :=
  (s ∈ w.finished ∧ (strict → w.state s = .initialized)) ∨ s ∈ active callers

/-- The superclass of each class whose interfaces are being initialized is ready. -/
def Ordered (classes : Classes) (strict : Prop) (w : World) : List Activation → Prop
  | [] => True
  | c :: rest =>
    (∀ n i s, c = .awaitInterface n i → classes.superClass n = some s → Ready strict w rest s) ∧
      Ordered classes strict w rest

/-- The super that the call waits for and must find ready. -/
def Awaits (classes : Classes) (strict : Prop) : Activation → Nat → Prop
  | .awaitSuper n, s => classes.superClass n = some s
  | .awaitInterface n i, m => strict ∧ (classes.interfaces n)[i]? = some m
  | _, _ => False

/-- Classes and their history; when `strict`, failures are recorded and reported. -/
structure HistoryOk (classes : Classes) (strict : Prop) (w : World) : Prop where
  once : ∀ n, (w.starts.filter (·.cls = n)).length ≤ 1
  started : ∀ x ∈ w.starts, w.state x.cls ≠ .loaded ∧ w.state x.cls ≠ .linked
  superFirst : ∀ x ∈ w.starts, x.superReady = true
  waits : ∀ r ∈ w.returns, r.inProgress = false
  finished : ∀ n, w.state n = .initialized → n ∈ w.finished
  ended : ∀ n ∈ w.finished, w.state n = .initialized ∨ w.state n = .linkageError
  supers : SupersNotLoaded classes.toClasses w.linker
  failed : strict → ∀ n ∈ w.failed, w.state n = .linkageError
  reported : strict → ∀ r ∈ w.returns, r.failed = true → r.pending = true
  superSound : strict → ∀ x ∈ w.starts, x.superFailed = false

/-- What holds when `calls` are the calls of the threads. -/
structure CallsOk (classes : Classes) (strict : Prop) (w : World)
    (calls : ThreadId → List Activation) : Prop where
  owned : ∀ t n, n ∈ active (calls t) ↔ w.state n = .initializing ∧ w.initializingThread n = some t
  known : ∀ n, w.state n = .initializing → ∃ t, w.initializingThread n = some t
  nodup : ∀ t, (active (calls t)).Nodup
  chain : ∀ t, (calls t).IsChain (Calls classes)
  notStarted : ∀ t n, ∀ c ∈ calls t, BeforeClinit n c → ∀ x ∈ w.starts, x.cls ≠ n
  begun : ∀ t n, .awaitInitialized n ∈ calls t → w.state n = .initializing ∨ n ∈ w.finished
  ordered : ∀ t, Ordered classes strict w (calls t)
  history : HistoryOk classes strict w

/-- What holds of the call on top when its callee has returned. -/
structure TopOk (classes : Classes) (strict : Prop) (w : World) (t : ThreadId) : Prop where
  ready : ∀ c post m, (w.thread t).control = c :: post → (w.thread t).returned = some false →
    Awaits classes strict c m → Ready strict w post m
  raised : strict → ∀ c post, (w.thread t).control = c :: post → c.initializing.isSome →
    (w.thread t).returned = some true → (w.thread t).exception.isSome

structure InitInv (classes : Classes) (strict : Prop) (w : World) : Prop where
  calls : CallsOk classes strict w fun t => (w.thread t).control
  top : ∀ t, TopOk classes strict w t

/-! ### Lists of calls -/

theorem active_cons_none (h : c.initializing = none) : active (c :: rest) = active rest := by
  unfold active
  simp [h]

theorem active_cons_some (h : c.initializing = some n) :
    active (c :: rest) = n :: active rest := by
  unfold active
  simp [h]

theorem active_subset : ∀ {x : Nat}, x ∈ active rest → x ∈ active (c :: rest) := by
  intro x hx
  rcases h : c.initializing with _ | n
  · rwa [active_cons_none h]
  · rw [active_cons_some h]
    exact List.mem_cons_of_mem _ hx

theorem BeforeClinit.initializing (h : BeforeClinit n c) : c.initializing = some n := by
  rcases h with rfl | ⟨i, rfl⟩ <;> rfl

theorem BeforeClinit.mem_active (h : BeforeClinit n c) (hc : c ∈ calls) : n ∈ active calls :=
  List.mem_filterMap.mpr ⟨c, hc, h.initializing⟩

theorem Ready.mono (hf : ∀ s ∈ w.finished, s ∈ w'.finished)
    (hs : ∀ s, w.state s = .initialized → w'.state s = .initialized) (h : Ready strict w post s) :
    Ready strict w' post s := by
  rcases h with ⟨h₁, h₂⟩ | h
  · exact Or.inl ⟨hf s h₁, fun h => hs s (h₂ h)⟩
  · exact Or.inr h

theorem Ordered.mono (hf : ∀ s ∈ w.finished, s ∈ w'.finished)
    (hs : ∀ s, w.state s = .initialized → w'.state s = .initialized)
    (h : Ordered classes strict w calls) : Ordered classes strict w' calls := by
  induction calls with
  | nil => trivial
  | cons c rest ih => exact ⟨fun n i s hc hsup => (h.1 n i s hc hsup).mono hf hs, ih h.2⟩

theorem Calls.of_target (ht : c.target = c'.target) (hu : c'.target = none → c' = .user)
    {caller : Activation} (h : Calls classes c caller) : Calls classes c' caller := by
  cases caller with
  | awaitSuper n =>
    obtain ⟨s, h₁, h₂⟩ := h
    exact ⟨s, h₁, ht ▸ h₂⟩
  | awaitInterface n i =>
    obtain ⟨m, h₁, h₂⟩ := h
    exact ⟨m, h₁, ht ▸ h₂⟩
  | awaitClinit n b =>
    cases h
    exact hu ht.symm
  | _ => trivial

/-- The call on top may be replaced by another one about the same class. -/
theorem isChain_swap (h : (c :: rest).IsChain (Calls classes)) (ht : c.target = c'.target)
    (hu : c'.target = none → c' = .user) : (c' :: rest).IsChain (Calls classes) := by
  cases rest with
  | nil => exact .singleton _
  | cons caller post =>
    rw [List.isChain_cons_cons] at h ⊢
    exact ⟨h.1.of_target ht hu, h.2⟩

/-- A caller that awaits a super has called for that one. -/
theorem target_of_awaits (h : (c :: c' :: post).IsChain (Calls classes))
    (hm : Awaits classes strict c' m) : c.target = some m := by
  rw [List.isChain_cons_cons] at h
  have hcall := h.1
  cases c' with
  | awaitSuper n =>
    obtain ⟨s, h₁, h₂⟩ := hcall
    have hs : classes.superClass n = some m := hm
    rw [h₁] at hs
    rw [h₂, hs]
  | awaitInterface n i =>
    obtain ⟨s, h₁, h₂⟩ := hcall
    rw [hm.2] at h₁
    rw [h₂, h₁]
  | _ => exact absurd hm (by simp [Awaits])

/-- The caller that awaits a super is initializing another class. -/
theorem initializing_of_awaits (hm : Awaits classes strict c m) :
    ∃ k, c.initializing = some k ∧ m ≠ k ∧
      (classes.superClass k = some m ∨ m ∈ classes.interfaces k) := by
  cases c with
  | awaitSuper k =>
    have hs : classes.superClass k = some m := hm
    exact ⟨k, rfl, (classes.super_lt hs).ne, Or.inl hs⟩
  | awaitInterface k i =>
    have hi := List.mem_of_getElem? hm.2
    exact ⟨k, rfl, (classes.interface_lt hi).ne, Or.inr hi⟩
  | _ => exact absurd hm (by simp [Awaits])

/-! ### What the parts of a step do -/

/-- The calls of the threads, with `rest` for those of `t`. -/
def withCalls (w : World) (t : ThreadId) (rest : List Activation) : ThreadId → List Activation :=
  Function.update (fun t => (w.thread t).control) t rest

theorem state_claim : (w.claim t n).state m = if m = n then .initializing else w.state m := by
  unfold World.claim World.state
  simp

theorem state_finish : (w.finish t n error).state m =
    if m = n then (if error then .linkageError else .initialized) else w.state m := by
  unfold World.finish World.state Linker.finishInitialization
  simp

/-- The thread `t` is in the middle of a step from `w₀`, with the calls `calls`. -/
structure Mid (classes : Classes) (strict : Prop) (w₀ w : World) (t : ThreadId)
    (calls : List Activation) : Prop where
  ok : CallsOk classes strict w (withCalls w₀ t calls)
  others : ∀ t' ≠ t, w.thread t' = w₀.thread t'
  finished : ∀ s ∈ w₀.finished, s ∈ w.finished
  initialized : ∀ s, w₀.state s = .initialized → w.state s = .initialized

/-- The invariant does not look at the threads but through their calls. -/
theorem CallsOk.setThread {calls : ThreadId → List Activation} {th : Thread}
    (h : CallsOk classes strict w calls) : CallsOk classes strict (w.setThread t th) calls :=
  ⟨h.owned, h.known, h.nodup, h.chain, h.notStarted, h.begun,
    fun t' => Ordered.mono (w := w) (fun _ h => h) (fun _ h => h) (h.ordered t'),
    ⟨h.history.once, h.history.started, h.history.superFirst, h.history.waits, h.history.finished,
      h.history.ended, h.history.supers, h.history.failed, h.history.reported,
      h.history.superSound⟩⟩

theorem withCalls_self : withCalls w t calls t = calls := Function.update_self ..

theorem withCalls_of_ne (h : t' ≠ t) : withCalls w t calls t' = (w.thread t').control :=
  Function.update_of_ne h ..

theorem mem_withCalls_of_tail {c c' : Activation} (h : c ∈ withCalls w t rest t') :
    c ∈ withCalls w t (c' :: rest) t' := by
  rcases eq_or_ne t' t with rfl | ht
  · rw [withCalls_self] at h ⊢
    exact List.mem_cons_of_mem _ h
  · rwa [withCalls_of_ne ht] at h ⊢

/-- Any other call than the first was there before. -/
theorem mem_withCalls_of_cons {c c' c'' : Activation} (h : c ∈ withCalls w t (c' :: rest) t')
    (hne : c ≠ c') : c ∈ withCalls w t (c'' :: rest) t' := by
  refine mem_withCalls_of_tail ?_
  rcases eq_or_ne t' t with rfl | ht
  · rw [withCalls_self] at h ⊢
    exact List.mem_of_ne_of_mem hne h
  · rwa [withCalls_of_ne ht] at h ⊢

namespace Mid

theorem of_inv (h : InitInv classes strict w) : Mid classes strict w w t (w.thread t).control where
  ok := by
    unfold withCalls
    rw [Function.update_eq_self]
    exact h.calls
  others _ _ := rfl
  finished _ h := h
  initialized _ h := h

theorem setThread {th : Thread} (h : Mid classes strict w₀ w t calls) :
    Mid classes strict w₀ (w.setThread t th) t calls where
  ok := h.ok.setThread
  others t' ht := by
    rw [← h.others t' ht]
    exact Function.update_of_ne ht ..
  finished := h.finished
  initialized := h.initialized

/-- The calls become `rest`, with the same classes being initialized. -/
theorem replace (h : Mid classes strict w₀ w t calls) (hactive : active rest = active calls)
    (hchain : rest.IsChain (Calls classes))
    (hbefore : ∀ n, ∀ c ∈ rest, BeforeClinit n c → ∃ c' ∈ calls, BeforeClinit n c')
    (hbegun : ∀ n, .awaitInitialized n ∈ rest → .awaitInitialized n ∈ calls ∨
      w.state n = .initializing)
    (hordered : Ordered classes strict w rest) : Mid classes strict w₀ w t rest := by
  have hself := h.ok
  have hcalls : withCalls w₀ t calls t = calls := withCalls_self
  have hkeep : ∀ {t'}, t' ≠ t → withCalls w₀ t calls t' = (w₀.thread t').control :=
    withCalls_of_ne
  refine ⟨⟨fun t' => ?_, hself.known, fun t' => ?_, fun t' => ?_, fun t' => ?_, fun t' => ?_,
    fun t' => ?_, hself.history⟩, h.others, h.finished, h.initialized⟩
  all_goals rcases eq_or_ne t' t with rfl | ht
  all_goals first
    | rw [withCalls_self]
    | rw [withCalls_of_ne ht, ← hkeep ht]
  · intro n
    rw [hactive, ← hcalls]
    exact hself.owned t' n
  · exact hself.owned t'
  · rw [hactive, ← hcalls]
    exact hself.nodup t'
  · exact hself.nodup t'
  · exact hchain
  · exact hself.chain t'
  · intro n c hc hb
    obtain ⟨c', hc', hb'⟩ := hbefore n c hc hb
    exact hself.notStarted t' n c' (by rwa [withCalls_self]) hb'
  · exact hself.notStarted t'
  · intro n hn
    rcases hbegun n hn with hn | hn
    · exact hself.begun t' n (by rwa [withCalls_self])
    · exact Or.inl hn
  · exact hself.begun t'
  · exact hordered
  · exact hself.ordered t'

/-- The step ends with the calls of the thread. -/
theorem inv (h : Mid classes strict w₀ w t calls) (h₀ : InitInv classes strict w₀)
    (hcontrol : (w.thread t).control = calls) (htop : TopOk classes strict w t) :
    InitInv classes strict w where
  calls := by
    suffices withCalls w₀ t calls = fun t => (w.thread t).control from this ▸ h.ok
    funext t'
    rcases eq_or_ne t' t with rfl | ht
    · rw [withCalls_self, hcontrol]
    · rw [withCalls_of_ne ht, h.others t' ht]
  top t' := by
    rcases eq_or_ne t' t with rfl | ht
    · exact htop
    · have h₁ := h₀.top t'
      refine ⟨fun c post m => ?_, fun hs c post => ?_⟩
      · rw [h.others t' ht]
        intro hc hr ha
        exact (h₁.ready c post m hc hr ha).mono h.finished h.initialized
      · rw [h.others t' ht]
        exact h₁.raised hs c post

/-- A call that has begun nothing is over. -/
theorem tail (h : Mid classes strict w₀ w t (c :: rest)) (hc : c.initializing = none) :
    Mid classes strict w₀ w t rest := by
  have hchain := h.ok.chain t
  have hordered := h.ok.ordered t
  rw [withCalls_self] at hchain hordered
  refine h.replace (active_cons_none hc).symm ?_ (fun n c hc hb => ⟨c, ?_, hb⟩)
    (fun n hn => Or.inl ?_) hordered.2
  · cases rest with
    | nil => exact .nil
    | cons c' post => exact (List.isChain_cons_cons.mp hchain).2
  · exact List.mem_cons_of_mem _ hc
  · exact List.mem_cons_of_mem _ hn

/-- A call that has begun nothing yet is made. -/
theorem push (h : Mid classes strict w₀ w t calls) (hc : c.initializing = none)
    (hchain : (c :: calls).IsChain (Calls classes))
    (hbegun : ∀ n, c = .awaitInitialized n → w.state n = .initializing) :
    Mid classes strict w₀ w t (c :: calls) := by
  have hordered := h.ok.ordered t
  rw [withCalls_self] at hordered
  refine h.replace (active_cons_none hc) hchain (fun n c' hc' hb => ?_) (fun n hn => ?_)
    ⟨?_, hordered⟩
  · rcases List.mem_cons.mp hc' with rfl | hmem
    · rw [hb.initializing] at hc
      cases hc
    · exact ⟨c', hmem, hb⟩
  · rcases List.mem_cons.mp hn with heq | hmem
    · exact Or.inr (hbegun n heq.symm)
    · exact Or.inl hmem
  · rintro n i s rfl
    cases hc

/-- The call on top goes on to the next interface. -/
theorem toInterface {i : Nat} (h : Mid classes strict w₀ w t (c :: rest)) (hc : BeforeClinit n c)
    (hready : ∀ s, classes.superClass n = some s → Ready strict w rest s) :
    Mid classes strict w₀ w t (.awaitInterface n i :: rest) := by
  have hchain := h.ok.chain t
  have hordered := h.ok.ordered t
  rw [withCalls_self] at hchain hordered
  refine h.replace ?_ (isChain_swap hchain ?_ ?_) (fun m c' hc' hb => ?_) (fun m hm => ?_)
    ⟨?_, hordered.2⟩
  · rw [active_cons_some hc.initializing]
    rfl
  · rcases hc with rfl | ⟨j, rfl⟩ <;> rfl
  · intro h
    cases h
  · rcases List.mem_cons.mp hc' with rfl | hmem
    · rcases hb with h | ⟨j, h⟩ <;> cases h
      exact ⟨c, List.mem_cons_self, hc⟩
    · exact ⟨c', List.mem_cons_of_mem _ hmem, hb⟩
  · rcases List.mem_cons.mp hm with h | hmem
    · cases h
    · exact Or.inl (List.mem_cons_of_mem _ hmem)
  · intro m j s h hs
    cases h
    exact hready s hs

/-- Classes are linked. -/
theorem link {linker : Linker.World} (h : Mid classes strict w₀ w t calls)
    (hstates : StatesKept w.linker linker)
    (hsupers : SupersNotLoaded classes.toClasses w.linker →
      SupersNotLoaded classes.toClasses linker) :
    Mid classes strict w₀ { w with linker := linker } t calls := by
  have hok := h.ok
  have hkept : ∀ n, w.state n ≠ .loaded →
      ({ w with linker := linker } : World).state n = w.state n := hstates.kept
  have hlinked : ∀ n, ({ w with linker := linker } : World).state n = w.state n ∨
      ({ w with linker := linker } : World).state n = .linked ∨
        ({ w with linker := linker } : World).state n = .linkageError := hstates.linked
  generalize hw' : ({ w with linker := linker } : World) = w' at hkept hlinked
  have hfin : ∀ {s}, s ∈ w.finished → s ∈ w'.finished := by
    rw [← hw']
    exact id
  have hinit : ∀ n, w.state n = .initialized → w'.state n = .initialized := fun n hn => by
    rw [hkept n (by rw [hn]; simp), hn]
  have hback : ∀ n, w'.state n = .initializing → w.state n = .initializing := fun n hn => by
    rcases hlinked n with h | h | h
    · rw [← h, hn]
    · rw [h] at hn
      cases hn
    · rw [h] at hn
      cases hn
  have hforth : ∀ n, w.state n = .initializing → w'.state n = .initializing := fun n hn => by
    rw [hkept n (by rw [hn]; simp), hn]
  have hthread : w'.initializingThread = w.initializingThread := by rw [← hw']
  have hhist := hok.history
  refine ⟨⟨fun t' n => ?_, fun n hn => ?_, hok.nodup, hok.chain, ?_, fun t' n hn => ?_,
    fun t' => (hok.ordered t').mono (fun s => hfin) hinit, ?_⟩, ?_, ?_, ?_⟩
  · rw [hok.owned, hthread]
    exact and_congr_left' ⟨hforth n, hback n⟩
  · rw [hthread]
    exact hok.known n (hback n hn)
  · rw [← hw']
    exact hok.notStarted
  · exact (hok.begun t' n hn).imp (hforth n) hfin
  · refine ⟨?_, fun x hx => ?_, ?_, ?_, fun n hn => ?_, fun n hn => ?_, ?_, fun hs n hn => ?_, ?_, ?_⟩
    · rw [← hw']
      exact hhist.once
    · obtain ⟨h₁, h₂⟩ := hhist.started x (by rwa [← hw'] at hx)
      rw [hkept _ h₁]
      exact ⟨h₁, h₂⟩
    · rw [← hw']
      exact hhist.superFirst
    · rw [← hw']
      exact hhist.waits
    · refine hfin (hhist.finished n ?_)
      rcases hlinked n with h | h | h
      · rw [← h, hn]
      · rw [h] at hn
        cases hn
      · rw [h] at hn
        cases hn
    · have hn' := hhist.ended n (by rwa [← hw'] at hn)
      rwa [hkept n (by rcases hn' with h | h <;> rw [h] <;> simp)]
    · rw [← hw']
      exact hsupers hhist.supers
    · have hn' := hhist.failed hs n (by rwa [← hw'] at hn)
      rw [hkept n (by rw [hn']; simp), hn']
    · rw [← hw']
      exact hhist.reported
    · rw [← hw']
      exact hhist.superSound
  · rw [← hw']
    exact h.others
  · intro s hs
    exact hfin (h.finished s hs)
  · intro s hs
    exact hinit s (h.initialized s hs)

/-- The thread begins to initialize a linked class. -/
theorem claim (h : Mid classes strict w₀ w t (.initializeClass n :: rest))
    (hn : w.state n = .linked) :
    Mid classes strict w₀ (w.claim t n) t (.awaitSuper n :: rest) := by
  have hok := h.ok
  have hchain := hok.chain t
  have hordered := hok.ordered t
  rw [withCalls_self] at hchain hordered
  have hother : ∀ m, w.state m ≠ .linked → (w.claim t n).state m = w.state m := fun m hm => by
    rw [state_claim, if_neg]
    rintro rfl
    exact hm hn
  have hinit : ∀ m, w.state m = .initialized → (w.claim t n).state m = .initialized :=
    fun m hm => by rw [hother m (by rw [hm]; simp), hm]
  have hmono : ∀ {calls}, Ordered classes strict w calls →
      Ordered classes strict (w.claim t n) calls := Ordered.mono (w := w) (fun _ h => h) hinit
  have hskip : active (.initializeClass n :: rest) = active rest := active_cons_none rfl
  -- the class is in the hands of this thread and of no other
  have howned : ∀ t' m, n ∉ active (withCalls w₀ t (.initializeClass n :: rest) t') ∧
      (m ≠ n → (m ∈ active (withCalls w₀ t (.initializeClass n :: rest) t') ↔
        (w.claim t n).state m = .initializing ∧ (w.claim t n).initializingThread m = some t')) :=
    fun t' m => by
      refine ⟨fun hm => ?_, fun hm => ?_⟩
      · rw [hok.owned, hn] at hm
        exact absurd hm.1 (by simp)
      · have : (w.claim t n).initializingThread m = w.initializingThread m :=
          Function.update_of_ne hm ..
        rw [hok.owned, state_claim, if_neg hm, this]
  have hself : (w.claim t n).initializingThread n = some t := Function.update_self ..
  have hnotStarted : ∀ x ∈ w.starts, x.cls ≠ n := by
    rintro x hx rfl
    exact (hok.history.started x hx).2 hn
  refine ⟨⟨fun t' m => ?_, fun m hm => ?_, fun t' => ?_, fun t' => ?_, fun t' m c hc hb => ?_,
    fun t' m hm => ?_, fun t' => ?_, ?_⟩, h.others, h.finished, fun s hs => hinit s (h.initialized s hs)⟩
  · obtain ⟨hno, hiff⟩ := howned t' m
    rcases eq_or_ne t' t with rfl | ht
    · rw [withCalls_self] at hiff ⊢
      rw [active_cons_some (n := n) rfl]
      by_cases hm : m = n
      · rw [hm, state_claim, if_pos rfl, hself]
        simp
      · rw [List.mem_cons, ← hiff hm]
        simp [hm, hskip]
    · rw [withCalls_of_ne ht] at hno hiff ⊢
      by_cases hm : m = n
      · rw [hm, hself]
        simp [hno, Ne.symm ht]
      · exact hiff hm
  · by_cases hmn : m = n
    · rw [hmn]
      exact ⟨t, hself⟩
    · rw [state_claim, if_neg hmn] at hm
      obtain ⟨t', ht'⟩ := hok.known m hm
      exact ⟨t', by rw [← ht']; exact Function.update_of_ne hmn ..⟩
  · have hnodup := hok.nodup t'
    rcases eq_or_ne t' t with rfl | ht
    · obtain ⟨hno, -⟩ := howned t' 0
      rw [withCalls_self] at hnodup hno ⊢
      rw [active_cons_none rfl] at hnodup hno
      rw [active_cons_some (n := n) rfl]
      exact List.nodup_cons.mpr ⟨hno, hnodup⟩
    · rwa [withCalls_of_ne ht] at hnodup ⊢
  · rcases eq_or_ne t' t with rfl | ht
    · rw [withCalls_self]
      exact isChain_swap hchain rfl (by intro h; cases h)
    · have := hok.chain t'
      rwa [withCalls_of_ne ht] at this ⊢
  · by_cases hnew : c = .awaitSuper n
    · subst hnew
      rcases hb with h | ⟨i, h⟩ <;> cases h
      exact hnotStarted
    · exact hok.notStarted t' m c (mem_withCalls_of_cons hc hnew) hb
  · refine (hok.begun t' m (mem_withCalls_of_cons hm nofun)).imp_left fun hs => ?_
    rw [hother m (by rw [hs]; simp), hs]
  · rcases eq_or_ne t' t with rfl | ht
    · rw [withCalls_self]
      exact ⟨fun m i s h => (by cases h), hmono hordered.2⟩
    · have := hok.ordered t'
      rw [withCalls_of_ne ht] at this ⊢
      exact hmono this
  · have hhist := hok.history
    refine ⟨hhist.once, fun x hx => ?_, hhist.superFirst, hhist.waits, fun m hm => ?_, fun m hm => ?_,
      fun m hm s hs => ?_, fun hs m hm => ?_, hhist.reported, hhist.superSound⟩
    · rw [hother _ (hhist.started x hx).2]
      exact hhist.started x hx
    · refine hhist.finished m ?_
      rw [state_claim] at hm
      split_ifs at hm
      exact hm
    · have hm' := hhist.ended m hm
      rwa [hother m (by rcases hm' with h | h <;> rw [h] <;> simp)]
    · have hsup : w.state s ≠ .loaded := by
        have hm' : ((w.claim t n).state m).isLinked := hm
        rw [state_claim] at hm'
        by_cases hmn : m = n
        · subst hmn
          exact hhist.supers m (show (w.state m).isLinked by rw [hn]; rfl) s hs
        · rw [if_neg hmn] at hm'
          exact hhist.supers m hm' s hs
      show (w.claim t n).state s ≠ .loaded
      rw [state_claim]
      split_ifs
      · simp
      · exact hsup
    · have hm' := hhist.failed hs m hm
      rw [hother m (by rw [hm']; simp), hm']

/-- The thread has finished a class that it was initializing. -/
theorem finish (h : Mid classes strict w₀ w t (c :: rest)) (hc : c.initializing = some n)
    {f : List Nat} (hf : strict → ∀ m ∈ f, m ∈ w.failed ∨ (m = n ∧ error = true)) :
    Mid classes strict w₀ (({ w with failed := f } : World).finish t n error) t rest := by
  have hok := h.ok
  have hchain := hok.chain t
  have hordered := hok.ordered t
  have hnodup := hok.nodup t
  rw [withCalls_self] at hchain hordered hnodup
  rw [active_cons_some hc, List.nodup_cons] at hnodup
  have hn := (hok.owned t n).mp (by rw [withCalls_self, active_cons_some hc]; exact List.mem_cons_self)
  have hstate : ∀ m, (({ w with failed := f } : World).finish t n error).state m =
      if m = n then (if error then .linkageError else .initialized) else w.state m :=
    fun m => state_finish
  have hfinished : (({ w with failed := f } : World).finish t n error).finished = n :: w.finished :=
    rfl
  have hfailed : (({ w with failed := f } : World).finish t n error).failed =
      if error then n :: f else f := rfl
  have hrest : (({ w with failed := f } : World).finish t n error).initializingThread =
      w.initializingThread ∧
      (({ w with failed := f } : World).finish t n error).starts = w.starts ∧
      (({ w with failed := f } : World).finish t n error).returns = w.returns ∧
      (({ w with failed := f } : World).finish t n error).thread = w.thread := ⟨rfl, rfl, rfl, rfl⟩
  have hnew : SupersNotLoaded classes.toClasses w.linker → SupersNotLoaded classes.toClasses
      (({ w with failed := f } : World).finish t n error).linker := fun hsup m hm s hs => by
    have hne : ∀ m, w.state m ≠ .loaded →
        (({ w with failed := f } : World).finish t n error).state m ≠ .loaded := fun m hm => by
      rw [hstate]
      split_ifs <;> simp [hm]
    have hm' : ((({ w with failed := f } : World).finish t n error).state m).isLinked := hm
    refine hne s (hsup m (show (w.state m).isLinked from ?_) s hs)
    by_cases hmn : m = n
    · rw [hmn, hn.1]
      rfl
    · rwa [hstate, if_neg hmn] at hm'
  generalize ({ w with failed := f } : World).finish t n error = w' at *
  obtain ⟨hthread, hstarts, hreturns, hthreads⟩ := hrest
  have hother : ∀ m, w.state m ≠ .initializing → w'.state m = w.state m := fun m hm => by
    rw [hstate, if_neg]
    rintro rfl
    exact hm hn.1
  have hinit : ∀ m, w.state m = .initialized → w'.state m = .initialized := fun m hm => by
    rw [hother m (by rw [hm]; simp), hm]
  have hfin : ∀ m ∈ w.finished, m ∈ w'.finished := fun m hm => by
    rw [hfinished]
    exact List.mem_cons_of_mem _ hm
  have hself : w'.state n ≠ .initializing := by
    rw [hstate, if_pos rfl]
    split_ifs <;> simp
  refine ⟨⟨fun t' m => ?_, fun m hm => ?_, fun t' => ?_, fun t' => ?_, fun t' m c' hc' hb => ?_,
    fun t' m hm => ?_, fun t' => ?_, ?_⟩, fun t' ht => ?_, fun s hs => hfin s (h.finished s hs),
    fun s hs => hinit s (h.initialized s hs)⟩
  · rw [hthread]
    have howned := hok.owned t' m
    rcases eq_or_ne t' t with rfl | ht
    · rw [withCalls_self] at howned ⊢
      rw [active_cons_some hc, List.mem_cons] at howned
      by_cases hm : m = n
      · subst hm
        exact ⟨fun h => absurd h hnodup.1, fun h => absurd h.1 hself⟩
      · rw [hstate, if_neg hm, ← howned]
        simp [hm]
    · rw [withCalls_of_ne ht] at howned ⊢
      by_cases hm : m = n
      · subst hm
        rw [howned, hn.2]
        simp [Ne.symm ht]
      · rw [hstate, if_neg hm, howned]
  · rw [hthread]
    refine hok.known m ?_
    by_cases hmn : m = n
    · exact absurd (hmn ▸ hm) hself
    · rwa [hstate, if_neg hmn] at hm
  · rcases eq_or_ne t' t with rfl | ht
    · rw [withCalls_self]
      exact hnodup.2
    · have := hok.nodup t'
      rwa [withCalls_of_ne ht] at this ⊢
  · rcases eq_or_ne t' t with rfl | ht
    · rw [withCalls_self]
      cases rest with
      | nil => exact .nil
      | cons c' post => exact (List.isChain_cons_cons.mp hchain).2
    · have := hok.chain t'
      rwa [withCalls_of_ne ht] at this ⊢
  · rw [hstarts]
    exact hok.notStarted t' m c' (mem_withCalls_of_tail hc') hb
  · have hm' : .awaitInitialized m ∈ withCalls w₀ t (c :: rest) t' := mem_withCalls_of_tail hm
    by_cases hmn : m = n
    · rw [hfinished, hmn]
      exact Or.inr List.mem_cons_self
    · rw [hstate, if_neg hmn]
      exact (hok.begun t' m hm').imp_right (hfin m)
  · rcases eq_or_ne t' t with rfl | ht
    · rw [withCalls_self]
      exact hordered.2.mono hfin hinit
    · have := hok.ordered t'
      rw [withCalls_of_ne ht] at this ⊢
      exact this.mono hfin hinit
  · have hhist := hok.history
    refine ⟨?_, fun x hx => ?_, ?_, ?_, fun m hm => ?_, fun m hm => ?_, hnew hhist.supers,
      fun hs m hm => ?_, ?_, ?_⟩
    · rw [hstarts]
      exact hhist.once
    · rw [hstarts] at hx
      rw [hstate]
      split_ifs
      · simp
      · simp
      · exact hhist.started x hx
    · rw [hstarts]
      exact hhist.superFirst
    · rw [hreturns]
      exact hhist.waits
    · rw [hfinished]
      by_cases hmn : m = n
      · rw [hmn]
        exact List.mem_cons_self
      · rw [hstate, if_neg hmn] at hm
        exact List.mem_cons_of_mem _ (hhist.finished m hm)
    · rw [hstate]
      by_cases hmn : m = n
      · rw [if_pos hmn]
        split_ifs <;> simp
      · rw [if_neg hmn]
        rw [hfinished] at hm
        exact hhist.ended m ((List.mem_cons.mp hm).resolve_left hmn)
    · rw [hstate]
      have hmem : m ∈ f ∨ (m = n ∧ error = true) := by
        rw [hfailed] at hm
        split_ifs at hm with herror
        · rcases List.mem_cons.mp hm with h | h
          · exact Or.inr ⟨h, herror⟩
          · exact Or.inl h
        · exact Or.inl hm
      have hmem' : m ∈ w.failed ∨ (m = n ∧ error = true) := hmem.elim (hf hs m) Or.inr
      rcases hmem' with hm' | ⟨rfl, rfl⟩
      · have hm₀ := hhist.failed hs m hm'
        rw [if_neg, hm₀]
        rintro rfl
        rw [hm₀] at hn
        cases hn.1
      · simp
    · rw [hreturns]
      exact hhist.reported
    · rw [hstarts]
      exact hhist.superSound
  · rw [hthreads]
    exact h.others t' ht

/-- The thread starts the `<clinit>` of a class that is on its way. -/
theorem start {x : Start} (h : Mid classes strict w₀ w t (c :: rest)) (hc : BeforeClinit n c)
    (hx : x.cls = n) (hready : x.superReady = true) (hsound : strict → x.superFailed = false) :
    Mid classes strict w₀ { w with starts := x :: w.starts } t (.awaitClinit n false :: rest) := by
  have hok := h.ok
  have hmem : c ∈ withCalls w₀ t (c :: rest) t := by
    rw [withCalls_self]
    exact List.mem_cons_self
  have hn := (hok.owned t n).mp (hc.mem_active hmem)
  have hchain := hok.chain t
  have hordered := hok.ordered t
  have hnodup := hok.nodup t
  rw [withCalls_self] at hchain hordered hnodup
  have hactive : active (.awaitClinit n false :: rest) = active (c :: rest) := by
    rw [active_cons_some hc.initializing]
    rfl
  have hnone : ∀ y ∈ w.starts, y.cls ≠ n := hok.notStarted t n c hmem hc
  refine ⟨⟨fun t' m => ?_, hok.known, fun t' => ?_, fun t' => ?_, fun t' m c' hc' hb y hy => ?_,
    fun t' m hm => ?_, fun t' => ?_, ?_⟩, h.others, h.finished, h.initialized⟩
  · have howned := hok.owned t' m
    rcases eq_or_ne t' t with rfl | ht
    · rw [withCalls_self] at howned ⊢
      rw [hactive]
      exact howned
    · rw [withCalls_of_ne ht] at howned ⊢
      exact howned
  · rcases eq_or_ne t' t with rfl | ht
    · rw [withCalls_self, hactive]
      exact hnodup
    · have := hok.nodup t'
      rwa [withCalls_of_ne ht] at this ⊢
  · rcases eq_or_ne t' t with rfl | ht
    · rw [withCalls_self]
      refine isChain_swap hchain ?_ (by intro h; cases h)
      rcases hc with rfl | ⟨i, rfl⟩ <;> rfl
    · have := hok.chain t'
      rwa [withCalls_of_ne ht] at this ⊢
  · -- no other call is about the class: it is active once
    have hmn : m ≠ n := by
      rintro rfl
      rcases eq_or_ne t' t with rfl | ht
      · rw [withCalls_self] at hc'
        rw [active_cons_some hc.initializing, List.nodup_cons] at hnodup
        rcases List.mem_cons.mp hc' with rfl | hc'
        · rcases hb with h | ⟨i, h⟩ <;> cases h
        · exact hnodup.1 (hb.mem_active hc')
      · rw [withCalls_of_ne ht] at hc'
        have := (hok.owned t' m).mp (by rw [withCalls_of_ne ht]; exact hb.mem_active hc')
        rw [hn.2] at this
        exact ht (Option.some.inj this.2).symm
    rcases List.mem_cons.mp hy with rfl | hy
    · rw [hx]
      exact Ne.symm hmn
    · refine hok.notStarted t' m c' (mem_withCalls_of_cons hc' ?_) hb y hy
      rintro rfl
      rcases hb with h | ⟨i, h⟩ <;> cases h
  · exact hok.begun t' m (mem_withCalls_of_cons hm nofun)
  · rcases eq_or_ne t' t with rfl | ht
    · rw [withCalls_self]
      exact ⟨fun m i s h => (by cases h),
        Ordered.mono (w := w) (fun _ h => h) (fun _ h => h) hordered.2⟩
    · have := hok.ordered t'
      rw [withCalls_of_ne ht] at this ⊢
      exact Ordered.mono (w := w) (fun _ h => h) (fun _ h => h) this
  · have hhist := hok.history
    refine ⟨fun m => ?_, ?_, ?_, hhist.waits, hhist.finished, hhist.ended, hhist.supers,
      hhist.failed, hhist.reported, ?_⟩
    · by_cases hm : x.cls = m
      · rw [List.filter_cons_of_pos (by simpa using hm), List.filter_eq_nil_iff.mpr]
        · simp
        · intro y hy
          rw [← hm, hx]
          simpa using hnone y hy
      · rw [List.filter_cons_of_neg (by simpa using hm)]
        exact hhist.once m
    · intro y hy
      rcases List.mem_cons.mp hy with rfl | hy
      · rw [hx]
        show w.state n ≠ _ ∧ w.state n ≠ _
        rw [hn.1]
        simp
      · exact hhist.started y hy
    · intro y hy
      rcases List.mem_cons.mp hy with rfl | hy
      · exact hready
      · exact hhist.superFirst y hy
    · intro hs y hy
      rcases List.mem_cons.mp hy with rfl | hy
      · exact hsound hs
      · exact hhist.superSound hs y hy

/-- The failures are noted. -/
theorem noteFailed {f : List Nat} (h : Mid classes strict w₀ w t calls)
    (hf : strict → ∀ m ∈ f, w.state m = .linkageError) :
    Mid classes strict w₀ { w with failed := f } t calls := by
  have hok := h.ok
  have hhist := hok.history
  exact ⟨⟨hok.owned, hok.known, hok.nodup, hok.chain, hok.notStarted, hok.begun,
    fun t' => Ordered.mono (w := w) (fun _ h => h) (fun _ h => h) (hok.ordered t'),
    ⟨hhist.once, hhist.started, hhist.superFirst, hhist.waits, hhist.finished, hhist.ended,
      hhist.supers, hf, hhist.reported, hhist.superSound⟩⟩, h.others, h.finished, h.initialized⟩

/-- A return is noted. -/
theorem noteReturn {r : Return} (h : Mid classes strict w₀ w t calls)
    (hp : r.inProgress = false) (hr : strict → r.failed = true → r.pending = true) :
    Mid classes strict w₀ { w with returns := r :: w.returns } t calls := by
  have hok := h.ok
  have hhist := hok.history
  refine ⟨⟨hok.owned, hok.known, hok.nodup, hok.chain, hok.notStarted, hok.begun,
    fun t' => Ordered.mono (w := w) (fun _ h => h) (fun _ h => h) (hok.ordered t'),
    ⟨hhist.once, hhist.started, hhist.superFirst, fun x hx => ?_, hhist.finished, hhist.ended,
      hhist.supers, hhist.failed, fun hs x hx => ?_, hhist.superSound⟩⟩, h.others, h.finished,
    h.initialized⟩
  · rcases List.mem_cons.mp hx with rfl | hx
    · exact hp
    · exact hhist.waits x hx
  · rcases List.mem_cons.mp hx with rfl | hx
    · exact hr hs
    · exact hhist.reported hs x hx

/-- The thread proceeds with its calls. -/
theorem proceed (h : Mid classes strict w₀ w t calls) (h₀ : InitInv classes strict w₀) :
    InitInv classes strict (w.proceed t calls) := by
  have hthread : (w.proceed t calls).thread t =
      { w.thread t with control := calls, returned := none } := Function.update_self ..
  refine h.setThread.inv h₀ (by rw [← World.proceed, hthread]) ⟨fun c post m _ hr => ?_,
    fun _ c post _ _ hr => ?_⟩
  all_goals
    rw [← World.proceed, hthread] at hr
    cases hr

/-- The caller that awaits a super has called for the class of the call on top. -/
theorem callee (h : Mid classes strict w₀ w t (c :: rest)) (ht : c.target = some n) :
    ∀ c' post m, rest = c' :: post → Awaits classes strict c' m → m = n := by
  rintro c' post m rfl hm
  have hchain := h.ok.chain t
  rw [withCalls_self] at hchain
  have hm' := target_of_awaits hchain hm
  rw [ht] at hm'
  exact (Option.some.inj hm').symm

/-- `initialize_class` returns. -/
theorem ret (h : Mid classes strict w₀ w t rest) (h₀ : InitInv classes strict w₀)
    (hcallee : ∀ c' post m, rest = c' :: post → Awaits classes strict c' m → m = n)
    (hp : w.state n = .initializing → w.initializingThread n = some t)
    (hfailed : strict → w.Failed n → (w.thread t).exception.isSome)
    (herror : strict → error = true → (w.thread t).exception.isSome)
    (hready : error = false → ∀ c' post, rest = c' :: post → Awaits classes strict c' n →
      Ready strict w post n) : InitInv classes strict (w.ret t rest n error) := by
  have hthread : (w.ret t rest n error).thread t =
      { w.thread t with control := rest, returned := some error } := Function.update_self ..
  refine (h.noteReturn ?_ fun hs hr => ?_).setThread.inv h₀
    (by rw [← World.ret, hthread]) ⟨fun c' post m hcontrol hr hm => ?_, fun hs c' post _ _ hr => ?_⟩
  · simpa using hp
  · exact hfailed hs (by simpa using hr)
  all_goals
    rw [← World.ret, hthread] at hr
    simp only [Option.some.injEq] at hr
    subst hr
  · rw [← World.ret, hthread] at hcontrol
    simp only [] at hcontrol
    subst hcontrol
    cases hcallee c' post m rfl hm
    exact (hready rfl c' post rfl hm).mono (w := w) (fun _ h => h) (fun _ h => h)
  · rw [← World.ret, hthread]
    exact herror hs rfl

/-- `initialize_class` comes to its end. -/
theorem done {f : List Nat} (h : Mid classes strict w₀ w t (c :: rest))
    (h₀ : InitInv classes strict w₀) (hc : c.initializing = some n) (ht : c.target = some n)
    (hf : strict → ∀ m ∈ f, m ∈ w.failed ∨ (m = n ∧ error = true))
    (herror : strict → error = true → (w.thread t).exception.isSome) :
    InitInv classes strict (Initialization.done { w with failed := f } t rest n error) := by
  have hfinish : Mid classes strict w₀ (({ w with failed := f } : World).finish t n error) t rest :=
    h.finish hc hf
  have hstate : (({ w with failed := f } : World).finish t n error).state n =
      if error then .linkageError else .initialized := by
    rw [state_finish, if_pos rfl]
  unfold Initialization.done
  refine hfinish.ret h₀ (h.callee ht) (fun hs => ?_) (fun hs hfailed => ?_) herror
    (fun he _ _ _ _ => ?_)
  · rw [hstate] at hs
    split_ifs at hs
  · -- a class that has failed was given an error
    have herr : error = true := by
      by_contra hne
      rw [Bool.not_eq_true] at hne
      subst hne
      have hstate' : (({ w with failed := f } : World).finish t n false).state n = .linkageError :=
        hfailed.elim (hfinish.ok.history.failed hs n) id
      rw [hstate] at hstate'
      cases hstate'
    exact herror hs herr
  · subst he
    exact Or.inl ⟨List.mem_cons_self, fun _ => hstate⟩

/-- A super that is ready has not failed. -/
theorem not_failed (h : Mid classes strict w₀ w t (c :: rest)) (hs : strict)
    (hready : Ready strict w rest s) : ¬ w.Failed s := by
  have hstate : w.state s ≠ .linkageError := by
    rcases hready with ⟨-, h⟩ | hactive
    · rw [h hs]
      simp
    · have := (h.ok.owned t s).mp (by rw [withCalls_self]; exact active_subset hactive)
      rw [this.1]
      simp
  rintro (hf | hf)
  · exact hstate (h.ok.history.failed hs s hf)
  · exact hstate hf

end Mid

/-! ### Steps -/

theorem runClinit_inv (h : Mid classes strict w₀ w t (c :: rest)) (h₀ : InitInv classes strict w₀)
    (hc : BeforeClinit n c)
    (hready : ∀ s, classes.superClass n = some s → Ready strict w rest s) :
    InitInv classes strict (runClinit classes w t rest n env) := by
  have ht : c.target = some n := by rcases hc with rfl | ⟨i, rfl⟩ <;> rfl
  unfold runClinit
  split_ifs
  · refine Mid.done (f := w.failed) (h.setThread) h₀ hc.initializing ht (fun _ m hm => Or.inl hm)
      fun _ _ => ?_
    simp [World.setThread]
  · refine Mid.proceed ((h.start hc rfl ?_ fun hs => ?_).push rfl ?_ (by rintro m h; cases h)) h₀
    · unfold superReady
      split
      · rfl
      · rename_i s hs
        rcases hready s hs with ⟨h, -⟩ | h
        · simp [h]
        · obtain ⟨c', hc', hi⟩ := List.mem_filterMap.mp h
          have : rest.any (·.initializing = some s) = true :=
            List.any_eq_true.mpr ⟨c', hc', by simpa using hi⟩
          simp [this]
    · rw [Option.any_eq_false]
      intro s hsup
      simpa using h.not_failed hs (hready s hsup)
    · have hstart := (h.start (x := ⟨n, t, true, false⟩) hc rfl rfl fun _ => rfl).ok.chain t
      rw [withCalls_self] at hstart
      exact List.isChain_cons_cons.mpr ⟨rfl, hstart⟩
  · exact Mid.done (f := w.failed) h h₀ hc.initializing ht (fun _ m hm => Or.inl hm)
      fun _ h => by cases h

theorem nextInterface_inv {i : Nat} (h : Mid classes strict w₀ w t (c :: rest))
    (h₀ : InitInv classes strict w₀) (hc : BeforeClinit n c)
    (hready : ∀ s, classes.superClass n = some s → Ready strict w rest s) :
    InitInv classes strict (nextInterface classes w t rest n i env) := by
  unfold nextInterface
  split
  · rename_i m hm
    have hmid := h.toInterface (i := i) hc hready
    have hchain := hmid.ok.chain t
    rw [withCalls_self] at hchain
    refine (hmid.push rfl (List.isChain_cons_cons.mpr ⟨⟨m, hm, rfl⟩, hchain⟩) ?_).proceed h₀
    intro m h
    cases h
  · exact runClinit_inv h h₀ hc hready

theorem beginInitialization_inv (h : Mid classes strict w₀ w t (.initializeClass n :: rest))
    (h₀ : InitInv classes strict w₀) (hn : w.state n = .initializing ∨ w.state n = .linked)
    (hcalloc : env.callocFails = false) :
    InitInv classes strict (beginInitialization classes w t rest n env) := by
  unfold beginInitialization
  split_ifs with hinit hself herror hfails
  · -- the request comes from the initialization itself
    refine (h.tail rfl).ret h₀ (h.callee rfl) (fun _ => hself) (fun hs hfailed => ?_)
      (fun _ h => by cases h) fun _ c' post hrest hm => Or.inr ?_
    · rcases hfailed with hf | hf
      · rw [h.ok.history.failed hs n hf] at hinit
        cases hinit
      · rw [hf] at hinit
        cases hinit
    · subst hrest
      obtain ⟨k, hk, hne, -⟩ := initializing_of_awaits hm
      have hactive := (h.ok.owned t n).mpr ⟨hinit, hself⟩
      rw [withCalls_self, active_cons_none rfl, active_cons_some hk] at hactive
      exact (List.mem_cons.mp hactive).resolve_left hne
  · have hchain := h.ok.chain t
    rw [withCalls_self] at hchain
    refine ((h.tail rfl).push (c := .awaitInitialized n) rfl
      (isChain_swap hchain rfl (by intro h; cases h)) ?_).proceed h₀
    intro m h
    cases h
    exact hinit
  · rw [herror] at hn
    rcases hn with h | h <;> cases h
  · rw [hcalloc] at hfails
    cases hfails
  · have hclaim := h.claim (hn.resolve_left hinit)
    simp only []
    split
    · rename_i s hs
      have hchain := hclaim.ok.chain t
      rw [withCalls_self] at hchain
      refine (hclaim.push rfl (List.isChain_cons_cons.mpr ⟨⟨s, hs, rfl⟩, hchain⟩) ?_).proceed h₀
      intro m h
      cases h
    · rename_i hs
      exact nextInterface_inv hclaim h₀ (Or.inl rfl) fun s h => by
        rw [hs] at h
        cases h

/-- What an attempt must not meet: a superclass in the error state that never came to the end of its
initialization and, when `strict`, any failed class. -/
def MeetsNoFailure (strict : Prop) (w : World) : List Activation → Prop
  | .initializeClass n :: rest =>
    (w.state n = .linkageError → ∀ k, .awaitSuper k ∈ rest.head? → n ∈ w.finished) ∧
      (strict → w.state n ≠ .linkageError)
  | .awaitInitialized n :: _ => strict → w.state n ≠ .linkageError
  | _ => True

/-- What a step must not meet. -/
def Allowed (strict : Prop) (t : ThreadId) (env : Env) (w : World) : Event → Prop
  | .advance =>
    env.callocFails = false ∧ MeetsNoFailure strict w (w.thread t).control ∧
      (strict → ∀ n b rest, (w.thread t).control = .awaitClinit n b :: rest →
        (w.thread t).exception = none)
  | _ => True

theorem initializeClass_inv (h : Mid classes strict w w t (.initializeClass n :: rest))
    (h₀ : InitInv classes strict w) (hcalloc : env.callocFails = false)
    (hmeets : MeetsNoFailure strict w (.initializeClass n :: rest))
    (hstep : initializeClass classes w t rest n env = some w') :
    InitInv classes strict w' := by
  unfold initializeClass at hstep
  by_cases hover : w.state n = .initialized ∨ w.state n = .linkageError
  · rw [if_pos hover] at hstep
    cases hstep
    have hnot : w.state n ≠ .initializing := by
      rcases hover with h | h <;> rw [h] <;> simp
    have hsound : strict → w.state n = .initialized := fun hs => hover.resolve_right (hmeets.2 hs)
    refine (h.tail rfl).ret h₀ (h.callee rfl) (fun h => absurd h hnot) (fun hs hfailed => ?_)
      (fun _ h => by cases h) fun _ c' post hrest hm => Or.inl ⟨?_, hsound⟩
    · rcases hfailed with hf | hf
      · exact absurd (h.ok.history.failed hs n hf) (hmeets.2 hs)
      · exact absurd hf (hmeets.2 hs)
    · rcases hover with hi | he
      · exact h.ok.history.finished n hi
      · subst hrest
        cases c' with
        | awaitSuper k => exact hmeets.1 he k rfl
        | awaitInterface k i => exact absurd he (hmeets.2 hm.1)
        | _ => exact absurd hm (by simp [Awaits])
  rw [if_neg hover] at hstep
  rw [not_or] at hover
  by_cases hlinked : (w.state n).isLinked = true
  · rw [if_pos hlinked] at hstep
    cases hstep
    refine beginInitialization_inv h h₀ ?_ hcalloc
    rcases hs : w.state n <;> rw [hs] at hlinked hover <;> simp_all [State.isLinked]
  rw [if_neg hlinked] at hstep
  have hloaded : w.state n = .loaded := by
    rcases hs : w.state n <;> rw [hs] at hlinked hover <;> simp_all [State.isLinked]
  split at hstep
  · cases hstep
  all_goals
    rename_i linker hlink
    cases hstep
    have heff := Linker.linkClass_effect env.fuel hlink
    have hmid := h.link heff.states heff.supers
  · -- the class cannot be linked: no caller awaits it, since its subclasses are linked after it
    have hstate : ({ w with linker := linker } : World).state n = .linkageError :=
      heff.failed rfl n rfl
    refine Mid.ret (hmid.tail rfl).setThread h₀ (hmid.callee rfl) (fun hs => ?_)
      (fun _ _ => ?_) (fun _ h => by cases h) fun _ c' post hrest hm => ?_
    · have hs' : ({ w with linker := linker } : World).state n = .initializing := hs
      rw [hstate] at hs'
      cases hs'
    · show ((Function.update w.thread t _ t).exception).isSome
      rw [Function.update_self]
      rfl
    · subst hrest
      obtain ⟨k, hk, -, hsup⟩ := initializing_of_awaits hm
      have hactive := (h.ok.owned t k).mp (by
        rw [withCalls_self, active_cons_none rfl, active_cons_some hk]
        exact List.mem_cons_self)
      exact absurd hloaded (h.ok.history.supers k
        (show (w.state k).isLinked by rw [hactive.1]; rfl) n hsup)
  · exact beginInitialization_inv hmid h₀ (Or.inr (heff.linked rfl n rfl hloaded)) hcalloc

theorem awaitInitialized_inv (h : Mid classes strict w w t (.awaitInitialized n :: rest))
    (h₀ : InitInv classes strict w) (hmeets : strict → w.state n ≠ .linkageError)
    (hover : w.state n ≠ .initializing) : InitInv classes strict (w.ret t rest n false) := by
  have hfinished : n ∈ w.finished := (h.ok.begun t n (by
    rw [withCalls_self]
    exact List.mem_cons_self)).resolve_left hover
  have hsound : strict → w.state n = .initialized := fun hs =>
    (h.ok.history.ended n hfinished).resolve_right (hmeets hs)
  refine (h.tail rfl).ret h₀ (h.callee rfl) (fun h => absurd h hover) (fun hs hfailed => ?_)
    (fun _ h => by cases h) fun _ _ _ _ _ => Or.inl ⟨hfinished, hsound⟩
  rcases hfailed with hf | hf
  · exact absurd (h.ok.history.failed hs n hf) (hmeets hs)
  · exact absurd hf (hmeets hs)

theorem superDone_inv {i : Nat} (h : Mid classes strict w w t (c :: rest))
    (h₀ : InitInv classes strict w) (hc : BeforeClinit n c)
    (hsup : error = false → ∀ s, classes.superClass n = some s → Ready strict w rest s)
    (hm : strict → error = false → Ready strict w rest m)
    (hraised : strict → error = true → (w.thread t).exception.isSome) :
    InitInv classes strict (superDone classes w t rest n m i error env) := by
  have ht : c.target = some n := by rcases hc with rfl | ⟨i, rfl⟩ <;> rfl
  unfold superDone World.noteSuper
  cases error with
  | true =>
    rw [if_pos rfl]
    split_ifs
    · refine h.done h₀ hc.initializing ht (fun _ k hk => ?_) hraised
      rcases List.mem_cons.mp hk with rfl | hk
      · exact Or.inr ⟨rfl, rfl⟩
      · exact Or.inl hk
    · exact Mid.done (f := w.failed) h h₀ hc.initializing ht (fun _ _ hk => Or.inl hk) hraised
  | false =>
    rw [if_neg (by simp)]
    split_ifs with hfailed
    · refine nextInterface_inv (h.noteFailed fun hs => ?_) h₀ hc fun s hs =>
        (hsup rfl s hs).mono (w := w) (fun _ h => h) (fun _ h => h)
      exact absurd hfailed (h.not_failed hs (hm hs rfl))
    · exact nextInterface_inv h h₀ hc (hsup rfl)

theorem clinitDone_inv {b : Bool} (h : Mid classes strict w w t (.awaitClinit n b :: rest))
    (h₀ : InitInv classes strict w) (hmeets : strict → (w.thread t).exception = none) :
    InitInv classes strict (clinitDone w t rest n b env) := by
  unfold clinitDone
  split
  · exact Mid.done (f := w.failed) h h₀ rfl rfl (fun _ _ hk => Or.inl hk) fun _ h => by cases h
  · rename_i e he
    have hnot : ¬ strict := fun hs => by
      rw [hmeets hs] at he
      cases he
    simp only []
    split_ifs
    · exact h.done h₀ rfl rfl (fun hs => absurd hs hnot) fun hs => absurd hs hnot
    · exact Mid.done (f := n :: w.failed) (h.setThread) h₀ rfl rfl (fun hs => absurd hs hnot)
        fun hs => absurd hs hnot

theorem advance_inv (h₀ : InitInv classes strict w) (hallowed : Allowed strict t env w .advance)
    (hstep : advance classes w t env = some w') : InitInv classes strict w' := by
  obtain ⟨hcalloc, hmeets, hclinit⟩ := hallowed
  have htop := h₀.top t
  have hmid := Mid.of_inv (t := t) h₀
  have hordered := hmid.ok.ordered t
  rw [withCalls_self] at hordered
  unfold advance at hstep
  split at hstep
  · rename_i n rest hcontrol hreturned
    rw [hcontrol] at hmid hmeets
    exact initializeClass_inv hmid h₀ hcalloc hmeets hstep
  · rename_i n rest hcontrol hreturned
    rw [hcontrol] at hmid hmeets
    simp only [Option.some.injEq] at hstep
    subst hstep
    split_ifs with hs
    · exact h₀
    · exact awaitInitialized_inv hmid h₀ hmeets hs
  · rename_i n rest error hcontrol hreturned
    rw [Option.map_eq_some_iff] at hstep
    obtain ⟨m, hm, rfl⟩ := hstep
    have hready : error = false → ∀ s, classes.superClass n = some s → Ready strict w rest s :=
      fun he s hs => htop.ready _ _ s hcontrol (by rw [hreturned, he]) hs
    rw [hcontrol] at hmid
    refine superDone_inv hmid h₀ (Or.inl rfl) hready (fun _ he => hready he m hm) fun hs he => ?_
    exact htop.raised hs _ _ hcontrol rfl (by rw [hreturned, he])
  · rename_i n i rest error hcontrol hreturned
    rw [Option.map_eq_some_iff] at hstep
    obtain ⟨m, hm, rfl⟩ := hstep
    rw [hcontrol] at hmid hordered
    refine superDone_inv hmid h₀ (Or.inr ⟨i, rfl⟩) (fun _ s hs => hordered.1 n i s rfl hs)
      (fun hs he => ?_) fun hs he => ?_
    · exact htop.ready _ _ m hcontrol (by rw [hreturned, he]) ⟨hs, hm⟩
    · exact htop.raised hs _ _ hcontrol rfl (by rw [hreturned, he])
  · rename_i n b rest r hcontrol hreturned
    cases hstep
    rw [hcontrol] at hmid
    exact clinitDone_inv hmid h₀ fun hs => hclinit hs n b rest hcontrol
  · cases hstep

/-! ### Runs -/

theorem active_map_loseLocals : active (calls.map loseLocals) = active calls := by
  unfold active
  rw [List.filterMap_map]
  congr 1
  funext c
  cases c <;> rfl

theorem ordered_map_loseLocals (h : Ordered classes strict w calls) :
    Ordered classes strict w (calls.map loseLocals) := by
  induction calls with
  | nil => trivial
  | cons c rest ih =>
    refine ⟨fun n i s hc hs => ?_, ih h.2⟩
    have hready := h.1 n i s (by cases c <;> first | exact hc | cases hc) hs
    unfold Ready
    rw [active_map_loseLocals]
    exact hready

theorem suspend_inv (h₀ : InitInv classes strict w) : InitInv classes strict
    (w.setThread t { w.thread t with control := (w.thread t).control.map loseLocals }) := by
  have hmid := Mid.of_inv (t := t) h₀
  have hordered := hmid.ok.ordered t
  have hchain := hmid.ok.chain t
  rw [withCalls_self] at hordered hchain
  have hthread : (w.setThread t { w.thread t with control := (w.thread t).control.map loseLocals
      }).thread t = { w.thread t with control := (w.thread t).control.map loseLocals } :=
    Function.update_self ..
  have hloses : ∀ {c c' : Activation}, loseLocals c = c' →
      c = c' ∨ ∃ n b, c = .awaitClinit n b ∧ c' = .awaitClinit n true := by
    rintro c c' rfl
    cases c with
    | awaitClinit n b => exact Or.inr ⟨n, b, rfl, rfl⟩
    | _ => exact Or.inl rfl
  suffices hmapped : Mid classes strict w (w.setThread t
      { w.thread t with control := (w.thread t).control.map loseLocals }) t
      ((w.thread t).control.map loseLocals) by
    refine hmapped.inv h₀ (by rw [hthread]) ?_
    have htop := h₀.top t
    constructor
    · intro c' post m hcontrol hr hm
      rw [hthread] at hcontrol hr
      obtain ⟨c, post', hcalls, hlose, rfl⟩ := List.map_eq_cons_iff.mp hcontrol
      rcases hloses hlose with rfl | ⟨k, b, -, rfl⟩
      · have := htop.ready c post' m hcalls hr hm
        unfold Ready
        rw [active_map_loseLocals]
        exact this
      · exact absurd hm (by simp [Awaits])
    · intro hs c' post hcontrol hi hr
      rw [hthread] at hcontrol hr ⊢
      obtain ⟨c, post', hcalls, hlose, rfl⟩ := List.map_eq_cons_iff.mp hcontrol
      refine htop.raised hs c post' hcalls ?_ hr
      rcases hloses hlose with rfl | ⟨k, b, rfl, rfl⟩
      · exact hi
      · rfl
  refine (hmid.replace active_map_loseLocals ?_ (fun n c' hc' hb => ?_) (fun n hn => Or.inl ?_)
    (ordered_map_loseLocals hordered)).setThread
  · refine List.isChain_map_of_isChain loseLocals (fun c caller h => ?_) hchain
    rcases caller with _ | _ | _ | n | ⟨n, i⟩ | ⟨n, b⟩
    · trivial
    · trivial
    · trivial
    · obtain ⟨s, h₁, h₂⟩ := h
      exact ⟨s, h₁, by cases c <;> exact h₂⟩
    · obtain ⟨s, h₁, h₂⟩ := h
      exact ⟨s, h₁, by cases c <;> exact h₂⟩
    · cases h
      rfl
  · obtain ⟨c, hc, hlose⟩ := List.mem_map.mp hc'
    rcases hloses hlose with rfl | ⟨m, b, -, rfl⟩
    · exact ⟨c, hc, hb⟩
    · rcases hb with h | ⟨i, h⟩ <;> cases h
  · obtain ⟨c, hc, hlose⟩ := List.mem_map.mp hn
    rcases hloses hlose with rfl | ⟨m, b, -, h⟩
    · exact hc
    · cases h

theorem step_inv {e : Event} (h₀ : InitInv classes strict w) (hallowed : Allowed strict t env w e)
    (hstep : step classes w t env e = some w') : InitInv classes strict w' := by
  have hmid := Mid.of_inv (t := t) h₀
  have htop := h₀.top t
  have hchain := hmid.ok.chain t
  rw [withCalls_self] at hchain
  cases e with
  | initializeClass n =>
    simp only [step] at hstep
    split_ifs at hstep with hcode
    cases hstep
    refine (hmid.push rfl ?_ (by rintro m h; cases h)).proceed h₀
    rcases hcontrol : (w.thread t).control with _ | ⟨c, rest⟩
    · exact .singleton _
    · rw [hcontrol] at hchain hcode
      refine List.isChain_cons_cons.mpr ⟨?_, hchain⟩
      cases c with
      | user => trivial
      | _ => cases hcode.1
  | link op =>
    simp only [step] at hstep
    split_ifs at hstep with hop
    rw [Option.map_eq_some_iff] at hstep
    obtain ⟨linker, hlink, rfl⟩ := hstep
    have hop' : (∃ c, op = .link c) ∨ ∃ c, op = .getOrCreateArray c := by
      cases op with
      | link c => exact Or.inl ⟨c, rfl⟩
      | getOrCreateArray c => exact Or.inr ⟨c, rfl⟩
      | _ => cases hop
    obtain ⟨hstates, hsupers⟩ := Linker.apply_effect hop' hlink
    have hlinked := hmid.link hstates hsupers
    exact hlinked.inv h₀ rfl ⟨fun c post m hc hr hm =>
      (htop.ready c post m hc hr hm).mono hlinked.finished hlinked.initialized, htop.raised⟩
  | returns exception =>
    simp only [step] at hstep
    split at hstep
    · rename_i rest hcontrol
      cases hstep
      rw [hcontrol] at hmid hchain
      have hthread : (w.setThread t ⟨rest, some false, exception⟩).thread t =
          ⟨rest, some false, exception⟩ := Function.update_self ..
      refine (hmid.tail rfl).setThread.inv h₀ (by rw [hthread]) ⟨fun c post m hc _ hm => ?_,
        fun _ c post _ _ hr => ?_⟩
      · rw [hthread] at hc
        simp only [] at hc
        subst hc
        cases target_of_awaits hchain hm
      · rw [hthread] at hr
        cases hr
    · cases hstep
  | catches =>
    simp only [step] at hstep
    split_ifs at hstep with hcode
    cases hstep
    have hthread : (w.setThread t { w.thread t with exception := none }).thread t =
        { w.thread t with exception := none } := Function.update_self ..
    have hno : ∀ c post, (w.thread t).control = c :: post → c = .user := by
      intro c post hc
      rw [hc] at hcode
      cases c with
      | user => rfl
      | _ => cases hcode
    refine hmid.setThread.inv h₀ (by rw [hthread]) ⟨fun c post m hc _ hm => ?_,
      fun _ c post hc hi _ => ?_⟩
    all_goals
      rw [hthread] at hc
      rw [hno c post hc] at *
    · exact absurd hm (by simp [Awaits])
    · cases hi
  | advance => exact advance_inv h₀ hallowed hstep
  | suspend =>
    cases hstep
    exact suspend_inv h₀

end BJvm.Initialization
