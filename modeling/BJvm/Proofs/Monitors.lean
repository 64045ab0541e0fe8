import BJvm.Threads.Monitors

/-!
# Holding monitors

The hold count in the monitor is what the owner has acquired and not released; a waiting thread has
its count saved.  An object keeps its identity hash when it gets a monitor.
-/

namespace BJvm.Threads

open Function (update)

variable {w w' : World} {t t' : ThreadId} {o o' : Object} {a : Addr} {env : Env} {e : Event}
  {data : MonitorData} {b : Blocked} {n : Nat}

/-! ### What a thread holds -/

/-- The hold count that a waiting thread will get back. -/
def Blocked.saved (o : Object) : Blocked → Nat
  | .wait o' n | .reacquire o' n _ => if o' = o then n else 0
  | .acquire _ => 0

def World.saved (w : World) (t : ThreadId) (o : Object) : Nat :=
  (w.blocked t).elim 0 (Blocked.saved o)

/-- The thread has acquired the monitor more often than released, and is not waiting on it. -/
def World.Holds (w : World) (t : ThreadId) (o : Object) : Prop :=
  w.releases t o < w.acquires t o ∧ w.saved t o = 0

/-- What is true of one thread and one monitor. -/
structure LockOk (owner : Option ThreadId) (holdCount : Nat) (t : ThreadId) (o : Object)
    (acquires releases : Nat) (blocked : Option Blocked) : Prop where
  own : owner = some t → 0 < holdCount ∧ acquires = releases + holdCount ∧
    blocked.elim 0 (Blocked.saved o) = 0 ∧ blocked ≠ some (.acquire o)
  other : owner ≠ some t → acquires = releases + blocked.elim 0 (Blocked.saved o)
  waiting : ∀ n, blocked = some (.wait o n) ∨ (∃ a, blocked = some (.reacquire o n a)) → 0 < n

/-- The hold count in the header. -/
def HeaderWord.holdCount (header : HeaderWord) : Nat := header.inflate.holdCount

/-- The counts are right, and the hashes that were given out are those of the objects. -/
structure LockInv (w : World) : Prop where
  locks : ∀ t o, LockOk (w.header o).owner (w.header o).holdCount t o (w.acquires t o)
    (w.releases t o) (w.blocked t)
  hashes : ∀ p ∈ w.hashes, (w.header p.1).getMarkWord.hash = p.2 ∧ p.2 ≠ 0

theorem owner_eq (header : HeaderWord) : header.owner = header.inflate.tid := by
  cases header <;> rfl

theorem markWord_inflate (header : HeaderWord) : header.inflate.markWord = header.getMarkWord := by
  cases header <;> rfl

theorem currentThreadHoldCount_eq : w.currentThreadHoldCount t o =
    if (w.header o).owner = some t then (w.header o).holdCount else 0 := by
  unfold World.currentThreadHoldCount HeaderWord.owner HeaderWord.holdCount
  cases w.header o with
  | markWord word => rfl
  | expanded data => rfl

namespace LockInv

/-- The counts of the others are not touched by a change of one thread's part in one monitor. -/
theorem change (h : LockInv w) (t : ThreadId) (o : Object)
    (hheader : ∀ o' ≠ o, w'.header o' = w.header o')
    (hmark : (w'.header o).getMarkWord = (w.header o).getMarkWord)
    (hacquires : ∀ t' o', t' ≠ t ∨ o' ≠ o → w'.acquires t' o' = w.acquires t' o')
    (hreleases : ∀ t' o', t' ≠ t ∨ o' ≠ o → w'.releases t' o' = w.releases t' o')
    (hblocked : ∀ t' ≠ t, w'.blocked t' = w.blocked t')
    (hhashes : w'.hashes = w.hashes)
    (howner : ∀ t' ≠ t, ((w'.header o).owner = some t' ↔ (w.header o).owner = some t') ∧
      ((w.header o).owner = some t' → (w'.header o).holdCount = (w.header o).holdCount))
    (hself : LockOk (w'.header o).owner (w'.header o).holdCount t o (w'.acquires t o)
      (w'.releases t o) (w'.blocked t))
    (hsaved : ∀ o' ≠ o, (w'.blocked t).elim 0 (Blocked.saved o') =
      (w.blocked t).elim 0 (Blocked.saved o') ∧ w'.blocked t ≠ some (.acquire o') ∧
      ∀ n, w'.blocked t ≠ some (.wait o' n) ∧ ∀ a, w'.blocked t ≠ some (.reacquire o' n a)) :
    LockInv w' where
  locks t' o' := by
    have hold := h.locks t' o'
    by_cases ht : t' = t
    · by_cases ho : o' = o
      · rw [ht, ho]
        exact hself
      · obtain ⟨hs, hacq, hwait⟩ := hsaved o' ho
        rw [hheader o' ho, hacquires t' o' (Or.inr ho), hreleases t' o' (Or.inr ho)]
        subst ht
        refine ⟨fun hown => ?_, fun hother => ?_, fun n hn => ?_⟩
        · obtain ⟨h₁, h₂, h₃, -⟩ := hold.own hown
          exact ⟨h₁, h₂, by rw [hs, h₃], hacq⟩
        · rw [hs]
          exact hold.other hother
        · rcases hn with hn | ⟨a, hn⟩
          · exact absurd hn (hwait n).1
          · exact absurd hn ((hwait n).2 a)
    · rw [hacquires t' o' (Or.inl ht), hreleases t' o' (Or.inl ht), hblocked t' ht]
      by_cases ho : o' = o
      · subst ho
        obtain ⟨hiff, hcount⟩ := howner t' ht
        refine ⟨fun hown => ?_, fun hother => ?_, hold.waiting⟩
        · rw [hcount (hiff.mp hown)]
          exact hold.own (hiff.mp hown)
        · exact hold.other fun h => hother (hiff.mpr h)
      · rw [hheader o' ho]
        exact hold
  hashes p hp := by
    rw [hhashes] at hp
    have hold := h.hashes p hp
    by_cases ho : p.1 = o
    · rw [ho, hmark, ← ho]
      exact hold
    · rw [hheader p.1 ho]
      exact hold

end LockInv

theorem update_noted {f : ThreadId → Object → Nat} (h : t' ≠ t ∨ o' ≠ o) {k : Nat} :
    update f t (update (f t) o k) t' o' = f t' o' := by
  by_cases ht : t' = t
  · subst ht
    rw [Function.update_self, Function.update_of_ne (h.resolve_left (not_not.mpr rfl))]
  · rw [Function.update_of_ne ht]

theorem update_noted_self {f : ThreadId → Object → Nat} {k : Nat} :
    update f t (update (f t) o k) t o = k := by
  rw [Function.update_self, Function.update_self]

namespace LockInv

/-- A thread that is not suspended in `wait` has no count saved. -/
theorem saved_of_acquiring (hb : w.blocked t = none ∨ w.blocked t = some (.acquire o)) :
    ∀ o', (w.blocked t).elim 0 (Blocked.saved o') = 0 := by
  intro o'
  rcases hb with hb | hb <;> rw [hb] <;> rfl

/-- The thread takes the monitor, for the first time or again. -/
theorem acquired (h : LockInv w) (hb : w.blocked t = none ∨ w.blocked t = some (.acquire o))
    (hmark : data.markWord = (w.header o).getMarkWord) (htid : data.tid = some t)
    (hcount : data.holdCount =
      (if (w.header o).owner = some t then (w.header o).holdCount else 0) + 1)
    (howner : ∀ t' ≠ t, (w.header o).owner ≠ some t') :
    LockInv (((w.setMonitor o data).noteAcquire t o).unblock t) := by
  have hsaved := saved_of_acquiring hb
  have hold := h.locks t o
  refine h.change t o (fun o' ho => Function.update_of_ne ho ..) ?_
    (fun t' o' hne => update_noted hne) (fun _ _ _ => rfl)
    (fun t' ht => Function.update_of_ne ht ..) rfl (fun t' ht => ?_) ?_ fun o' _ => ?_
  · show (update w.header o (.expanded data) o).getMarkWord = _
    rw [Function.update_self]
    exact hmark
  · show ((update w.header o (.expanded data) o).owner = _ ↔ _) ∧ _
    rw [Function.update_self]
    refine ⟨⟨fun h' => ?_, fun h' => absurd h' (howner t' ht)⟩, fun h' => absurd h' (howner t' ht)⟩
    have h'' : data.tid = some t' := h'
    rw [htid] at h''
    exact absurd (Option.some.inj h'').symm ht
  · show LockOk (update w.header o (.expanded data) o).owner
      (update w.header o (.expanded data) o).holdCount t o
      (update w.acquires t (update (w.acquires t) o (w.acquires t o + 1)) t o) _
      (update w.blocked t none t)
    rw [Function.update_self, update_noted_self, Function.update_self]
    refine ⟨fun _ => ?_, fun h' => absurd htid h', fun n hn => ?_⟩
    · show 0 < data.holdCount ∧ w.acquires t o + 1 = w.releases t o + data.holdCount ∧ _
      refine ⟨by omega, ?_, rfl, by simp⟩
      rw [hcount]
      split_ifs with hown
      · have := (hold.own hown).2.1
        omega
      · have := hold.other hown
        rw [hsaved] at this
        omega
    · rcases hn with hn | ⟨a, hn⟩ <;> cases hn
  · show (update w.blocked t none t).elim 0 _ = _ ∧ update w.blocked t none t ≠ _ ∧
      ∀ n, update w.blocked t none t ≠ _ ∧ ∀ a, update w.blocked t none t ≠ _
    rw [Function.update_self, hsaved o']
    simp

/-- The thread is suspended before it gets the monitor, which has another owner. -/
theorem blocks (h : LockInv w) (hsaved : ∀ o', (w.blocked t).elim 0 (Blocked.saved o') =
      Blocked.saved o' b)
    (hb : b = .acquire o ∨ ∃ n a, b = .reacquire o n a ∧ 0 < n)
    (hother : (w.header o).owner ≠ some t) {info : WakeupInfo} : LockInv (w.block t b a info) := by
  have hself : (w.block t b a info).blocked t = some b := Function.update_self ..
  refine h.change t o (fun _ _ => rfl) rfl (fun _ _ _ => rfl) (fun _ _ _ => rfl)
    (fun t' ht => Function.update_of_ne ht ..) rfl (fun _ _ => ⟨Iff.rfl, fun _ => rfl⟩) ?_
    fun o' ho => ?_
  · rw [hself]
    refine ⟨fun h' => absurd h' hother, fun _ => ?_, fun n hn => ?_⟩
    · have := (h.locks t o).other hother
      rw [hsaved] at this
      exact this
    · rcases hb with rfl | ⟨m, a', rfl, hm⟩
      · rcases hn with hn | ⟨a, hn⟩ <;> cases hn
      · rcases hn with hn | ⟨a, hn⟩
        · cases hn
        · cases hn
          exact hm
  · rw [hself, hsaved]
    refine ⟨rfl, ?_⟩
    rcases hb with rfl | ⟨m, a', rfl, -⟩
    · simp [Ne.symm ho]
    · simp [Ne.symm ho]

theorem acquireLoop (h : LockInv w) (hb : w.blocked t = none ∨ w.blocked t = some (.acquire o))
    (hbound : (w.header o).owner = some t → (w.header o).holdCount + 1 < uint32Size) :
    LockInv (w.acquireLoop t o a) := by
  have howner := owner_eq (w.header o)
  have hmark := markWord_inflate (w.header o)
  unfold World.acquireLoop
  dsimp only
  split
  · rename_i htid
    rw [htid] at howner
    exact h.acquired hb hmark rfl (by rw [howner]; rfl) (fun t' _ => by rw [howner]; simp)
  · rename_i owner htid
    rw [htid] at howner
    split_ifs with heq
    · subst heq
      refine h.acquired hb hmark htid ?_ fun t' ht => ?_
      · rw [if_pos howner]
        exact Nat.mod_eq_of_lt (hbound howner)
      · rw [howner]
        simpa using Ne.symm ht
    · refine h.blocks (fun o' => ?_) (Or.inl rfl) ?_
      · rw [saved_of_acquiring hb]
        rfl
      · rw [howner]
        simpa using heq

/-- The monitor is there, as it was. -/
theorem setMonitor_inflate (h : LockInv w) : LockInv (w.setMonitor o (w.header o).inflate) := by
  have hheader : (w.setMonitor o (w.header o).inflate).header o =
      .expanded (w.header o).inflate := Function.update_self ..
  have howner : (HeaderWord.expanded (w.header o).inflate).owner = (w.header o).owner := by
    rw [owner_eq, owner_eq]
    rfl
  have hcount : (HeaderWord.expanded (w.header o).inflate).holdCount = (w.header o).holdCount := rfl
  constructor
  · intro t' o'
    have hold := h.locks t' o'
    by_cases ho : o' = o
    · subst ho
      rw [hheader, howner, hcount]
      exact hold
    · have : (w.setMonitor o (w.header o).inflate).header o' = w.header o' :=
        Function.update_of_ne ho ..
      rw [this]
      exact hold
  · intro p hp
    have hold := h.hashes p hp
    by_cases ho : p.1 = o
    · rw [ho, hheader]
      rw [ho, ← markWord_inflate] at hold
      exact hold
    · have : (w.setMonitor o (w.header o).inflate).header p.1 = w.header p.1 :=
        Function.update_of_ne ho ..
      rw [this]
      exact hold

theorem raise {x : Exception} (h : LockInv w) : LockInv (w.raise t x) := ⟨h.locks, h.hashes⟩

theorem monitorAcquire {allocFails : Bool} (h : LockInv w) (hb : w.blocked t = none)
    (hbound : (w.header o).owner = some t → (w.header o).holdCount + 1 < uint32Size) :
    LockInv (w.monitorAcquire t o allocFails a) := by
  unfold World.monitorAcquire
  split
  · rename_i word hword
    split_ifs
    · exact h.raise
    · have hset := h.setMonitor_inflate (o := o)
      rw [hword] at hset
      refine hset.acquireLoop (Or.inl hb) fun hown => ?_
      have hheader : (w.setMonitor o (HeaderWord.markWord word).inflate).header o =
          .expanded (HeaderWord.markWord word).inflate := Function.update_self ..
      rw [hheader] at hown
      cases hown
  · exact h.acquireLoop (Or.inl hb) hbound

/-- The scheduler's part has no say in it. -/
theorem of_sched (h : LockInv w) (sched : Scheduler) : LockInv { w with sched := sched } :=
  ⟨h.locks, h.hashes⟩

/-- A write by the owner of the monitor is nothing to another thread that does not get it. -/
theorem owner_expanded {w : World} {t' : ThreadId} {data : MonitorData} {p : Prop}
    (hown : (w.header o).owner = some t) (ht : t' ≠ t) (htid : data.tid ≠ some t') :
    ((update w.header o (.expanded data) o).owner = some t' ↔ (w.header o).owner = some t') ∧
      ((w.header o).owner = some t' → p) := by
  rw [Function.update_self, hown]
  have hne : some t ≠ some t' := by simpa using Ne.symm ht
  exact ⟨⟨fun h' => absurd h' htid, fun h' => absurd h' hne⟩, fun h' => absurd h' hne⟩

/-- The owner gives the monitor back once. -/
theorem released (h : LockInv w) (data : MonitorData) (hb : w.blocked t = none)
    (hmark : data.markWord = (w.header o).getMarkWord) (hown : (w.header o).owner = some t)
    (htid : data.tid = if (w.header o).holdCount - 1 = 0 then none else some t)
    (hcount : data.holdCount = (w.header o).holdCount - 1) :
    LockInv ((w.setMonitor o data).noteRelease t o) := by
  obtain ⟨hpos, hacq, -, -⟩ := (h.locks t o).own hown
  refine h.change t o (fun o' ho => Function.update_of_ne ho ..) ?_ (fun _ _ _ => rfl)
    (fun t' o' hne => update_noted hne) (fun _ _ => rfl) rfl (fun t' ht => ?_) ?_ fun o' _ => ?_
  · show (update w.header o (.expanded data) o).getMarkWord = _
    rw [Function.update_self]
    exact hmark
  · refine owner_expanded hown ht ?_
    rw [htid]
    split_ifs
    · simp
    · simpa using Ne.symm ht
  · show LockOk (update w.header o (.expanded data) o).owner
      (update w.header o (.expanded data) o).holdCount t o (w.acquires t o)
      (update w.releases t (update (w.releases t) o (w.releases t o + 1)) t o) (w.blocked t)
    rw [Function.update_self, update_noted_self, hb]
    have howner : (HeaderWord.expanded data).owner = data.tid := rfl
    have hholds : (HeaderWord.expanded data).holdCount = data.holdCount := rfl
    rw [howner, hholds, htid, hcount]
    refine ⟨fun h' => ?_, fun h' => ?_, fun n hn => ?_⟩
    · split_ifs at h'
      exact ⟨by omega, by omega, rfl, by simp⟩
    · split_ifs at h' with hz
      · simp only [Option.elim_none]
        omega
      · exact absurd rfl h'
    · rcases hn with hn | ⟨a, hn⟩ <;> cases hn
  · show (w.blocked t).elim 0 _ = _ ∧ w.blocked t ≠ _ ∧ ∀ n, w.blocked t ≠ _ ∧ ∀ a, w.blocked t ≠ _
    rw [hb]
    simp

theorem monitorRelease (h : LockInv w) (hb : w.blocked t = none)
    (hr : w.monitorRelease t o = some w') : LockInv w' := by
  unfold World.monitorRelease at hr
  split at hr
  · cases hr
  · rename_i data hdata
    have hheader : w.header o = .expanded data := by
      cases hw : w.header o with
      | markWord word =>
        rw [hw] at hdata
        cases hdata
      | expanded d =>
        rw [hw] at hdata
        cases hdata
        rfl
    have hmark : data.markWord = (w.header o).getMarkWord := by rw [hheader]; rfl
    have hcount : (w.header o).holdCount = data.holdCount := by rw [hheader]; rfl
    split_ifs at hr with hnot hzero
    all_goals
      rw [not_or, not_not] at hnot
      have hown : (w.header o).owner = some t := by
        rw [hheader]
        exact hnot.1
      cases hr
    · have hinv := (h.released { data with tid := none, holdCount := 0 } hb hmark hown
        (by rw [hcount, if_pos hzero]) (by rw [hcount]; exact hzero.symm))
      exact hinv.of_sched { w.sched with
        mem := monitorExitHandler w.sched.roundRobin o w.sched.mem }
    · exact h.released { data with holdCount := data.holdCount - 1 } hb hmark hown
        (by rw [hcount, if_neg hzero]; exact hnot.1) (by rw [hcount])

theorem monitorexit (h : LockInv w) (hb : w.blocked t = none) : LockInv (w.monitorexit t o) := by
  unfold World.monitorexit
  split
  · rename_i w' hr
    exact h.monitorRelease hb hr
  · exact h.raise

/-- The owner gives the monitor up, and its count is saved. -/
theorem waits (h : LockInv w) (data : MonitorData) (hb : w.blocked t = none)
    (hmark : data.markWord = (w.header o).getMarkWord) (hown : (w.header o).owner = some t)
    (htid : data.tid = none) {info : WakeupInfo} {sched : Scheduler} :
    LockInv (({ w.setMonitor o data with sched := sched } : World).block t
      (.wait o (w.header o).holdCount) a info) := by
  obtain ⟨hpos, hacq, -, -⟩ := (h.locks t o).own hown
  have hself : (({ w.setMonitor o data with sched := sched } : World).block t
      (.wait o (w.header o).holdCount) a info).blocked t = some (.wait o (w.header o).holdCount) :=
    Function.update_self ..
  refine h.change t o (fun o' ho => Function.update_of_ne ho ..) ?_ (fun _ _ _ => rfl)
    (fun _ _ _ => rfl) (fun t' ht => Function.update_of_ne ht ..) rfl (fun t' ht => ?_) ?_
    fun o' ho => ?_
  · show (update w.header o (.expanded data) o).getMarkWord = _
    rw [Function.update_self]
    exact hmark
  · exact owner_expanded hown ht (by simp [htid])
  · rw [hself]
    show LockOk (update w.header o (.expanded data) o).owner
      (update w.header o (.expanded data) o).holdCount t o _ _ _
    rw [Function.update_self]
    have howner : (HeaderWord.expanded data).owner = none := htid
    rw [howner]
    refine ⟨fun h' => (by cases h'), fun _ => ?_, fun n hn => ?_⟩
    · simp only [Option.elim_some, Blocked.saved, if_pos]
      exact hacq
    · rcases hn with hn | ⟨a, hn⟩
      · cases hn
        exact hpos
      · cases hn
  · rw [hself, hb]
    simp [Blocked.saved, Ne.symm ho]

theorem wait0 {interrupted : Bool} {wakeupUs : Nat} (h : LockInv w) (hb : w.blocked t = none) :
    LockInv (w.wait0 t o interrupted wakeupUs a) := by
  unfold World.wait0 World.monitorReleaseAllHoldCount
  split_ifs
  · exact h.raise
  · cases hw : w.header o with
    | markWord word =>
      dsimp only [HeaderWord.inspectMonitor]
      rw [if_pos rfl]
      exact h.raise
    | expanded data =>
      dsimp only [HeaderWord.inspectMonitor]
      by_cases hnot : data.tid ≠ some t ∨ data.holdCount = 0
      · rw [if_pos hnot]
        dsimp only
        rw [if_pos rfl]
        exact h.raise
      · rw [if_neg hnot]
        rw [not_or, not_not] at hnot
        dsimp only
        rw [if_neg hnot.2]
        have hcount : data.holdCount = (w.header o).holdCount := by rw [hw]; rfl
        rw [hcount]
        exact h.waits { data with tid := none, holdCount := 0 } hb (by rw [hw]; rfl)
          (by rw [hw]; exact hnot.1) rfl

/-- A thread gets back what it had when it began to wait. -/
theorem monitorReacquire {info : WakeupInfo} (h : LockInv w)
    (hb : w.blocked t = some (.wait o n) ∨ ∃ a, w.blocked t = some (.reacquire o n a)) :
    LockInv (w.monitorReacquire t o n a info) := by
  have howner := owner_eq (w.header o)
  have hold := h.locks t o
  have hpos : 0 < n := hold.waiting n hb
  have hsaved : ∀ o', (w.blocked t).elim 0 (Blocked.saved o') = if o = o' then n else 0 := by
    intro o'
    rcases hb with hb | ⟨a', hb⟩ <;> rw [hb] <;> rfl
  have hnot : (w.header o).owner ≠ some t := by
    intro hown
    have := (hold.own hown).2.2.1
    rw [hsaved, if_pos rfl] at this
    omega
  unfold World.monitorReacquire
  dsimp only
  split
  · rename_i htid
    rw [htid] at howner
    refine h.change t o (fun o' ho => Function.update_of_ne ho ..) ?_ (fun _ _ _ => rfl)
      (fun _ _ _ => rfl) (fun t' ht => Function.update_of_ne ht ..) rfl (fun t' ht => ?_) ?_
      fun o' ho => ?_
    · show (update w.header o _ o).getMarkWord = _
      rw [Function.update_self]
      exact markWord_inflate _
    · show ((update w.header o _ o).owner = _ ↔ _) ∧ _
      rw [Function.update_self, howner]
      refine ⟨⟨fun h' => ?_, fun h' => by cases h'⟩, fun h' => by cases h'⟩
      exact absurd (Option.some.inj h').symm ht
    · show LockOk (update w.header o _ o).owner (update w.header o _ o).holdCount t o _ _
        (update w.blocked t none t)
      rw [Function.update_self, Function.update_self]
      refine ⟨fun _ => ⟨hpos, ?_, rfl, by simp⟩, fun h' => absurd rfl h', fun k hk => ?_⟩
      · have := hold.other hnot
        rw [hsaved, if_pos rfl] at this
        exact this
      · rcases hk with hk | ⟨a, hk⟩ <;> cases hk
    · show (update w.blocked t none t).elim 0 _ = _ ∧ update w.blocked t none t ≠ _ ∧
        ∀ n, update w.blocked t none t ≠ _ ∧ ∀ a, update w.blocked t none t ≠ _
      rw [Function.update_self, hsaved, if_neg (Ne.symm ho)]
      simp
  · rename_i owner htid
    rw [htid] at howner
    rw [if_neg (by rintro rfl; exact hnot howner)]
    exact h.blocks (fun o' => by rw [hsaved]; rfl) (Or.inr ⟨n, a, rfl, hpos⟩) hnot

theorem getObjectHashCode {next : Nat} (h : LockInv w) (hnext : next ≠ 0) :
    LockInv (w.getObjectHashCode o next) := by
  have howner : ∀ header : HeaderWord, ∀ k, (header.setHash k).owner = header.owner ∧
      (header.setHash k).holdCount = header.holdCount ∧
      (header.setHash k).getMarkWord.hash = k := by
    rintro (word | data) k <;> exact ⟨rfl, rfl, rfl⟩
  unfold World.getObjectHashCode
  dsimp only
  generalize hk : (if (w.header o).getMarkWord.hash = 0 then next
    else (w.header o).getMarkWord.hash) = k
  have hk0 : k ≠ 0 := by
    rw [← hk]
    split_ifs with hz
    · exact hnext
    · exact hz
  constructor
  · intro t' o'
    have hold := h.locks t' o'
    by_cases ho : o' = o
    · subst ho
      show LockOk (update w.header o' _ o').owner (update w.header o' _ o').holdCount t' o' _ _ _
      rw [Function.update_self, (howner _ _).1, (howner _ _).2.1]
      exact hold
    · show LockOk (update w.header o _ o').owner (update w.header o _ o').holdCount t' o' _ _ _
      rw [Function.update_of_ne ho]
      exact hold
  · intro p hp
    show (update w.header o _ p.1).getMarkWord.hash = p.2 ∧ _
    rcases List.mem_cons.mp hp with rfl | hp
    · rw [Function.update_self]
      exact ⟨(howner _ _).2.2, hk0⟩
    · have hold := h.hashes p hp
      by_cases ho : p.1 = o
      · rw [ho] at hold ⊢
        rw [Function.update_self, (howner _ _).2.2, ← hk, if_neg (by rw [hold.1]; exact hold.2)]
        exact hold
      · rw [Function.update_of_ne ho]
        exact hold

theorem holds_iff (h : LockInv w) : w.Holds t o ↔ (w.header o).owner = some t := by
  have hold := h.locks t o
  unfold World.Holds World.saved
  refine ⟨fun ⟨hlt, hsaved⟩ => ?_, fun hown => ?_⟩
  · by_contra hnot
    have := hold.other hnot
    omega
  · obtain ⟨hpos, hacq, hsaved, -⟩ := hold.own hown
    exact ⟨by omega, hsaved⟩

end LockInv

/-! ### Runs -/

/-- No two threads hold a monitor, the hold count is the number of acquires that have not been
released, and is saved by a waiting thread, a release by another thread throws and changes nothing,
and an object keeps its hash. -/
structure MonitorsSound (w : World) : Prop where
  exclusive : ∀ {t t' o}, w.Holds t o → w.Holds t' o → t = t'
  counted : ∀ t o, w.saved t o = 0 →
    w.acquires t o = w.releases t o + w.currentThreadHoldCount t o
  restored : ∀ t o n, w.blocked t = some (.wait o n) ∨ (∃ a, w.blocked t = some (.reacquire o n a)) →
    w.acquires t o = w.releases t o + n
  legal : ∀ t o, w.Holds t o → (w.monitorRelease t o).isSome
  illegal : ∀ t o, ¬ w.Holds t o → w.monitorexit t o = w.raise t .illegalMonitorState
  hash : ∀ {o h}, (o, h) ∈ w.hashes → (w.header o).getMarkWord.hash = h

theorem LockInv.sound (h : LockInv w) : MonitorsSound w where
  exclusive ht ht' := Option.some.inj ((h.holds_iff.mp ht).symm.trans (h.holds_iff.mp ht'))
  counted t o hs := by
    rw [currentThreadHoldCount_eq]
    split_ifs with hown
    · exact ((h.locks t o).own hown).2.1
    · have := (h.locks t o).other hown
      unfold World.saved at hs
      rwa [hs] at this
  restored t o n hb := by
    have hold := h.locks t o
    have hpos := hold.waiting n hb
    have hsaved : (w.blocked t).elim 0 (Blocked.saved o) = n := by
      rcases hb with hb | ⟨a, hb⟩ <;> rw [hb] <;> exact if_pos rfl
    have hnot : (w.header o).owner ≠ some t := fun hown => by
      have := (hold.own hown).2.2.1
      omega
    rw [hold.other hnot, hsaved]
  legal t o ht := by
    have hown := h.holds_iff.mp ht
    have hpos := ((h.locks t o).own hown).1
    unfold World.monitorRelease
    cases hw : w.header o with
    | markWord word =>
      rw [hw] at hown
      cases hown
    | expanded data =>
      rw [hw] at hown hpos
      dsimp only [HeaderWord.inspectMonitor]
      have hnot : ¬ (data.tid ≠ some t ∨ data.holdCount = 0) := by
        rw [not_or, not_not]
        exact ⟨hown, hpos.ne'⟩
      rw [if_neg hnot]
      split_ifs <;> rfl
  illegal t o ht := by
    have hown : (w.header o).owner ≠ some t := fun h' => ht (h.holds_iff.mpr h')
    unfold World.monitorexit World.monitorRelease
    cases hw : w.header o with
    | markWord word => rfl
    | expanded data =>
      rw [hw] at hown
      dsimp only [HeaderWord.inspectMonitor]
      have hnot : data.tid ≠ some t ∨ data.holdCount = 0 := Or.inl hown
      rw [if_pos hnot]
  hash hp := (h.hashes _ hp).1

/-- The hold count is not at the greatest `u32` when the owner acquires the monitor again. -/
def NoOverflow (_ : Env) (w : World) : Event → Prop
  | .monitorAcquire o _ _ =>
    ∀ t, w.runner = some t → w.currentThreadHoldCount t o + 1 < uint32Size
  | _ => True

theorem runner_eq_some :
    w.runner = some t ↔ w.sched.running = some t ∧ w.blocked t = none := by
  unfold World.runner
  cases w.sched.running with
  | none => simp
  | some r =>
    by_cases hb : w.blocked r = none
    · simp only [hb, if_true, Option.some.injEq]
      exact ⟨fun h => ⟨h, h ▸ hb⟩, fun h => h.1⟩
    · simp only [hb, if_false, Option.some.injEq]
      exact ⟨fun h => (by cases h), fun h => absurd (h.1 ▸ h.2) hb⟩

theorem runner_blocked (h : w.runner = some t) : w.blocked t = none := (runner_eq_some.mp h).2

theorem LockInv.step (h : LockInv w) (hstep : w.step env e = some w') (he : NoOverflow env w e) :
    LockInv w' := by
  cases e with
  | run t =>
    simp only [World.step, Option.map_eq_some_iff] at hstep
    obtain ⟨sched, -, rfl⟩ := hstep
    exact h.of_sched sched
  | step =>
    simp only [World.step, Option.map_eq_some_iff] at hstep
    obtain ⟨sched, -, rfl⟩ := hstep
    exact h.of_sched sched
  | monitorAcquire o allocFails a =>
    simp only [World.step, Option.map_eq_some_iff] at hstep
    obtain ⟨t, ht, rfl⟩ := hstep
    refine h.monitorAcquire (runner_blocked ht) fun hown => ?_
    have := he t ht
    rwa [currentThreadHoldCount_eq, if_pos hown] at this
  | monitorexit o =>
    simp only [World.step, Option.map_eq_some_iff] at hstep
    obtain ⟨t, ht, rfl⟩ := hstep
    exact h.monitorexit (runner_blocked ht)
  | wait o interrupted wakeupUs a =>
    simp only [World.step, Option.map_eq_some_iff] at hstep
    obtain ⟨t, ht, rfl⟩ := hstep
    exact h.wait0 (runner_blocked ht)
  | resume a =>
    simp only [World.step, Option.bind_eq_some_iff] at hstep
    obtain ⟨t, -, hr⟩ := hstep
    unfold World.resume at hr
    split at hr
    · cases hr
    · rename_i o hb
      cases hr
      refine h.acquireLoop (Or.inr hb) fun hown => ?_
      exact absurd hb ((h.locks t o).own hown).2.2.2
    · rename_i o n hb
      cases hr
      exact h.monitorReacquire (Or.inl hb)
    · rename_i o n record hb
      cases hr
      exact h.monitorReacquire (Or.inr ⟨record, hb⟩)
  | notify o all =>
    simp only [World.step, Option.map_eq_some_iff] at hstep
    obtain ⟨t, -, rfl⟩ := hstep
    unfold World.notify
    split_ifs
    · exact h.raise
    · exact h.of_sched _
    · exact h.of_sched _
  | hashCode o next =>
    simp only [World.step] at hstep
    split_ifs at hstep with hnext
    rw [Option.map_eq_some_iff] at hstep
    obtain ⟨t, -, rfl⟩ := hstep
    exact h.getObjectHashCode hnext
  | suspend a info =>
    simp only [World.step] at hstep
    split_ifs at hstep
    rw [Option.map_eq_some_iff] at hstep
    obtain ⟨t, -, rfl⟩ := hstep
    exact h.of_sched _
  | finish result =>
    simp only [World.step, Option.bind_eq_some_iff, Option.map_eq_some_iff] at hstep
    obtain ⟨t, -, sched, -, rfl⟩ := hstep
    exact h.of_sched sched
  | write a info =>
    cases hstep
    exact h.of_sched _

theorem LockInv.start : LockInv {} :=
  ⟨fun _ _ => ⟨fun h => (by cases h), fun _ => rfl, fun _ h => by
    rcases h with h | ⟨_, h⟩ <;> cases h⟩, fun _ h => absurd h List.not_mem_nil⟩

/-- In every run in which no hold count overflows, monitors are held as they should be. -/
theorem monitorsSound_of_run (run : MonitorRun NoOverflow w) : MonitorsSound w := by
  suffices h : LockInv w from h.sound
  induction run with
  | start => exact .start
  | step env _ hstep he ih => exact ih.step hstep he

/-- A thread acquires a monitor. -/
theorem monitorsSound_acquired : ∃ w, MonitorRun NoOverflow w ∧ w.Holds 1 7 ∧ MonitorsSound w := by
  obtain ⟨w₁, h₁⟩ : ∃ w, World.step {} {} (.run 1) = some w := ⟨_, rfl⟩
  obtain ⟨w₂, h₂⟩ : ∃ w, World.step {} w₁ .step = some w := by
    cases h₁
    exact ⟨_, rfl⟩
  obtain ⟨w₃, h₃⟩ : ∃ w, World.step {} w₂ (.monitorAcquire 7 false 0) = some w := by
    cases h₁
    cases h₂
    exact ⟨_, rfl⟩
  have run : MonitorRun NoOverflow w₃ := by
    refine .step {} (.step {} (.step {} .start h₁ trivial) h₂ trivial) h₃ fun t ht => ?_
    cases h₁
    cases h₂
    show 0 + 1 < uint32Size
    decide
  refine ⟨w₃, run, ?_, monitorsSound_of_run run⟩
  cases h₁
  cases h₂
  cases h₃
  exact ⟨by decide, rfl⟩

/-- Each of the steps meets the condition. -/
def World.Meets (P : Env → World → Event → Prop) : World → List (Env × Event) → Prop
  | _, [] => True
  | w, (env, e) :: events => P env w e ∧ ∀ w' ∈ w.step env e, w'.Meets P events

instance World.decidableMeets {P : Env → World → Event → Prop} [∀ env w e, Decidable (P env w e)] :
    ∀ (w : World) (events : List (Env × Event)), Decidable (w.Meets P events)
  | _, [] => inferInstanceAs (Decidable True)
  | w, (env, e) :: events =>
    have : DecidablePred fun w' : World => w'.Meets P events := fun w' => decidableMeets w' events
    inferInstanceAs (Decidable (P env w e ∧ ∀ w' ∈ w.step env e, w'.Meets P events))

theorem meets_true {events : List (Env × Event)} : w.Meets (fun _ _ _ => True) events := by
  induction events generalizing w with
  | nil => exact trivial
  | cons event events ih => exact ⟨trivial, fun _ _ => ih⟩

theorem monitorRun_stepAll {P : Env → World → Event → Prop} {events : List (Env × Event)}
    (run : MonitorRun P w) (hmeets : w.Meets P events) (h : w.stepAll events = some w') :
    MonitorRun P w' := by
  induction events generalizing w with
  | nil =>
    cases h
    exact run
  | cons event events ih =>
    obtain ⟨env, e⟩ := event
    unfold World.stepAll at h
    rw [Option.bind_eq_some_iff] at h
    obtain ⟨w₁, hstep, hrest⟩ := h
    exact ih (.step env run hstep hmeets.1) (hmeets.2 w₁ hstep) hrest

/-- A thread that is running has acquired a monitor `n + 1` times. -/
theorem acquire_many (n : Nat) : ∃ w, MonitorRun (fun _ _ _ => True) w ∧
    w.runner = some 1 ∧ w.blocked 1 = none ∧
    (∃ word, w.header 7 = .expanded ⟨some 1, (n + 1) % uint32Size, word⟩) ∧
    w.acquires 1 7 = n + 1 ∧ w.releases 1 7 = 0 := by
  induction n with
  | zero =>
    obtain ⟨w, hw⟩ : ∃ w, World.stepAll {} [({}, .run 1), ({}, .step),
      ({}, .monitorAcquire 7 false 0)] = some w := ⟨_, rfl⟩
    refine ⟨w, monitorRun_stepAll .start meets_true hw, ?_⟩
    cases hw
    exact ⟨rfl, rfl, ⟨{}, rfl⟩, rfl, rfl⟩
  | succ n ih =>
    obtain ⟨w, run, hr, hb, ⟨word, hheader⟩, hacq, hrel⟩ := ih
    have hstep : w.step {} (.monitorAcquire 7 false 0) = some (w.monitorAcquire 1 7 false 0) := by
      simp only [World.step, hr, Option.map_some]
    have hloop : w.monitorAcquire 1 7 false 0 = ((w.setMonitor 7
        ⟨some 1, ((n + 1) % uint32Size + 1) % uint32Size, word⟩).noteAcquire 1 7).unblock 1 := by
      unfold World.monitorAcquire World.acquireLoop
      simp only [hheader, HeaderWord.inflate, if_true]
    refine ⟨_, .step {} run hstep trivial, ?_⟩
    rw [hloop]
    refine ⟨?_, ?_, ⟨word, ?_⟩, ?_, hrel⟩
    · refine runner_eq_some.mpr ⟨(runner_eq_some.mp hr).1, ?_⟩
      show update w.blocked 1 none 1 = none
      exact Function.update_self ..
    · show update w.blocked 1 none 1 = none
      exact Function.update_self ..
    · rw [Nat.mod_add_mod]
      show update w.header 7 (.expanded _) 7 = _
      exact Function.update_self ..
    · show update w.acquires 1 (update (w.acquires 1) 7 (w.acquires 1 7 + 1)) 1 7 = _
      rw [update_noted_self, hacq]

/-- The owner of a monitor cannot release it, when it has acquired it `2 ^ 32` times. -/
theorem hold_count_overflows : ∃ w, MonitorRun (fun _ _ _ => True) w ∧ w.Holds 1 7 ∧
    w.monitorRelease 1 7 = none ∧ ¬ MonitorsSound w := by
  obtain ⟨w, run, -, hb, ⟨word, hheader⟩, hacq, hrel⟩ := acquire_many (uint32Size - 1)
  have hholds : w.Holds 1 7 := by
    refine ⟨?_, ?_⟩
    · rw [hacq, hrel]
      exact Nat.succ_pos _
    · unfold World.saved
      rw [hb]
      rfl
  have hcount : (uint32Size - 1 + 1) % uint32Size = 0 := by decide
  have hrelease : w.monitorRelease 1 7 = none := by
    unfold World.monitorRelease
    rw [hheader, hcount]
    rfl
  refine ⟨w, run, hholds, hrelease, fun h => ?_⟩
  have := h.legal 1 7 hholds
  rw [hrelease] at this
  cases this

end BJvm.Threads
