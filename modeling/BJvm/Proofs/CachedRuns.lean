import BJvm.Proofs.CachedDispatch
import BJvm.Proofs.Resumption
import BJvm.Simulation.Stuttering
import Mathlib.Tactic.IntervalCases

/-!
# Runs of the two interpreters

Typed code runs, in the plain interpreter, to the end or forever, with the kinds found for it on the
stack.  The interpreter that caches the top of the stack simulates it, stuttering where it fills up
the fuel: both come to the same ends.
-/

namespace BJvm.Interpreter

open ClassFile Relation Simulation

variable {W : Type} {vm : Vm W} {fm : FrameMethod} {P : TypedCode} {m : Machine W} {s : Plain W}
  {c : Config W} {p p' : PlainConfig W}

theorem PlainConfig.Typed.step (hw : P.WellTyped fm) (hv : vm.Respects P) (ht : p.Typed P)
    (hp : p.step vm fm = some p') : p'.Typed P := by
  cases p with
  | running s =>
    obtain ⟨p'', hstep, htyped⟩ := Typed.step hw hv ht
    exact Option.some.inj (hstep.symm.trans hp) ▸ htyped
  | returned heap v => cases hp
  | thrown heap e => cases hp

theorem PlainConfig.Typed.reaches (hw : P.WellTyped fm) (hv : vm.Respects P) (ht : p.Typed P)
    (hp : p.Reaches vm fm p') : p'.Typed P := by
  induction hp with
  | refl => exact ht
  | tail _ hstep ih => exact ih.step hw hv hstep

/-- A run from a typed state is typed and does not get stuck. -/
theorem typed_run (hw : P.WellTyped fm) (hv : vm.Respects P) (ht : Typed P s)
    (hp : PlainConfig.Reaches vm fm (.running s) p) :
    p.Typed P ∧ (p.Ended ∨ ∃ p', p.step vm fm = some p') := by
  have htyped : p.Typed P := PlainConfig.Typed.reaches (p := .running s) hw hv ht hp
  refine ⟨htyped, ?_⟩
  cases p with
  | running s' =>
    obtain ⟨p', hstep, -⟩ := Typed.step hw hv htyped
    exact .inr ⟨p', hstep⟩
  | returned heap v => exact .inl trivial
  | thrown heap e => exact .inl trivial

/-- The VM that answers all with zero, around code that asks it for no method. -/
theorem zeroVm_respects
    (h : ∀ pc < P.size, (P.code pc).kind ∉ [.invokespecial, .invokestatic, .invokedynamic]) :
    zeroVm.Respects P where
  request := fun _ _ _ _ => ⟨rfl, id, .inl rfl⟩
  raise := fun _ _ _ _ => ⟨rfl, id, .inl rfl⟩
  putstatic := fun _ _ _ hc => hc
  new := fun _ _ _ hc => hc
  monitorRelease := nofun
  objectInit := fun pc hpc hk => absurd (by simp [hk]) (h pc hpc)
  intrinsic := fun pc hpc hk => absurd (by simp [hk]) (h pc hpc)
  arity := fun pc hpc hk => absurd (by simp [hk]) (h pc hpc)

/-! ### A method that adds 3 and 4 -/

def addingInsns : List ParsedInsn :=
  [{ kind := .iconst, tosBefore := .void, integerImm := 3 },
    { kind := .iconst, tosBefore := .int, integerImm := 4 },
    { kind := .iadd, tosBefore := .int }, { kind := .ireturn, tosBefore := .int }]

def adding : TypedCode :=
  ⟨4, fun pc => addingInsns.getD pc default, fun pc =>
    [[], [.int], [.int, .int], [.int]].getD pc []⟩

def addingMethod : FrameMethod := ⟨0, fun pc => (adding.kindsAt pc).length, []⟩

def addingHeap : Heap Unit :=
  ⟨(), fun _ => 0, fun pc => { toParsedInsn := adding.code pc }⟩

/-- The method is entered. -/
def addingStart : Plain Unit := ⟨addingHeap, fun _ => 0, 0, []⟩

theorem adding_wellTyped : adding.WellTyped addingMethod where
  depth := fun _ _ => rfl
  tosBefore := by decide
  operands := fun pc hpc => by
    have hpc : pc < 4 := hpc
    interval_cases pc <;>
      exact ⟨by decide, by decide, by decide, by decide, by decide, by decide⟩
  flows := fun pc hpc => by
    have hpc : pc < 4 := hpc
    interval_cases pc <;> exact ⟨_, rfl, by decide⟩
  dup2 := by decide
  handlers := nofun

theorem adding_respects : zeroVm.Respects adding := zeroVm_respects (by decide)

theorem addingStart_typed : Typed adding addingStart :=
  ⟨by decide, rfl, fun _ _ => ⟨rfl, .inl rfl⟩⟩

/-- Both constants are on the stack. -/
def addingBoth : Plain Unit := ⟨addingHeap, fun _ => 0, 2, [⟨.int, 4⟩, ⟨.int, 3⟩]⟩

theorem addingStart_reaches :
    PlainConfig.Reaches zeroVm addingMethod (.running addingStart) (.running addingBoth) :=
  .head rfl (.head rfl .refl)

theorem addingStart_typed_run :
    PlainConfig.Typed adding (.running addingBoth) ∧ ((PlainConfig.running addingBoth).Ended ∨
      ∃ p', (PlainConfig.running addingBoth).step zeroVm addingMethod = some p') :=
  typed_run adding_wellTyped adding_respects addingStart_typed addingStart_reaches

/-! ### The simulation -/

/-- The configuration represents a typed state. -/
def Represents (P : TypedCode) (c : Config W) (p : PlainConfig W) : Prop := Related c p ∧ p.Typed P

/-- A step of the plain interpreter is answered by one handler, or by one that fills up the fuel and
then one handler. -/
theorem cached_simulates (hw : P.WellTyped fm) (hv : vm.Respects P) :
    Simulates (fun c c' : Config W => c.step vm fm = some c') (fun p p' => p.step vm fm = some p')
      (Represents P) Config.rank := by
  rintro c (s | _ | _) p' ⟨hr, ht⟩ hstep
  · rcases c with ⟨m, tos⟩ | _ | _
    · obtain ⟨next, hd, hsim⟩ := Enters.answers ⟨hw, hv, ht, hr⟩
      have ht' : p'.Typed P := PlainConfig.Typed.step (p := .running s) hw hv ht hstep
      obtain ⟨c', hloop, hc'⟩ := hsim p' hstep fun s' hs' =>
        Typed.expected hw (by rw [hs'] at ht'; exact ht')
      refine ⟨c', ?_, hc'.imp (⟨·, ht'⟩) fun hwait => ⟨⟨hwait.1, ht⟩, hwait.2⟩⟩
      show (dispatch vm fm m tos).bind (Next.loop vm fm) = some c'
      rw [hd]
      exact hloop
    · exact hr.elim
    · exact hr.elim
  · cases hstep
  · cases hstep

theorem represents_progress (hw : P.WellTyped fm) (hv : vm.Respects P) (hr : Represents P c p) :
    (∃ p', p.step vm fm = some p') ∨ Final (fun c c' : Config W => c.step vm fm = some c') c := by
  obtain ⟨hrel, ht⟩ := hr
  cases p with
  | running s =>
    obtain ⟨p', hstep, -⟩ := Typed.step hw hv ht
    exact .inl ⟨p', hstep⟩
  | returned heap v => cases c <;> first | exact hrel.elim | exact .inr nofun
  | thrown heap e => cases c <;> first | exact hrel.elim | exact .inr nofun

/-- What a configuration stands for has ended if it has. -/
theorem Related.ended (hr : Related c p) : c.Ended ↔ p.Ended := by
  cases c <;> cases p <;> first | exact hr.elim | rfl

/-- The frame holds the state, with all values in memory. -/
structure FrameHolds (m : Machine W) (s : Plain W) : Prop where
  heap : m.heap = s.heap
  locals : m.locals = s.locals
  programCounter : m.programCounter = s.pc
  stack : Holds m.stack s.stack

theorem represents_begin (hw : P.WellTyped fm) (ht : Typed P s) (hm : FrameHolds m s) :
    Represents P (interpretBegin fm m) (.running s) :=
  ⟨related_begin hm.heap hm.locals hm.programCounter hm.stack (ht.expected hw), ht⟩

end BJvm.Interpreter
