import Mathlib.Algebra.Order.Ring.Int
import Mathlib.Tactic.Common

/-!
# Parsers over memory

A parser reads from a slice of memory, of which it knows the address and the length.  It leaves the
addresses that it has read, and a message or a value with the rest of the slice.  That it stays in
the slice is a part of it, so whatever is put together from parsers does, too.
-/

namespace Parsing

theorem ok_bind {ε α β : Type} (x : α) (f : α → Except ε β) : (Except.ok x >>= f) = f x := rfl

theorem error_bind {ε α β : Type} (e : ε) (f : α → Except ε β) :
    ((Except.error e : Except ε α) >>= f) = .error e := rfl

theorem bind_eq_ok {ε α β : Type} {x : Except ε α} {f : α → Except ε β} {r : β} :
    x >>= f = .ok r ↔ ∃ a, x = .ok a ∧ f a = .ok r := by
  cases x <;> simp [bind, Except.bind]

theorem pure_eq_ok {ε α : Type} {a r : α} : (pure a : Except ε α) = .ok r ↔ a = r := by
  simp [pure, Except.pure]

@[simp] theorem throw_ne_ok {ε α : Type} {e : ε} {r : α} : (throw e : Except ε α) ≠ .ok r := by
  simp [throw, throwThe, MonadExceptOf.throw]

theorem map_eq_ok {ε α β : Type} {x : Except ε α} {f : α → β} {r : β} :
    x.map f = .ok r ↔ ∃ a, x = .ok a ∧ f a = r := by
  cases x <;> simp [Except.map]

theorem map_of_mapM {ε α β γ : Type} {f : α → Except ε β} {g : β → γ} {h : α → γ}
    (hf : ∀ {x y}, f x = .ok y → g y = h x) :
    ∀ {l : List α} {l' : List β}, l.mapM f = .ok l' → l'.map g = l.map h
  | [], l', hl => by
    cases hl
    rfl
  | x :: l, l', hl => by
    simp only [List.mapM_cons, bind_eq_ok, pure_eq_ok] at hl
    obtain ⟨y, hy, k, hk, rfl⟩ := hl
    rw [List.map_cons, List.map_cons, hf hy, map_of_mapM hf hk]

theorem length_of_mapM {ε α β : Type} {f : α → Except ε β} {l : List α} {l' : List β}
    (h : l.mapM f = .ok l') : l'.length = l.length := by
  have hunit := map_of_mapM (g := fun _ => ()) (h := fun _ => ()) (fun _ => rfl) h
  simpa using congrArg List.length hunit

theorem mapM_eq_ok {ε α β : Type} {f : α → Except ε β} : ∀ {l : List α} {l' : List β},
    l.mapM f = .ok l' → ∀ j : Nat, l[j]?.map f = l'[j]?.map .ok
  | [], l', h, j => by
    cases h
    simp
  | x :: l, l', h, j => by
    simp only [List.mapM_cons, bind_eq_ok, pure_eq_ok] at h
    obtain ⟨y, hy, k, hk, rfl⟩ := h
    cases j with
    | zero => simp [hy]
    | succ j => simpa using mapM_eq_ok hk j

/-- The bytes at all addresses. -/
abbrev ByteMemory := Nat → UInt8

/-- The unsigned big-endian number in `n` bytes. -/
def beNat (m : ByteMemory) (a : Nat) : Nat → Nat
  | 0 => 0
  | n + 1 => beNat m a n * 256 + (m (a + n)).toNat

/-- The signed number with the bits of `n`, of which there are `w`. -/
def toSigned (w n : Nat) : Int := if n < 2 ^ (w - 1) then n else (n : Int) - 2 ^ w

/-- The signed big-endian number in `n` bytes. -/
def beInt (m : ByteMemory) (a n : Nat) : Int := toSigned (8 * n) (beNat m a n)

/-- The `n` bytes from an address on. -/
def bytesAt (m : ByteMemory) (a n : Nat) : List UInt8 := (List.range n).map fun i => m (a + i)

/-- A memory with the bytes at its start. -/
def memoryOf (bytes : List UInt8) : ByteMemory := fun a => bytes.getD a 0

/-- A part of memory. -/
structure Slice where
  bytes : Nat
  len : Nat
deriving DecidableEq, Repr

namespace Slice

variable (s : Slice)

/-- What is behind the first `n` bytes. -/
def drop (n : Nat) : Slice := ⟨s.bytes + n, s.len - n⟩

def take (n : Nat) : Slice := ⟨s.bytes, n⟩

def Contains (a : Nat) : Prop := s.bytes ≤ a ∧ a < s.bytes + s.len

@[simp] theorem drop_zero : s.drop 0 = s := rfl

@[simp] theorem bytes_drop (n : Nat) : (s.drop n).bytes = s.bytes + n := rfl
@[simp] theorem len_drop (n : Nat) : (s.drop n).len = s.len - n := rfl

theorem add_le_len {n k : Nat} (hn : n ≤ s.len) (hk : k ≤ (s.drop n).len) : n + k ≤ s.len := by
  rw [len_drop] at hk
  omega

theorem contains_of_drop {n a : Nat} (hn : n ≤ s.len) (h : (s.drop n).Contains a) :
    s.Contains a := by
  unfold Contains at *
  rw [bytes_drop, len_drop] at h
  omega

theorem contains_of_take {n a : Nat} (hn : n ≤ s.len) (h : (s.take n).Contains a) :
    s.Contains a := by
  unfold Contains take at *
  simp only at h
  omega

theorem contains_of_mem_range {n a : Nat} (hn : n ≤ s.len)
    (h : a ∈ (List.range n).map (s.bytes + ·)) : s.Contains a := by
  obtain ⟨i, hi, rfl⟩ := List.mem_map.mp h
  rw [List.mem_range] at hi
  unfold Contains
  omega

theorem drop_drop (n k : Nat) : (s.drop n).drop k = s.drop (n + k) := by
  unfold drop
  simp only [mk.injEq]
  omega

end Slice

/-- Where `memoryOf` has the bytes. -/
def sliceOf (bytes : List UInt8) : Slice := ⟨0, bytes.length⟩

/-- A parser.  It reads in its slice only, and leaves the end of it. -/
structure Parser (α : Type) where
  run : ByteMemory → Slice → List Nat × Except String (α × Slice)
  reads : ∀ m s, ∀ x ∈ (run m s).1, s.Contains x
  rest : ∀ m s a s', (run m s).2 = .ok (a, s') → ∃ n ≤ s.len, s' = s.drop n

namespace Parser

variable {α β : Type} {m : ByteMemory} {s s' s'' : Slice} {a : α} {b : β} {n : Nat} {reason : String}

theorem rest_self {x : α} (h : (Except.ok (x, s) : Except String _) = .ok (a, s')) :
    ∃ n ≤ s.len, s' = s.drop n := by
  simp only [Except.ok.injEq, Prod.mk.injEq] at h
  exact ⟨0, Nat.zero_le _, h.2.symm⟩

protected def pure (a : α) : Parser α where
  run _ s := ([], .ok (a, s))
  reads _ _ _ h := absurd h List.not_mem_nil
  rest _ _ _ _ h := rest_self h

/-- The parser stops. -/
def fail (e : String) : Parser α where
  run _ _ := ([], .error e)
  reads _ _ _ h := absurd h List.not_mem_nil
  rest _ _ _ _ h := by cases h

/-- One parser and then another. -/
def andThen (p : Parser α) (f : α → Parser β) (m : ByteMemory) (s : Slice) :
    List Nat × Except String (β × Slice) :=
  match (p.run m s).2 with
  | .ok (a, s') => ((p.run m s).1 ++ ((f a).run m s').1, ((f a).run m s').2)
  | .error e => ((p.run m s).1, .error e)

theorem andThen_eq_ok {p : Parser α} {f : α → Parser β} : (andThen p f m s).2 = .ok (b, s'') ↔
    ∃ a s', (p.run m s).2 = .ok (a, s') ∧ ((f a).run m s').2 = .ok (b, s'') := by
  unfold andThen
  cases h : (p.run m s).2 with
  | error e => simp
  | ok x =>
    obtain ⟨x, s₁⟩ := x
    simp only [Except.ok.injEq, Prod.mk.injEq]
    constructor
    · intro h
      exact ⟨x, s₁, ⟨rfl, rfl⟩, h⟩
    · rintro ⟨_, _, ⟨rfl, rfl⟩, h⟩
      exact h

protected def bind (p : Parser α) (f : α → Parser β) : Parser β where
  run := andThen p f
  reads m s x hx := by
    unfold andThen at hx
    cases h : (p.run m s).2 with
    | error e =>
      rw [h] at hx
      exact p.reads m s x hx
    | ok y =>
      obtain ⟨a, s'⟩ := y
      rw [h] at hx
      rcases List.mem_append.mp hx with hx | hx
      · exact p.reads m s x hx
      · obtain ⟨n, hn, rfl⟩ := p.rest m s a s' h
        exact s.contains_of_drop hn ((f a).reads m _ x hx)
  rest m s b s'' h := by
    obtain ⟨a, s', hp, hf⟩ := andThen_eq_ok.mp h
    obtain ⟨n, hn, rfl⟩ := p.rest m s a s' hp
    obtain ⟨k, hk, rfl⟩ := (f a).rest m _ b s'' hf
    exact ⟨n + k, s.add_le_len hn hk, s.drop_drop n k⟩

instance : Monad Parser where
  pure := Parser.pure
  bind := Parser.bind

/-- A computation that reads nothing. -/
def lift : Except String α → Parser α
  | .ok a => pure a
  | .error e => fail e

/-- The next `n` bytes as a number. -/
def nextNat (reason : String) (n : Nat) : Parser Nat where
  run m s :=
    if s.len < n then ([], .error reason)
    else ((List.range n).map (s.bytes + ·), .ok (beNat m s.bytes n, s.drop n))
  reads m s x hx := by
    split_ifs at hx with h
    · cases hx
    · exact s.contains_of_mem_range (Nat.not_lt.mp h) hx
  rest m s a s' h := by
    split_ifs at h with hn
    simp only [Except.ok.injEq, Prod.mk.injEq] at h
    exact ⟨n, Nat.not_lt.mp hn, h.2.symm⟩

def nextInt (reason : String) (n : Nat) : Parser Int := do
  return toSigned (8 * n) (← nextNat reason n)

/-- Where the parser is. -/
def position : Parser Nat where
  run _ s := ([], .ok (s.bytes, s))
  reads _ _ _ h := absurd h List.not_mem_nil
  rest _ _ _ _ h := rest_self h

/-- How many bytes are left. -/
def remaining : Parser Nat where
  run _ s := ([], .ok (s.len, s))
  reads _ _ _ h := absurd h List.not_mem_nil
  rest _ _ _ _ h := rest_self h

/-- Parses in the next `n` bytes, and goes on behind them. -/
def withSlice (reason : String) (n : Nat) (p : Parser α) : Parser α where
  run m s :=
    if s.len < n then ([], .error reason)
    else ((p.run m (s.take n)).1, (p.run m (s.take n)).2.map fun x => (x.1, s.drop n))
  reads m s x hx := by
    split_ifs at hx with h
    · cases hx
    · exact s.contains_of_take (Nat.not_lt.mp h) (p.reads m _ x hx)
  rest m s a s' h := by
    split_ifs at h with hn
    obtain ⟨_, -, heq⟩ := map_eq_ok.mp h
    exact ⟨n, Nat.not_lt.mp hn, (congrArg Prod.snd heq).symm⟩

/-- The bytes that are left. -/
def allBytes : Parser (List UInt8) where
  run m s := ((List.range s.len).map (s.bytes + ·), .ok (bytesAt m s.bytes s.len, s.drop s.len))
  reads _ s _ hx := s.contains_of_mem_range (Nat.le_refl _) hx
  rest _ s _ _ h := by
    simp only [Except.ok.injEq, Prod.mk.injEq] at h
    exact ⟨s.len, Nat.le_refl _, h.2.symm⟩

/-- Parses, and goes back. -/
def lookahead (p : Parser α) : Parser α where
  run m s := ((p.run m s).1, (p.run m s).2.map fun x => (x.1, s))
  reads m s x hx := p.reads m s x hx
  rest m s a s' h := by
    obtain ⟨_, -, heq⟩ := map_eq_ok.mp h
    exact ⟨0, Nat.zero_le _, (congrArg Prod.snd heq).symm⟩

/-- `n` times the same. -/
def times (p : Parser α) : Nat → Parser (List α)
  | 0 => pure []
  | n + 1 => do
    let a ← p
    let l ← times p n
    return a :: l

/-! ### Values -/

/-- The parser comes to its end with the value. -/
def Yields (p : Parser α) (m : ByteMemory) (s : Slice) (a : α) (s' : Slice) : Prop :=
  (p.run m s).2 = .ok (a, s')

@[simp] theorem yields_pure {x : α} : (pure x : Parser α).Yields m s a s' ↔ a = x ∧ s' = s := by
  show (Except.ok (x, s) : Except String _) = .ok (a, s') ↔ _
  simp [eq_comm]

@[simp] theorem yields_bind {p : Parser α} {f : α → Parser β} :
    (p >>= f).Yields m s b s'' ↔ ∃ a s', p.Yields m s a s' ∧ (f a).Yields m s' b s'' :=
  andThen_eq_ok

@[simp] theorem yields_fail {e : String} : ¬ (fail e : Parser α).Yields m s a s' := by
  intro h
  cases h

@[simp] theorem yields_lift {x : Except String α} :
    (lift x).Yields m s a s' ↔ x = .ok a ∧ s' = s := by
  unfold lift
  cases x with
  | error e => simp
  | ok x => simp [eq_comm]

@[simp] theorem yields_nextNat {k : Nat} : (nextNat reason n).Yields m s k s' ↔
    n ≤ s.len ∧ k = beNat m s.bytes n ∧ s' = s.drop n := by
  unfold Yields nextNat
  dsimp only
  split_ifs with h
  · simp [Nat.not_le.mpr h]
  · simp [Nat.not_lt.mp h, eq_comm]

@[simp] theorem yields_nextInt {k : Int} : (nextInt reason n).Yields m s k s' ↔
    n ≤ s.len ∧ k = beInt m s.bytes n ∧ s' = s.drop n := by
  unfold nextInt beInt
  simp only [yields_bind, yields_nextNat, yields_pure]
  constructor
  · rintro ⟨_, _, ⟨hn, rfl, rfl⟩, rfl, rfl⟩
    exact ⟨hn, rfl, rfl⟩
  · rintro ⟨hn, rfl, rfl⟩
    exact ⟨_, _, ⟨hn, rfl, rfl⟩, rfl, rfl⟩

@[simp] theorem yields_position {k : Nat} : position.Yields m s k s' ↔ k = s.bytes ∧ s' = s := by
  unfold Yields position
  simp [eq_comm]

@[simp] theorem yields_remaining {k : Nat} : remaining.Yields m s k s' ↔ k = s.len ∧ s' = s := by
  unfold Yields remaining
  simp [eq_comm]

@[simp] theorem yields_withSlice {p : Parser α} : (withSlice reason n p).Yields m s a s' ↔
    n ≤ s.len ∧ s' = s.drop n ∧ ∃ s'', p.Yields m (s.take n) a s'' := by
  unfold Yields withSlice
  dsimp only
  split_ifs with h
  · simp [Nat.not_le.mpr h]
  · rw [map_eq_ok]
    simp only [Nat.not_lt.mp h, true_and, Prod.mk.injEq]
    constructor
    · rintro ⟨x, hx, rfl, rfl⟩
      exact ⟨rfl, x.2, hx⟩
    · rintro ⟨rfl, s'', hx⟩
      exact ⟨(a, s''), hx, rfl, rfl⟩

@[simp] theorem yields_allBytes {l : List UInt8} : allBytes.Yields m s l s' ↔
    l = bytesAt m s.bytes s.len ∧ s' = s.drop s.len := by
  unfold Yields allBytes
  simp [eq_comm]

@[simp] theorem yields_lookahead {p : Parser α} : (lookahead p).Yields m s a s' ↔
    s' = s ∧ ∃ s'', p.Yields m s a s'' := by
  unfold Yields lookahead
  dsimp only
  rw [map_eq_ok]
  simp only [Prod.mk.injEq]
  constructor
  · rintro ⟨x, hx, rfl, rfl⟩
    exact ⟨rfl, x.2, hx⟩
  · rintro ⟨rfl, s'', hx⟩
    exact ⟨(a, s''), hx, rfl, rfl⟩

theorem exists_yields {p : Parser α} (h : (p.run m s).2.isOk) : ∃ a s', p.Yields m s a s' := by
  unfold Yields
  cases hp : (p.run m s).2 with
  | error e => simp [hp, Except.isOk, Except.toBool] at h
  | ok x => exact ⟨x.1, x.2, rfl⟩

/-- Every round takes `k` bytes. -/
theorem yields_times {p : Parser α} {k : Nat}
    (hk : ∀ {m s a s'}, p.Yields m s a s' → k ≤ s.len ∧ s' = s.drop k) :
    ∀ {n : Nat} {s : Slice} {l : List α}, (p.times n).Yields m s l s' →
      l.length = n ∧ k * n ≤ s.len ∧ s' = s.drop (k * n) ∧
        ∀ j a, l[j]? = some a → ∃ s'', p.Yields m (s.drop (k * j)) a s''
  | 0, s, l, h => by
    obtain ⟨rfl, rfl⟩ := yields_pure.mp h
    exact ⟨rfl, Nat.zero_le _, rfl, fun j a hj => by simp at hj⟩
  | n + 1, s, l, h => by
    unfold times at h
    simp only [yields_bind, yields_pure] at h
    obtain ⟨a, s₁, ha, l', s₂, hl', rfl, rfl⟩ := h
    obtain ⟨hlen, rfl⟩ := hk ha
    obtain ⟨rfl, hle, rfl, hget⟩ := yields_times hk hl'
    have hsum : k + k * l'.length = k * (l'.length + 1) := by rw [Nat.mul_succ, Nat.add_comm]
    refine ⟨rfl, hsum ▸ s.add_le_len hlen hle, by rw [Slice.drop_drop, hsum], fun j b hj => ?_⟩
    cases j with
    | zero =>
      cases hj
      exact ⟨_, ha⟩
    | succ j =>
      obtain ⟨s'', hb⟩ := hget j b hj
      rw [Slice.drop_drop, Nat.add_comm, ← Nat.mul_succ] at hb
      exact ⟨s'', hb⟩

theorem yields_of_mem_times {p : Parser α} : ∀ {n : Nat} {s s' : Slice} {l : List α},
    (p.times n).Yields m s l s' → ∀ a ∈ l, ∃ s₁ s₂, p.Yields m s₁ a s₂
  | 0, _, _, l, h, a, ha => by
    obtain ⟨rfl, -⟩ := yields_pure.mp h
    exact absurd ha List.not_mem_nil
  | n + 1, _, _, l, h, a, ha => by
    unfold times at h
    simp only [yields_bind, yields_pure] at h
    obtain ⟨b, _, hb, l', _, hl', rfl, -⟩ := h
    rcases List.mem_cons.mp ha with rfl | ha
    · exact ⟨_, _, hb⟩
    · exact yields_of_mem_times hl' a ha

/-! ### Parsers that agree on short slices -/

/-- The parsers do the same in slices of less than `n` bytes. -/
def AgreeBelow (n : Nat) (p p' : Parser α) : Prop := ∀ m s, s.len < n → p.run m s = p'.run m s

theorem AgreeBelow.refl (n : Nat) (p : Parser α) : AgreeBelow n p p := fun _ _ _ => rfl

theorem AgreeBelow.mono {k : Nat} {p p' : Parser α} (h : AgreeBelow n p p') (hk : k ≤ n) :
    AgreeBelow k p p' := fun m s hs => h m s (Nat.lt_of_lt_of_le hs hk)

theorem Yields.len_le {p : Parser α} (h : p.Yields m s a s') : s'.len ≤ s.len := by
  obtain ⟨n, -, rfl⟩ := p.rest m s a s' h
  rw [Slice.len_drop]
  omega

/-- The second parser has `k` bytes less. -/
theorem AgreeBelow.shorten {k : Nat} {p p' : Parser α} {f f' : α → Parser β}
    (hp : AgreeBelow n p p') (hk : ∀ {m s a s'}, p.Yields m s a s' → s'.len + k ≤ s.len)
    (hf : ∀ a, AgreeBelow (n - k) (f a) (f' a)) : AgreeBelow n (p >>= f) (p' >>= f') := by
  intro m s hs
  show Parser.andThen p f m s = Parser.andThen p' f' m s
  unfold Parser.andThen
  rw [← hp m s hs]
  cases h : (p.run m s).2 with
  | error e => rfl
  | ok x =>
    have := hk h
    simp only
    rw [hf x.1 m x.2 (by omega)]

theorem AgreeBelow.bind {p p' : Parser α} {f f' : α → Parser β} (hp : AgreeBelow n p p')
    (hf : ∀ a, AgreeBelow n (f a) (f' a)) : AgreeBelow n (p >>= f) (p' >>= f') :=
  hp.shorten (k := 0) (fun h => h.len_le) hf

theorem AgreeBelow.behind (p : Parser α) {f f' : α → Parser β}
    (hf : ∀ a, AgreeBelow n (f a) (f' a)) : AgreeBelow n (p >>= f) (p >>= f') :=
  (AgreeBelow.refl n p).bind hf

theorem AgreeBelow.times {p p' : Parser α} (h : AgreeBelow n p p') :
    ∀ k, AgreeBelow n (p.times k) (p'.times k)
  | 0 => .refl _ _
  | k + 1 => h.bind fun _ => (h.times k).bind fun _ => .refl _ _

theorem AgreeBelow.withSlice {k : Nat} {p p' : Parser α} (h : AgreeBelow n p p') :
    AgreeBelow n (withSlice reason k p) (withSlice reason k p') := by
  intro m s hs
  unfold Parser.withSlice
  dsimp only
  split_ifs with hk
  · rfl
  · rw [h m (s.take k) (Nat.lt_of_le_of_lt (Nat.not_lt.mp hk) hs)]

end Parser

end Parsing
