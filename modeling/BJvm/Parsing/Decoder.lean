import Mathlib.Tactic.Common
import Mathlib.Algebra.Order.Ring.Nat
import Mathlib.Data.List.Basic

/-!
# Decoders of byte strings

A decoder takes what it reads off the front of the bytes.  That it reads a byte string as a value
(`Decodes`) is said with whatever may come behind, so the rules put byte strings together as the
decoders are: one behind the other, a counted vector, a part with its size in front.

The numbers are those of LEB128, with a bound on their bits.
-/

namespace Decoding

/-- Reads a value off the front of the bytes, or fails. -/
def Decoder (α : Type) := List UInt8 → Option (α × List UInt8)

namespace Decoder

instance : Monad Decoder where
  pure a := fun bs => some (a, bs)
  bind d f := fun bs => (d bs).bind fun r => f r.1 r.2

def fail {α : Type} : Decoder α := fun _ => none

def ensure (p : Prop) [Decidable p] : Decoder Unit := if p then pure () else fail

def byte : Decoder UInt8
  | [] => none
  | b :: bs => some (b, bs)

def times {α : Type} (d : Decoder α) : Nat → Decoder (List α)
  | 0 => pure []
  | n + 1 => do
    let a ← d
    let as ← times d n
    pure (a :: as)

/-- Hands a decoder the next `n` bytes, all of which it has to read. -/
def exactly {α : Type} (n : Nat) (d : Decoder α) : Decoder α := fun bs =>
  if bs.length < n then none
  else match d (bs.take n) with
    | some (a, []) => some (a, bs.drop n)
    | _ => none

/-- An unsigned number of at most `N` bits in LEB128. -/
def uN : Nat → Decoder Nat
  | _, [] => none
  | N, b :: bs =>
    if b.toNat < 128 then
      if b.toNat < 2 ^ N then some (b.toNat, bs) else none
    else if 7 < N then (uN (N - 7) bs).map fun r => (128 * r.1 + (b.toNat - 128), r.2)
    else none

/-- A signed number of at most `N` bits in LEB128. -/
def sN : Nat → Decoder Int
  | _, [] => none
  | N, b :: bs =>
    if b.toNat < 64 then
      if b.toNat < 2 ^ (N - 1) then some (b.toNat, bs) else none
    else if b.toNat < 128 then
      if 128 ≤ b.toNat + 2 ^ (N - 1) then some (b.toNat - 128, bs) else none
    else if 7 < N then (sN (N - 7) bs).map fun r => (128 * r.1 + (b.toNat - 128), r.2)
    else none

/-- A vector, with its length in front. -/
def vec {α : Type} (d : Decoder α) : Decoder (List α) := do
  let n ← uN 32
  times d n

/-- Something with its size in bytes in front. -/
def sized {α : Type} (d : Decoder α) : Decoder α := do
  let n ← uN 32
  exactly n d

end Decoder

open Decoder

variable {α β : Type} {d : Decoder α} {bs bs' : List UInt8} {a : α} {n N : Nat}

/-- The decoder reads the bytes as the value, whatever is behind them. -/
def Decodes (d : Decoder α) (bs : List UInt8) (a : α) : Prop :=
  ∀ rest, d (bs ++ rest) = some (a, rest)

theorem decodes_pure (a : α) : Decodes (pure a) [] a := fun _ => rfl

theorem Decodes.bind {f : α → Decoder β} {b : β} (h : Decodes d bs a)
    (hf : Decodes (f a) bs' b) : Decodes (d >>= f) (bs ++ bs') b := by
  intro rest
  rw [List.append_assoc]
  change (d (bs ++ (bs' ++ rest))).bind _ = _
  rw [h]
  exact hf rest

/-- What only looks at what was read adds no bytes. -/
theorem Decodes.bind_nil {f : α → Decoder β} {b : β} (h : Decodes d bs a)
    (hf : Decodes (f a) [] b) : Decodes (d >>= f) bs b := by
  have := h.bind hf
  rwa [List.append_nil] at this

theorem Decodes.ensure_bind {p : Prop} [Decidable p] {f : Unit → Decoder β} {b : β} (hp : p)
    (hf : Decodes (f ()) bs b) : Decodes (ensure p >>= f) bs b := by
  have h : Decodes (ensure p) [] () := by
    rw [ensure, if_pos hp]
    exact decodes_pure ()
  exact h.bind hf

theorem decodes_byte (b : UInt8) : Decodes byte [b] b := fun _ => rfl

theorem Decodes.map (f : α → β) (h : Decodes d bs a) : Decodes (f <$> d) bs (f a) :=
  h.bind_nil (decodes_pure _)

/-- A known byte decides how the decoder goes on. -/
theorem Decodes.byte_bind {f : UInt8 → Decoder β} {b : β} (c : UInt8) (hf : Decodes (f c) bs b) :
    Decodes (byte >>= f) (c :: bs) b :=
  (decodes_byte c).bind hf

theorem Decodes.eq_of_exact (h : Decodes d bs a) : d bs = some (a, []) := by
  simpa using h []

theorem Decodes.times_cons {as : List α} (h : Decodes d bs a) (hs : Decodes (times d n) bs' as) :
    Decodes (times d (n + 1)) (bs ++ bs') (a :: as) :=
  h.bind (hs.bind_nil (decodes_pure _))

theorem decodes_times {w : β → List UInt8} {g : β → α} :
    ∀ {l : List β}, (∀ x ∈ l, Decodes d (w x) (g x)) →
      Decodes (times d l.length) (l.flatMap w) (l.map g)
  | [], _ => decodes_pure []
  | x :: l, h => by
    rw [List.flatMap_cons]
    exact (h x List.mem_cons_self).times_cons
      (decodes_times fun y hy => h y (List.mem_cons_of_mem _ hy))

theorem Decodes.vec {w : β → List UInt8} {g : β → α} {l : List β}
    (hn : Decodes (uN 32) bs l.length) (h : ∀ x ∈ l, Decodes d (w x) (g x)) :
    Decodes (vec d) (bs ++ l.flatMap w) (l.map g) :=
  hn.bind (decodes_times h)

theorem Decodes.exactly (h : Decodes d bs a) : Decodes (exactly bs.length d) bs a := by
  intro rest
  rw [Decoder.exactly, if_neg (by simp), List.take_left, h.eq_of_exact, List.drop_left]

theorem Decodes.sized (hn : Decodes (uN 32) bs' bs.length) (h : Decodes d bs a) :
    Decodes (sized d) (bs' ++ bs) a :=
  hn.bind h.exactly

theorem decodes_uN_last {b : UInt8} (hb : b.toNat < 128) (hN : b.toNat < 2 ^ N) :
    Decodes (uN N) [b] b.toNat := by
  intro rest
  change uN N (b :: rest) = _
  rw [uN, if_pos hb, if_pos hN]

theorem Decodes.uN_cons {b : UInt8} (h : Decodes (uN (N - 7)) bs n) (hb : 128 ≤ b.toNat)
    (hN : 7 < N) : Decodes (uN N) (b :: bs) (128 * n + (b.toNat - 128)) := by
  intro rest
  change uN N (b :: (bs ++ rest)) = _
  rw [uN, if_neg (by omega), if_pos hN, h]
  rfl

theorem decodes_sN_last {b : UInt8} (hb : b.toNat < 64) (hN : b.toNat < 2 ^ (N - 1)) :
    Decodes (sN N) [b] b.toNat := by
  intro rest
  change sN N (b :: rest) = _
  rw [sN, if_pos hb, if_pos hN]

theorem decodes_sN_last_neg {b : UInt8} (hb : 64 ≤ b.toNat) (hb' : b.toNat < 128)
    (hN : 128 ≤ b.toNat + 2 ^ (N - 1)) : Decodes (sN N) [b] (b.toNat - 128) := by
  intro rest
  change sN N (b :: rest) = _
  rw [sN, if_neg (by omega), if_pos hb', if_pos hN]

theorem Decodes.sN_cons {b : UInt8} {i : Int} (h : Decodes (sN (N - 7)) bs i)
    (hb : 128 ≤ b.toNat) (hN : 7 < N) :
    Decodes (sN N) (b :: bs) (128 * i + (b.toNat - 128)) := by
  intro rest
  change sN N (b :: (bs ++ rest)) = _
  rw [sN, if_neg (by omega), if_neg (by omega), if_pos hN, h]
  rfl

end Decoding
