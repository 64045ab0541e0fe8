import BJvm.StackMap.Buffers
import BJvm.Proofs.StackMap
import BJvm.Analysis.Analyzer
import BJvm.Parsing.Reader

/-!
# The iterator and its buffers

As long as no frame runs over a buffer, the iterator on buffers goes where the one on lists does
(`next_follows`), and what it has read of a frame is the beginning of each buffer.  The entry of slop
takes a local of category 1 too many, not one of category 2, and `chop_frame` looks below the first
local (`keepsBounds_iff`).
-/

namespace BJvm

open Parsing

variable {count : Nat}

/-! ### Entries of a buffer -/

theorem length_le_of_holds {b : ValidationBuffer count} {l : List ValidationType}
    (h : l <+: b.toList) : l.length ≤ count + 1 := by
  have hle := h.length_le
  rwa [Vector.length_toList] at hle

theorem write_holds {b : ValidationBuffer count} {l : List ValidationType} (h : l <+: b.toList)
    (hlen : l.length < count + 1) (v : ValidationType) :
    ∃ b', b.write l.length v = .ok b' ∧ l ++ [v] <+: b'.toList := by
  refine ⟨_, dif_pos hlen, ?_⟩
  rw [Vector.toList_set]
  obtain ⟨t, ht⟩ := h
  rw [← ht, List.set_append_right _ _ le_rfl, Nat.sub_self]
  rcases t with _ | ⟨x, t⟩
  · have hl := b.length_toList
    rw [← ht, List.append_nil] at hl
    omega
  · exact ⟨t, by simp⟩

theorem write_outOfBounds {b : ValidationBuffer count} {i : Nat} (h : count < i)
    (v : ValidationType) : b.write i v = .error .outOfBounds := dif_neg (by omega)

theorem read_holds {b : ValidationBuffer count} {l : List ValidationType} {v : ValidationType}
    (h : l ++ [v] <+: b.toList) : b.read ((l ++ [v]).length - 1 : Int) = .ok v := by
  have hle := length_le_of_holds h
  have hidx : ((l ++ [v]).length - 1 : Int) = (l.length : Int) := by simp
  rw [List.length_append, List.length_singleton] at hle
  have hlen : l.length < count + 1 := by omega
  rw [hidx, ValidationBuffer.read, dif_pos ⟨by omega, hlen⟩]
  obtain ⟨t, ht⟩ := h
  have hget : b.toList[l.length]? = some v := by
    rw [← ht]
    simp
  rw [Vector.getElem?_toList, Vector.getElem?_eq_getElem hlen] at hget
  exact congrArg _ (Option.some.inj hget)

/-! ### Verification types -/

theorem readU16_ok {data rest : List UInt8} {n : Nat} (h : readU16 data = .ok (n, rest)) :
    ∃ u : UInt16, data = encodeU16 u ++ rest := by
  rcases data with _ | ⟨hi, _ | ⟨lo, data⟩⟩
  · cases h
  · cases h
  · cases h
    refine ⟨UInt16.ofNat (hi.toNat * 256 + lo.toNat), ?_⟩
    have hhi := hi.toNat_lt
    have hlo := lo.toNat_lt
    have hn : (UInt16.ofNat (hi.toNat * 256 + lo.toNat)).toNat = hi.toNat * 256 + lo.toNat := by
      rw [UInt16.toNat_ofNat']
      omega
    have h8 : (8 : UInt16).toNat % 16 = 8 := rfl
    simp only [encodeU16, List.cons_append, List.nil_append, List.cons.injEq, and_true]
    constructor <;> rw [← UInt8.toNat_inj]
    · simp only [UInt16.toNat_toUInt8, UInt16.toNat_shiftRight, hn, h8, Nat.shiftRight_eq_div_pow]
      omega
    · simp only [UInt16.toNat_toUInt8, hn]
      omega

theorem readU16_cons {data rest : List UInt8} {n : Nat} (h : readU16 data = .ok (n, rest)) :
    ∃ b1 b2, data = b1 :: b2 :: rest := by
  obtain ⟨u, rfl⟩ := readU16_ok h
  exact ⟨_, _, rfl⟩

theorem validationTypeKind_some {b : UInt8} {kind : ValidationTypeKind}
    (h : validationTypeKind b.toNat = some kind) :
    (kind ≠ .object ∧ kind ≠ .uninit ∧ ∃ t : VerificationType, t.kind = kind ∧ t.encode = [b]) ∨
      (kind = .object ∧ b = 7) ∨ (kind = .uninit ∧ b = 8) := by
  have key : ∀ n : Nat, n < 256 → b.toNat = n → b = UInt8.ofNat n := by
    rintro n - rfl
    exact UInt8.ofNat_toNat.symm
  revert h
  generalize hn : b.toNat = n
  have hlt : n < 256 := hn ▸ b.toNat_lt
  have hb := key n hlt hn
  intro h
  unfold validationTypeKind at h
  split at h <;> cases h <;> subst hb
  · exact .inl ⟨by decide, by decide, .top, rfl, rfl⟩
  · exact .inl ⟨by decide, by decide, .integer, rfl, rfl⟩
  · exact .inl ⟨by decide, by decide, .float, rfl, rfl⟩
  · exact .inl ⟨by decide, by decide, .double, rfl, rfl⟩
  · exact .inl ⟨by decide, by decide, .long, rfl, rfl⟩
  · exact .inl ⟨by decide, by decide, .null, rfl, rfl⟩
  · exact .inl ⟨by decide, by decide, .uninitializedThis, rfl, rfl⟩
  · exact .inr (.inl ⟨rfl, rfl⟩)
  · exact .inr (.inr ⟨rfl, rfl⟩)

/-- What is read as a verification type is the encoding of one. -/
theorem readVerificationType_ok {data rest : List UInt8} {v : ValidationType}
    (h : readVerificationType data = .ok (v, rest)) :
    ∃ t : VerificationType, data = t.encode ++ rest ∧ v = { kind := t.kind } := by
  rcases data with _ | ⟨b, data⟩
  · cases h
  have hread : readU8 (b :: data) = .ok (b.toNat, data) := rfl
  simp only [readVerificationType, hread, bind, Except.bind] at h
  rcases hkind : validationTypeKind b.toNat with _ | kind
  · rw [hkind] at h
    cases h
  rw [hkind] at h
  rcases validationTypeKind_some hkind with ⟨hobj, hun, t, rfl, ht⟩ | ⟨rfl, rfl⟩ | ⟨rfl, rfl⟩
  · dsimp only at h
    rw [if_neg (by tauto)] at h
    cases h
    exact ⟨t, by rw [ht]; rfl, rfl⟩
  · dsimp only at h
    rw [if_pos (.inl rfl)] at h
    rcases hu : readU16 data with _ | ⟨n, data'⟩ <;> rw [hu] at h <;> cases h
    obtain ⟨u, rfl⟩ := readU16_ok hu
    exact ⟨.object u, rfl, rfl⟩
  · dsimp only at h
    rw [if_pos (.inr rfl)] at h
    rcases hu : readU16 data with _ | ⟨n, data'⟩ <;> rw [hu] at h <;> cases h
    obtain ⟨u, rfl⟩ := readU16_ok hu
    exact ⟨.uninitialized u, rfl, rfl⟩

/-- An encoded type starts in one way only. -/
theorem encode_append_inj {t t' : VerificationType} {rest rest' : List UInt8}
    (h : t.encode ++ rest = t'.encode ++ rest') : t.kind = t'.kind ∧ rest = rest' := by
  have ht := @readVerificationType_encode rest t
  rw [h, readVerificationType_encode] at ht
  simp only [Except.ok.injEq, Prod.mk.injEq, ValidationType.mk.injEq, and_true] at ht
  exact ⟨ht.1.symm, ht.2.symm⟩

theorem words_eq_of_kind {t t' : VerificationType} (h : t.kind = t'.kind) : t.words = t'.words := by
  rw [VerificationType.words, VerificationType.words, VerificationType.isWide,
    VerificationType.isWide, h]

/-! ### Following a reader -/

/-- A computation on buffers ends like one on lists. -/
inductive Follows {α β : Type} (r : α → β → Prop) : Except BufferFault α → Except String β → Prop
  | error (msg : String) : Follows r (.error (.error msg)) (.error msg)
  | ok {a : α} {b : β} (h : r a b) : Follows r (.ok a) (.ok b)

theorem Follows.bind {α β γ δ : Type} {r : α → β → Prop} {s : γ → δ → Prop}
    {x : Except BufferFault α} {y : Except String β} {f : α → Except BufferFault γ}
    {g : β → Except String δ} (h : Follows r x y) (hf : ∀ a b, r a b → Follows s (f a) (g b)) :
    Follows s (x >>= f) (y >>= g) := by
  rcases h with ⟨msg⟩ | ⟨hr⟩
  · exact .error msg
  · exact hf _ _ hr

theorem liftRead_ok {α : Type} (a : α) : liftRead (.ok a) = .ok a := rfl

theorem follows_liftRead {α : Type} (x : Except String α) : Follows Eq (liftRead x) x := by
  rcases x with msg | a
  · exact .error msg
  · exact .ok rfl

theorem Follows.mono {α β : Type} {r s : α → β → Prop} {x : Except BufferFault α}
    {y : Except String β} (h : Follows r x y) (hrs : ∀ a b, r a b → s a b) : Follows s x y := by
  rcases h with ⟨msg⟩ | ⟨hr⟩
  · exact .error msg
  · exact .ok (hrs _ _ hr)

theorem Follows.eq_error {α β : Type} {r : α → β → Prop} {x : Except BufferFault α} {msg : String}
    (h : Follows r x (.error msg)) : x = .error (.error msg) := by
  cases h
  rfl

theorem Follows.eq_ok {α β : Type} {r : α → β → Prop} {x : Except BufferFault α} {b : β}
    (h : Follows r x (.ok b)) : ∃ a, x = .ok a ∧ r a b := by
  rcases h with _ | ⟨hr⟩
  exact ⟨_, rfl, hr⟩

theorem Follows.of_error {α β : Type} {r : α → β → Prop} {fault : BufferFault} {y : Except String β}
    (h : Follows r (.error fault) y) : ∃ msg, fault = .error msg := by
  cases h
  exact ⟨_, rfl⟩

theorem Follows.of_ok {α β : Type} {r : α → β → Prop} {a : α} {y : Except String β}
    (h : Follows r (.ok a) y) : ∃ b, y = .ok b ∧ r a b := by
  rcases h with _ | ⟨hr⟩
  exact ⟨_, rfl, hr⟩

/-- An entry is read as `readVerificationType` reads it, and written behind those before. -/
theorem readVerificationTypeAt_follows {b : ValidationBuffer count} {l : List ValidationType}
    (h : l <+: b.toList) (hlen : l.length ≤ count) (data : List UInt8) :
    Follows (fun a v => l ++ [v.1] <+: a.1.toList ∧ a.2.1 = v.1.kind.isWide ∧ a.2.2 = v.2)
      (readVerificationTypeAt b l.length data) (readVerificationType data) := by
  refine (follows_liftRead (readU8 data)).bind ?_
  rintro ⟨typeKind, data⟩ _ rfl
  dsimp only
  rcases validationTypeKind typeKind with _ | kind
  · exact .error _
  obtain ⟨b', hb', hholds⟩ := write_holds h (by omega) { kind }
  dsimp only
  rw [hb']
  by_cases hkind : kind = .object ∨ kind = .uninit
  · rw [if_pos hkind]
    change Follows _ (if kind = .object ∨ kind = .uninit then _ else _) _
    rw [if_pos hkind]
    refine (follows_liftRead (readU16 data)).bind ?_
    rintro ⟨n, data⟩ _ rfl
    exact .ok ⟨hholds, rfl, rfl⟩
  · rw [if_neg hkind]
    change Follows _ (if kind = .object ∨ kind = .uninit then _ else _) _
    rw [if_neg hkind]
    exact .ok ⟨hholds, rfl, rfl⟩

theorem readVerificationTypeAt_ok {b : ValidationBuffer count} {l : List ValidationType}
    {v : ValidationType} {data rest : List UInt8} (h : l <+: b.toList) (hlen : l.length ≤ count)
    (hread : readVerificationType data = .ok (v, rest)) :
    ∃ b', readVerificationTypeAt b l.length data = .ok (b', v.kind.isWide, rest) ∧
      l ++ [v] <+: b'.toList := by
  have hfollows := readVerificationTypeAt_follows h hlen data
  rw [hread] at hfollows
  obtain ⟨⟨b', isWide, rest'⟩, hx, hholds, hwide, hrest⟩ := hfollows.eq_ok
  dsimp only at hholds hwide hrest
  rw [hwide, hrest] at hx
  exact ⟨b', hx, hholds⟩

/-! ### The loops over locals -/

open FrameBuffers (LocalsOverrun)

theorem wide_encode {t : VerificationType} (h : t.kind.isWide = true) :
    ∃ wide : UInt8, (wide = 3 ∨ wide = 4) ∧ t.encode = [wide] := by
  cases t <;> first | exact ⟨_, .inl rfl, rfl⟩ | exact ⟨_, .inr rfl, rfl⟩ | cases h

theorem exists_wide {wide : UInt8} (h : wide = 3 ∨ wide = 4) :
    ∃ t : VerificationType, t.kind.isWide = true ∧ t.encode = [wide] := by
  rcases h with rfl | rfl
  · exact ⟨.double, rfl, rfl⟩
  · exact ⟨.long, rfl, rfl⟩

theorem not_localsOverrun_of_error {size n : Nat} {data : List UInt8} {msg : String}
    (h : readVerificationType data = .error msg) : ¬LocalsOverrun count size n data := by
  rintro ⟨types, wide, rest, -, -, hwide, rfl⟩
  rcases types with _ | ⟨t, types⟩
  · obtain ⟨t, -, ht⟩ := exists_wide hwide
    have hread := @readVerificationType_encode rest t
    rw [ht] at hread
    rw [List.flatMap_nil, List.nil_append] at h
    rw [List.singleton_append, h] at hread
    cases hread
  · rw [List.flatMap_cons, List.append_assoc, readVerificationType_encode] at h
    cases h

theorem localsOverrun_cons {size n : Nat} {t : VerificationType} {data : List UInt8} :
    LocalsOverrun count size (n + 1) (t.encode ++ data) ↔
      (t.kind.isWide = true ∧ size = count) ∨ LocalsOverrun count (size + t.words) n data := by
  constructor
  · rintro ⟨types, wide, rest, hlen, hsum, hwide, hdata⟩
    rcases types with _ | ⟨t', types⟩
    · obtain ⟨t', hw', ht'⟩ := exists_wide hwide
      rw [List.flatMap_nil, List.nil_append, ← List.singleton_append, ← ht'] at hdata
      rw [(encode_append_inj hdata).1]
      exact .inl ⟨hw', hsum⟩
    · rw [List.flatMap_cons, List.append_assoc] at hdata
      obtain ⟨hkind, rfl⟩ := encode_append_inj hdata
      rw [List.length_cons] at hlen
      rw [List.map_cons, List.sum_cons, ← words_eq_of_kind hkind, ← Nat.add_assoc] at hsum
      exact .inr ⟨types, wide, rest, by omega, hsum, hwide, rfl⟩
  · rintro (⟨hw, rfl⟩ | ⟨types, wide, rest, hlen, hsum, hwide, rfl⟩)
    · obtain ⟨wide, hwide, ht⟩ := wide_encode hw
      exact ⟨[], wide, data, by simp, rfl, hwide, by rw [ht]; rfl⟩
    · refine ⟨t :: types, wide, rest, by simpa using hlen, ?_, hwide, by simp⟩
      rw [List.map_cons, List.sum_cons, ← Nat.add_assoc, hsum]

theorem not_localsOverrun_of_lt {size n : Nat} {data : List UInt8} (h : count < size) :
    ¬LocalsOverrun count size n data := by
  rintro ⟨types, wide, rest, -, hsum, -⟩
  omega

/-- A local goes behind those before it, if the implicit top has an entry. -/
theorem placeImplicitTop_holds {b : ValidationBuffer count} {l : List ValidationType}
    {v : ValidationType} (h : l ++ [v] <+: b.toList)
    (hfit : v.kind.isWide = true → l.length < count) :
    ∃ b', placeImplicitTop b l.length v.kind.isWide = .ok (b', (l ++ withImplicitTop v).length) ∧
      l ++ withImplicitTop v <+: b'.toList := by
  rw [placeImplicitTop, withImplicitTop]
  split_ifs with hw
  · obtain ⟨b', hb', hholds⟩ := write_holds h
      (by rw [List.length_append, List.length_singleton]; have := hfit hw; omega) implicitTop
    rw [List.length_append, List.length_singleton] at hb'
    rw [hb']
    refine ⟨b', ?_, by simpa using hholds⟩
    simp [pure, Except.pure, bind, Except.bind]
  · exact ⟨b, by simp, h⟩

/-- The locals that are read follow those there are, and run over exactly when they say so. -/
theorem placeLocals_follows (overflow : String) :
    ∀ (n : Nat) (b : ValidationBuffer count) (types : List VerificationType) (data : List UInt8),
      expand types <+: b.toList → (expand types).length ≤ count →
      ¬LocalsOverrun count (expand types).length n data →
      Follows (fun a l => a.2.2 = l.2 ∧ a.2.1 = l.1.length ∧ l.1 <+: a.1.toList ∧
          l.1.length ≤ count ∧ ∃ types', l.1 = expand types')
        (placeLocals overflow n b (expand types).length data)
        (readLocals count overflow n (expand types) data)
  | 0, b, types, data, h, hlen, _ => .ok ⟨rfl, rfl, h, hlen, types, rfl⟩
  | n + 1, b, types, data, h, hlen, hover => by
    rw [placeLocals, readLocals]
    rcases hread : readVerificationType data with msg | ⟨v, rest⟩
    · have hfollows := readVerificationTypeAt_follows h hlen data
      rw [hread] at hfollows
      rw [hfollows.eq_error]
      exact .error msg
    · obtain ⟨t, rfl, rfl⟩ := readVerificationType_ok hread
      rw [localsOverrun_cons, not_or] at hover
      obtain ⟨b', hx, hholds⟩ := readVerificationTypeAt_ok h hlen hread
      obtain ⟨b'', hb'', hholds'⟩ := placeImplicitTop_holds hholds
        (by intro hw; have := hover.1; simp only [hw, true_and] at this; omega)
      rw [← expand_singleton, ← expand_append] at hb'' hholds'
      rw [hx]
      simp only [bind, Except.bind, hb'', ← expand_singleton, ← expand_append]
      split_ifs with hfull
      · exact .error overflow
      · refine placeLocals_follows overflow n b'' (types ++ [t]) rest hholds' (by omega) ?_
        rw [length_expand, List.map_append, List.sum_append, ← length_expand]
        simpa using hover.2

theorem placeLocals_overrun (overflow : String) :
    ∀ (n : Nat) (b : ValidationBuffer count) (types : List VerificationType) (data : List UInt8),
      expand types <+: b.toList → (expand types).length ≤ count →
      LocalsOverrun count (expand types).length n data →
      placeLocals overflow n b (expand types).length data = .error .outOfBounds
  | 0, _, _, _, _, _, ⟨_, _, _, hn, _⟩ => absurd hn (Nat.not_lt_zero _)
  | n + 1, b, types, data, h, hlen, hover => by
    rcases hread : readVerificationType data with msg | ⟨v, rest⟩
    · exact absurd hover (not_localsOverrun_of_error hread)
    · obtain ⟨t, rfl, rfl⟩ := readVerificationType_ok hread
      rw [localsOverrun_cons] at hover
      obtain ⟨b', hx, hholds⟩ := readVerificationTypeAt_ok h hlen hread
      rw [placeLocals, hx]
      by_cases hw : t.kind.isWide = true ∧ (expand types).length = count
      · simp only [bind, Except.bind, placeImplicitTop, hw.1, if_true,
          write_outOfBounds (Nat.lt_succ_of_le hw.2.ge)]
      · replace hover := hover.resolve_left hw
        obtain ⟨b'', hb'', hholds'⟩ := placeImplicitTop_holds hholds
          (by intro hwide; simp only [hwide, true_and] at hw; omega)
        rw [← expand_singleton, ← expand_append] at hb'' hholds'
        have hsize : (expand (types ++ [t])).length = (expand types).length + t.words := by
          rw [length_expand, List.map_append, List.sum_append, ← length_expand]
          simp
        rw [← hsize] at hover
        have hfit : (expand (types ++ [t])).length ≤ count := by
          by_contra hfull
          exact not_localsOverrun_of_lt (by omega) hover
        simp only [bind, Except.bind, hb'']
        rw [if_neg (by omega)]
        exact placeLocals_overrun overflow n b'' (types ++ [t]) rest hholds' hfit hover

/-- The stack has an entry of slop for every value that is one too many. -/
theorem placeStack_follows :
    ∀ (n : Nat) (b : ValidationBuffer count) (l : List ValidationType) (data : List UInt8),
      l <+: b.toList → l.length ≤ count →
      Follows (fun a s => a.2.2 = s.2 ∧ a.2.1 = s.1.length ∧ s.1 <+: a.1.toList)
        (placeStack n b l.length data) (readStack count n l data)
  | 0, b, l, data, h, hlen => .ok ⟨rfl, rfl, h⟩
  | n + 1, b, l, data, h, hlen => by
    rw [placeStack, readStack]
    refine (readVerificationTypeAt_follows h hlen data).bind ?_
    rintro ⟨b', isWide, rest⟩ ⟨v, -⟩ ⟨hholds, -, rfl⟩
    have hsize : (l ++ [v]).length = l.length + 1 := by simp
    simp only [hsize]
    split_ifs with hfull
    · exact .error _
    · rw [← hsize]
      exact placeStack_follows n b' (l ++ [v]) rest hholds (by omega)

/-- `chop_frame` looks at the last entry before it knows that there is one. -/
theorem chopBuffer_expand {b : ValidationBuffer count} :
    ∀ (n : Nat) (types : List VerificationType), expand types <+: b.toList →
      chopBuffer b n (expand types).length = if n ≤ types.length
        then .ok (expand (types.take (types.length - n))).length else .error .outOfBounds
  | 0, types, _ => by simp [chopBuffer]
  | n + 1, types, h => by
    rcases types.eq_nil_or_concat with rfl | ⟨l, t, rfl⟩
    · rfl
    rw [List.concat_eq_append] at h ⊢
    have hrest : (l ++ [t]).take ((l ++ [t]).length - (n + 1)) = l.take (l.length - n) := by
      rw [List.length_append, List.length_singleton, Nat.add_sub_add_right,
        List.take_append_of_le_length (by omega)]
    have hpre : expand l <+: b.toList := by
      rw [expand_append] at h
      exact (List.prefix_append _ _).trans h
    have ih := chopBuffer_expand n l hpre
    have hround : chopBuffer b (n + 1) (expand (l ++ [t])).length
        = chopBuffer b n (expand l).length := by
      rw [chopBuffer]
      rw [expand_append, expand_singleton] at h ⊢
      rw [withImplicitTop] at h ⊢
      split_ifs at h ⊢ with hw
      · have hsplit : expand l ++ [({ kind := t.kind } : ValidationType), implicitTop] =
            (expand l ++ [{ kind := t.kind }]) ++ [implicitTop] := by simp
        have hsize : ((expand l ++ [({ kind := t.kind } : ValidationType)]
            ++ [implicitTop]).length : Int) - 2 = (expand l).length := by
          simp only [List.length_append, List.length_singleton]
          omega
        have htop : implicitTop.isImplicitTop = true := rfl
        rw [hsplit] at h ⊢
        rw [read_holds h]
        simp only [bind, Except.bind, htop, if_true, hsize]
        rw [if_neg (by omega)]
      · have hsize : ((expand l ++ [({ kind := t.kind } : ValidationType)]).length : Int) - 1
            = (expand l).length := by
          simp only [List.length_append, List.length_singleton]
          omega
        have htop : ({ kind := t.kind } : ValidationType).isImplicitTop = false := by
          simp [ValidationType.isImplicitTop]
        rw [read_holds h]
        simp only [bind, Except.bind, htop, Bool.false_eq_true, if_false, hsize]
        rw [if_neg (by omega)]
    rw [hround, ih, hrest, List.length_append, List.length_singleton]
    exact if_congr (by omega) rfl rfl

/-! ### Frames -/

section

variable {code : AttributeCode} {it : FrameBuffers code} {l : StackMapFrameIterator}

/-- The iterator on buffers stands where the one on lists does. -/
structure FrameBuffers.Represents (it : FrameBuffers code) (l : StackMapFrameIterator) : Prop where
  pc : it.pc = l.pc
  stack : l.stack <+: it.stack.toList
  stackSize : it.stackSize = l.stack.length
  stackSize_le : it.stackSize ≤ code.maxStack
  locals : l.locals <+: it.locals.toList
  localsSize : it.localsSize = l.locals.length
  localsSize_le : it.localsSize ≤ code.maxLocals
  types : ∃ types, l.locals = expand types
  data : it.data = l.data
  hasNext : it.hasNext = l.hasNext
  isFirst : it.isFirst = l.isFirst

theorem countP_expand : ∀ types : List VerificationType,
    (expand types).countP (fun v => !v.isImplicitTop) = types.length
  | [] => rfl
  | t :: types => by
    have ih := countP_expand types
    have hsplit : expand (t :: types) = expand [t] ++ expand types := by
      rw [← expand_append, List.singleton_append]
    have hone : (expand [t]).countP (fun v => !v.isImplicitTop) = 1 := by
      cases t <;> rfl
    rw [hsplit, List.countP_append, hone, ih, List.length_cons, Nat.add_comm]

theorem FrameBuffers.Represents.localsCount (h : it.Represents l) {types : List VerificationType}
    (htypes : l.locals = expand types) : it.localsCount = types.length := by
  have htake : it.frameLocals = l.locals := by
    rw [FrameBuffers.frameLocals, h.localsSize]
    exact (List.prefix_iff_eq_take.1 h.locals).symm
  rw [FrameBuffers.localsCount, htake, htypes, countP_expand]

/-- What is read of a frame is at the beginning of the buffers. -/
structure FrameFollows (it : FrameBuffers code) (a : Nat × FrameBuffers code)
    (f : Nat × List ValidationType × List ValidationType × List UInt8) : Prop where
  offsetDelta : a.1 = f.1
  stack : f.2.1 <+: a.2.stack.toList
  stackSize : a.2.stackSize = f.2.1.length
  locals : f.2.2.1 <+: a.2.locals.toList
  localsSize : a.2.localsSize = f.2.2.1.length
  types : ∃ types, f.2.2.1 = expand types
  data : a.2.data = f.2.2.2
  pc : a.2.pc = it.pc
  isFirst : a.2.isFirst = it.isFirst

theorem sameLocals1_follows (h : it.Represents l) (d : Nat) (rest : List UInt8) :
    Follows (FrameFollows it)
      (readVerificationTypeAt it.stack 0 rest >>= fun x =>
        pure (d, { it with stack := x.1, stackSize := 1, data := x.2.2 }))
      (readVerificationType rest >>= fun x => pure (d, [x.1], l.locals, x.2)) := by
  refine (readVerificationTypeAt_follows List.nil_prefix (Nat.zero_le _) rest).bind ?_
  rintro x y ⟨hholds, -, hrest⟩
  exact .ok ⟨rfl, hholds, rfl, h.locals, h.localsSize, h.types, hrest, rfl, rfl⟩

theorem readFrame_follows (h : it.Represents l) (hover : ¬it.Overruns) :
    Follows (FrameFollows it) it.readFrame
      (StackMapFrameIterator.readFrame code.maxLocals code.maxStack l.locals l.data) := by
  obtain ⟨types, htypes⟩ := h.types
  have hlocals := h.locals
  have hsize := h.localsSize
  have hle := h.localsSize_le
  rw [FrameBuffers.readFrame, StackMapFrameIterator.readFrame, ← h.data]
  rcases hdata : it.data with _ | ⟨k, data⟩
  · exact .error _
  have hread : readU8 (k :: data) = .ok (k.toNat, data) := rfl
  rw [hread, liftRead_ok, ok_bind, ok_bind]
  dsimp only
  by_cases h1 : k.toNat ≤ 63
  · rw [if_pos h1, if_pos h1]
    exact .ok ⟨rfl, List.nil_prefix, rfl, hlocals, hsize, h.types, rfl, rfl, rfl⟩
  rw [if_neg h1, if_neg h1]
  by_cases h2 : (64 ≤ k.toNat ∧ k.toNat ≤ 127) ∨ k.toNat = 247
  · rw [if_pos h2, if_pos h2]
    by_cases h247 : k.toNat = 247
    · rw [if_pos h247, if_pos h247]
      refine (follows_liftRead (readU16 data)).bind ?_
      rintro ⟨d, rest⟩ _ rfl
      exact sameLocals1_follows h d rest
    · rw [if_neg h247, if_neg h247]
      exact sameLocals1_follows h (k.toNat - 64) data
  rw [if_neg h2, if_neg h2]
  by_cases h3 : k.toNat ≤ 246
  · rw [if_pos h3, if_pos h3]
    exact .error _
  rw [if_neg h3, if_neg h3]
  by_cases h4 : k.toNat ≤ 250
  · rw [if_pos h4, if_pos h4, hsize, htypes, chopBuffer_expand _ _ (htypes ▸ hlocals)]
    have hcount : 251 - k.toNat ≤ types.length := by
      by_contra hlt
      refine hover (.chop k data hdata (UInt8.le_iff_toNat_le.2 ?_) (UInt8.le_iff_toNat_le.2 h4) ?_)
      · change 248 ≤ k.toNat
        omega
      · rw [h.localsCount htypes]
        omega
    rw [if_pos hcount, chopLocals_expand _ _ hcount, ok_bind, ok_bind]
    refine (follows_liftRead (readU16 data)).bind ?_
    rintro ⟨d, rest⟩ _ rfl
    refine .ok ⟨rfl, List.nil_prefix, rfl, ?_, rfl, ⟨_, rfl⟩, rfl, rfl, rfl⟩
    rw [htypes, ← types.take_append_drop (types.length - (251 - k.toNat)), expand_append] at hlocals
    exact (List.prefix_append _ _).trans hlocals
  rw [if_neg h4, if_neg h4]
  by_cases h5 : k.toNat = 251
  · rw [if_pos h5, if_pos h5]
    refine (follows_liftRead (readU16 data)).bind ?_
    rintro ⟨d, rest⟩ _ rfl
    exact .ok ⟨rfl, List.nil_prefix, rfl, hlocals, hsize, h.types, rfl, rfl, rfl⟩
  rw [if_neg h5, if_neg h5]
  by_cases h6 : k.toNat ≤ 254
  · rw [if_pos h6, if_pos h6]
    rcases hd : readU16 data with msg | ⟨d, rest⟩
    · exact .error msg
    obtain ⟨d1, d2, rfl⟩ := readU16_cons hd
    rw [htypes] at hlocals hsize
    have hfit : ¬LocalsOverrun code.maxLocals (expand types).length (k.toNat - 251) rest := by
      intro hrun
      rw [← hsize] at hrun
      refine hover (.append k d1 d2 rest hdata (UInt8.le_iff_toNat_le.2 ?_)
        (UInt8.le_iff_toNat_le.2 h6) hrun)
      change 252 ≤ k.toNat
      omega
    rw [liftRead_ok, ok_bind, ok_bind]
    dsimp only
    rw [htypes, hsize]
    refine (placeLocals_follows _ _ _ _ _ hlocals (by omega) hfit).bind ?_
    rintro ⟨b, size, data⟩ ⟨l', data'⟩ ⟨hrest, hlen, hholds, -, htypes'⟩
    dsimp only at hrest hlen hholds htypes'
    subst hrest hlen
    exact .ok ⟨rfl, List.nil_prefix, rfl, hholds, rfl, htypes', rfl, rfl, rfl⟩
  · rw [if_neg h6, if_neg h6]
    rcases hd : readU16 data with msg | ⟨d, rest⟩
    · exact .error msg
    obtain ⟨d1, d2, rfl⟩ := readU16_cons hd
    rw [liftRead_ok, ok_bind, ok_bind]
    dsimp only
    rcases hn : readU16 rest with msg | ⟨n, rest'⟩
    · exact .error msg
    obtain ⟨n1, n2, rfl⟩ := readU16_cons hn
    have hk : k = 255 := by
      rw [← UInt8.toNat_inj]
      have hlt := k.toNat_lt
      change k.toNat = 255
      omega
    subst hk
    cases hn
    have hfit : ¬LocalsOverrun code.maxLocals (expand []).length (n1.toNat * 256 + n2.toNat) rest' :=
      fun hrun => hover (.full d1 d2 n1 n2 rest' hdata hrun)
    rw [liftRead_ok, ok_bind, ok_bind]
    refine Follows.bind (placeLocals_follows _ _ it.locals [] rest' List.nil_prefix
      (Nat.zero_le _) hfit) ?_
    rintro ⟨b, size, data⟩ ⟨l', data'⟩ ⟨hrest, hlen, hholds, -, htypes'⟩
    dsimp only at hrest hlen hholds htypes'
    subst hrest hlen
    refine (follows_liftRead (readU16 data)).bind ?_
    rintro ⟨m, data'⟩ _ rfl
    refine (placeStack_follows m it.stack [] data' List.nil_prefix (Nat.zero_le _)).bind ?_
    rintro ⟨s, size, data⟩ ⟨s', data''⟩ ⟨hrest, hlen, hholds'⟩
    dsimp only at hrest hlen hholds'
    subst hrest hlen
    exact .ok ⟨rfl, hholds', rfl, hholds, rfl, htypes', rfl, rfl, rfl⟩

theorem readFrame_overruns (h : it.Represents l) (hover : it.Overruns) :
    it.readFrame = .error .outOfBounds := by
  obtain ⟨types, htypes⟩ := h.types
  have hlocals := h.locals
  have hsize := h.localsSize
  have hle := h.localsSize_le
  rw [htypes] at hlocals hsize
  rcases hover with ⟨k, rest, hdata, hk, hk', hcount⟩ | ⟨k, d1, d2, rest, hdata, hk, hk', hrun⟩ |
    ⟨d1, d2, n1, n2, rest, hdata, hrun⟩
  · rw [UInt8.le_iff_toNat_le] at hk hk'
    change 248 ≤ k.toNat at hk
    change k.toNat ≤ 250 at hk'
    rw [h.localsCount htypes] at hcount
    have hread : readU8 (k :: rest) = .ok (k.toNat, rest) := rfl
    rw [FrameBuffers.readFrame, hdata, hread, liftRead_ok, ok_bind]
    dsimp only
    rw [if_neg (by omega), if_neg (by omega), if_neg (by omega), if_pos hk', hsize,
      chopBuffer_expand _ _ hlocals, if_neg (by omega), error_bind]
  · rw [UInt8.le_iff_toNat_le] at hk hk'
    change 252 ≤ k.toNat at hk
    change k.toNat ≤ 254 at hk'
    have hread : readU8 (k :: d1 :: d2 :: rest) = .ok (k.toNat, d1 :: d2 :: rest) := rfl
    have hread' : readU16 (d1 :: d2 :: rest) = .ok (d1.toNat * 256 + d2.toNat, rest) := rfl
    rw [FrameBuffers.readFrame, hdata, hread, liftRead_ok, ok_bind]
    dsimp only
    rw [if_neg (by omega), if_neg (by omega), if_neg (by omega), if_neg (by omega),
      if_neg (by omega), if_pos hk', hread', liftRead_ok, ok_bind]
    dsimp only
    rw [hsize] at hrun hle ⊢
    rw [placeLocals_overrun _ _ _ _ _ hlocals hle hrun, error_bind]
  · have hread : readU8 (255 :: d1 :: d2 :: n1 :: n2 :: rest)
        = .ok (255, d1 :: d2 :: n1 :: n2 :: rest) := rfl
    have hread' : readU16 (d1 :: d2 :: n1 :: n2 :: rest)
        = .ok (d1.toNat * 256 + d2.toNat, n1 :: n2 :: rest) := rfl
    have hread'' : readU16 (n1 :: n2 :: rest) = .ok (n1.toNat * 256 + n2.toNat, rest) := rfl
    rw [FrameBuffers.readFrame, hdata, hread, liftRead_ok, ok_bind]
    dsimp only
    rw [if_neg (by omega), if_neg (by omega), if_neg (by omega), if_neg (by omega),
      if_neg (by omega), if_neg (by omega), hread', liftRead_ok, ok_bind]
    dsimp only
    rw [hread'', liftRead_ok, ok_bind]
    have hplace := placeLocals_overrun "full_frame locals overflow" (n1.toNat * 256 + n2.toNat)
      it.locals [] rest List.nil_prefix (Nat.zero_le _) hrun
    change placeLocals _ _ it.locals 0 rest = _ at hplace
    dsimp only
    rw [hplace, error_bind]

theorem next_follows (h : it.Represents l) (hover : ¬it.Overruns) :
    Follows (fun a b => a.Represents b) it.next (l.next code) := by
  rw [FrameBuffers.next, StackMapFrameIterator.next]
  refine (readFrame_follows h hover).bind ?_
  rintro ⟨offsetDelta, it'⟩ ⟨d, stack, locals, data⟩ hframe
  have hpc := hframe.pc
  have hfirst := hframe.isFirst
  have hstack := hframe.stackSize
  have hsize := hframe.localsSize
  have hdata := hframe.data
  have hdelta := hframe.offsetDelta
  dsimp only at hpc hfirst hstack hsize hdata hdelta ⊢
  by_cases hfull : stack.length > code.maxStack ∨ locals.length > code.maxLocals
  · rw [if_pos (by rwa [hstack, hsize]), if_pos hfull]
    exact .error _
  · rw [if_neg (by rwa [hstack, hsize]), if_neg hfull, hpc, hfirst, hdelta, h.pc, h.isFirst, hdata]
    rw [not_or] at hfull
    exact .ok ⟨rfl, hframe.stack, hstack, by dsimp only; omega, hframe.locals, hsize,
      by dsimp only; omega, hframe.types, rfl, rfl, rfl⟩

theorem next_overruns (h : it.Represents l) (hover : it.Overruns) :
    it.next = .error .outOfBounds := by
  rw [FrameBuffers.next, readFrame_overruns h hover, error_bind]

/-- A step stays in the buffers unless its frame overruns them. -/
theorem keepsBounds_iff (h : it.Represents l) : it.KeepsBounds ↔ ¬it.Overruns := by
  constructor
  · intro hkeeps hover
    obtain ⟨msg, hmsg⟩ := hkeeps.refused _ (next_overruns h hover)
    cases hmsg
  · intro hover
    have hfollows := next_follows h hover
    refine ⟨?_, ?_, ?_⟩
    · intro fault hfault
      rw [hfault] at hfollows
      exact hfollows.of_error
    · intro it' hok
      rw [hok] at hfollows
      obtain ⟨l', -, hrep⟩ := hfollows.of_ok
      exact ⟨hrep.stackSize_le, hrep.localsSize_le⟩
    · intro it' k hok hhead hk hk'
      by_contra hlt
      rcases hdata : it.data with _ | ⟨k', rest⟩ <;> rw [hdata] at hhead
      · cases hhead
      · cases hhead
        exact hover (.chop k rest hdata hk hk' (by omega))

/-! ### Runs -/

theorem FrameBuffers.Represents.next {it' : FrameBuffers code} (h : it.Represents l)
    (hnext : it.next = .ok it') : ∃ l', l.next code = .ok l' ∧ it'.Represents l' := by
  have hover : ¬it.Overruns := by
    intro hover
    rw [next_overruns h hover] at hnext
    cases hnext
  have hfollows := next_follows h hover
  rw [hnext] at hfollows
  exact hfollows.of_ok

theorem FrameBuffers.Reaches.represents {it' : FrameBuffers code} (hreach : it.Reaches it')
    (h : it.Represents l) : ∃ l', it'.Represents l' := by
  induction hreach with
  | refl => exact ⟨l, h⟩
  | next hreach hnext ih =>
    obtain ⟨l', hrep⟩ := ih
    obtain ⟨l'', -, hrep'⟩ := hrep.next hnext
    exact ⟨l'', hrep'⟩

end

/-! ### Method entry -/

/-- Some verification type of the kind. -/
def ValidationTypeKind.verificationType : ValidationTypeKind → VerificationType
  | .top => .top
  | .integer => .integer
  | .float => .float
  | .double => .double
  | .long => .long
  | .null => .null
  | .uninitThis => .uninitializedThis
  | .object => .object 0
  | .uninit => .uninitialized 0

theorem kind_verificationType (kind : ValidationTypeKind) : kind.verificationType.kind = kind := by
  cases kind <;> rfl

theorem placeLocal_holds {b : ValidationBuffer count} {types : List VerificationType}
    (kind : ValidationTypeKind) (h : expand types <+: b.toList)
    (hfit : (expand types).length + kind.verificationType.words ≤ count) :
    ∃ b', placeLocal b (expand types).length kind
        = .ok (b', (expand (types ++ [kind.verificationType])).length) ∧
      expand (types ++ [kind.verificationType]) <+: b'.toList := by
  have hwords := words_pos kind.verificationType
  obtain ⟨b', hb', hholds⟩ := write_holds h (by omega) { kind }
  obtain ⟨b'', hb'', hholds'⟩ := placeImplicitTop_holds hholds (by
    intro hw
    omega)
  refine ⟨b'', ?_, ?_⟩
  · rw [placeLocal, hb', ok_bind, hb'', expand_append, expand_singleton, kind_verificationType]
  · rwa [expand_append, expand_singleton, kind_verificationType]

theorem initLocals_holds : ∀ (kinds : List ValidationTypeKind) (b : ValidationBuffer count)
    (types : List VerificationType), expand types <+: b.toList →
    (expand types).length + (kinds.map fun kind => kind.verificationType.words).sum ≤ count →
    ∃ b', kinds.foldlM (fun (b, i) kind => placeLocal b i kind) (b, (expand types).length)
        = .ok (b', (expand (types ++ kinds.map ValidationTypeKind.verificationType)).length) ∧
      expand (types ++ kinds.map ValidationTypeKind.verificationType) <+: b'.toList
  | [], b, types, h, _ => ⟨b, by simp [pure, Except.pure], by simpa using h⟩
  | kind :: kinds, b, types, h, hfit => by
    rw [List.map_cons, List.sum_cons] at hfit
    obtain ⟨b', hb', hholds⟩ := placeLocal_holds kind h (by omega)
    have hsize : (expand (types ++ [kind.verificationType])).length
        = (expand types).length + kind.verificationType.words := by
      rw [length_expand, List.map_append, List.sum_append, ← length_expand]
      simp
    obtain ⟨b'', hb'', hholds'⟩ := initLocals_holds kinds b' _ hholds (by omega)
    rw [List.append_assoc, List.singleton_append] at hb'' hholds'
    refine ⟨b'', ?_, hholds'⟩
    rw [List.foldlM_cons]
    dsimp only
    rw [hb', ok_bind]
    exact hb''

theorem entryKinds_expand (m : CpMethod) :
    initLocals m = expand ((FrameBuffers.entryKinds m).map ValidationTypeKind.verificationType) := by
  rw [initLocals, FrameBuffers.entryKinds, List.map_append, expand_append]
  congr 1
  · split_ifs <;> rfl
  · rw [expand, List.flatMap_map, List.flatMap_map]
    simp only [kind_verificationType]

/-- The argument's words are what `locals_on_method_entry` counts. -/
theorem words_arg (arg : FieldDescriptor) :
    (typeToValidationType arg.reprKind).verificationType.words = if arg.isWide then 2 else 1 := by
  obtain ⟨kind, dimensions⟩ := arg
  rcases dimensions with _ | n
  · cases kind <;> rfl
  · cases kind <;> rfl

theorem placeArgs_words {maxLocals : Nat} : ∀ {args : List FieldDescriptor} {swizzled j : Nat}
    {st st' : List TypeKind × List (Option Nat)}, j ≤ maxLocals →
    placeArgs maxLocals args swizzled j st = some st' →
    j + (args.map fun arg => if arg.isWide then 2 else 1).sum ≤ maxLocals
  | [], _, _, _, _, hj, _ => hj
  | arg :: args, swizzled, j, (locals, swizzle), st', _, h => by
    rw [placeArgs] at h
    rw [List.map_cons, List.sum_cons]
    split_ifs at h ⊢ with hj hwide hmax
    · have hrest := placeArgs_words (by omega) h
      omega
    · have hrest := placeArgs_words (by omega) h
      omega

/-- A method that `locals_on_method_entry` accepts has locals for `this` and its arguments. -/
theorem entryKinds_fit {m : CpMethod} (h : (localsOnMethodEntry m).isSome) :
    ((FrameBuffers.entryKinds m).map fun kind => kind.verificationType.words).sum
      ≤ m.code.maxLocals := by
  have hargs : ((m.descriptor.args.map fun arg => typeToValidationType arg.reprKind).map
        fun kind => kind.verificationType.words)
      = m.descriptor.args.map fun arg => if arg.isWide then 2 else 1 := by
    rw [List.map_map]
    exact List.map_congr_left fun arg _ => words_arg arg
  rw [FrameBuffers.entryKinds, List.map_append, List.sum_append, hargs]
  obtain ⟨r, hr⟩ := Option.isSome_iff_exists.1 h
  simp only [localsOnMethodEntry] at hr
  split_ifs at hr ⊢ with hstatic hctor hzero hzero
  · obtain ⟨st, hst, -⟩ := Option.map_eq_some_iff.1 hr
    have hwords := placeArgs_words (Nat.zero_le _) hst
    simpa using hwords
  · obtain ⟨st, hst, -⟩ := Option.map_eq_some_iff.1 hr
    exact placeArgs_words (Nat.one_le_iff_ne_zero.2 hzero) hst
  · obtain ⟨st, hst, -⟩ := Option.map_eq_some_iff.1 hr
    exact placeArgs_words (Nat.one_le_iff_ne_zero.2 hzero) hst

theorem next_skip {code : AttributeCode} {l : StackMapFrameIterator} {rest : List UInt8}
    (hdata : l.data = 0 :: rest) (hlen : l.locals.length ≤ code.maxLocals) :
    ∃ l', l.next code = .ok l' := by
  have hframe : StackMapFrameIterator.readFrame code.maxLocals code.maxStack l.locals (0 :: rest)
      = .ok (0, [], l.locals, rest) := rfl
  have hfits : ¬(([] : List ValidationType).length > code.maxStack
      ∨ l.locals.length > code.maxLocals) := by
    rw [not_or, List.length_nil]
    omega
  rw [StackMapFrameIterator.next, hdata, hframe, ok_bind]
  dsimp only
  rw [if_neg hfits]
  exact ⟨_, rfl⟩

theorem not_overruns_skip {code : AttributeCode} {it : FrameBuffers code} {rest : List UInt8}
    (hdata : it.data = 0 :: rest) : ¬it.Overruns := by
  rintro (⟨k, rest', hdata', hk, -⟩ | ⟨k, d1, d2, rest', hdata', hk, -⟩ |
    ⟨d1, d2, n1, n2, rest', hdata', -⟩) <;> rw [hdata] at hdata' <;> cases hdata' <;>
    exact absurd hk (by decide)

theorem FrameBuffers.Represents.skip {code : AttributeCode} {it : FrameBuffers code}
    {l : StackMapFrameIterator} {rest : List UInt8} (h : it.Represents l)
    (hdata : it.data = 0 :: rest) :
    ∃ it' l', it.next = .ok it' ∧ l.next code = .ok l' ∧ it'.Represents l' := by
  have hlen : l.locals.length ≤ code.maxLocals := by
    rw [← h.localsSize]
    exact h.localsSize_le
  obtain ⟨l', hl'⟩ := next_skip (h.data ▸ hdata) hlen
  have hfollows := next_follows h (not_overruns_skip hdata)
  rw [hl'] at hfollows
  obtain ⟨it', hit', hrep⟩ := hfollows.eq_ok
  exact ⟨it', l', hit', hl', hrep⟩

/-- The iterator starts in its buffers. -/
theorem init_represents {m : CpMethod} (h : (localsOnMethodEntry m).isSome) :
    ∃ it l, FrameBuffers.init m = .ok it ∧ StackMapFrameIterator.init m = .ok l ∧
      it.Represents l := by
  have hfit := entryKinds_fit h
  obtain ⟨locals, hlocals, hholds⟩ := initLocals_holds (FrameBuffers.entryKinds m)
    (allocateValidationBuffer m.code.maxLocals) [] List.nil_prefix (by simpa using hfit)
  rw [List.nil_append] at hlocals hholds
  change List.foldlM _ (_, 0) _ = _ at hlocals
  rw [← entryKinds_expand] at hlocals hholds
  have hlen : (initLocals m).length ≤ m.code.maxLocals := by
    rw [entryKinds_expand, length_expand, List.map_map]
    exact hfit
  have hrep : FrameBuffers.Represents
      { stack := allocateValidationBuffer m.code.maxStack
        locals
        localsSize := (initLocals m).length
        data := (m.code.stackMapTable.map (·.data)).getD []
        hasNext := m.code.stackMapTable.isSome : FrameBuffers m.code }
      { locals := initLocals m
        data := (m.code.stackMapTable.map (·.data)).getD []
        hasNext := m.code.stackMapTable.isSome } :=
    ⟨rfl, List.nil_prefix, rfl, Nat.zero_le _, hholds, rfl, hlen, ⟨_, entryKinds_expand m⟩, rfl,
      rfl, rfl⟩
  rw [FrameBuffers.init, StackMapFrameIterator.init, hlocals, ok_bind]
  dsimp only
  split_ifs with hskip
  · obtain ⟨rest, hdata⟩ := List.head?_eq_some_iff.1 hskip
    obtain ⟨it', l', hit', hl', hrep'⟩ := hrep.skip hdata
    rw [hit', hl']
    exact ⟨it', l', rfl, rfl, hrep'⟩
  · exact ⟨_, _, rfl, rfl, hrep⟩

/-- The iterator stays in its buffers exactly when no frame that it comes to overruns them. -/
theorem iteratesInBounds_iff (m : CpMethod) (h : (localsOnMethodEntry m).isSome) :
    m.IteratesInBounds ↔
      ∀ it it', FrameBuffers.init m = .ok it → it.Reaches it' → ¬it'.Overruns := by
  obtain ⟨it, l, hinit, -, hrep⟩ := init_represents h
  constructor
  · intro hbounds it₁ it' hinit' hreach
    rw [hinit] at hinit'
    cases hinit'
    obtain ⟨l', hrep'⟩ := hreach.represents hrep
    exact (keepsBounds_iff hrep').1 (hbounds.stays _ _ hinit hreach)
  · intro hover
    refine ⟨⟨it, hinit⟩, ?_⟩
    intro it₁ it' hinit' hreach
    rw [hinit] at hinit'
    cases hinit'
    obtain ⟨l', hrep'⟩ := hreach.represents hrep
    exact (keepsBounds_iff hrep').2 (hover _ _ hinit hreach)

/-! ### A chop without locals -/

/-- A static method without locals, the only frame of which removes one. -/
def choppedMethod : CpMethod where
  isStatic := true
  descriptor := { args := [], returnType := { baseKind := .void } }
  code :=
    { maxStack := 0
      maxLocals := 0
      code := [{ kind := .return_ }]
      stackMapTable := some { entriesCount := 1, data := [250, 0, 0] } }

theorem iteratesInBounds_iff_choppedMethod :
    choppedMethod.IteratesInBounds ↔
      ∀ it it', FrameBuffers.init choppedMethod = .ok it → it.Reaches it' → ¬it'.Overruns :=
  iteratesInBounds_iff choppedMethod rfl

theorem choppedMethod_not_iteratesInBounds : ¬choppedMethod.IteratesInBounds := by
  intro h
  obtain ⟨msg, hmsg⟩ := (h.stays _ _ rfl (.refl _)).refused .outOfBounds rfl
  cases hmsg

end BJvm
