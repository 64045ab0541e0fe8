import BJvm.ClassFile.DescriptorGrammar
import BJvm.Proofs.Classfile
import Mathlib.Data.List.TakeWhile

/-!
# Parsing descriptors
-/

namespace BJvm.ClassFile

open Parsing Parser

variable {chars rest : Chars} {d : ParsedDescriptor} {n : Nat} {b : UInt8}

/-! ### Bytes and characters -/

theorem toNat_charOf (b : UInt8) : (charOf b).toNat = b.toNat := by
  have hb : b.toNat < 256 := b.toNat_lt
  have hv : b.toNat.isValidChar := Or.inl (by omega)
  unfold charOf Char.ofNat
  rw [dif_pos hv]
  rfl

theorem charOf_eq_iff {c : Char} (hc : c.toNat < 256) : charOf b = c ↔ b = c.toUInt8 := by
  have hmod : c.toUInt8.toNat = c.toNat := by
    rw [← Char.toUInt8_val, UInt32.toNat_toUInt8]
    exact Nat.mod_eq_of_lt hc
  rw [← Char.toNat_inj, toNat_charOf, ← UInt8.toNat_inj, hmod]

theorem readTypeKindChar_iff {k : TypeKind} :
    readTypeKindChar (charOf b) = some k ↔ k ≠ .reference ∧ b = (kindChar k).toUInt8 := by
  have hk : (kindChar k).toNat < 256 := by cases k <;> decide
  rw [← charOf_eq_iff hk]
  constructor
  · intro h
    unfold readTypeKindChar at h
    split at h <;> cases h <;> exact ⟨by decide, ‹_›⟩
  · rintro ⟨hne, h⟩
    rw [h]
    cases k
    case reference => exact absurd rfl hne
    all_goals rfl
/-! ### Descriptors of fields -/

theorem semicolon_iff : charOf b ≠ ';' ↔ b ≠ ';'.toUInt8 :=
  not_congr (charOf_eq_iff (by decide))

/-- What stands before the first semicolon. -/
theorem takeWhile_semicolon {name : Chars} (h : ';'.toUInt8 ∉ name) (rest : Chars) :
    ((name ++ ';'.toUInt8 :: rest).takeWhile fun b => charOf b ≠ ';') = name ∧
      ((name ++ ';'.toUInt8 :: rest).dropWhile fun b => charOf b ≠ ';') = ';'.toUInt8 :: rest := by
  have hname : ∀ b ∈ name, decide (charOf b ≠ ';') = true := fun b hb =>
    decide_eq_true (semicolon_iff.mpr fun heq => h (heq ▸ hb))
  have hsemi : charOf ';'.toUInt8 = ';' := by decide
  rw [List.takeWhile_append_of_pos hname, List.dropWhile_append_of_pos hname]
  simp [hsemi]

theorem parseClassDescriptor_sound (h : parseClassDescriptor n chars = .ok (d, rest)) :
    ∃ name, d = { baseKind := .reference, dimensions := n, className := name } ∧ name ≠ [] ∧
      ';'.toUInt8 ∉ name ∧ chars = name ++ ';'.toUInt8 :: rest := by
  unfold parseClassDescriptor at h
  dsimp only at h
  have hall := List.takeWhile_append_dropWhile (p := fun b => decide (charOf b ≠ ';')) (l := chars)
  rcases hd : chars.dropWhile fun b => charOf b ≠ ';' with _ | ⟨c, tail⟩
  · rw [hd] at h
    cases h
  · rw [hd] at h hall
    dsimp only at h
    split_ifs at h with hname
    cases h
    have hc : c = ';'.toUInt8 := by
      have := List.head_dropWhile_not (fun b => decide (charOf b ≠ ';')) (by rw [hd]; simp)
      simp only [hd, List.head_cons] at this
      by_contra hne
      simp [semicolon_iff.mpr hne] at this
    subst hc
    refine ⟨_, rfl, hname, fun hmem => ?_, hall.symm⟩
    have := List.mem_takeWhile_imp hmem
    simp [semicolon_iff] at this

theorem parseFieldDescriptor_sound : ∀ {chars : Chars} {n : Nat},
    parseFieldDescriptor n chars = .ok (d, rest) → n ≤ d.dimensions ∧ d.IsLoose ∧
      chars = List.replicate (d.dimensions - n) '['.toUInt8 ++ (d.printBase ++ rest)
  | [], _, h => by
    unfold parseFieldDescriptor at h
    cases h
  | b :: chars, n, h => by
    unfold parseFieldDescriptor at h
    by_cases hn : 255 < n
    · rw [if_pos hn] at h
      cases h
    rw [if_neg hn] at h
    rcases hk : readTypeKindChar (charOf b) with _ | prim
    · simp only [hk] at h
      split_ifs at h with hb hl
      · obtain ⟨hle, hloose, hchars⟩ := parseFieldDescriptor_sound h
        rw [charOf_eq_iff (by decide)] at hb
        refine ⟨by omega, hloose, ?_⟩
        rw [show d.dimensions - n = d.dimensions - (n + 1) + 1 by omega, List.replicate_succ,
          List.cons_append, ← hchars, hb]
      · obtain ⟨name, rfl, hne, hsemi, rfl⟩ := parseClassDescriptor_sound h
        rw [charOf_eq_iff (by decide)] at hl
        refine ⟨le_rfl, ⟨fun h => (by cases h), by simpa using hn, ?_⟩, ?_⟩
        · simpa using ⟨hne, hsemi⟩
        · simp [ParsedDescriptor.printBase, kindChar, hl]
    · simp only [hk] at h
      obtain ⟨hprim, hb⟩ := readTypeKindChar_iff.mp hk
      split_ifs at h with hvoid
      cases h
      refine ⟨le_rfl, ⟨fun h => ?_, by simpa using hn, by simp [hprim]⟩, ?_⟩
      · by_contra hpos
        exact hvoid ⟨h, Nat.pos_of_ne_zero hpos⟩
      · simp [ParsedDescriptor.printBase, hprim, hb]

theorem parseFieldDescriptor_complete (h : d.IsLoose) (rest : Chars) : ∀ {k n : Nat},
    n + k = d.dimensions →
    parseFieldDescriptor n (List.replicate k '['.toUInt8 ++ (d.printBase ++ rest)) = .ok (d, rest)
  | 0, n, hn => by
    have hdim : ¬ 255 < n := by
      have := h.dimensions
      omega
    obtain ⟨⟨kind, dims⟩, name⟩ := d
    have hname := h.className
    obtain rfl : n = dims := hn
    rw [List.replicate_zero, List.nil_append, ParsedDescriptor.printBase, List.cons_append,
      parseFieldDescriptor, if_neg hdim]
    by_cases hk : kind = .reference
    · subst hk
      simp only [if_true] at hname
      have hb : readTypeKindChar (charOf (kindChar .reference).toUInt8) = none := by decide
      rw [hb]
      dsimp only
      rw [if_neg (by decide), if_pos (by decide), if_pos rfl, List.append_assoc,
        List.singleton_append, parseClassDescriptor]
      obtain ⟨ht, hd⟩ := takeWhile_semicolon hname.2 rest
      rw [ht, hd]
      dsimp only
      rw [if_neg hname.1]
    · simp only [hk, if_false] at hname
      have hb : readTypeKindChar (charOf (kindChar kind).toUInt8) = some kind :=
        readTypeKindChar_iff.mpr ⟨hk, rfl⟩
      rw [hb]
      dsimp only
      have hvoid : ¬ (kind = .void ∧ 0 < n) := fun ⟨hv, hpos⟩ =>
        absurd (h.notVoid hv) (Nat.ne_of_gt hpos)
      rw [if_neg hvoid, if_neg hk, List.nil_append, hname]
  | k + 1, n, hn => by
    have hdim : ¬ 255 < n := by
      have := h.dimensions
      omega
    have hb : readTypeKindChar (charOf '['.toUInt8) = none := by decide
    rw [List.replicate_succ, List.cons_append, parseFieldDescriptor, if_neg hdim, hb]
    dsimp only
    rw [if_pos (by decide)]
    exact parseFieldDescriptor_complete h rest (by omega)

/-- The parser accepts what begins with a loose descriptor, and leaves what is behind it. -/
theorem parseFieldDescriptor_iff : parseFieldDescriptor 0 chars = .ok (d, rest) ↔
    d.IsLoose ∧ chars = d.print ++ rest := by
  rw [ParsedDescriptor.print, List.append_assoc]
  constructor
  · intro h
    obtain ⟨-, hloose, hchars⟩ := parseFieldDescriptor_sound h
    exact ⟨hloose, hchars⟩
  · rintro ⟨hloose, rfl⟩
    exact parseFieldDescriptor_complete hloose rest (Nat.zero_add _)

theorem parseCompleteFieldDescriptor_iff : parseCompleteFieldDescriptor chars = .ok d ↔
    d.IsLoose ∧ chars = d.print := by
  have hiff := fun rest => @parseFieldDescriptor_iff chars rest d
  constructor
  · intro h
    obtain ⟨⟨d', rest⟩, hp, h⟩ := bind_eq_ok.mp h
    rcases rest with _ | ⟨b, rest⟩
    · cases h
      simpa using (hiff []).mp hp
    · cases h
  · rintro ⟨hloose, hchars⟩
    unfold parseCompleteFieldDescriptor
    rw [(hiff []).mpr ⟨hloose, by simpa using hchars⟩]
    rfl

/-! ### Descriptors of methods -/

theorem print_ne_nil (d : ParsedDescriptor) : d.print ≠ [] := by
  simp [ParsedDescriptor.print, ParsedDescriptor.printBase]

/-- No descriptor begins with the bracket behind the arguments. -/
theorem print_head (d : ParsedDescriptor) : ∃ b l, d.print = b :: l ∧ charOf b ≠ ')' := by
  unfold ParsedDescriptor.print
  rcases d.dimensions with _ | k
  · refine ⟨_, _, rfl, ?_⟩
    cases d.baseKind <;> decide
  · exact ⟨_, _, rfl, by decide⟩

/-- The arguments end here, or there is one more. -/
theorem parseArguments_cases {fuel : Nat} {b : UInt8} {chars rest : Chars}
    {args : List ParsedDescriptor} (h : parseArguments (fuel + 1) (b :: chars) = .ok (args, rest)) :
    (charOf b = ')' ∧ args = [] ∧ rest = b :: chars) ∨
      ∃ arg chars' args', parseFieldDescriptor 0 (b :: chars) = .ok (arg, chars') ∧
        arg.baseKind ≠ .void ∧ parseArguments fuel chars' = .ok (args', rest) ∧
        args = arg :: args' := by
  unfold parseArguments at h
  split_ifs at h with hb
  · cases h
    exact Or.inl ⟨hb, rfl, rfl⟩
  · obtain ⟨⟨arg, chars'⟩, harg, h⟩ := bind_eq_ok.mp h
    dsimp only at h
    split_ifs at h with hvoid
    · obtain ⟨_, herr, -⟩ := bind_eq_ok.mp h
      exact absurd herr throw_ne_ok
    obtain ⟨⟨args', rest'⟩, hargs, h⟩ := bind_eq_ok.mp h
    cases h
    exact Or.inr ⟨arg, chars', args', harg, hvoid, hargs, rfl⟩

theorem parseArguments_sound : ∀ {fuel : Nat} {chars rest : Chars} {args : List ParsedDescriptor},
    parseArguments fuel chars = .ok (args, rest) →
    (∀ arg ∈ args, arg.IsLoose ∧ arg.baseKind ≠ .void) ∧ chars = args.flatMap (·.print) ++ rest
  | 0, chars, rest, args, h => by
    unfold parseArguments at h
    cases h
    exact ⟨by simp, rfl⟩
  | fuel + 1, [], rest, args, h => by
    unfold parseArguments at h
    cases h
    exact ⟨by simp, rfl⟩
  | fuel + 1, b :: chars, rest, args, h => by
    rcases parseArguments_cases h with ⟨-, rfl, rfl⟩ | ⟨arg, chars', args', harg, hvoid, hargs, rfl⟩
    · exact ⟨by simp, rfl⟩
    · obtain ⟨hloose, hchars⟩ := parseFieldDescriptor_iff.mp harg
      obtain ⟨hall, rfl⟩ := parseArguments_sound hargs
      refine ⟨fun a ha => ?_, by simp [hchars]⟩
      rcases List.mem_cons.mp ha with rfl | ha
      · exact ⟨hloose, hvoid⟩
      · exact hall a ha

theorem parseArguments_complete {rest : Chars} : ∀ {args : List ParsedDescriptor} {fuel : Nat},
    (∀ arg ∈ args, arg.IsLoose ∧ arg.baseKind ≠ .void) → args.length ≤ fuel →
    parseArguments fuel (args.flatMap (·.print) ++ ')'.toUInt8 :: rest) =
      .ok (args, ')'.toUInt8 :: rest)
  | [], fuel, _, _ => by
    cases fuel with
    | zero => rfl
    | succ fuel =>
      rw [List.flatMap_nil, List.nil_append, parseArguments, if_pos (by decide)]
  | arg :: args, 0, _, hf => absurd hf (by simp)
  | arg :: args, fuel + 1, h, hf => by
    obtain ⟨hloose, hvoid⟩ := h arg List.mem_cons_self
    have ih := @parseArguments_complete rest args fuel
      (fun a ha => h a (List.mem_cons_of_mem arg ha)) (Nat.le_of_succ_le_succ hf)
    obtain ⟨b, l, hb, hne⟩ := print_head arg
    have hp : parseFieldDescriptor 0 (arg.print ++ (args.flatMap (·.print) ++ ')'.toUInt8 :: rest)) =
        .ok (arg, args.flatMap (·.print) ++ ')'.toUInt8 :: rest) :=
      parseFieldDescriptor_iff.mpr ⟨hloose, rfl⟩
    rw [List.flatMap_cons, List.append_assoc]
    rw [hb, List.cons_append] at hp ⊢
    unfold parseArguments
    rw [if_neg hne, hp]
    show (if arg.baseKind = .void then _ else _) = _
    rw [if_neg hvoid, ih]
    rfl

/-- A string begins with a loose method descriptor. -/
structure ParsedMethodDescriptor.IsLoose (d : ParsedMethodDescriptor) : Prop where
  args : ∀ arg ∈ d.args, arg.IsLoose ∧ arg.baseKind ≠ .void
  returnType : d.returnType.IsLoose

theorem length_le_flatMap_print : ∀ args : List ParsedDescriptor,
    args.length ≤ (args.flatMap (·.print)).length
  | [] => Nat.zero_le _
  | arg :: args => by
    have h := length_le_flatMap_print args
    have hpos := List.length_pos_iff.mpr (print_ne_nil arg)
    rw [List.flatMap_cons, List.length_append, List.length_cons]
    omega

theorem parseArguments_end : ∀ {fuel : Nat} {chars rest : Chars} {args : List ParsedDescriptor},
    chars.length ≤ fuel → parseArguments fuel chars = .ok (args, rest) → ∀ b ∈ rest.head?,
    b = ')'.toUInt8
  | 0, chars, rest, args, hlen, h => by
    obtain rfl := List.length_eq_zero_iff.mp (Nat.le_zero.mp hlen)
    cases h
    simp
  | fuel + 1, [], rest, args, _, h => by
    cases h
    simp
  | fuel + 1, b :: chars, rest, args, hlen, h => by
    rcases parseArguments_cases h with ⟨hb, rfl, rfl⟩ | ⟨arg, chars', args', harg, -, hargs, rfl⟩
    · simpa using (charOf_eq_iff (by decide)).mp hb
    · have hlen' := congrArg List.length (parseFieldDescriptor_iff.mp harg).2
      have hpos := List.length_pos_iff.mpr (print_ne_nil arg)
      rw [List.length_append, List.length_cons] at hlen'
      rw [List.length_cons] at hlen
      exact parseArguments_end (by omega) hargs

/-- The parser accepts what begins with a loose descriptor, whatever is behind it. -/
theorem parseMethodTypes_iff {d : ParsedMethodDescriptor} :
    parseMethodTypes chars = .ok d ↔ d.IsLoose ∧ ∃ rest, chars = d.print ++ rest := by
  constructor
  · intro h
    rcases chars with _ | ⟨b, chars⟩
    · cases h
    unfold parseMethodTypes at h
    dsimp only at h
    split_ifs at h with hb
    obtain ⟨⟨args, rest⟩, hargs, h⟩ := bind_eq_ok.mp h
    have hend := parseArguments_end le_rfl hargs
    rcases rest with _ | ⟨c, rest⟩
    · cases h
    · obtain ⟨⟨ret, rest'⟩, hret, h⟩ := bind_eq_ok.mp h
      cases h
      obtain ⟨hall, hchars⟩ := parseArguments_sound hargs
      obtain ⟨hloose, hrest⟩ := parseFieldDescriptor_iff.mp hret
      refine ⟨⟨hall, hloose⟩, rest', ?_⟩
      obtain rfl : c = ')'.toUInt8 := hend c (by simp)
      rw [hchars, hrest, (charOf_eq_iff (by decide)).mp (not_not.mp hb)]
      simp [ParsedMethodDescriptor.print]
  · rintro ⟨⟨hall, hloose⟩, rest, rfl⟩
    have hargs := @parseArguments_complete (d.returnType.print ++ rest) d.args
      (d.args.flatMap (·.print) ++ ')'.toUInt8 :: (d.returnType.print ++ rest)).length
      hall (by
        rw [List.length_append]
        exact (length_le_flatMap_print d.args).trans (Nat.le_add_right _ _))
    have hret := parseFieldDescriptor_iff.mpr ⟨hloose, @rfl _ (d.returnType.print ++ rest)⟩
    rw [ParsedMethodDescriptor.print, List.cons_append, List.append_assoc, List.cons_append,
      parseMethodTypes, if_neg (by decide), hargs]
    show (parseFieldDescriptor 0 (d.returnType.print ++ rest) >>= _) = _
    rw [hret]
    rfl

/-- The model without names is the parser with the names left out. -/
theorem parseMethodDescriptor_eq (chars : Chars) :
    parseMethodDescriptor chars =
      (parseMethodTypes chars).map ParsedMethodDescriptor.toMethodDescriptor := by
  rcases chars with _ | ⟨b, chars⟩
  · rfl
  unfold parseMethodDescriptor parseMethodTypes
  dsimp only
  split_ifs
  · rfl
  rcases parseArguments chars.length chars with e | ⟨args, _ | ⟨c, rest⟩⟩
  · rfl
  · rfl
  · show (parseFieldDescriptor 0 rest >>= _) = Except.map _ (parseFieldDescriptor 0 rest >>= _)
    rcases parseFieldDescriptor 0 rest with e | ⟨ret, rest'⟩
    · rfl
    · rfl

/-! ### What is right and what is let through -/

theorem mem_of_mem_intercalate {α : Type} {sep x : α} : ∀ {parts : List (List α)},
    x ∈ [sep].intercalate parts → x = sep ∨ ∃ part ∈ parts, x ∈ part
  | [], h => by simp at h
  | [part], h => by
    rw [List.intercalate_singleton] at h
    exact Or.inr ⟨part, List.mem_cons_self, h⟩
  | part :: part' :: parts, h => by
    rw [List.intercalate_cons_cons, List.mem_append, List.mem_append] at h
    rcases h with (h | h) | h
    · exact Or.inr ⟨part, List.mem_cons_self, h⟩
    · exact Or.inl (List.mem_singleton.mp h)
    · refine (mem_of_mem_intercalate h).imp_right fun ⟨p, hp, hx⟩ => ?_
      exact ⟨p, List.mem_cons_of_mem part hp, hx⟩

theorem isInternalName_loose {name : Chars} (h : isInternalName name) :
    name ≠ [] ∧ ';'.toUInt8 ∉ name := by
  constructor
  · rintro rfl
    exact absurd h (by decide)
  · intro hmem
    have hsplit : ['/'.toUInt8].intercalate (name.splitOn '/'.toUInt8) = name :=
      List.intercalate_splitOn _
    rw [← hsplit] at hmem
    rcases mem_of_mem_intercalate hmem with heq | ⟨part, hpart, hmem⟩
    · exact absurd heq (by decide)
    · have hname := List.all_eq_true.mp h part hpart
      simp only [isUnqualifiedName, Bool.and_eq_true, List.all_eq_true] at hname
      exact absurd (hname.2 _ hmem) (by decide)

theorem ParsedDescriptor.IsFieldType.loose (h : d.IsFieldType) : d.IsLoose where
  notVoid hv := absurd hv h.notVoid
  dimensions := h.dimensions
  className := by
    have hname := h.className
    split_ifs at hname ⊢
    · exact isInternalName_loose hname
    · exact hname

/-- A loose descriptor that is neither `void` nor names a class badly. -/
theorem isFieldType_iff (h : d.IsLoose) : d.IsFieldType ↔
    d.baseKind ≠ .void ∧ (d.baseKind = .reference → isInternalName d.className) := by
  refine ⟨fun ht => ⟨ht.notVoid, fun hr => ?_⟩, fun ⟨hv, hr⟩ => ⟨hv, h.dimensions, ?_⟩⟩
  · simpa [hr] using ht.className
  · have hname := h.className
    split_ifs at hname ⊢ with hk
    · exact hr hk
    · exact hname

theorem print_inj {d' : ParsedDescriptor} {rest' : Chars} (h : d.IsLoose) (h' : d'.IsLoose)
    (heq : d.print ++ rest = d'.print ++ rest') : d = d' ∧ rest = rest' := by
  have hp := parseFieldDescriptor_iff.mpr ⟨h, @rfl _ (d.print ++ rest)⟩
  rw [heq, parseFieldDescriptor_iff.mpr ⟨h', rfl⟩] at hp
  cases hp
  exact ⟨rfl, rfl⟩

theorem replicate_append_inj {α : Type} {a b b' : α} {l l' : List α} (hb : b ≠ a) (hb' : b' ≠ a) :
    ∀ {k k' : Nat}, List.replicate k a ++ b :: l = List.replicate k' a ++ b' :: l' →
      k = k' ∧ b = b' ∧ l = l'
  | 0, 0, h => by simpa using h
  | 0, k' + 1, h => by
    rw [List.replicate_succ] at h
    exact absurd (List.cons.inj h).1 hb
  | k + 1, 0, h => by
    rw [List.replicate_succ] at h
    exact absurd (List.cons.inj h).1.symm hb'
  | k + 1, k' + 1, h => by
    simp only [List.replicate_succ, List.cons_append, List.cons.injEq, true_and] at h
    obtain ⟨hk, hrest⟩ := replicate_append_inj hb hb' h
    exact ⟨congrArg (· + 1) hk, hrest⟩

theorem kindByte_ne_bracket (k : TypeKind) : (kindChar k).toUInt8 ≠ '['.toUInt8 := by
  cases k <;> decide

theorem kindByte_inj {k k' : TypeKind} (h : (kindChar k).toUInt8 = (kindChar k').toUInt8) :
    k = k' := by
  revert h
  cases k <;> cases k' <;> decide

theorem print_void_iff (h : d.IsLoose) : d.print = ['V'.toUInt8] ↔ d.baseKind = .void := by
  constructor
  · intro hp
    have heq : List.replicate d.dimensions '['.toUInt8 ++ d.printBase =
        List.replicate 0 '['.toUInt8 ++ (kindChar .void).toUInt8 :: [] := hp
    exact kindByte_inj (replicate_append_inj (kindByte_ne_bracket _) (kindByte_ne_bracket _) heq).2.1
  · intro hv
    rw [ParsedDescriptor.print, ParsedDescriptor.printBase, h.notVoid hv, hv]
    rfl

theorem print_class_iff {dimensions : Nat} {name : Chars} :
    d.print = List.replicate dimensions '['.toUInt8 ++ 'L'.toUInt8 :: (name ++ [';'.toUInt8]) ↔
      d.dimensions = dimensions ∧ d.baseKind = .reference ∧ d.className = name := by
  constructor
  · intro hp
    obtain ⟨hdim, hkind, hname⟩ := replicate_append_inj (kindByte_ne_bracket d.baseKind)
      (kindByte_ne_bracket .reference) hp
    have hk := kindByte_inj hkind
    rw [if_pos hk] at hname
    exact ⟨hdim, hk, List.append_cancel_right hname⟩
  · rintro ⟨rfl, hk, rfl⟩
    rw [ParsedDescriptor.print, ParsedDescriptor.printBase, if_pos hk, hk]
    rfl

theorem fieldRight_iff (h : parseCompleteFieldDescriptor chars = .ok d) :
    FieldRight chars d ↔ FieldClean chars := by
  obtain ⟨hloose, rfl⟩ := parseCompleteFieldDescriptor_iff.mp h
  have hdesc : IsFieldDescriptor d.print ↔ d.IsFieldType := by
    refine ⟨fun ⟨e, he, hp⟩ => ?_, fun ht => ⟨d, ht, rfl⟩⟩
    have happ : e.print ++ [] = d.print ++ [] := by rw [List.append_nil, List.append_nil, hp]
    obtain ⟨rfl, -⟩ := print_inj he.loose hloose happ
    exact he
  rw [FieldRight, and_iff_left rfl, hdesc, isFieldType_iff hloose, FieldClean, Ne, Ne,
    print_void_iff hloose]
  refine and_congr_right' ⟨fun hr k name hp => ?_, fun hr hk => ?_⟩
  · obtain ⟨-, hk, rfl⟩ := print_class_iff.mp hp
    exact hr hk
  · exact hr d.dimensions d.className (print_class_iff.mpr ⟨rfl, hk, rfl⟩)

theorem ParsedMethodDescriptor.IsMethodType.loose {d : ParsedMethodDescriptor}
    (h : d.IsMethodType) : d.IsLoose where
  args arg ha := ⟨(h.args arg ha).loose, (h.args arg ha).notVoid⟩
  returnType := by
    rcases h.returnType with ht | ht
    · exact ht.loose
    · rw [ht]
      exact ⟨fun _ => rfl, by decide, by simp⟩

theorem isMethodType_iff {d : ParsedMethodDescriptor} (h : d.IsLoose) : d.IsMethodType ↔
    d.argumentSlots ≤ 255 ∧
      ∀ t ∈ d.returnType :: d.args, t.baseKind = .reference → isInternalName t.className := by
  constructor
  · intro ht
    refine ⟨ht.slots, fun t hmem hr => ?_⟩
    rcases List.mem_cons.mp hmem with rfl | hmem
    · rcases ht.returnType with hret | hret
      · exact ((isFieldType_iff h.returnType).mp hret).2 hr
      · rw [hret] at hr
        cases hr
    · exact ((isFieldType_iff (h.args t hmem).1).mp (ht.args t hmem)).2 hr
  · rintro ⟨hslots, hnames⟩
    refine ⟨fun arg ha => ?_, ?_, hslots⟩
    · exact (isFieldType_iff (h.args arg ha).1).mpr
        ⟨(h.args arg ha).2, hnames arg (List.mem_cons_of_mem _ ha)⟩
    · by_cases hv : d.returnType.baseKind = .void
      · refine Or.inr ?_
        have hdim := h.returnType.notVoid hv
        have hname := h.returnType.className
        rw [if_neg (by rw [hv]; decide)] at hname
        obtain ⟨args, ⟨⟨kind, dims⟩, name⟩⟩ := d
        simp only at hv hdim hname
        rw [hv, hdim, hname]
      · exact Or.inl ((isFieldType_iff h.returnType).mpr ⟨hv, hnames _ List.mem_cons_self⟩)

theorem methodRight_iff {parsed : MethodDescriptor} (h : parseMethodDescriptor chars = .ok parsed) :
    MethodRight chars parsed ↔ MethodClean chars := by
  rw [parseMethodDescriptor_eq] at h
  obtain ⟨d, hd, rfl⟩ := map_eq_ok.mp h
  obtain ⟨hloose, rest, hchars⟩ := parseMethodTypes_iff.mp hd
  have hunique : ∀ e : ParsedMethodDescriptor, e.IsLoose → ∀ r, chars = e.print ++ r →
      e = d ∧ r = rest := by
    intro e he r hr
    have hp := parseMethodTypes_iff.mpr ⟨he, r, hr⟩
    rw [hd] at hp
    cases hp
    exact ⟨rfl, List.append_cancel_left (hr.symm.trans hchars)⟩
  constructor
  · rintro ⟨⟨e, he, hprint⟩, e', he', -, hprint'⟩
    obtain ⟨rfl, rfl⟩ := hunique e he.loose [] (by simpa using hprint.symm)
    intro e' r hargs hret hr
    obtain ⟨rfl, rfl⟩ := hunique e' ⟨hargs, hret⟩ r hr
    exact ⟨rfl, (isMethodType_iff hloose).mp he⟩
  · intro hclean
    obtain ⟨hrest, htype⟩ := hclean d rest hloose.args hloose.returnType hchars
    rw [hrest, List.append_nil] at hchars
    exact ⟨⟨d, (isMethodType_iff hloose).mpr htype, hchars.symm⟩, d, hd, rfl, hchars.symm⟩

/-- Every descriptor is accepted, and what it is parsed to prints to it. -/
theorem fieldDescriptor_accepted (h : IsFieldDescriptor chars) :
    ∃ d, parseCompleteFieldDescriptor chars = .ok d ∧ d.print = chars := by
  obtain ⟨d, hd, rfl⟩ := h
  exact ⟨d, parseCompleteFieldDescriptor_iff.mpr ⟨hd.loose, rfl⟩, rfl⟩

theorem methodDescriptor_accepted (h : IsMethodDescriptor chars) :
    ∃ d, parseMethodTypes chars = .ok d ∧ d.print = chars := by
  obtain ⟨d, hd, rfl⟩ := h
  exact ⟨d, parseMethodTypes_iff.mpr ⟨hd.loose, [], by simp⟩, rfl⟩

/-! ### The descriptors of a class file -/

theorem times_all {α : Type} {p : Parser α} {P : α → Prop} {m : ByteMemory}
    (hp : ∀ {s a s'}, p.Yields m s a s' → P a) : ∀ {n : Nat} {s s' : Slice} {l : List α},
    (p.times n).Yields m s l s' → ∀ a ∈ l, P a
  | 0, s, s', l, h => by
    obtain ⟨rfl, rfl⟩ := yields_pure.mp h
    simp
  | n + 1, s, s', l, h => by
    unfold times at h
    simp only [yields_bind, yields_pure] at h
    obtain ⟨a, s₁, ha, l', s₂, hl', rfl, rfl⟩ := h
    exact List.forall_mem_cons.mpr ⟨hp ha, times_all hp hl'⟩

theorem info_mapM {pool pool' : ConstantPool} {f : CpInfo → Except String CpInfo}
    (hf : f .invalid = .ok .invalid)
    (h : pool.mapM (fun entry => (f entry.info).map fun info => { entry with info }) = .ok pool')
    (j : Nat) : f (pool.info j) = .ok (pool'.info j) := by
  have hj := mapM_eq_ok h j
  unfold ConstantPool.info
  rcases hentry : pool[j]? with _ | entry <;> rcases hentry' : pool'[j]? with _ | entry' <;>
    rw [hentry, hentry'] at hj
  · exact hf
  · cases hj
  · cases hj
  · obtain ⟨info, hinfo, rfl⟩ := map_eq_ok.mp (Option.some.inj hj)
    exact hinfo

/-- The references to members have been parsed from the descriptors that they point to. -/
structure MembersParsed (pool : ConstantPool) : Prop where
  fieldrefs : ∀ i classInfo nat descriptor, pool.info i = .field classInfo nat descriptor →
    ∃ d, descriptor = some d ∧ parseCompleteFieldDescriptor (pool.descriptorAt nat) = .ok d
  methodrefs : ∀ i nat descriptor, (pool.info i).IsMethodref nat descriptor →
    ∃ d, descriptor = some d ∧ parseMethodDescriptor (pool.descriptorAt nat) = .ok d

theorem mapError_eq_ok {ε ε' α : Type} {x : Except ε α} {f : ε → ε'} {a : α}
    (h : x.mapError f = .ok a) : x = .ok a := by
  cases x with
  | error => cases h
  | ok => simpa [Except.mapError] using h

theorem finish_nat {pool : ConstantPool} {info info' : CpInfo}
    (h : finishConstantPoolEntry pool info = .ok info') : info'.nat = info.nat := by
  unfold finishConstantPoolEntry at h
  split at h
  case h_6 => rw [pure_eq_ok.mp h]
  all_goals
    obtain ⟨d, -, h⟩ := bind_eq_ok.mp h
    cases pure_eq_ok.mp h
    rfl

theorem membersParsed_finish {pool pool' : ConstantPool}
    (h : pool.mapM (finishEntry pool) = .ok pool') : MembersParsed pool' := by
  have hinfo := info_mapM (f := finishConstantPoolEntry pool) rfl h
  have hdesc : ∀ nat, pool'.descriptorAt nat = pool.descriptorAt nat := fun nat => by
    rw [ConstantPool.descriptorAt, finish_nat (hinfo _), ConstantPool.descriptorAt]
  refine ⟨fun i classInfo nat descriptor hi => ?_, fun i nat descriptor hi => ?_⟩
  · have hf := hinfo i
    rw [hi] at hf
    unfold finishConstantPoolEntry at hf
    split at hf
    case h_1 =>
      obtain ⟨d, hd, hf⟩ := bind_eq_ok.mp hf
      cases pure_eq_ok.mp hf
      exact ⟨d, rfl, hdesc nat ▸ hd⟩
    case h_6 hne _ _ _ _ => exact absurd (pure_eq_ok.mp hf) (hne _ _ _)
    all_goals
      obtain ⟨d, -, hf⟩ := bind_eq_ok.mp hf
      cases pure_eq_ok.mp hf
  · obtain ⟨classInfo, hi⟩ := hi
    have hf := hinfo i
    have hmethod : ∀ {d}, finishConstantPoolEntry.methodDescriptor pool nat = .ok d →
        parseMethodDescriptor (pool'.descriptorAt nat) = .ok d := fun hd =>
      hdesc nat ▸ mapError_eq_ok hd
    unfold finishConstantPoolEntry at hf
    rcases hi with hi | hi
    · rw [hi] at hf
      split at hf
      case h_3 =>
        obtain ⟨d, hd, hf⟩ := bind_eq_ok.mp hf
        cases pure_eq_ok.mp hf
        exact ⟨d, rfl, hmethod hd⟩
      case h_6 hne _ _ => exact absurd (pure_eq_ok.mp hf) (hne _ _ _)
      all_goals
        obtain ⟨d, -, hf⟩ := bind_eq_ok.mp hf
        cases pure_eq_ok.mp hf
    · rw [hi] at hf
      split at hf
      case h_4 =>
        obtain ⟨d, hd, hf⟩ := bind_eq_ok.mp hf
        cases pure_eq_ok.mp hf
        exact ⟨d, rfl, hmethod hd⟩
      case h_6 hne _ => exact absurd (pure_eq_ok.mp hf) (hne _ _ _)
      all_goals
        obtain ⟨d, -, hf⟩ := bind_eq_ok.mp hf
        cases pure_eq_ok.mp hf

/-- Linking the bootstrap methods changes nothing but the entries for `invokedynamic`. -/
theorem linkBootstrapMethod_cases {attributes : List Attribute} {info info' : CpInfo}
    (h : linkBootstrapMethod attributes info = .ok info') :
    info' = info ∨ info.kind = .invokeDynamic ∧ info'.kind = .invokeDynamic := by
  unfold linkBootstrapMethod at h
  split at h
  · split at h
    · cases h
    · split_ifs at h
      cases h
      exact Or.inr ⟨rfl, rfl⟩
  · cases h
    exact Or.inl rfl

theorem nat_of_kind {info : CpInfo} (h : info.kind ≠ .nameAndType) : info.nat = ([], []) := by
  cases info <;> first | rfl | exact absurd rfl h

theorem MembersParsed.link {pool pool' : ConstantPool} {attributes : List Attribute}
    (h : MembersParsed pool) (hlink : linkBootstrapMethods attributes pool = .ok pool') :
    MembersParsed pool' := by
  have hinfo := fun j => linkBootstrapMethod_cases (@info_mapM _ _ (linkBootstrapMethod attributes) rfl hlink j)
  have hdesc : ∀ nat, pool'.descriptorAt nat = pool.descriptorAt nat := fun nat => by
    unfold ConstantPool.descriptorAt
    rcases hinfo (nat.getD 0) with heq | ⟨hk, hk'⟩
    · rw [heq]
    · rw [nat_of_kind (by rw [hk']; decide), nat_of_kind (by rw [hk]; decide)]
  refine ⟨fun i classInfo nat descriptor hi => ?_, fun i nat descriptor hi => ?_⟩
  · rw [hdesc]
    rcases hinfo i with heq | ⟨-, hk⟩
    · exact h.fieldrefs i classInfo nat descriptor (heq ▸ hi)
    · rw [hi] at hk
      cases hk
  · rw [hdesc]
    rcases hinfo i with heq | ⟨-, hk⟩
    · exact h.methodrefs i nat descriptor (heq ▸ hi)
    · obtain ⟨classInfo, hi | hi⟩ := hi <;> rw [hi] at hk <;> cases hk

theorem readField_parsed {m : ByteMemory} {s s' : Slice} {pool : ConstantPool} {fuel : Nat}
    {f : ParsedField} (h : (readField pool fuel).Yields m s f s') :
    parseCompleteFieldDescriptor f.descriptor = .ok f.parsedDescriptor := by
  unfold readField at h
  simp only [yields_bind, yields_lift, yields_pure] at h
  obtain ⟨_, _, -, _, _, -, _, _, -, _, _, -, _, _, -, d, _, ⟨hd, rfl⟩, rfl, rfl⟩ := h
  exact hd

theorem parseMethod_parsed {m : ByteMemory} {s s' : Slice} {pool : ConstantPool} {fuel : Nat}
    {f : ParsedMethod} (h : (parseMethod pool fuel).Yields m s f s') :
    parseMethodDescriptor f.unparsedDescriptor = .ok f.descriptor := by
  unfold parseMethod at h
  simp only [yields_bind, yields_lift, yields_pure] at h
  obtain ⟨_, _, -, _, _, -, _, _, -, _, _, -, d, _, ⟨hd, rfl⟩, _, _, -, rfl, rfl⟩ := h
  exact hd

/-- What has been parsed of the descriptors when a class file is accepted. -/
structure DescriptorsParsed (cf : ParsedClass) : Prop where
  fields : ∀ f ∈ cf.fields, parseCompleteFieldDescriptor f.descriptor = .ok f.parsedDescriptor
  members : MembersParsed cf.pool
  methods : ∀ f ∈ cf.methods, parseMethodDescriptor f.unparsedDescriptor = .ok f.descriptor

theorem parseClassfile_descriptors {m : ByteMemory} {s s' : Slice} {cf : ParsedClass}
    (h : parseClassfile.Yields m s cf s') : DescriptorsParsed cf := by
  unfold parseClassfile at h
  simp only [yields_bind] at h
  obtain ⟨_, _, -, magic, _, -, h⟩ := h
  split_ifs at h
  · exact absurd h yields_fail
  · simp only [yields_bind] at h
    obtain ⟨_, _, -, _, _, -, pool, _, hpool, h⟩ := h
    obtain ⟨_, _, -, _, _, -, _, _, -, _, _, -, _, _, -, _, _, -, _, _, -, h⟩ := h
    obtain ⟨fields, _, hfields, _, _, -, methods, _, hmethods, _, _, -, _, _, -, _, _, -, h⟩ := h
    split_ifs at h
    · exact absurd h yields_fail
    · simp only [yields_bind, yields_lift, yields_pure] at h
      obtain ⟨_, _, ⟨hlink, rfl⟩, rfl, rfl⟩ := h
      unfold parseConstantPool at hpool
      simp only [yields_bind, yields_lift] at hpool
      obtain ⟨_, _, -, _, _, -, _, _, -, hfinish, -⟩ := hpool
      refine ⟨times_all readField_parsed hfields, (membersParsed_finish hfinish).link hlink, ?_⟩
      intro f hf
      obtain ⟨i, hi, rfl⟩ := List.mem_iff_getElem.mp hf
      rw [List.getElem_mapIdx]
      rw [List.length_mapIdx] at hi
      exact times_all parseMethod_parsed hmethods methods[i] (List.getElem_mem hi)

theorem DescriptorsParsed.right_iff {cf : ParsedClass} (h : DescriptorsParsed cf) :
    DescriptorsRight cf ↔ DescriptorsClean cf := by
  constructor
  · refine fun hr => ⟨fun f hf => ?_, fun i c nat d hi => ?_, fun f hf => ?_, fun i nat d hi => ?_⟩
    · exact (fieldRight_iff (h.fields f hf)).mp (hr.fields f hf)
    · obtain ⟨d', rfl, hd⟩ := h.members.fieldrefs i c nat d hi
      obtain ⟨_, heq, hright⟩ := hr.fieldrefs i c nat _ hi
      cases heq
      exact (fieldRight_iff hd).mp hright
    · exact (methodRight_iff (h.methods f hf)).mp (hr.methods f hf)
    · obtain ⟨d', rfl, hd⟩ := h.members.methodrefs i nat d hi
      obtain ⟨_, heq, hright⟩ := hr.methodrefs i nat _ hi
      cases heq
      exact (methodRight_iff hd).mp hright
  · refine fun hc => ⟨fun f hf => ?_, fun i c nat d hi => ?_, fun f hf => ?_, fun i nat d hi => ?_⟩
    · exact (fieldRight_iff (h.fields f hf)).mpr (hc.fields f hf)
    · obtain ⟨d', rfl, hd⟩ := h.members.fieldrefs i c nat d hi
      exact ⟨d', rfl, (fieldRight_iff hd).mpr (hc.fieldrefs i c nat _ hi)⟩
    · exact (methodRight_iff (h.methods f hf)).mpr (hc.methods f hf)
    · obtain ⟨d', rfl, hd⟩ := h.members.methodrefs i nat d hi
      exact ⟨d', rfl, (methodRight_iff hd).mpr (hc.methodrefs i nat _ hi)⟩

/-- Every descriptor is accepted; and those of a class file that is accepted are right if and only if
none is of a kind that is let through. -/
theorem descriptors_right_iff (m : ByteMemory) (s : Slice) :
    (∀ chars, IsFieldDescriptor chars →
      ∃ d, parseCompleteFieldDescriptor chars = .ok d ∧ d.print = chars) ∧
    (∀ chars, IsMethodDescriptor chars →
      ∃ d, parseMethodTypes chars = .ok d ∧ d.print = chars ∧
        parseMethodDescriptor chars = .ok d.toMethodDescriptor) ∧
    ∀ {cf s'}, parseClassfile.Yields m s cf s' → (DescriptorsRight cf ↔ DescriptorsClean cf) := by
  refine ⟨fun chars h => fieldDescriptor_accepted h, fun chars h => ?_,
    fun h => (parseClassfile_descriptors h).right_iff⟩
  obtain ⟨d, hd, hprint⟩ := methodDescriptor_accepted h
  exact ⟨d, hd, hprint, by rw [parseMethodDescriptor_eq, hd]; rfl⟩

/-- The class file of `java/lang/Object` with a field whose descriptor is one byte. -/
def fieldFile (descriptor : UInt8) : List UInt8 :=
  [0xca, 0xfe, 0xba, 0xbe, 0, 0, 0, 61, 0, 5,
    7, 0, 2,
    1, 0, 16, 106, 97, 118, 97, 47, 108, 97, 110, 103, 47, 79, 98, 106, 101, 99, 116,
    1, 0, 1, 97,
    1, 0, 1, descriptor,
    0, 0x21, 0, 1, 0, 0, 0, 0, 0, 1,
    0, 0, 0, 3, 0, 4, 0, 0,
    0, 0, 0, 0]

theorem intField_right : ∃ cf s',
    parseClassfile.Yields (memoryOf (fieldFile 73)) (sliceOf (fieldFile 73)) cf s' ∧
      (DescriptorsRight cf ↔ DescriptorsClean cf) := by
  have hok : (parseClassfile.run (memoryOf (fieldFile 73)) (sliceOf (fieldFile 73))).2.isOk := by
    decide
  obtain ⟨cf, s', h⟩ := exists_yields hok
  exact ⟨cf, s', h, (descriptors_right_iff _ _).2.2 h⟩

/-- A field may be of the type `void`. -/
theorem voidField_accepted : ∃ cf s',
    parseClassfile.Yields (memoryOf (fieldFile 86)) (sliceOf (fieldFile 86)) cf s' ∧
      ¬ DescriptorsRight cf := by
  have hok : (parseClassfile.run (memoryOf (fieldFile 86)) (sliceOf (fieldFile 86))).2.isOk := by
    decide
  obtain ⟨cf, s', h⟩ := exists_yields hok
  have hfields : (parseClassfile.run (memoryOf (fieldFile 86)) (sliceOf (fieldFile 86))).2.toOption.map
      (fun result => result.1.fields.map (·.descriptor)) = some [['V'.toUInt8]] := by
    decide
  rw [show _ = _ from h] at hfields
  have heq : cf.fields.map (·.descriptor) = [['V'.toUInt8]] := Option.some.inj hfields
  obtain ⟨f, hf, hdesc⟩ := List.mem_map.mp (heq ▸ List.mem_cons_self)
  refine ⟨cf, s', h, fun hright => ?_⟩
  have hparsed := (parseClassfile_descriptors h).fields f hf
  exact ((fieldRight_iff hparsed).mp (hright.fields f hf)).1 hdesc

end BJvm.ClassFile
