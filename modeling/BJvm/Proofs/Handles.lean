import BJvm.Natives.Reflection

/-!
# Which routines keep the handles

A routine that only makes a handle, does something that keeps the table, and drops the handle keeps
the table.  The rules for `Restores` and `Releases` say so step by step, and the routines that go wrong
are those with an exit between the two (`handles_kept`).
-/

namespace BJvm.Handles

variable {α β : Type} {m : Native α} {f : α → Native β} {h : Handle} {o i : Nat}
  {t t' : List Object}

/-! ### Rules -/

/-- The table is what it was when the routine returns. -/
def Restores (m : Native α) : Prop := ∀ ⦃t a t'⦄, m t = .ok (a, t') → t' = t

/-- The handle has been dropped when the routine returns. -/
def Releases (h : Handle) (m : Native α) : Prop := ∀ ⦃t a t'⦄, m t = .ok (a, t') → t' = dropped t h

theorem bind_apply : (m >>= f) t = (m t).bind fun p => f p.1 p.2 := by
  rcases hm : m t with e | ⟨a, t'⟩ <;> simp [bind, StateT.bind, hm, Except.bind]

theorem bind_ok {b : β} : (m >>= f) t = .ok (b, t') ↔
    ∃ a t₁, m t = .ok (a, t₁) ∧ f a t₁ = .ok (b, t') := by
  rw [bind_apply]
  rcases hm : m t with e | ⟨a, t₁⟩ <;> simp [Except.bind]

theorem bind_of_ok {a : α} (hm : m t = .ok (a, t')) : (m >>= f) t = f a t' := by
  rw [bind_apply, hm]
  rfl

theorem pure_apply (a : α) : (pure a : Native α) t = .ok (a, t) := rfl

theorem obj_apply (hh : obj h t = .ok (o, t')) : t' = t ∧ (o = 0 → dropped t h = t) := by
  rcases h with _ | _ | i | x
  · cases hh
  · cases hh
    exact ⟨rfl, fun _ => rfl⟩
  · cases hh
    refine ⟨rfl, fun h0 => ?_⟩
    rw [dropped]
    refine List.ext_getElem? fun j => ?_
    rcases eq_or_ne i j with rfl | hij
    · rcases Nat.lt_or_ge i t.length with hlt | hge
      · rw [List.getElem?_set_self hlt, ← h0, List.getD_eq_getElem?_getD,
          List.getElem?_eq_getElem hlt, Option.getD_some]
      · rw [List.set_eq_of_length_le hge]
    · rw [List.getElem?_set_ne hij]
  · cases hh
    exact ⟨rfl, fun _ => rfl⟩

theorem dropped_makeHandle (hm : makeHandle o t = .ok (h, t')) : dropped t' h = t := by
  rw [makeHandle] at hm
  split_ifs at hm with h0
  · cases hm
    rfl
  · split at hm
    · rename_i i hi
      cases hm
      obtain ⟨hlt, heq, -⟩ := List.findIdx?_eq_some_iff_getElem.mp hi
      rw [dropped, List.set_set]
      have : t[i] = 0 := by simpa using heq
      rw [← this, List.set_getElem_self]
    · cases hm

namespace Restores

theorem pure (a : α) : Restores (pure a : Native α) := by
  rintro t b t' h
  cases h
  rfl

theorem throw (e : Stop) : Restores (throw e : Native α) := by
  rintro t b t' h
  cases h

theorem bind (hm : Restores m) (hf : ∀ a, Restores (f a)) : Restores (m >>= f) := by
  rintro t b t' h
  obtain ⟨a, t₁, h1, h2⟩ := bind_ok.mp h
  rw [hf a h2, hm h1]

theorem ite {c : Prop} [Decidable c] {m₁ m₂ : Native α} (h1 : c → Restores m₁)
    (h2 : ¬ c → Restores m₂) : Restores (if c then m₁ else m₂) := by
  split_ifs with hc
  · exact h1 hc
  · exact h2 hc

theorem obj (h : Handle) : Restores (obj h) := fun _ _ _ ho => (obj_apply ho).1

theorem deref (h : Handle) : Restores (deref h) :=
  (obj h).bind fun _ => .ite (fun _ => .throw _) fun _ => .pure _

/-- What has been made is dropped. -/
theorem makeHandle {f : Handle → Native β} (hf : ∀ h, Releases h (f h)) :
    Restores (makeHandle o >>= f) := by
  rintro t b t' h
  obtain ⟨h, t₁, h1, h2⟩ := bind_ok.mp h
  rw [hf h h2, dropped_makeHandle h1]

end Restores

namespace Releases

theorem throw (e : Stop) : Releases h (throw e : Native α) := by
  rintro t b t' h
  cases h

theorem dropHandle : Releases h (dropHandle h) := by
  rintro t b t' h
  cases h
  rfl

theorem bind (hm : Restores m) (hf : ∀ a, Releases h (f a)) : Releases h (m >>= f) := by
  rintro t b t' h
  obtain ⟨a, t₁, h1, h2⟩ := bind_ok.mp h
  rw [hf a h2, hm h1]

theorem bind' (hm : Releases h m) (hf : ∀ a, Restores (f a)) : Releases h (m >>= f) := by
  rintro t b t' h
  obtain ⟨a, t₁, h1, h2⟩ := bind_ok.mp h
  rw [hf a h2, hm h1]

/-- A null handle need not be dropped. -/
theorem obj {m : Native β} {f : Object → Native β} (hm : Restores m) (hf : ∀ o, Releases h (f o)) :
    Releases h (obj h >>= fun o => if o = 0 then m else f o) := by
  rintro t b t' hrun
  obtain ⟨o, t₁, h1, h2⟩ := bind_ok.mp hrun
  obtain ⟨rfl, hnull⟩ := obj_apply h1
  split_ifs at h2 with h0
  · rw [hm h2, hnull h0]
  · exact hf o h2

end Releases

/-! ### Strings and mirrors -/

theorem makeJstringModifiedUtf8_restores (s : JString) : Restores (makeJstringModifiedUtf8 s) :=
  .makeHandle fun _ => .obj (.pure _) fun _ => .bind' .dropHandle fun _ => .pure _

theorem makeJString_restores (s : JString) : Restores (makeJString s) :=
  (makeJstringModifiedUtf8_restores s).bind fun _ => .pure _

theorem getClassMirror_restores : ∀ mirror : Mirror, Restores (getClassMirror mirror)
  | .noClass => .pure _
  | .cached _ => .pure _
  | .new _ component => .makeHandle fun _ => .obj (.pure _) fun _ =>
    .bind (getClassMirror_restores component) fun _ => .bind' .dropHandle fun _ => .pure _

/-! ### The routines that keep the handles -/

theorem Field.fillAttributes_restores : ∀ attributes, Restores (Field.fillAttributes attributes)
  | [] => .pure _
  | .runtimeVisibleAnnotations _ :: attributes =>
    .ite (fun _ => .throw _) fun _ => fillAttributes_restores attributes
  | .signature s :: attributes =>
    (makeJString_restores s).bind fun _ => fillAttributes_restores attributes
  | .other :: attributes => fillAttributes_restores attributes

theorem Field.fill_restores (f : Field) : Restores f.fill :=
  (makeJString_restores _).bind fun _ => .ite (fun _ => .pure _) fun _ =>
    (getClassMirror_restores _).bind fun _ => .ite (fun _ => .pure _) fun _ =>
      (getClassMirror_restores _).bind fun _ => fillAttributes_restores _

theorem reflectInitializeField_restores (f : Field) : Restores (reflectInitializeField f) :=
  .makeHandle fun _ => .obj (.pure _) fun _ => .bind f.fill_restores fun _ => .dropHandle

theorem Method.fillAttributes_restores : ∀ attributes, Restores (Method.fillAttributes attributes)
  | [] => .pure _
  | .annotations _ :: attributes =>
    .ite (fun _ => .pure _) fun _ => fillAttributes_restores attributes
  | .signature s :: attributes => (makeJString_restores s).bind fun _ =>
    .ite (fun _ => .pure _) fun _ => fillAttributes_restores attributes
  | .other :: attributes => fillAttributes_restores attributes

theorem Method.resolveArgs_restores : ∀ args, Restores (Method.resolveArgs args)
  | [] => .pure _
  | arg :: args => (getClassMirror_restores arg.mirror).bind fun _ =>
    .ite (fun _ => .pure _) fun _ => resolveArgs_restores args

theorem Method.fill_restores (m : Method) : Restores m.fill :=
  (makeJString_restores _).bind fun _ => .ite (fun _ => .pure _) fun _ =>
    (getClassMirror_restores _).bind fun _ => .ite (fun _ => .pure _) fun _ =>
      (fillAttributes_restores _).bind fun _ => .ite (fun _ => .pure _) fun _ =>
        (resolveArgs_restores _).bind fun _ => .ite (fun _ => .pure _) fun _ =>
          (getClassMirror_restores _).bind fun _ => .pure _

theorem reflectInitializeMethod_restores (m : Method) : Restores (reflectInitializeMethod m) :=
  .makeHandle fun h => .bind (.deref h) fun _ => .bind m.fill_restores fun _ => .dropHandle

theorem EnclosingMethod.fill_restores (e : EnclosingMethod) (array : Handle) :
    Restores (e.fill array) := by
  refine .ite (fun _ => .throw _) fun _ => (Restores.deref array).bind fun _ => ?_
  rcases e.nat with _ | ⟨name, descriptor⟩
  · exact .obj array
  · exact (makeJString_restores name).bind fun _ => (makeJString_restores descriptor).bind fun _ =>
      .obj array

theorem getEnclosingMethod0_restores : ∀ e, Restores (getEnclosingMethod0 e)
  | none => .pure _
  | some e => .makeHandle fun h => .bind (e.fill_restores h) fun _ =>
    .bind' .dropHandle fun _ => .pure _

theorem storeInnerClasses_restores (ret : Handle) : ∀ infos, Restores (storeInnerClasses ret infos)
  | [] => .pure _
  | none :: infos => storeInnerClasses_restores ret infos
  | some mirror :: infos => (getClassMirror_restores mirror).bind fun _ =>
    (Restores.deref ret).bind fun _ => storeInnerClasses_restores ret infos

theorem getDeclaredClasses0_restores (array : Object) (infos : List (Option Mirror)) :
    Restores (getDeclaredClasses0 array infos) :=
  .makeHandle fun h => .bind (storeInnerClasses_restores h infos) fun _ => .bind (.obj h) fun _ =>
    .bind' .dropHandle fun _ => .pure _

/-- The loop keeps the table but for the handle in the variable. -/
theorem Parameter.fillAll_dropped (params : Handle) : ∀ (ps : List Parameter) (parameter : Handle)
    {t t' : List Object} {r : Handle × Bool}, fillAll params parameter ps t = .ok (r, t') →
    dropped t' r.1 = dropped t parameter
  | [], _, _, _, _, h => by
    cases h
    rfl
  | p :: ps, parameter, t, t', r, h => by
    obtain ⟨_, t₁, hdrop, h1⟩ := bind_ok.mp h
    obtain ⟨e, t₂, hmake, h2⟩ := bind_ok.mp h1
    have hback : dropped t₂ e = dropped t parameter := by
      rw [dropped_makeHandle hmake, Releases.dropHandle hdrop]
    obtain ⟨o, t₃, hobj, h3⟩ := bind_ok.mp h2
    rw [(obj_apply hobj).1] at h3
    split_ifs at h3
    · cases h3
      exact hback
    · obtain ⟨name, t₄, hname, h4⟩ := bind_ok.mp h3
      rw [makeJString_restores _ hname] at h4
      split_ifs at h4
      · cases h4
        exact hback
      · obtain ⟨_, t₅, hderef, h5⟩ := bind_ok.mp h4
        rw [Restores.deref _ hderef] at h5
        rw [fillAll_dropped params ps e h5, hback]

theorem dropped_comm (h h' : Handle) : dropped (dropped t h) h' = dropped (dropped t h') h := by
  rcases h with _ | _ | i | _ <;> rcases h' with _ | _ | j | _ <;> try rfl
  rcases eq_or_ne i j with rfl | hij
  · rfl
  · exact List.set_comm 0 0 hij

theorem getMethodParameters_restores (array : Object) (ps : List Parameter) :
    Restores (getMethodParameters array ps) := by
  refine .makeHandle fun params => .obj (.pure _) fun o t a t' h => ?_
  obtain ⟨last, t₁, hfill, h⟩ := bind_ok.mp h
  obtain ⟨_, t₂, hdrop, h⟩ := bind_ok.mp h
  obtain ⟨_, t₃, hdrop', h⟩ := bind_ok.mp h
  cases h
  rw [Releases.dropHandle hdrop', Releases.dropHandle hdrop, dropped_comm,
    Parameter.fillAll_dropped params ps _ hfill]
  rfl

/-! ### What the calls in a routine return -/

theorem obj_makeHandle (hm : makeHandle o t = .ok (h, t')) : obj h t' = .ok (o, t') := by
  rw [makeHandle] at hm
  split_ifs at hm with h0
  · cases hm
    rw [h0]
    rfl
  · split at hm
    · rename_i i hi
      cases hm
      obtain ⟨hlt, -⟩ := List.findIdx?_eq_some_iff_getElem.mp hi
      simp only [obj, List.getD_eq_getElem?_getD, List.getElem?_set_self hlt, Option.getD_some]
    · cases hm

/-- With the null pointer, the handle is the null handle. -/
theorem makeHandle_zero : makeHandle 0 t = .ok (.nullHandle, t) := rfl

theorem getClassMirror_value : ∀ {mirror : Mirror}, getClassMirror mirror t = .ok (o, t') →
    o = mirror.value
  | .noClass, h => by
    cases h
    rfl
  | .cached _, h => by
    cases h
    rfl
  | .new mirror component, h => by
    obtain ⟨handle, t₁, hmake, h1⟩ := bind_ok.mp h
    rw [bind_of_ok (obj_makeHandle hmake)] at h1
    split_ifs at h1 with h0
    · cases h1
      exact h0.symm
    · obtain ⟨_, t₂, -, h2⟩ := bind_ok.mp h1
      obtain ⟨_, t₃, -, h3⟩ := bind_ok.mp h2
      cases h3
      rfl

theorem makeJstringModifiedUtf8_value {s : JString}
    (h : makeJstringModifiedUtf8 s t = .ok (o, t')) : o ≠ 0 ↔ s.made = true := by
  obtain ⟨handle, t₁, hmake, h1⟩ := bind_ok.mp h
  rw [bind_of_ok (obj_makeHandle hmake)] at h1
  have hmade : s.string ≠ 0 → s.made = (s.valid && s.value ≠ 0) := fun h0 => by
    simp [JString.made, h0]
  split_ifs at h1 with h0 hvalid
  · cases h1
    simp [JString.made, h0]
  · obtain ⟨_, t₂, -, h2⟩ := bind_ok.mp h1
    cases h2
    rw [hmade h0]
    exact ⟨fun _ => hvalid, fun _ => h0⟩
  · obtain ⟨_, t₂, -, h2⟩ := bind_ok.mp h1
    cases h2
    rw [hmade h0]
    exact ⟨fun h => absurd rfl h, fun h => absurd h hvalid⟩

theorem makeJString_value {s : JString} (h : makeJString s t = .ok (o, t')) :
    o ≠ 0 ↔ s.made = true := by
  obtain ⟨x, t₁, hx, h1⟩ := bind_ok.mp h
  cases h1
  rw [← makeJstringModifiedUtf8_value hx]
  split_ifs <;> simp_all

theorem StackTraceElement.fill_restores (e : StackTraceElement) : Restores e.fill := by
  refine (getClassMirror_restores _).bind fun _ => .ite (fun _ => .pure _) fun _ =>
    (makeJString_restores _).bind fun _ => .ite (fun _ => .pure _) fun _ =>
      (makeJString_restores _).bind fun _ => .ite (fun _ => .pure _) fun _ => ?_
  rcases e.fileName with _ | name
  · exact .pure _
  · exact (makeJString_restores name).bind fun _ => .pure _

theorem StackTraceElement.fill_value {e : StackTraceElement} {b : Bool}
    (h : e.fill t = .ok (b, t')) : b = e.filled := by
  obtain ⟨mirror, t₁, hmirror, h1⟩ := bind_ok.mp h
  have hv := getClassMirror_value hmirror
  split_ifs at h1 with h0
  · cases h1
    simp [filled, ← hv, h0]
  obtain ⟨name, t₂, hname, h2⟩ := bind_ok.mp h1
  have hm := makeJString_value hname
  split_ifs at h2 with h0'
  · cases h2
    simp only [h0', ne_eq, not_true_eq_false, false_iff] at hm
    simp [filled, hm]
  obtain ⟨name', t₃, hname', h3⟩ := bind_ok.mp h2
  have hm' := makeJString_value hname'
  split_ifs at h3 with h0''
  · cases h3
    simp only [h0'', ne_eq, not_true_eq_false, false_iff] at hm'
    simp [filled, hm']
  rcases hfile : e.fileName with _ | s <;> simp only [hfile] at h3
  · cases h3
    simp [filled, ← hv, h0, hm.mp h0', hm'.mp h0'', hfile]
  · obtain ⟨file, t₄, hs, h4⟩ := bind_ok.mp h3
    cases h4
    have hm'' := makeJString_value hs
    simp [filled, ← hv, h0, hm.mp h0', hm'.mp h0'', hfile, hm'']

/-! ### The exits on which the handles are dropped -/

theorem MethodType.resolveArgs_restores (ptypes : Handle) :
    ∀ args, Restores (MethodType.resolveArgs ptypes args)
  | [] => .pure _
  | _ :: args => .ite (fun _ => .pure _) fun _ => (getClassMirror_restores _).bind fun _ =>
    (Restores.deref ptypes).bind fun _ => resolveArgs_restores ptypes args

theorem MethodType.resolveArgs_value {ptypes : Handle} : ∀ {args : List Load} {t t' : List Object}
    {b : Bool}, MethodType.resolveArgs ptypes args t = .ok (b, t') →
    b = args.all (·.mirror ≠ .noClass)
  | [], _, _, _, h => by
    cases h
    rfl
  | _ :: _, t, t', b, h => by
    rw [resolveArgs] at h
    split_ifs at h with h0
    · cases h
      simp [h0]
    · obtain ⟨_, t₁, -, h1⟩ := bind_ok.mp h
      obtain ⟨_, t₂, -, h2⟩ := bind_ok.mp h1
      simpa [h0] using resolveArgs_value h2

theorem resolveMethodType_restores {m : MethodType}
    (hm : m.ptypes = 0 ∨ ∀ load ∈ m.args ++ [m.ret], load.mirror ≠ .noClass) :
    Restores (resolveMethodType m) := by
  intro t a t' h
  obtain ⟨ptypes, t₁, hmake, h1⟩ := bind_ok.mp h
  obtain ⟨b, t₂, hargs, h2⟩ := bind_ok.mp h1
  have hb := MethodType.resolveArgs_value hargs
  rw [MethodType.resolveArgs_restores _ _ hargs] at h2
  rw [← dropped_makeHandle hmake]
  -- without a handle an early exit does no harm
  have hearly : (b = false ∨ m.ret.mirror = .noClass) → t₁ = dropped t₁ ptypes := by
    rintro hfail
    rcases hm with h0 | hall
    · rw [h0, makeHandle_zero] at hmake
      cases hmake
      rfl
    · rw [hb] at hfail
      simp only [List.mem_append, List.mem_singleton] at hall
      rcases hfail with hfail | hfail
      · obtain ⟨load, hload, hnone⟩ := List.all_eq_false.mp hfail
        exact absurd (by simpa using hnone) (hall load (.inl hload))
      · exact absurd hfail (hall _ (.inr rfl))
  split_ifs at h2 with hfalse hret
  · cases h2
    exact hearly (.inl (by simpa using hfalse))
  · cases h2
    exact hearly (.inr hret)
  · obtain ⟨_, t₃, hmirror, h3⟩ := bind_ok.mp h2
    rw [getClassMirror_restores _ hmirror] at h3
    rcases hresult : m.makeImpl with _ | result <;> simp only [hresult] at h3
    · cases h3
    · obtain ⟨_, t₄, hdrop, h4⟩ := bind_ok.mp h3
      cases h4
      exact Releases.dropHandle hdrop

theorem Constructor.resolveArgs_kept {stale : Nat → Stale} : ∀ {args : List Load} {n : Nat}
    {result last : Handle} {parameterTypes : Object} {t t' : List Object},
    Constructor.resolveArgs stale n result parameterTypes args t = .ok (last, t') →
    (∀ load ∈ if parameterTypes = 0 then args.take 1 else args, load.suspends = false) →
    last = result ∧ t' = t
  | [], _, _, _, _, _, _, h, _ => by
    cases h
    exact ⟨rfl, rfl⟩
  | arg :: args, n, result, last, parameterTypes, t, t', h, hall => by
    have hsuspends : arg.suspends = false := hall arg (by split_ifs <;> simp)
    obtain ⟨_, t₁, hmirror, h1⟩ := bind_ok.mp h
    obtain ⟨_, t₂, hderef, h2⟩ := bind_ok.mp h1
    simp only [hsuspends, Bool.false_eq_true, if_false] at hderef h2
    split_ifs at h2 with h0
    · cases h2
    · obtain ⟨hlast, hsame⟩ := resolveArgs_kept h2 fun load hload => hall load (by
        rw [if_neg h0] at hload ⊢
        exact List.mem_cons_of_mem _ hload)
      exact ⟨hlast, by rw [hsame, Restores.deref _ hderef, getClassMirror_restores _ hmirror]⟩

theorem reflectInitializeConstructor_restores {stale : Nat → Stale} {c : Constructor}
    (hc : c.ctor = 0 ∨ ∀ load ∈ c.awaited, load.suspends = false) :
    Restores (reflectInitializeConstructor stale c) := by
  intro t a t' h
  obtain ⟨result, t₁, hmake, h1⟩ := bind_ok.mp h
  obtain ⟨_, t₂, hderef, h2⟩ := bind_ok.mp h1
  obtain ⟨_, t₃, hclazz, h3⟩ := bind_ok.mp h2
  obtain ⟨last, t₄, hargs, h4⟩ := bind_ok.mp h3
  rcases hc with h0 | hc
  · rw [h0, makeHandle_zero] at hmake
    cases hmake
    cases hderef
  · obtain ⟨rfl, hsame⟩ := Constructor.resolveArgs_kept hargs hc
    rw [Releases.dropHandle h4, hsame, getClassMirror_restores _ hclazz, Restores.deref _ hderef,
      dropped_makeHandle hmake]

theorem StackTraceElement.fillAll_restores {stackTrace : Handle} : ∀ {frames : List _},
    (∀ frame ∈ (frames.dropWhile complete).head?, frame.element = 0) →
    Restores (fillAll stackTrace frames)
  | [], _ => .pure _
  | frame :: frames, hframes => by
    intro t a t' h
    obtain ⟨e, t₁, hmake, h1⟩ := bind_ok.mp h
    rw [bind_of_ok (obj_makeHandle hmake)] at h1
    split_ifs at h1 with h0
    · cases h1
      rw [h0, makeHandle_zero] at hmake
      cases hmake
      rfl
    · obtain ⟨b, t₂, hfill, h2⟩ := bind_ok.mp h1
      have hb := fill_value hfill
      have hcomplete : frame.complete = true := by
        by_contra hnot
        rw [List.dropWhile_cons_of_neg hnot] at hframes
        exact h0 (hframes frame rfl)
      rw [List.dropWhile_cons_of_pos hcomplete] at hframes
      simp only [complete, Bool.and_eq_true] at hcomplete
      rw [hb, hcomplete.2] at h2
      obtain ⟨_, t₃, hderef, h3⟩ := bind_ok.mp h2
      obtain ⟨_, t₄, hdrop, h4⟩ := bind_ok.mp h3
      rw [fillAll_restores hframes h4, Releases.dropHandle hdrop, Restores.deref _ hderef,
        fill_restores _ hfill, dropped_makeHandle hmake]

theorem fillInStackTrace_restores {array : Object} {frames : List StackTraceElement}
    (hf : array = 0 ∨
      ∀ frame ∈ (frames.dropWhile StackTraceElement.complete).head?, frame.element = 0) :
    Restores (fillInStackTrace array frames) := by
  rcases hf with rfl | hf
  · intro t a t' h
    cases h
    rfl
  · exact .makeHandle fun _ => .obj (.pure _) fun _ =>
      .bind (StackTraceElement.fillAll_restores hf) fun _ => .dropHandle

theorem PermittedSubclasses.resolve_restores : ∀ infos, Restores (PermittedSubclasses.resolve infos)
  | [] => .pure _
  | _ :: infos => .ite (fun _ => .pure _) fun _ => (getClassMirror_restores _).bind fun _ =>
    resolve_restores infos

theorem PermittedSubclasses.resolve_value : ∀ {infos : List ClassInfo} {t t' : List Object}
    {b : Bool}, PermittedSubclasses.resolve infos t = .ok (b, t') → b = infos.all (!·.error)
  | [], _, _, _, h => by
    cases h
    rfl
  | _ :: _, t, t', b, h => by
    rw [resolve] at h
    split_ifs at h with h0
    · cases h
      simp [h0]
    · obtain ⟨_, t₁, -, h1⟩ := bind_ok.mp h
      simpa [h0] using resolve_value h1

theorem getPermittedSubclasses0_restores {permitted : Option PermittedSubclasses}
    (hp : ∀ p ∈ permitted, p.array = 0 ∨ ∃ info ∈ p.entries, info.error = true) :
    Restores (getPermittedSubclasses0 permitted) := by
  rcases permitted with _ | p
  · exact .pure _
  intro t a t' h
  obtain ⟨b, t₁, hresolve, h1⟩ := bind_ok.mp h
  have hb := PermittedSubclasses.resolve_value hresolve
  rw [PermittedSubclasses.resolve_restores _ hresolve] at h1
  split_ifs at h1 with hfalse
  · cases h1
    rfl
  · rcases hp p rfl with h0 | ⟨info, hinfo, herror⟩
    · rw [h0, bind_of_ok makeHandle_zero] at h1
      cases h1
      rfl
    · simp only [Bool.not_eq_true', Bool.not_eq_false] at hfalse
      rw [hfalse] at hb
      have := List.all_eq_true.mp hb.symm info hinfo
      rw [herror] at this
      cases this

/-! ### The exits on which a handle is left -/

theorem makeHandle_slot (h0 : o ≠ 0) (hfree : 0 < t.count 0) : ∃ i,
    makeHandle o t = .ok (.slot i, t.set i o) ∧ t.count 0 = (t.set i o).count 0 + 1 ∧
      i < t.length ∧ t.getD i 0 = 0 := by
  have hmem : 0 ∈ t := List.count_pos_iff.mp hfree
  rcases hfind : t.findIdx? (· = 0) with _ | i
  · rw [List.findIdx?_eq_none_iff] at hfind
    exact absurd (hfind 0 hmem) (by simp)
  · obtain ⟨hlt, heq, -⟩ := List.findIdx?_eq_some_iff_getElem.mp hfind
    have hzero : t[i] = 0 := by simpa using heq
    refine ⟨i, by rw [makeHandle, if_neg h0, hfind], ?_, hlt, ?_⟩
    · rw [List.count_set hlt, hzero]
      simp only [beq_self_eq_true, if_true, beq_iff_eq, h0, if_false]
      omega
    · rw [List.getD_eq_getElem?_getD, List.getElem?_eq_getElem hlt, hzero, Option.getD_some]

theorem set_ne (hcount : t.count 0 = (t.set i o).count 0 + 1) : t.set i o ≠ t := fun heq => by
  rw [heq] at hcount
  omega

theorem deref_of_obj (ho : obj h t = .ok (o, t)) (h0 : o ≠ 0) : deref h t = .ok ((), t) := by
  rw [deref, bind_of_ok ho, if_neg h0]
  rfl

/-- The handles that a mirror takes at a time. -/
def Mirror.depth : Mirror → Nat
  | .noClass => 0
  | .cached _ => 0
  | .new _ component => component.depth + 1

theorem getClassMirror_returns : ∀ {mirror : Mirror} {t : List Object},
    mirror.depth ≤ t.count 0 → getClassMirror mirror t = .ok (mirror.value, t)
  | .noClass, _, _ => rfl
  | .cached _, _, _ => rfl
  | .new mirror component, t, hfree => by
    rw [getClassMirror]
    rcases eq_or_ne mirror 0 with rfl | h0
    · rfl
    · rw [Mirror.depth] at hfree
      obtain ⟨i, hmake, hcount, -⟩ := makeHandle_slot (t := t) h0 (by omega)
      rw [bind_of_ok hmake, bind_of_ok (obj_makeHandle hmake), if_neg h0,
        bind_of_ok (getClassMirror_returns (by omega))]
      exact congrArg (fun t => Except.ok (mirror, t)) (dropped_makeHandle hmake)

theorem makeJString_returns {s : JString} (hfree : 0 < t.count 0) :
    ∃ o, makeJString s t = .ok (o, t) := by
  have hmade : ∃ p, makeJstringModifiedUtf8 s t = .ok p := by
    rw [makeJstringModifiedUtf8]
    rcases eq_or_ne s.string 0 with h0 | h0
    · rw [h0]
      exact ⟨_, rfl⟩
    · obtain ⟨i, hmake, hcount, -⟩ := makeHandle_slot h0 hfree
      rw [bind_of_ok hmake, bind_of_ok (obj_makeHandle hmake), if_neg h0]
      exact ⟨_, rfl⟩
  obtain ⟨⟨o, t'⟩, ho⟩ := hmade
  obtain rfl := makeJstringModifiedUtf8_restores s ho
  exact ⟨_, bind_of_ok ho⟩

theorem StackTraceElement.fill_returns {e : StackTraceElement} (hmirror : e.mirror.depth ≤ t.count 0)
    (hfree : 0 < t.count 0) : e.fill t = .ok (e.filled, t) := by
  obtain ⟨p, hp⟩ : ∃ p, e.fill t = .ok p := by
    obtain ⟨o, ho⟩ := makeJString_returns (s := e.declaringClass) hfree
    obtain ⟨o', ho'⟩ := makeJString_returns (s := e.methodName) hfree
    rw [fill, bind_of_ok (getClassMirror_returns hmirror)]
    split_ifs
    · exact ⟨_, rfl⟩
    rw [bind_of_ok ho]
    split_ifs
    · exact ⟨_, rfl⟩
    rw [bind_of_ok ho']
    split_ifs
    · exact ⟨_, rfl⟩
    rcases e.fileName with _ | name
    · exact ⟨_, rfl⟩
    · obtain ⟨file, hfile⟩ := makeJString_returns (s := name) hfree
      exact ⟨_, bind_of_ok hfile⟩
  obtain ⟨b, t'⟩ := p
  rw [hp, fill_value hp, fill_restores e hp]

/-- The first element for whose fields there is no memory keeps its handle. -/
theorem StackTraceElement.fillAll_leaves {stackTrace : Handle} {frame : StackTraceElement} :
    ∀ {frames : List StackTraceElement} {t : List Object},
    frame ∈ (frames.dropWhile complete).head? → frame.element ≠ 0 →
    (∀ e ∈ frames, e.mirror.depth + 2 ≤ t.count 0) →
    (∀ i o, t.getD i 0 = 0 → deref stackTrace (t.set i o) = .ok ((), t.set i o)) →
    ∃ i o, fillAll stackTrace frames t = .ok ((), t.set i o) ∧ t.count 0 = (t.set i o).count 0 + 1
  | [], _, hframe, _, _, _ => absurd hframe (by simp)
  | e :: frames, t, hframe, h0, hfree, hderef => by
    have he := hfree e List.mem_cons_self
    rw [fillAll]
    by_cases hcomplete : e.complete = true
    · rw [List.dropWhile_cons_of_pos hcomplete] at hframe
      simp only [complete, Bool.and_eq_true, decide_eq_true_eq] at hcomplete
      obtain ⟨i, hmake, hcount, -, hzero⟩ := makeHandle_slot hcomplete.1 (t := t) (by omega)
      obtain ⟨j, o, hrun, hleft⟩ := fillAll_leaves hframe h0
        (fun e he => hfree e (List.mem_cons_of_mem _ he)) hderef
      refine ⟨j, o, ?_, hleft⟩
      rw [bind_of_ok hmake, bind_of_ok (obj_makeHandle hmake), if_neg hcomplete.1,
        bind_of_ok (fill_returns (by omega) (by omega)), hcomplete.2]
      simp only [Bool.not_true, Bool.false_eq_true, if_false]
      rw [bind_of_ok (hderef i _ hzero), bind_of_ok rfl, dropped_makeHandle hmake, hrun]
    · rw [List.dropWhile_cons_of_neg hcomplete, List.head?_cons, Option.mem_some_iff] at hframe
      subst hframe
      obtain ⟨i, hmake, hcount, -⟩ := makeHandle_slot h0 (t := t) (by omega)
      have hfilled : e.filled = false := by simpa [complete, h0] using hcomplete
      refine ⟨i, e.element, ?_, hcount⟩
      rw [bind_of_ok hmake, bind_of_ok (obj_makeHandle hmake), if_neg h0,
        bind_of_ok (fill_returns (by omega) (by omega)), hfilled]
      rfl

theorem deref_set {j : Nat} {x : Object} (hi : i < t.length) (h0 : o ≠ 0)
    (hj : (t.set i o).getD j 0 = 0) :
    deref (.slot i) ((t.set i o).set j x) = .ok ((), (t.set i o).set j x) := by
  have hne : j ≠ i := by
    rintro rfl
    rw [List.getD_eq_getElem?_getD, List.getElem?_set_self hi] at hj
    exact h0 hj
  refine deref_of_obj (o := o) ?_ h0
  simp only [obj]
  rw [List.getD_eq_getElem?_getD, List.getElem?_set_ne hne, List.getElem?_set_self hi,
    Option.getD_some]

theorem exists_bound {γ : Type} (g : γ → Nat) : ∀ l : List γ, ∃ n, ∀ x ∈ l, g x ≤ n
  | [] => ⟨0, by simp⟩
  | x :: l => by
    obtain ⟨n, hn⟩ := exists_bound g l
    refine ⟨max (g x) n, fun y hy => ?_⟩
    rcases List.mem_cons.mp hy with rfl | hy
    · exact Nat.le_max_left _ _
    · exact Nat.le_trans (hn y hy) (Nat.le_max_right _ _)

theorem count_set_le : (t.set i 0).count 0 ≤ t.count 0 + 1 := by
  rcases Nat.lt_or_ge i t.length with hi | hi
  · rw [List.count_set hi]
    simp only [beq_self_eq_true, if_true]
    omega
  · rw [List.set_eq_of_length_le hi]
    omega

theorem exists_free (n : Nat) : ∃ t : List Object, t.count 0 = n :=
  ⟨List.replicate n 0, List.count_replicate_self⟩

/-- Some table is not what it was when the routine returns. -/
def Leaves (m : Native α) : Prop := ∃ t a t', m t = .ok (a, t') ∧ t' ≠ t

theorem fillInStackTrace_leaves {array : Object} {frames : List StackTraceElement}
    {frame : StackTraceElement} (harray : array ≠ 0)
    (hframe : frame ∈ (frames.dropWhile StackTraceElement.complete).head?)
    (helement : frame.element ≠ 0) : Leaves (fillInStackTrace array frames) := by
  obtain ⟨n, hn⟩ := exists_bound (fun e : StackTraceElement => e.mirror.depth) frames
  obtain ⟨t, ht⟩ := exists_free (n + 3)
  obtain ⟨i, hmake, hcount, hi, -⟩ := makeHandle_slot (t := t) harray (by omega)
  obtain ⟨j, o, hfill, hleft⟩ := StackTraceElement.fillAll_leaves hframe
    helement (fun e he => by have := hn e he; omega) fun j x hj => deref_set hi harray hj
  refine ⟨t, (), ((t.set i array).set j o).set i 0, ?_, fun heq => ?_⟩
  · rw [fillInStackTrace, bind_of_ok hmake, bind_of_ok (obj_makeHandle hmake), if_neg harray,
      bind_of_ok hfill]
    rfl
  · have hle := count_set_le (t := (t.set i array).set j o) (i := i)
    rw [heq] at hle
    omega

theorem PermittedSubclasses.resolve_returns : ∀ {infos : List ClassInfo},
    (∀ info ∈ infos, info.error = false ∧ info.mirror.depth ≤ t.count 0) →
    PermittedSubclasses.resolve infos t = .ok (true, t)
  | [], _ => rfl
  | info :: infos, hinfos => by
    obtain ⟨herror, hdepth⟩ := hinfos info List.mem_cons_self
    rw [resolve, herror, if_neg (by simp), bind_of_ok (getClassMirror_returns hdepth)]
    exact resolve_returns fun info hinfo => hinfos info (List.mem_cons_of_mem _ hinfo)

theorem PermittedSubclasses.store_returns (hderef : deref h t = .ok ((), t)) :
    ∀ {infos : List ClassInfo}, (∀ info ∈ infos, info.mirrorAgain.depth ≤ t.count 0) →
    PermittedSubclasses.store h infos t = .ok ((), t)
  | [], _ => rfl
  | info :: infos, hinfos => by
    rw [store, bind_of_ok (getClassMirror_returns (hinfos info List.mem_cons_self)),
      bind_of_ok hderef]
    exact store_returns hderef fun info hinfo => hinfos info (List.mem_cons_of_mem _ hinfo)

theorem getPermittedSubclasses0_leaves {p : PermittedSubclasses} (harray : p.array ≠ 0)
    (hentries : ∀ info ∈ p.entries, info.error = false) :
    Leaves (getPermittedSubclasses0 (some p)) := by
  obtain ⟨n, hn⟩ := exists_bound (fun info : ClassInfo => info.mirror.depth + info.mirrorAgain.depth)
    p.entries
  obtain ⟨t, ht⟩ := exists_free (n + 1)
  obtain ⟨i, hmake, hcount, -⟩ := makeHandle_slot (t := t) harray (by omega)
  refine ⟨_, p.array, _, ?_, set_ne hcount⟩
  have hobj := obj_makeHandle hmake
  have hresolve : PermittedSubclasses.resolve p.entries t = .ok (true, t) :=
    PermittedSubclasses.resolve_returns fun info hinfo => ⟨hentries info hinfo, by
      have := hn info hinfo
      omega⟩
  rw [getPermittedSubclasses0, bind_of_ok hresolve]
  simp only [Bool.not_true, Bool.false_eq_true, if_false]
  rw [bind_of_ok hmake, bind_of_ok hobj, if_neg harray, bind_of_ok (PermittedSubclasses.store_returns
    (deref_of_obj hobj harray) fun info hinfo => by have := hn info hinfo; omega), hobj]

theorem MethodType.resolveArgs_returns (hderef : deref h t = .ok ((), t)) : ∀ {args : List Load},
    (∀ arg ∈ args, arg.mirror.depth ≤ t.count 0) →
    MethodType.resolveArgs h args t = .ok (args.all (·.mirror ≠ .noClass), t)
  | [], _ => rfl
  | arg :: args, hargs => by
    rw [resolveArgs]
    split_ifs with h0
    · simp [h0, pure_apply]
    · rw [bind_of_ok (getClassMirror_returns (hargs arg List.mem_cons_self)), bind_of_ok hderef,
        resolveArgs_returns hderef fun arg harg => hargs arg (List.mem_cons_of_mem _ harg)]
      simp [h0]

theorem resolveMethodType_leaves {m : MethodType} {load : Load} (hptypes : m.ptypes ≠ 0)
    (hload : load ∈ m.args ++ [m.ret]) (hnone : load.mirror = .noClass) :
    Leaves (resolveMethodType m) := by
  obtain ⟨n, hn⟩ := exists_bound (fun load : Load => load.mirror.depth) m.args
  obtain ⟨t, ht⟩ := exists_free (n + 1)
  obtain ⟨i, hmake, hcount, -⟩ := makeHandle_slot (t := t) hptypes (by omega)
  refine ⟨_, 0, _, ?_, set_ne hcount⟩
  have hargs : MethodType.resolveArgs (.slot i) m.args _ = .ok _ :=
    MethodType.resolveArgs_returns (deref_of_obj (obj_makeHandle hmake) hptypes)
      fun arg harg => by have := hn arg harg; omega
  rw [resolveMethodType, bind_of_ok hmake, bind_of_ok hargs]
  rcases List.mem_append.mp hload with hload | hload
  · have hfalse : m.args.all (·.mirror ≠ .noClass) = false :=
      List.all_eq_false.mpr ⟨load, hload, by simpa using hnone⟩
    rw [hfalse]
    rfl
  · rw [List.mem_singleton.mp hload] at hnone
    rw [if_pos hnone]
    split_ifs <;> rfl

/-- A lost variable that holds a pointer elsewhere. -/
def strayResult : Nat → Stale := fun _ => ⟨.stray 1, 1⟩

theorem Constructor.resolveArgs_stray : ∀ {args : List Load} {n : Nat},
    (∀ arg ∈ args, arg.mirror.depth ≤ t.count 0) →
    Constructor.resolveArgs strayResult n (.stray 1) 1 args t = .ok (.stray 1, t)
  | [], _, _ => rfl
  | arg :: args, n, hargs => by
    rw [resolveArgs, bind_of_ok (getClassMirror_returns (hargs arg List.mem_cons_self))]
    have hs : (if arg.suspends = true then strayResult n else ⟨.stray 1, 1⟩) = ⟨.stray 1, 1⟩ := by
      split_ifs <;> rfl
    simp only [hs]
    rw [bind_of_ok (deref_of_obj (o := 1) rfl (by decide)), if_neg (by decide)]
    exact resolveArgs_stray fun arg harg => hargs arg (List.mem_cons_of_mem _ harg)

theorem Constructor.resolveArgs_lost (hderef : deref h t = .ok ((), t)) {load : Load} :
    ∀ {args : List Load} {n : Nat} {parameterTypes : Object},
    (∀ arg ∈ args, arg.mirror.depth ≤ t.count 0) →
    load ∈ (if parameterTypes = 0 then args.take 1 else args) → load.suspends = true →
    Constructor.resolveArgs strayResult n h parameterTypes args t = .ok (.stray 1, t)
  | [], _, _, _, hload, _ => absurd hload (by split_ifs <;> simp)
  | arg :: args, n, parameterTypes, hargs, hload, hsuspends => by
    rw [resolveArgs, bind_of_ok (getClassMirror_returns (hargs arg List.mem_cons_self))]
    have hargs' := fun arg harg => hargs arg (List.mem_cons_of_mem _ harg)
    by_cases harg : arg.suspends = true
    · simp only [harg, if_true]
      rw [bind_of_ok (deref_of_obj (o := 1) rfl (by decide)),
        if_neg (show (strayResult n).parameterTypes ≠ 0 from Nat.one_ne_zero)]
      exact resolveArgs_stray hargs'
    · have h0 : parameterTypes ≠ 0 := by
        rintro rfl
        rw [if_pos rfl, List.take_succ_cons, List.take_zero, List.mem_singleton] at hload
        exact harg (hload ▸ hsuspends)
      rw [if_neg h0] at hload
      simp only [harg, Bool.false_eq_true, if_false]
      rw [bind_of_ok hderef, if_neg h0]
      refine resolveArgs_lost hderef hargs' ?_ hsuspends
      rw [if_neg h0]
      exact (List.mem_cons.mp hload).resolve_left fun heq => harg (heq ▸ hsuspends)

theorem reflectInitializeConstructor_leaves {c : Constructor} {load : Load} (hctor : c.ctor ≠ 0)
    (hload : load ∈ c.awaited) (hsuspends : load.suspends = true) :
    Leaves (reflectInitializeConstructor strayResult c) := by
  obtain ⟨n, hn⟩ := exists_bound (fun load : Load => load.mirror.depth) c.args
  obtain ⟨t, ht⟩ := exists_free (n + c.clazz.depth + 1)
  obtain ⟨i, hmake, hcount, -⟩ := makeHandle_slot (t := t) hctor (by omega)
  refine ⟨_, (), _, ?_, set_ne hcount⟩
  have hderef := deref_of_obj (obj_makeHandle hmake) hctor
  rw [reflectInitializeConstructor, bind_of_ok hmake, bind_of_ok hderef,
    bind_of_ok (getClassMirror_returns (by omega)), bind_of_ok (Constructor.resolveArgs_lost hderef
      (fun arg harg => by have := hn arg harg; omega) hload hsuspends)]
  rfl

/-! ### All the routines -/

theorem run_of_restores (hm : Restores m) (h : (m t).map Prod.snd = .ok t') : t' = t := by
  rcases hrun : m t with e | ⟨a, t₁⟩ <;> rw [hrun] at h
  · cases h
  · cases h
    exact hm hrun

theorem run_of_leaves (hm : Leaves m) : ∃ t t', (m t).map Prod.snd = .ok t' ∧ t' ≠ t := by
  obtain ⟨t, a, t', hrun, hne⟩ := hm
  exact ⟨t, t', by rw [hrun]; rfl, hne⟩

theorem Call.keepsHandles_of_drops {call : Call} (hdrops : call.DropsHandles) :
    call.KeepsHandles := by
  intro stale t t' hrun
  rcases call with m | f | c | m | ⟨array, ps⟩ | ⟨array, frames⟩ | permitted | e | ⟨array, infos⟩
  · exact run_of_restores (resolveMethodType_restores hdrops) hrun
  · exact run_of_restores (reflectInitializeField_restores f) hrun
  · exact run_of_restores (reflectInitializeConstructor_restores hdrops) hrun
  · exact run_of_restores (reflectInitializeMethod_restores m) hrun
  · exact run_of_restores (getMethodParameters_restores array ps) hrun
  · exact run_of_restores (fillInStackTrace_restores hdrops) hrun
  · exact run_of_restores (getPermittedSubclasses0_restores hdrops) hrun
  · exact run_of_restores (getEnclosingMethod0_restores e) hrun
  · exact run_of_restores (getDeclaredClasses0_restores array infos) hrun

theorem Call.leaves_of_not_drops {call : Call} (hdrops : ¬ call.DropsHandles) :
    ∃ stale t t', call.run stale t = .ok t' ∧ t' ≠ t := by
  refine ⟨strayResult, ?_⟩
  rcases call with m | f | c | m | ⟨array, ps⟩ | ⟨array, frames⟩ | permitted | e | ⟨array, infos⟩
  · simp only [DropsHandles, ne_eq, not_or, not_forall, not_not] at hdrops
    obtain ⟨h0, load, hload, hnone⟩ := hdrops
    exact run_of_leaves (resolveMethodType_leaves h0 hload hnone)
  · exact absurd trivial hdrops
  · simp only [DropsHandles, not_or, not_forall, Bool.not_eq_false] at hdrops
    obtain ⟨h0, load, hload, hsuspends⟩ := hdrops
    exact run_of_leaves (reflectInitializeConstructor_leaves h0 hload hsuspends)
  · exact absurd trivial hdrops
  · exact absurd trivial hdrops
  · simp only [DropsHandles, not_or, not_forall] at hdrops
    obtain ⟨h0, frame, hframe, helement⟩ := hdrops
    exact run_of_leaves (fillInStackTrace_leaves h0 hframe helement)
  · simp only [DropsHandles, not_or, not_forall, not_exists, not_and, Bool.not_eq_true] at hdrops
    obtain ⟨p, rfl, h0, hentries⟩ := hdrops
    exact run_of_leaves (getPermittedSubclasses0_leaves h0 hentries)
  · exact absurd trivial hdrops
  · exact absurd trivial hdrops

/-- Calls that keep the handles do not use them up, unless one of them alone does. -/
theorem runCalls_kept : ∀ {calls : List ((Nat → Stale) × Call)},
    (∀ c ∈ calls, c.2.KeepsHandles) →
    (∀ t', runCalls calls t = .ok t' → t' = t) ∧
      ((∀ c ∈ calls, c.2.run c.1 t ≠ .error .exhausted) → runCalls calls t ≠ .error .exhausted)
  | [], _ => ⟨fun t' h => by cases h; rfl, fun _ h => by cases h⟩
  | (stale, call) :: calls, hkeeps => by
    obtain ⟨hok, hfree⟩ := runCalls_kept fun c hc => hkeeps c (List.mem_cons_of_mem _ hc)
    rw [runCalls]
    rcases hrun : call.run stale t with e | t₁
    · refine ⟨fun t' h => ?_, fun hall => ?_⟩
      · cases h
      · have := hall _ List.mem_cons_self
        rwa [hrun] at this
    · obtain rfl := hkeeps _ List.mem_cons_self stale _ _ hrun
      exact ⟨hok, fun hall => hfree fun c hc => hall c (List.mem_cons_of_mem _ hc)⟩

/-- A call keeps the handles if and only if it takes none of the exits on which one is not dropped;
and any number of such calls leaves as many handles as there were. -/
theorem handles_kept (call : Call) (calls : List ((Nat → Stale) × Call)) (handles : List Object) :
    (call.KeepsHandles ↔ call.DropsHandles) ∧
    ((∀ c ∈ calls, c.2.DropsHandles) →
      (∀ handles', runCalls calls handles = .ok handles' → handles' = handles) ∧
        ((∀ c ∈ calls, c.2.run c.1 handles ≠ .error .exhausted) →
          runCalls calls handles ≠ .error .exhausted)) := by
  refine ⟨⟨fun hkeeps => ?_, call.keepsHandles_of_drops⟩, fun hdrops =>
    runCalls_kept fun c hc => c.2.keepsHandles_of_drops (hdrops c hc)⟩
  by_contra hdrops
  obtain ⟨stale, t, t', hrun, hne⟩ := call.leaves_of_not_drops hdrops
  exact hne (hkeeps stale t t' hrun)

/-- `Class.getPermittedSubclasses()` of a sealed class with one subclass. -/
def permittedCall : Call :=
  .getPermittedSubclasses0 (some ⟨[⟨false, .cached 1, .cached 1⟩], 2⟩)

theorem permittedCall_run {stale : Nat → Stale} : permittedCall.run stale t =
    ((makeHandle 2 >>= fun array => obj array >>= fun o => if o = 0 then pure 0
      else PermittedSubclasses.store array [⟨false, .cached 1, .cached 1⟩] >>= fun _ => obj array :
      Native Object) t).map Prod.snd := rfl

/-- Every call leaves a handle, so that the table is full in the end. -/
theorem permittedCall_exhausts {stale : Nat → Stale} : ∀ {n : Nat} {t : List Object},
    t.count 0 = n →
    runCalls (List.replicate (n + 1) (stale, permittedCall)) t = .error .exhausted
  | 0, t, hcount => by
    have hfind : t.findIdx? (· = 0) = none :=
      List.findIdx?_eq_none_iff.mpr fun x hx => decide_eq_false fun h0 =>
        List.count_eq_zero.mp hcount (h0 ▸ hx)
    have hmake : makeHandle 2 t = .error .exhausted := by
      rw [makeHandle, hfind]
      rfl
    rw [List.replicate_succ, runCalls, permittedCall_run, bind_apply, hmake]
    rfl
  | n + 1, t, hcount => by
    obtain ⟨i, hmake, hleft, -⟩ := makeHandle_slot (o := 2) (t := t) (by decide) (by omega)
    have hobj := obj_makeHandle hmake
    have hstore : PermittedSubclasses.store (.slot i) [⟨false, .cached 1, .cached 1⟩] _ = _ :=
      PermittedSubclasses.store_returns (deref_of_obj hobj (by decide)) (by simp [Mirror.depth])
    rw [List.replicate_succ, runCalls, permittedCall_run, bind_of_ok hmake, bind_of_ok hobj,
      if_neg (by decide), bind_of_ok hstore, hobj]
    have hn : (t.set i 2).count 0 = n := by omega
    exact permittedCall_exhausts hn

/-- A call of `getPermittedSubclasses0` does not keep the handles, and the 201st aborts. -/
theorem permitted_exhausts :
    (¬ ∀ call : Call, call.KeepsHandles) ∧
      permittedCall.run strayResult (List.replicate HANDLES_CAPACITY 0) ≠ .error .exhausted ∧
      runCalls (List.replicate (HANDLES_CAPACITY + 1) (strayResult, permittedCall))
        (List.replicate HANDLES_CAPACITY 0) = .error .exhausted := by
  refine ⟨fun hall => ?_, fun h => ?_, permittedCall_exhausts List.count_replicate_self⟩
  · exact absurd (hall permittedCall strayResult [0] [2] rfl) (by decide)
  · cases h

end BJvm.Handles
