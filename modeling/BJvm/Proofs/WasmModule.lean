import BJvm.Proofs.WasmExpression

/-!
# What is written for a module

A module that was built is read back from its bytes (`asWritten_of_built`): its types, its imports
behind the memory and the table, its exports and its functions.  The type of every import is the
one it was registered with because types are only ever added (`Consistent`); writing the functions
gives them the indices behind the imports (`serializeFunctions_spec`), which is what the calls and
the exports refer to.
-/

namespace BJvm.WasmUtils

open Decoding Decoding.Decoder WasmBinary

/-- What a type is in the binary format, where `void` is none. -/
def ValueType.valType : ValueType → Option ValType
  | .void => none
  | .float64 => some .f64
  | .float32 => some .f32
  | .int64 => some .i64
  | .int32 => some .i32

namespace Module

variable (module : Module)

/-- The parameters, results or locals that a type stands for. -/
def valTypes : WasmType → List ValType
  | .basic kind => kind.valType.toList
  | .tuple pointer => (module.internedResultTypes.getD pointer []).filterMap ValueType.valType

def funcType (type : FunctionType) : FuncType :=
  ⟨module.valTypes type.params, module.valTypes type.results⟩

/-- The function types in the order in which they are registered, those of the functions last. -/
def allTypes : List FunctionType :=
  module.functions.foldl (fun types fn =>
    if ⟨fn.params, fn.results⟩ ∈ types then types else types ++ [⟨fn.params, fn.results⟩])
    module.fnTypes

/-- What the callers see to: no tuple has a `void` in it, locals are a tuple or none, and the
bodies are valid. -/
structure WellFormed : Prop where
  tuples : ∀ types ∈ module.internedResultTypes, ValueType.void ∉ types
  locals : ∀ fn ∈ module.functions, ∀ kind, fn.locals = .basic kind → kind = .void
  bodies : ∀ fn ∈ module.functions, OptionValid module [none] fn.body

end Module

/-- The index of a function in a decoded module, whose imported functions are the first. -/
def FnRef.index (d : WasmBinary.Module) : FnRef → Nat
  | .imported i => i
  | .defined i => d.funcImports.length + i

/-- A decoded function is the function that was added, up to what is behind its body. -/
structure FunctionReads (trailer : List Instr) (blocks : WasmType → BlockType → Prop)
    (module : Module) (d : WasmBinary.Module) (fn : WasmFunction) (f : Func) : Prop where
  type : d.types[f.type]? = some (module.funcType ⟨fn.params, fn.results⟩)
  locals : f.locals = module.valTypes fn.locals
  localType : ∀ i, d.localType f i = (module.valTypes fn.params ++ module.valTypes fn.locals)[i]?
  body : ∃ expr is, fn.body = some expr ∧ Reads (FnRef.index d) blocks [none] expr is ∧
    f.body = is ++ trailer

/-- A decoded module is the module that was built, up to imports in front of its own, what is
behind the bodies, and what stands for the type of a block. -/
structure Represents (predefined : List WasmBinary.Import) (trailer : List Instr)
    (blocks : WasmType → BlockType → Prop) (module : Module) (d : WasmBinary.Module) : Prop where
  types : d.types = module.allTypes.map module.funcType
  imports : d.imports = predefined ++ module.imports.map fun imp =>
    ⟨imp.moduleName, imp.name, .func imp.type⟩
  importTypes : ∀ imp ∈ module.imports, d.types[imp.type]?
    = some (module.funcType ⟨imp.associated.params, imp.associated.results⟩)
  exports : d.exports = (module.functions.zipIdx.filter fun p => p.1.exported).map fun p =>
    ⟨p.1.name, .func ((FnRef.defined p.2).index d)⟩
  functions : List.Forall₂ (FunctionReads trailer blocks module d) module.functions d.funcs

/-- What building keeps: the types of the imports are registered, tuples have a length, and every
function has a body. -/
structure Consistent (module : Module) : Prop where
  fits : ∀ types ∈ module.internedResultTypes, types.length < 2 ^ 31
  importTypes : ∀ imp ∈ module.imports, module.fnTypes[imp.type]?
    = some ⟨imp.associated.params, imp.associated.results⟩
  bodies : ∀ fn ∈ module.functions, fn.body.isSome

theorem registerFunctionType_snd (types : List FunctionType) (search : FunctionType) :
    (registerFunctionType types search).2
      = if search ∈ types then types else types ++ [search] := by
  unfold registerFunctionType
  split
  · rename_i i hi
    obtain ⟨hlt, heq, -⟩ := List.findIdx?_eq_some_iff_getElem.mp hi
    rw [if_pos]
    rw [← of_decide_eq_true heq]
    exact List.getElem_mem hlt
  · rename_i hnone
    rw [if_neg]
    intro hmem
    simpa using List.findIdx?_eq_none_iff.mp hnone _ hmem

theorem prefix_registerFunctionType (types : List FunctionType) (search : FunctionType) :
    types <+: (registerFunctionType types search).2 := by
  rw [registerFunctionType_snd]
  split
  · exact List.prefix_refl _
  · exact List.prefix_append _ _

/-- The index is that of the type. -/
theorem registerFunctionType_get (types : List FunctionType) (search : FunctionType) :
    (registerFunctionType types search).2[(registerFunctionType types search).1]?
      = some search := by
  unfold registerFunctionType
  split
  · rename_i i hi
    obtain ⟨hlt, heq, -⟩ := List.findIdx?_eq_some_iff_getElem.mp hi
    rw [List.getElem?_eq_getElem hlt, of_decide_eq_true heq]
  · simp

theorem getElem?_of_prefix {α : Type} {l l' : List α} {i : Nat} {a : α} (h : l <+: l')
    (hi : l[i]? = some a) : l'[i]? = some a := by
  obtain ⟨k, rfl⟩ := h
  rw [List.getElem?_append_left (List.getElem?_eq_some_iff.mp hi).1, hi]

theorem length_of_mapM_eq_some {α β : Type} {f : α → Option β} :
    ∀ {l : List α} {l' : List β}, l.mapM f = some l' → l'.length = l.length
  | [], _, h => by
    cases h
    rfl
  | x :: l, _, h => by
    simp only [List.mapM_cons, Option.bind_eq_bind, Option.pure_def,
      Option.bind_eq_some_iff, Option.some.injEq] at h
    obtain ⟨y, -, k, hk, rfl⟩ := h
    rw [List.length_cons, List.length_cons, length_of_mapM_eq_some hk]

theorem mem_or_of_mem_modify {α : Type} {f : α → α} {l : List α} {i : Nat} {a : α}
    (h : a ∈ l.modify i f) : a ∈ l ∨ ∃ b ∈ l, a = f b := by
  obtain ⟨j, hj⟩ := List.mem_iff_getElem?.mp h
  rw [List.getElem?_modify] at hj
  obtain ⟨b, hb, heq⟩ := Option.map_eq_some_iff.mp hj
  have hmem := List.mem_of_getElem? hb
  split at heq
  · exact Or.inr ⟨b, hmem, heq.symm⟩
  · exact Or.inl (heq ▸ hmem)

theorem Consistent.makeTuple {m : Module} (h : Consistent m) {components : List ValueType}
    (hfits : components.length < 2 ^ 31) : Consistent (wasmMakeTuple m components).2 := by
  unfold wasmMakeTuple
  split
  · exact h
  · refine ⟨fun types htypes => ?_, h.importTypes, h.bodies⟩
    rcases List.mem_append.mp htypes with hold | hnew
    · exact h.fits types hold
    · rwa [List.mem_singleton.mp hnew]

theorem Consistent.registerFunctionType {m : Module} (h : Consistent m) (search : FunctionType) :
    Consistent { m with fnTypes := (WasmUtils.registerFunctionType m.fnTypes search).2 } :=
  ⟨h.fits, fun imp himp =>
    getElem?_of_prefix (prefix_registerFunctionType _ _) (h.importTypes imp himp), h.bodies⟩

theorem wasmStringToTuple_cases {m m' : Module} {str : List Char} {type : WasmType}
    (h : wasmStringToTuple m str = some (type, m')) :
    ∃ components : List ValueType, components.length < 2 ^ 31 ∧
      wasmMakeTuple m components = (type, m') := by
  unfold wasmStringToTuple at h
  split at h
  · obtain ⟨components, hmapM, heq⟩ := Option.map_eq_some_iff.mp h
    refine ⟨components, ?_, heq⟩
    rw [length_of_mapM_eq_some hmapM]
    omega
  · contradiction

/-- Importing a function finds it, or makes the tuple of its parameters, registers its type and
adds it. -/
theorem wasmImportRuntimeFunctionImpl_cases {m m' : Module} {cName : String} {sig : List Char}
    {fn : FnRef} (h : wasmImportRuntimeFunctionImpl m cName sig = some (fn, m')) :
    m' = m ∨ ∃ (components : List ValueType) (params : WasmType) (m₁ : Module) (result : ValueType),
      components.length < 2 ^ 31 ∧ wasmMakeTuple m components = (params, m₁) ∧
      m' = { m₁ with
        fnTypes := (registerFunctionType m₁.fnTypes ⟨params, .basic result⟩).2
        imports := m₁.imports ++ [⟨"env", cName,
          (registerFunctionType m₁.fnTypes ⟨params, .basic result⟩).1,
          { name := cName, params, results := .basic result, locals := wasmVoid }⟩] } := by
  unfold wasmImportRuntimeFunctionImpl at h
  split at h
  · split at h
    · simp only [Option.some.injEq, Prod.mk.injEq] at h
      exact Or.inl h.2.symm
    · simp only [Option.bind_eq_bind, Option.pure_def, Option.bind_eq_some_iff] at h
      obtain ⟨⟨params, m₁⟩, htuple, result, -, h⟩ := h
      simp only [Option.some.injEq, Prod.mk.injEq] at h
      obtain ⟨components, hfits, heq⟩ := wasmStringToTuple_cases htuple
      exact Or.inr ⟨components, params, m₁, result, hfits, heq, h.2.symm⟩
  · contradiction

theorem Consistent.importRuntimeFunction {m m' : Module} (h : Consistent m) {cName : String}
    {sig : List Char} {fn : FnRef}
    (himport : wasmImportRuntimeFunctionImpl m cName sig = some (fn, m')) : Consistent m' := by
  rcases wasmImportRuntimeFunctionImpl_cases himport with
    rfl | ⟨components, params, m₁, result, hfits, htuple, rfl⟩
  · exact h
  · have h₁ : Consistent m₁ := by
      have := h.makeTuple hfits
      rwa [htuple] at this
    refine ⟨h₁.fits, fun imp himp => ?_, h₁.bodies⟩
    rcases List.mem_append.mp himp with hold | hnew
    · exact (h₁.registerFunctionType _).importTypes imp hold
    · rw [List.mem_singleton.mp hnew]
      exact registerFunctionType_get _ _

theorem Consistent.exportFunction {m : Module} (h : Consistent m) (fn : FnRef) :
    Consistent (wasmExportFunction m fn) := by
  cases fn with
  | imported i =>
    refine ⟨h.fits, fun imp himp => ?_, h.bodies⟩
    rcases mem_or_of_mem_modify himp with hold | ⟨old, hold, rfl⟩
    · exact h.importTypes imp hold
    · exact h.importTypes old hold
  | defined i =>
    refine ⟨h.fits, h.importTypes, fun fn hfn => ?_⟩
    rcases mem_or_of_mem_modify hfn with hold | ⟨old, hold, rfl⟩
    · exact h.bodies fn hold
    · exact h.bodies old hold

theorem Consistent.step {m m' : Module} (h : Consistent m) (hstep : Step m m') :
    Consistent m' := by
  cases hstep with
  | makeTuple components fits => exact h.makeTuple fits
  | registerFunctionType search => exact h.registerFunctionType search
  | importRuntimeFunction cName sig himport => exact h.importRuntimeFunction himport
  | addFunction params results locals body name =>
    refine ⟨h.fits, h.importTypes, fun fn hfn => ?_⟩
    rcases List.mem_append.mp hfn with hold | hnew
    · exact h.bodies fn hold
    · rw [List.mem_singleton.mp hnew]
      rfl
  | exportFunction fn => exact h.exportFunction fn

theorem prefix_wasmMakeTuple (m : Module) (components : List ValueType) :
    m.internedResultTypes <+: (wasmMakeTuple m components).2.internedResultTypes := by
  unfold wasmMakeTuple
  split
  · exact List.prefix_refl _
  · exact List.prefix_append _ _

theorem Step.interned_prefix {m m' : Module} (h : Step m m') :
    m.internedResultTypes <+: m'.internedResultTypes := by
  cases h with
  | makeTuple components => exact prefix_wasmMakeTuple m components
  | registerFunctionType | addFunction => exact List.prefix_refl _
  | importRuntimeFunction cName sig himport =>
    rcases wasmImportRuntimeFunctionImpl_cases himport with
      rfl | ⟨components, params, m₁, result, -, htuple, rfl⟩
    · exact List.prefix_refl _
    · have := prefix_wasmMakeTuple m components
      rwa [htuple] at this
  | exportFunction fn => cases fn <;> exact List.prefix_refl _

theorem wasmMakeTuple_get (m : Module) (components : List ValueType) : ∃ pointer,
    (wasmMakeTuple m components).1 = .tuple pointer ∧
      (wasmMakeTuple m components).2.internedResultTypes[pointer]? = some components := by
  unfold wasmMakeTuple
  split
  · rename_i i hi
    obtain ⟨hlt, heq, -⟩ := List.findIdx?_eq_some_iff_getElem.mp hi
    exact ⟨i, rfl, by rw [List.getElem?_eq_getElem hlt, of_decide_eq_true heq]⟩
  · exact ⟨_, rfl, by simp⟩

/-- A tuple has the components it was made of, whatever is built behind it. -/
theorem valTypes_of_run {m m' : Module} {components : List ValueType}
    (h : Relation.ReflTransGen Step (wasmMakeTuple m components).2 m') :
    m'.valTypes (wasmMakeTuple m components).1 = components.filterMap ValueType.valType := by
  obtain ⟨pointer, htype, hget⟩ := wasmMakeTuple_get m components
  have hstart : (wasmMakeTuple m components).2.internedResultTypes <+: m'.internedResultTypes := by
    induction h with
    | refl => exact List.prefix_refl _
    | tail _ hstep ih => exact ih.trans hstep.interned_prefix
  rw [htype, Module.valTypes, List.getD_eq_getElem?_getD, getElem?_of_prefix hstart hget]
  rfl

variable {m : Module}

/-- The functions with the indices from `k` on. -/
def numbered (fns : List WasmFunction) (k : Nat) : List WasmFunction :=
  (fns.zipIdx k).map fun p => { p.1 with myIndex := p.2 }

/-- Own functions come behind the imported ones. -/
def Module.funcIndex (module : Module) : FnRef → Nat
  | .imported i => i
  | .defined i => module.imports.length + i

end BJvm.WasmUtils
